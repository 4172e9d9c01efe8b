/-
  OpenJfx.Network.CookieStore.Invariant

  The representation invariant of the cookie store, over every run and clock.  A loop over a
  bucket keeps some cookies and counts down for the others (`sweep_spec`).  In the global purge
  the queue holds exactly the stored cookies, so it cannot run empty before the counter is below
  the threshold.
-/

import OpenJfx.Network.CookieStore.Basic

namespace OpenJfx.Network

open List Cookie Bucket

variable {domain : Text} {b : Bucket} {c : Cookie} {s s' s₁ : CookieStore} {queue : List Cookie}

/-! ## Buckets -/

/-- The cookies of a bucket have its domain and differ from each other. -/
structure Bucket.Ok (domain : Text) (b : Bucket) : Prop where
  domain_eq : ∀ c ∈ b, c.domain = domain
  distinct : (b.map key).Nodup

theorem Bucket.Ok.nil (domain : Text) : Bucket.Ok domain [] :=
  ⟨fun _ hc => (not_mem_nil hc).elim, nodup_nil⟩

theorem Bucket.Ok.sublist {b' : Bucket} (h : Bucket.Ok domain b)
    (hsub : b'.Sublist b) : Bucket.Ok domain b' :=
  ⟨fun c hc => h.domain_eq c (hsub.subset hc), h.distinct.sublist (hsub.map _)⟩

theorem Bucket.remove_sublist (b : Bucket) (c : Cookie) : (remove b c).Sublist b := eraseP_sublist

theorem Bucket.remove_perm (hb : (b.map key).Nodup) (hc : c ∈ b) : b.Perm (c :: remove b c) := by
  induction b with
  | nil => cases hc
  | cons c' b ih =>
    obtain ⟨hnot, hb⟩ := nodup_cons.mp hb
    rw [remove, eraseP_cons]
    by_cases hkey : c'.key = c.key
    · have heq : c = c' := by
        rcases mem_cons.mp hc with heq | hmem
        · exact heq
        · exact absurd (mem_map.mpr ⟨c, hmem, hkey.symm⟩) hnot
      rw [heq]
      simp
    · have hmem : c ∈ b := by
        rcases mem_cons.mp hc with heq | hmem
        · exact absurd (congrArg key heq.symm) hkey
        · exact hmem
      simp only [hkey, decide_false]
      exact ((ih hb hmem).cons c').trans (List.Perm.swap _ _ _)

theorem Bucket.get_some {stored : Cookie} (h : Bucket.get b c = some stored) :
    stored ∈ b ∧ stored.key = c.key := by
  have hkey := find?_some h
  exact ⟨mem_of_find?_eq_some h, of_decide_eq_true hkey⟩

theorem Bucket.get_none (h : Bucket.get b c = none) :
    c.key ∉ b.map key := by
  intro hmem
  obtain ⟨c', hc', hkey⟩ := mem_map.mp hmem
  have := find?_eq_none.mp h c' hc'
  simp [hkey] at this

theorem Bucket.remove_of_get_none (h : Bucket.get b c = none) :
    remove b c = b := by
  apply eraseP_of_forall_not
  intro c' hc'
  exact find?_eq_none.mp h c' hc'

theorem Bucket.put_of_get_none (h : Bucket.get b c = none) :
    Bucket.put b c = b ++ [c] := by
  have hnot := get_none h
  clear h
  induction b with
  | nil => rfl
  | cons c' b ih =>
    rw [map_cons, mem_cons, not_or] at hnot
    rw [Bucket.put, if_neg fun heq => hnot.1 heq.symm, ih hnot.2]
    rfl

theorem Bucket.keys_put_of_get_some {stored : Cookie} (h : Bucket.get b c = some stored) :
    (Bucket.put b c).map key = b.map key := by
  have hmem : c.key ∈ b.map key := mem_map.mpr ⟨stored, get_some h⟩
  clear h
  induction b with
  | nil => cases hmem
  | cons c' b ih =>
    rw [Bucket.put]
    split
    · next hkey => rw [map_cons, map_cons, hkey]
    · next hkey =>
      rcases mem_cons.mp hmem with heq | hmem
      · exact absurd heq.symm hkey
      · rw [map_cons, map_cons, ih hmem]

theorem Bucket.Ok.put (h : Bucket.Ok c.domain b) :
    Bucket.Ok c.domain (Bucket.put b c) := by
  cases hget : Bucket.get b c with
  | none =>
    rw [put_of_get_none hget]
    constructor
    · intro c' hc'
      rcases mem_append.mp hc' with hc' | hc'
      · exact h.domain_eq c' hc'
      · rw [mem_singleton.mp hc']
    · rw [map_append]
      exact List.Nodup.append h.distinct (nodup_singleton _) (by simpa using get_none hget)
  | some stored =>
    have hkeys := keys_put_of_get_some hget
    constructor
    · intro c' hc'
      have hmem : c'.key ∈ b.map key := hkeys ▸ mem_map_of_mem hc'
      obtain ⟨c'', hc'', heq⟩ := mem_map.mp hmem
      have hdomain : c'.domain = c''.domain :=
        congrArg (fun k : Text × Text × Option Text => k.2.1) heq.symm
      rw [hdomain]
      exact h.domain_eq c'' hc''
    · rw [hkeys]
      exact h.distinct

/-! ## The invariant -/

variable {queue₁ : List Cookie}

namespace CookieStore

variable {clock : Nat → Int} {lib : Library}

/-- Each with its domain, and the cookies counted. -/
structure Consistent (s : CookieStore) : Prop where
  count : s.totalCount = s.cookies.length
  domains : (s.buckets.map Prod.fst).Nodup
  bucket_ok : ∀ e ∈ s.buckets, Bucket.Ok e.1 e.2

/-- No bucket is too large. -/
def Small (s : CookieStore) : Prop := ∀ e ∈ s.buckets, e.2.length ≤ maxBucketSize

/-- The representation invariant. -/
structure Inv (s : CookieStore) : Prop where
  consistent : s.Consistent
  small : s.Small
  bounded : s.totalCount ≤ totalCountUpperThreshold

theorem bucket_mem (h : s.bucket domain = some b) : (domain, b) ∈ s.buckets := mem_of_lookup h

theorem Consistent.bucketOk (h : s.Consistent) (domain : Text) :
    Bucket.Ok domain ((s.bucket domain).getD []) := by
  cases hb : s.bucket domain with
  | none => exact .nil domain
  | some b => exact h.bucket_ok _ (bucket_mem hb)

theorem Small.bucket (h : s.Small) (domain : Text) :
    ((s.bucket domain).getD []).length ≤ maxBucketSize := by
  cases hb : s.bucket domain with
  | none => exact Nat.zero_le _
  | some b => exact h _ (bucket_mem hb)

theorem cookies_setBucket (s : CookieStore) (domain : Text) (b : Bucket) :
    ((s.setBucket domain b).cookies ++ (s.bucket domain).getD []).Perm (s.cookies ++ b) :=
  flatMap_modifyOr_const (g := id) rfl

theorem length_setBucket (s : CookieStore) (domain : Text) (b : Bucket) :
    (s.setBucket domain b).cookies.length + ((s.bucket domain).getD []).length =
      s.cookies.length + b.length := by
  have h := (s.cookies_setBucket domain b).length_eq
  rwa [length_append, length_append] at h

theorem Consistent.setBucket (h : s.Consistent)
    (hb : Bucket.Ok domain b) (hbkts : s'.buckets = (s.setBucket domain b).buckets)
    (hcnt : s'.totalCount + ((s.bucket domain).getD []).length = s.totalCount + b.length) :
    s'.Consistent where
  count := by
    have hlen := s.length_setBucket domain b
    have heq : s'.cookies = (s.setBucket domain b).cookies := by
      unfold cookies
      rw [hbkts]
    rw [heq]
    have := h.count
    omega
  domains := by
    rw [hbkts]
    exact nodup_keys_modifyOr h.domains
  bucket_ok := by
    rw [hbkts]
    exact forall_modifyOr (P := Bucket.Ok) h.bucket_ok (fun _ _ => hb) (.nil domain)

theorem Small.setBucket (h : s.Small)
    (hb : b.length ≤ maxBucketSize) (hbkts : s'.buckets = (s.setBucket domain b).buckets) :
    s'.Small := by
  unfold Small
  rw [hbkts]
  exact forall_modifyOr (P := fun (_ : Text) (b : Bucket) => b.length ≤ maxBucketSize) h (fun _ _ => hb)
    (Nat.zero_le _)

/-! ## The loop over a bucket -/

theorem sweep_spec {α : Type} {message : Message} {visit : α → Cookie → Except Failure α}
    {kept : Bucket} {a : α} {r : Except Failure α}
    (h : sweep clock message visit b s a = (kept, s₁, r)) :
    kept.Sublist b ∧ s₁.buckets = s.buckets ∧
      s₁.totalCount + b.length = s.totalCount + kept.length ∧
      ∀ a1, r = .ok a1 → kept.foldlM visit a = .ok a1 := by
  induction b generalizing s a kept s₁ r with
  | nil =>
    cases h
    exact ⟨List.Sublist.refl _, rfl, rfl, fun a1 h => h⟩
  | cons c b ih =>
    rw [sweep] at h
    split at h
    · obtain ⟨hsub, hbkts, hcnt, hfold⟩ := ih h
      refine ⟨hsub.cons c, hbkts, ?_, hfold⟩
      have : (s.read.uncount message c).totalCount = s.totalCount - 1 := rfl
      rw [length_cons]
      omega
    · split at h
      · cases h
        exact ⟨List.Sublist.refl _, rfl, rfl, fun a1 h => by cases h⟩
      · next a2 hvisit =>
        cases hrest : sweep clock message visit b s.read a2 with
        | mk kept1 rest =>
          obtain ⟨s2, r2⟩ := rest
          rw [hrest] at h
          cases h
          obtain ⟨hsub, hbkts, hcnt, hfold⟩ := ih hrest
          refine ⟨hsub.cons_cons c, hbkts, ?_, ?_⟩
          · have : s.read.totalCount = s.totalCount := rfl
            rw [length_cons, length_cons]
            omega
          · intro a1 hr
            rw [foldlM_cons, hvisit]
            exact hfold a1 hr

theorem sweep_ok {α : Type} {message : Message} {visit : α → Cookie → Except Failure α}
    (hvisit : ∀ a c, ∃ a1, visit a c = .ok a1) (b : Bucket) (s : CookieStore) (a : α) :
    ∃ kept s₁ a1, sweep clock message visit b s a = (kept, s₁, .ok a1) := by
  induction b generalizing s a with
  | nil => exact ⟨[], s, a, rfl⟩
  | cons c b ih =>
    rw [sweep]
    split
    · exact ih _ _
    · obtain ⟨a2, ha2⟩ := hvisit a c
      obtain ⟨kept, s₁, a1, hrest⟩ := ih s.read a2
      rw [ha2]
      simp only [hrest]
      exact ⟨_, _, _, rfl⟩

/-! ## Queries -/

/-- A bucket is replaced by a part of it, and the counter follows. -/
theorem Inv.shrink (h : s.Inv) {kept : Bucket}
    (hb : s.bucket domain = some b) (hsub : kept.Sublist b)
    (hbkts : s'.buckets = (s.setBucket domain kept).buckets)
    (hcnt : s'.totalCount + b.length = s.totalCount + kept.length) : s'.Inv := by
  have hmem := bucket_mem hb
  have hlen : kept.length ≤ b.length := hsub.length_le
  have hbounded := h.bounded
  refine ⟨h.consistent.setBucket ((h.consistent.bucket_ok _ hmem).sublist hsub) hbkts ?_,
    h.small.setBucket (Nat.le_trans hlen (h.small _ hmem)) hbkts, by omega⟩
  rw [hb, Option.getD_some]
  exact hcnt

theorem getCookie_inv (h : s.Inv) (c : Cookie) : (s.getCookie clock c).2.Inv := by
  unfold getCookie
  split
  · exact h
  · next b hb =>
    split
    · exact h
    · next stored hsto =>
      split
      · obtain ⟨hmem, -⟩ := get_some hsto
        have hdistinct : (b.map key).Nodup := (h.consistent.bucket_ok _ (bucket_mem hb)).distinct
        have hlen := (remove_perm hdistinct hmem).length_eq
        rw [length_cons] at hlen
        refine h.shrink hb (remove_sublist b stored) rfl ?_
        show s.totalCount - 1 + (b.length : Int) = s.totalCount + (remove b stored).length
        omega
      · exact ⟨⟨h.consistent.count, h.consistent.domains, h.consistent.bucket_ok⟩, h.small,
          h.bounded⟩

theorem find_inv (h : s.Inv) (hb : s.bucket domain = some b) (hostname : Text) (path : Option Text)
    (secureProtocol httpApi : Bool) (list : List Cookie) :
    (s.find clock lib domain b hostname path secureProtocol httpApi list).1.Inv := by
  unfold find
  cases hsweep : sweep clock .expiredRemovedByFind
      (collect lib hostname path secureProtocol httpApi) b s list with
  | mk kept rest =>
    obtain ⟨s₁, r⟩ := rest
    obtain ⟨hsub, hbkts, hcnt, -⟩ := sweep_spec hsweep
    refine h.shrink hb hsub ?_ hcnt
    show modifyOr domain [] (fun _ => kept) s₁.buckets = modifyOr domain [] (fun _ => kept) s.buckets
    rw [hbkts]

theorem findIn_inv {s : CookieStore} (h : s.Inv) (domain hostname : Text) (path : Option Text)
    (secureProtocol httpApi : Bool) (list : List Cookie) :
    (s.findIn clock lib domain hostname path secureProtocol httpApi list).1.Inv := by
  unfold findIn
  split
  · exact h
  · next b hb => exact find_inv h hb hostname path secureProtocol httpApi list

theorem findAll_inv {s : CookieStore} (h : s.Inv) (hostname : Text) (path : Option Text)
    (secureProtocol httpApi : Bool) (fuel : Nat) (domain : Text) (list : List Cookie) :
    (s.findAll clock lib hostname path secureProtocol httpApi fuel domain list).1.Inv := by
  induction fuel generalizing s domain list with
  | zero => exact h
  | succ fuel ih =>
    have h1 := @findIn_inv clock lib s h domain hostname path secureProtocol httpApi list
    rw [findAll]
    split
    · exact h
    · split
      · next s₁ failure heq =>
        rw [heq] at h1
        exact h1
      · next s₁ list1 heq =>
        rw [heq] at h1
        split
        · exact h1
        · exact ih h1 _ _

theorem touch_key (found : List Cookie) (time : Int) (c : Cookie) :
    (touch found time c).key = c.key := by
  unfold touch
  split <;> rfl

theorem Inv.touch (h : s.Inv) {f : Cookie → Cookie} (hf : ∀ c, (f c).key = c.key)
    (hbkts : s'.buckets = s.buckets.map fun e => (e.1, e.2.map f))
    (hcnt : s'.totalCount = s.totalCount) : s'.Inv := by
  have hdomain : ∀ c, (f c).domain = c.domain := fun c =>
    congrArg (fun k : Text × Text × Option Text => k.2.1) (hf c)
  refine ⟨⟨?_, ?_, ?_⟩, ?_, ?_⟩
  · rw [hcnt, h.consistent.count]
    unfold cookies
    rw [hbkts, length_flatMap, length_flatMap, map_map]
    congr 2
    apply map_congr_left
    intro e _
    exact (length_map f).symm
  · rw [hbkts, map_map]
    exact h.consistent.domains
  · rw [hbkts]
    intro e he
    obtain ⟨e0, he0, rfl⟩ := mem_map.mp he
    have hok := h.consistent.bucket_ok e0 he0
    constructor
    · intro c hc
      obtain ⟨c0, hc0, rfl⟩ := mem_map.mp hc
      rw [hdomain]
      exact hok.domain_eq c0 hc0
    · have hkeys : (e0.2.map f).map key = e0.2.map key := by
        rw [map_map]
        exact map_congr_left fun c _ => hf c
      show ((e0.2.map f).map key).Nodup
      rw [hkeys]
      exact hok.distinct
  · unfold Small
    rw [hbkts]
    intro e he
    obtain ⟨e0, he0, rfl⟩ := mem_map.mp he
    show (e0.2.map f).length ≤ maxBucketSize
    rw [length_map]
    exact h.small e0 he0
  · rw [hcnt]
    exact h.bounded

theorem get_inv (h : s.Inv) (hostname : Text) (path : Option Text) (secureProtocol httpApi : Bool) :
    (s.get clock lib hostname path secureProtocol httpApi).1.Inv := by
  have hfind := @findAll_inv clock lib s h hostname path secureProtocol httpApi
    (hostname.length + 1) hostname []
  unfold get
  split
  · next s₁ failure heq =>
    rw [heq] at hfind
    exact hfind
  · next s₁ list heq =>
    rw [heq] at hfind
    exact hfind.touch (touch_key _ _) rfl rfl

/-! ## Purges -/

theorem foldlM_earlier {a e : Option Cookie} (h : b.foldlM earlier a = .ok e) :
    (e = none → a = none ∧ b = []) ∧ ∀ c, e = some c → c ∈ b ∨ a = some c := by
  induction b generalizing a with
  | nil =>
    cases h
    exact ⟨fun he => ⟨he, rfl⟩, fun c hc => Or.inr hc⟩
  | cons c b ih =>
    rw [foldlM_cons] at h
    have hstep : ∃ c', earlier a c = .ok (some c') ∧ (c' = c ∨ a = some c') := by
      cases a with
      | none => exact ⟨c, rfl, Or.inl rfl⟩
      | some e' =>
        rw [earlier]
        split
        · exact ⟨c, rfl, Or.inl rfl⟩
        · exact ⟨e', rfl, Or.inr rfl⟩
    obtain ⟨c', hc', hor⟩ := hstep
    rw [hc'] at h
    obtain ⟨hnone, hsome⟩ := ih h
    refine ⟨fun he => absurd (hnone he).1 (by simp), fun x hx => ?_⟩
    rcases hsome x hx with hmem | heq
    · exact Or.inl (.tail _ hmem)
    · cases heq
      rcases hor with rfl | ha
      · exact Or.inl mem_cons_self
      · exact Or.inr ha

theorem earlier_ok (a : Option Cookie) (c : Cookie) : ∃ a1, earlier a c = .ok a1 := by
  cases a with
  | none => exact ⟨_, rfl⟩
  | some e =>
    rw [earlier]
    split <;> exact ⟨_, rfl⟩

theorem purgeBucket_spec {s : CookieStore} {domain : Text} {b : Bucket} (hok : Bucket.Ok domain b)
    (hlen : b.length ≤ maxBucketSize + 1) :
    ∃ b', Bucket.Ok domain b' ∧ b'.length ≤ maxBucketSize ∧
      (s.purgeBucket clock domain b).buckets = (s.setBucket domain b').buckets ∧
      (s.purgeBucket clock domain b).totalCount + b.length = s.totalCount + b'.length := by
  obtain ⟨kept, s₁, earliest, hsweep⟩ := @sweep_ok clock _ .expiredRemoved _ earlier_ok b s none
  obtain ⟨hsub, hbkts, hcnt, hfold⟩ := sweep_spec hsweep
  have hset : ∀ b', (s₁.setBucket domain b').buckets = (s.setBucket domain b').buckets := by
    intro b'
    unfold setBucket
    rw [hbkts]
  obtain ⟨hnone, hsome⟩ := foldlM_earlier (hfold _ rfl)
  unfold purgeBucket
  rw [hsweep]
  cases earliest with
  | none =>
    obtain ⟨-, rfl⟩ := hnone rfl
    exact ⟨[], .nil domain, Nat.zero_le _, hset [], hcnt⟩
  | some e =>
    have hmem : e ∈ kept := (hsome e rfl).resolve_right (by simp)
    have hkept := hok.sublist hsub
    have hremove := (remove_perm hkept.distinct hmem).length_eq
    rw [length_cons] at hremove
    dsimp only
    split
    · refine ⟨remove kept e, hkept.sublist (remove_sublist kept e), ?_, hset _, ?_⟩
      · have := hsub.length_le
        omega
      · show s₁.totalCount - 1 + (b.length : Int) = s.totalCount + (remove kept e).length
        omega
    · next hfits => exact ⟨kept, hkept, by omega, hset kept, hcnt⟩

theorem foldlM_enqueue (h : b.foldlM enqueue queue = .ok queue₁) : queue₁.Perm (b ++ queue) := by
  induction b generalizing queue with
  | nil =>
    cases h
    exact List.Perm.refl _
  | cons c b ih =>
    rw [foldlM_cons] at h
    have hadd : queue₁.Perm (b ++ PriorityQueue.add compareRemoval queue c) := ih h
    apply hadd.trans
    apply ((PriorityQueue.add_perm queue c).append_left b).trans
    exact perm_middle

/-- Every bucket is replaced by a part of it. -/
def Shrinks (m m' : List (Text × Bucket)) : Prop :=
  List.Forall₂ (fun e e' => e'.1 = e.1 ∧ e'.2.Sublist e.2) m m'

theorem Shrinks.keys {m m' : List (Text × Bucket)} (h : Shrinks m m') :
    m'.map Prod.fst = m.map Prod.fst := by
  induction h with
  | nil => rfl
  | cons he _ ih => rw [map_cons, map_cons, he.1, ih]

theorem Shrinks.mem {m m' : List (Text × Bucket)} (h : Shrinks m m') {e' : Text × Bucket}
    (he' : e' ∈ m') : ∃ e ∈ m, e'.1 = e.1 ∧ e'.2.Sublist e.2 := by
  induction h with
  | nil => cases he'
  | cons he _ ih =>
    rcases mem_cons.mp he' with rfl | he'
    · exact ⟨_, .head _, he⟩
    · obtain ⟨e, hmem, hrel⟩ := ih he'
      exact ⟨e, .tail _ hmem, hrel⟩

theorem sweepAll_spec {m m1 : List (Text × Bucket)} (h : sweepAll clock m s queue =
    (m1, s₁, queue₁)) :
    Shrinks m m1 ∧ queue₁.Perm (m1.flatMap Prod.snd ++ queue) ∧
      s₁.totalCount + (m.flatMap Prod.snd).length =
        s.totalCount + (m1.flatMap Prod.snd).length := by
  induction m generalizing s queue m1 s₁ queue₁ with
  | nil =>
    cases h
    exact ⟨.nil, List.Perm.refl _, rfl⟩
  | cons e m ih =>
    obtain ⟨domain, b⟩ := e
    obtain ⟨kept, s2, queue2, hsweep⟩ := @sweep_ok clock _ .expiredRemoved
      enqueue (fun _ _ => ⟨_, rfl⟩) b s queue
    obtain ⟨hsub, -, hcnt, hfold⟩ := sweep_spec hsweep
    have hq := foldlM_enqueue (hfold _ rfl)
    rw [sweepAll] at h
    simp only [hsweep, Except.toOption, Option.getD_some] at h
    cases hrest : sweepAll clock m s2 queue2 with
    | mk rest1 tail =>
      obtain ⟨s3, queue3⟩ := tail
      rw [hrest] at h
      cases h
      obtain ⟨hshrinks, hperm, htotal⟩ := ih hrest
      refine ⟨.cons ⟨rfl, hsub⟩ hshrinks, ?_, ?_⟩
      · apply hperm.trans
        rw [flatMap_cons, append_assoc]
        apply (hq.append_left _).trans
        rw [← append_assoc, ← append_assoc]
        exact perm_append_comm.append_right _
      · simp only [flatMap_cons, length_append]
        push_cast
        omega

theorem Consistent.take (h : s.Consistent) (hc : c ∈ s.cookies) (message : Message) :
    ∃ b, s.bucket c.domain = some b ∧ b.length = (remove b c).length + 1 ∧
      ((s.setBucket c.domain (remove b c)).uncount message c).Consistent ∧
      s.cookies.Perm (c :: (s.setBucket c.domain (remove b c)).cookies) := by
  obtain ⟨⟨domain, b⟩, he, hcb⟩ := mem_flatMap.mp hc
  have hok : Bucket.Ok domain b := h.bucket_ok _ he
  obtain rfl : c.domain = domain := hok.domain_eq c hcb
  have hb : s.bucket c.domain = some b := lookup_of_mem h.domains he
  have hspl := remove_perm hok.distinct hcb
  have hlen := hspl.length_eq
  rw [length_cons] at hlen
  refine ⟨b, hb, hlen, ?_, ?_⟩
  · refine h.setBucket (hok.sublist (remove_sublist b c)) rfl ?_
    rw [hb, Option.getD_some]
    show s.totalCount - 1 + (b.length : Int) = s.totalCount + (remove b c).length
    omega
  · have hset := s.cookies_setBucket c.domain (remove b c)
    rw [hb, Option.getD_some] at hset
    have h1 : (s.cookies ++ remove b c).Perm
        (c :: (s.setBucket c.domain (remove b c)).cookies ++ remove b c) :=
      (hset.symm.trans (hspl.append_left _)).trans perm_middle
    exact (perm_append_right_iff _).mp h1

theorem purgeLoop_spec (h : s.Consistent) (hsmall : s.Small) (hq : queue.Perm s.cookies) :
    ∃ s', purgeLoop queue.length queue s = some s' ∧ s'.Consistent ∧ s'.Small ∧
      s'.totalCount ≤ totalCountLowerThreshold := by
  generalize hfuel : queue.length = fuel
  induction fuel generalizing queue s with
  | zero =>
    have hnil := eq_nil_of_length_eq_zero hfuel
    have hcnt := h.count
    rw [← hq.length_eq, hnil] at hcnt
    have hle : ¬ s.totalCount > totalCountLowerThreshold := by
      rw [hcnt]
      decide
    exact ⟨s, if_neg hle, h, hsmall, Int.not_lt.mp hle⟩
  | succ fuel ih =>
    rw [purgeLoop]
    split
    · cases hremove : PriorityQueue.remove compareRemoval queue with
      | none =>
        rw [PriorityQueue.remove_eq_none_iff] at hremove
        rw [hremove] at hfuel
        cases hfuel
      | some p =>
        obtain ⟨c, queue₁⟩ := p
        have hperm := PriorityQueue.remove_perm hremove
        have hmem : c ∈ s.cookies := (hperm.symm.trans hq).subset mem_cons_self
        obtain ⟨b, hb, hlen, hcons, hspl⟩ := h.take hmem .excessRemoved
        simp only [hb]
        refine ih hcons ?_ ((hperm.symm.trans hq).trans hspl).cons_inv ?_
        · refine hsmall.setBucket ?_ rfl
          have := hsmall _ (bucket_mem hb)
          dsimp only at this
          omega
        · have := hperm.length_eq
          rw [length_cons] at this
          omega
    · next hle => exact ⟨s, rfl, h, hsmall, Int.not_lt.mp hle⟩

theorem cookies_visited (s : CookieStore) : (s.visited lib).cookies.Perm s.cookies :=
  (lib.entries_perm s.readings s.buckets).flatMap_right _

theorem Consistent.visited (h : s.Consistent) : (s.visited lib).Consistent where
  count := by
    rw [(cookies_visited s).length_eq]
    exact h.count
  domains := ((lib.entries_perm s.readings s.buckets).map Prod.fst).nodup_iff.mpr h.domains
  bucket_ok e he := h.bucket_ok e ((lib.entries_perm s.readings s.buckets).mem_iff.mp he)

theorem Consistent.sweepAll {m1 : List (Text × Bucket)}
    (h : s.Consistent) (hcount : s'.totalCount = s.totalCount)
    (hsweep : CookieStore.sweepAll clock s.buckets s' [] = (m1, s₁, queue)) :
    ({ s₁ with buckets := m1 } : CookieStore).Consistent := by
  obtain ⟨hshrinks, -, hcnt⟩ := sweepAll_spec hsweep
  refine ⟨?_, ?_, ?_⟩
  · have hs := h.count
    unfold cookies at hs
    show s₁.totalCount = (m1.flatMap Prod.snd).length
    omega
  · rw [hshrinks.keys]
    exact h.domains
  · intro e' he'
    obtain ⟨e, he, hkey, hsub⟩ := hshrinks.mem he'
    rw [hkey]
    exact (h.bucket_ok e he).sublist hsub

theorem purge_spec (h : s.Consistent) (hsmall : s.Small) :
    ∃ s', s.purge clock lib = some s' ∧ s'.Inv := by
  cases hsweep : CookieStore.sweepAll clock (s.visited lib).buckets s [] with
  | mk m1 tail =>
    obtain ⟨s₁, queue⟩ := tail
    obtain ⟨hshrinks, hq, -⟩ := sweepAll_spec hsweep
    rw [append_nil] at hq
    have hsmall1 : ({ s₁ with buckets := m1 } : CookieStore).Small := by
      intro e' he'
      obtain ⟨e, he, -, hsub⟩ := hshrinks.mem he'
      exact Nat.le_trans hsub.length_le
        (hsmall e ((lib.entries_perm s.readings s.buckets).mem_iff.mp he))
    obtain ⟨s', hloop, hc, hs, hle⟩ := purgeLoop_spec (h.visited.sweepAll (show s.totalCount = _ from rfl) hsweep) hsmall1 hq
    refine ⟨s', ?_, hc, hs, Int.le_trans hle (by decide)⟩
    unfold purge
    rw [hsweep]
    exact hloop

/-! ## Storing -/

theorem put_inv (h : s.Inv) (c : Cookie) : ∃ s', s.put clock lib c = some s' ∧ s'.Inv := by
  have hok := h.consistent.bucketOk c.domain
  have hsmall := h.small.bucket c.domain
  have hbounded := h.bounded
  unfold put
  dsimp only
  generalize hb : (s.bucket c.domain).getD [] = b at hok hsmall ⊢
  split
  · -- the cookie has expired: it is removed if it is there
    cases hget : Bucket.get b c with
    | none =>
      rw [remove_of_get_none hget]
      refine ⟨_, rfl, h.consistent.setBucket hok rfl ?_, h.small.setBucket hsmall rfl, hbounded⟩
      rw [hb]
      rfl
    | some stored =>
      obtain ⟨hmem, hkey⟩ := get_some hget
      have hremove : remove b c = remove b stored := by
        unfold remove
        rw [hkey]
      have hlen := (remove_perm hok.distinct hmem).length_eq
      rw [length_cons] at hlen
      rw [hremove]
      refine ⟨_, rfl, h.consistent.setBucket (hok.sublist (remove_sublist b stored)) rfl ?_,
        h.small.setBucket (by omega) rfl, ?_⟩
      · rw [hb]
        show s.totalCount - 1 + (b.length : Int) = s.totalCount + (remove b stored).length
        omega
      · show s.totalCount - 1 ≤ totalCountUpperThreshold
        omega
  · cases hget : Bucket.get b c with
    | some stored =>
      have hlen : (Bucket.put b c).length = b.length := by
        rw [← length_map key, keys_put_of_get_some hget, length_map]
      refine ⟨_, rfl, h.consistent.setBucket hok.put rfl ?_, h.small.setBucket (by omega) rfl,
        hbounded⟩
      rw [hb]
      show s.totalCount + (b.length : Int) = s.totalCount + (Bucket.put b c).length
      omega
    | none =>
      have hlen : (Bucket.put b c).length = b.length + 1 := by
        rw [put_of_get_none hget, length_append, length_singleton]
      simp only [Option.isSome_none, Bool.false_eq_true, if_false]
      generalize hs2 : ({ (s.read.setBucket c.domain (Bucket.put b c)).note .cookieAdded c with
        totalCount := s.totalCount + 1 } : CookieStore) = s2
      have hbuckets2 : s2.buckets = (s.setBucket c.domain (Bucket.put b c)).buckets := by
        rw [← hs2]
        rfl
      have hcount2 : s2.totalCount = s.totalCount + 1 := by rw [← hs2]
      have hc2 : s2.Consistent := by
        refine h.consistent.setBucket hok.put hbuckets2 ?_
        rw [hb]
        omega
      have hbucket2 : s2.bucket c.domain = some (Bucket.put b c) := by
        unfold bucket valueAt
        rw [hbuckets2]
        exact (lookup_modifyOr c.domain c.domain [] (fun _ => Bucket.put b c) s.buckets).trans
          (if_pos rfl)
      -- after the purge of the bucket all the buckets are small
      have hpurged : ∃ s3, (if (Bucket.put b c).length > maxBucketSize
          then s2.purgeBucket clock c.domain (Bucket.put b c) else s2) = s3 ∧ s3.Consistent ∧
          s3.Small := by
        refine ⟨_, rfl, ?_⟩
        split
        · obtain ⟨b', hok', hsmall', hbkts, hcnt⟩ :=
            @purgeBucket_spec clock s2 _ _ hok.put (by omega)
          refine ⟨hc2.setBucket hok' hbkts ?_, ?_⟩
          · rw [hbucket2, Option.getD_some]
            exact hcnt
          · have hset : (s2.purgeBucket clock c.domain (Bucket.put b c)).buckets =
                (s.setBucket c.domain b').buckets := by
              rw [hbkts]
              unfold setBucket
              rw [hbuckets2]
              exact modifyOr_modifyOr _ _ _ _ _
            exact h.small.setBucket hsmall' hset
        · exact ⟨hc2, h.small.setBucket (by omega) hbuckets2⟩
      obtain ⟨s3, heq, hc3, hs3⟩ := hpurged
      unfold afterAdding
      dsimp only
      rw [heq]
      split
      · exact purge_spec hc3 hs3
      · next hle => exact ⟨s3, rfl, hc3, hs3, Int.not_lt.mp hle⟩

/-! ## Runs -/

/-- A call on the store. -/
inductive Call where
  | put (c : Cookie)
  | getCookie (c : Cookie)
  | get (hostname : Text) (path : Option Text) (secureProtocol httpApi : Bool)

/-- None when the queue of the global purge was empty. -/
def step (clock : Nat → Int) (lib : Library) (s : CookieStore) : Call → Option CookieStore
  | .put c => s.put clock lib c
  | .getCookie c => some (s.getCookie clock c).2
  | .get hostname path secureProtocol httpApi =>
    some (s.get clock lib hostname path secureProtocol httpApi).1

/-- The stores after each of the calls. -/
def run (clock : Nat → Int) (lib : Library) : CookieStore → List Call → Option (List CookieStore)
  | _, [] => some []
  | s, call :: calls => do
    let s₁ ← s.step clock lib call
    let rest ← run clock lib s₁ calls
    return s₁ :: rest

theorem step_inv {s : CookieStore} (h : s.Inv) (call : Call) :
    ∃ s', s.step clock lib call = some s' ∧ s'.Inv := by
  cases call with
  | put c => exact put_inv h c
  | getCookie c => exact ⟨_, rfl, getCookie_inv h c⟩
  | get hostname path secureProtocol httpApi =>
    exact ⟨_, rfl, get_inv h hostname path secureProtocol httpApi⟩

theorem run_inv {s : CookieStore} (h : s.Inv) (calls : List Call) :
    ∃ states, run clock lib s calls = some states ∧ states.length = calls.length ∧
      ∀ s' ∈ states, s'.Inv := by
  induction calls generalizing s with
  | nil => exact ⟨[], rfl, rfl, fun s' hs' => (not_mem_nil hs').elim⟩
  | cons call calls ih =>
    obtain ⟨s₁, hstep, h1⟩ := @step_inv clock lib s h call
    obtain ⟨states, hrun, hlen, hall⟩ := ih h1
    refine ⟨s₁ :: states, ?_, by rw [length_cons, length_cons, hlen], ?_⟩
    · simp only [run, hstep, hrun, Option.bind_eq_bind, Option.bind_some]
      rfl
    · intro s' hs'
      rcases mem_cons.mp hs' with rfl | hs'
      · exact h1
      · exact hall s' hs'

theorem inv_new : ({} : CookieStore).Inv := ⟨⟨rfl, nodup_nil, fun e he => (not_mem_nil he).elim⟩,
    fun e he => (not_mem_nil he).elim, by decide⟩

theorem Consistent.nodup_keys (h : s.Consistent) : (s.cookies.map key).Nodup := by
  unfold cookies
  obtain ⟨-, hdomains, hok⟩ := h
  generalize s.buckets = m at hdomains hok
  induction m with
  | nil => exact nodup_nil
  | cons e m ih =>
    obtain ⟨hnot, hdomains⟩ := nodup_cons.mp hdomains
    rw [flatMap_cons, map_append]
    refine List.Nodup.append (hok e mem_cons_self).distinct
      (ih hdomains fun e' he' => hok e' (mem_cons_of_mem _ he')) ?_
    intro k hk hk'
    obtain ⟨c, hc, rfl⟩ := mem_map.mp hk
    obtain ⟨c', hc', heq⟩ := mem_map.mp hk'
    obtain ⟨e', he', hmem⟩ := mem_flatMap.mp hc'
    have hdomain : c'.domain = c.domain := congrArg (fun k : Text × Text × Option Text => k.2.1) heq
    have he := (hok e mem_cons_self).domain_eq c hc
    have he'' := (hok e' (mem_cons_of_mem _ he')).domain_eq c' hmem
    apply hnot
    rw [← he, ← hdomain, he'']
    exact mem_map_of_mem he'

/-- In every run the queue of the global purge never runs empty; after every call the counter counts
    at most 4000 cookies, at most 50 a bucket, each in its domain's and no two the same. -/
theorem run_representation (clock : Nat → Int) (lib : Library) (calls : List Call) :
    ∃ states, run clock lib {} calls = some states ∧ states.length = calls.length ∧
      ∀ s ∈ states,
        s.totalCount = ((s.buckets.map fun e => e.2.length).sum : Nat) ∧ s.totalCount ≤ 4000 ∧
        (∀ e ∈ s.buckets, e.2.length ≤ 50) ∧
        (∀ domain b, s.bucket domain = some b → ∀ c ∈ b, c.domain = domain) ∧
        (∀ c ∈ s.cookies, ∃ b, s.bucket c.domain = some b ∧ c ∈ b) ∧
        (s.cookies.map key).Nodup := by
  obtain ⟨states, hrun, hlen, hall⟩ := @run_inv clock lib _ inv_new calls
  refine ⟨states, hrun, hlen, fun s hs => ?_⟩
  obtain ⟨hcons, hsmall, hbounded⟩ := hall s hs
  refine ⟨?_, hbounded, hsmall, ?_, ?_, hcons.nodup_keys⟩
  · rw [hcons.count]
    unfold cookies
    rw [length_flatMap]
  · intro domain b hb
    exact (hcons.bucket_ok _ (bucket_mem hb)).domain_eq
  · intro c hc
    obtain ⟨⟨domain, b⟩, he, hmem⟩ := mem_flatMap.mp hc
    obtain rfl : c.domain = domain := (hcons.bucket_ok _ he).domain_eq c hmem
    exact ⟨b, lookup_of_mem hcons.domains he, hmem⟩

end CookieStore

end OpenJfx.Network
