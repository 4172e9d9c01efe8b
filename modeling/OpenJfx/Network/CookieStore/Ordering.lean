/-
  OpenJfx.Network.CookieStore.Ordering

  The order in which `get` returns cookies, and in which the global purge removes
  them.

  Both go through comparators that narrow the difference of two times to an
  `int`.  They agree with the order of the times as long as the sign of the
  differences survives that.
-/

import OpenJfx.Network.CookieStore.Invariant
import Mathlib.Data.Int.Order.Basic
import Mathlib.Data.List.TakeWhile

namespace OpenJfx.Network

open List PriorityQueue Cookie

variable {s : CookieStore}

/-! ## Narrowed differences -/

/-- The sign of a `long` survives its conversion to an `int`. -/
structure KeepsSign (d : Int) : Prop where
  pos : 0 < ExtendedTime.toInt d ↔ 0 < d
  neg : ExtendedTime.toInt d < 0 ↔ d < 0

theorem keepsSign_of_lt {d : Int} (hlower : -(2 ^ 31) ≤ d) (hupper : d < 2 ^ 31) : KeepsSign d := by
  have hsame : ExtendedTime.toInt d = d := by
    rw [ExtendedTime.toInt]
    exact Int.bmod_eq_of_le (by omega) (by omega)
  constructor <;> rw [hsame]

namespace Cookie

def pathLength (c : Cookie) : Nat := (c.path.getD []).length

/-- Longer paths first, then earlier creation times. -/
def Before (c₁ c₂ : Cookie) : Prop :=
  c₂.pathLength < c₁.pathLength ∨ c₁.pathLength = c₂.pathLength ∧
    (c₁.creationTime.baseTime < c₂.creationTime.baseTime ∨
      c₁.creationTime.baseTime = c₂.creationTime.baseTime ∧
        c₁.creationTime.subtime ≤ c₂.creationTime.subtime)

instance (c₁ c₂ : Cookie) : Decidable (Before c₁ c₂) :=
  inferInstanceAs (Decidable (_ ∨ _))

theorem Before.trans {c1 c2 c3 : Cookie} (h1 : Before c1 c2) (h2 : Before c2 c3) :
    Before c1 c3 := by
  unfold Before at *
  omega

theorem Before.total (c1 c2 : Cookie) : Before c1 c2 ∨ Before c2 c1 := by
  unfold Before
  omega

/-- The two cookies are compared by times that are not too far apart. -/
def Comparable (c₁ c₂ : Cookie) : Prop :=
  c₁.pathLength = c₂.pathLength →
    KeepsSign (c₁.creationTime.baseTime - c₂.creationTime.baseTime)

end Cookie

namespace CookieStore

open Cookie

theorem compareGet_le_iff {c1 c2 : Cookie} (h : Comparable c1 c2) :
    compareGet c1 c2 ≤ 0 ↔ Before c1 c2 := by
  unfold compareGet Before
  show (if ((c2.pathLength : Int) - c1.pathLength) ≠ 0 then
    ((c2.pathLength : Int) - c1.pathLength) else _) ≤ 0 ↔ _
  split
  · omega
  · next hlen =>
    have heq : c1.pathLength = c2.pathLength := by omega
    have hkeeps := h heq
    obtain ⟨hpos, hneg⟩ := hkeeps
    rw [ExtendedTime.compareTo]
    split <;> omega

theorem mergeSort_before {l : List Cookie} (h : ∀ c1 ∈ l, ∀ c2 ∈ l, Comparable c1 c2) :
    (l.mergeSort fun c1 c2 => decide (compareGet c1 c2 ≤ 0)).Pairwise Before := by
  have hsame := @map_mergeSort _ _ (fun c1 c2 => decide (compareGet c1 c2 ≤ 0))
    (fun c1 c2 => decide (Before c1 c2)) id l fun c1 h1 c2 h2 =>
      decide_eq_decide.mpr (compareGet_le_iff (h c1 h1 c2 h2))
  rw [map_id, map_id] at hsame
  rw [hsame]
  have hsort := @pairwise_mergeSort _ (fun c1 c2 => decide (Before c1 c2))
    (fun a b c hab hbc => decide_eq_true ((of_decide_eq_true hab).trans (of_decide_eq_true hbc)))
    (fun a b => by simpa using Before.total a b) l
  exact hsort.imp of_decide_eq_true

theorem agrees_compareRemoval {l : List Cookie}
    (h : ∀ c1 ∈ l, ∀ c2 ∈ l, KeepsSign (c1.lastAccessTime - c2.lastAccessTime)) :
    PriorityQueue.Agrees compareRemoval lastAccessTime l := by
  intro c1 h1 c2 h2
  obtain ⟨hpos, hneg⟩ := h c1 h1 c2 h2
  rw [compareRemoval, hpos, hneg]
  omega

/-! ## Expired cookies -/

variable {clock : Nat → Int} {n : Nat} {lib : Library}

/-- The cookie has not expired at some reading of the clock from the `n`th on. -/
def Alive (clock : Nat → Int) (n : Nat) (c : Cookie) : Prop := ∃ k, n ≤ k ∧ clock k ≤ c.expiryTime

/-- The cookie has not expired at any reading of the clock from the `n`th on. -/
def Lasting (clock : Nat → Int) (n : Nat) (c : Cookie) : Prop := ∀ k, n ≤ k → clock k ≤ c.expiryTime

/-- What a loop over a bucket removes and keeps, when no visit fails. -/
structure Swept (clock : Nat → Int) (n : Nat) (message : Message) (b kept : Bucket)
    (s s₁ : CookieStore) : Prop where
  log : ∃ gone, s₁.log = s.log ++ gone.map (message, ·) ∧ b.Perm (gone ++ kept)
  sublist : kept.Sublist b
  buckets : s₁.buckets = s.buckets
  alive : ∀ c ∈ kept, Alive clock n c
  lasting : ∀ c ∈ b, Lasting clock n c → c ∈ kept
  later : n ≤ s₁.readings

theorem sweep_swept {α : Type} {message : Message} {visit : α → Cookie → Except Failure α}
    {b : Bucket} (hvisit : ∀ a, ∀ c ∈ b, ∃ a1, visit a c = .ok a1) {s : CookieStore}
    (hn : n ≤ s.readings) (a : α) :
    ∃ kept s1 a1, sweep clock message visit b s a = (kept, s1, .ok a1) ∧
      Swept clock n message b kept s s1 ∧ kept.foldlM visit a = .ok a1 := by
  induction b generalizing s a with
  | nil =>
    exact ⟨[], s, a, rfl, ⟨⟨[], (append_nil _).symm, List.Perm.refl _⟩, List.Sublist.refl _, rfl,
      fun c hc => absurd hc not_mem_nil, fun c hc => absurd hc not_mem_nil, hn⟩, rfl⟩
  | cons c b ih =>
    have hread : n ≤ s.readings + 1 := Nat.le_succ_of_le hn
    have hrest : ∀ a, ∀ c ∈ b, ∃ a1, visit a c = .ok a1 := fun a c' hc' =>
      hvisit a c' (mem_cons_of_mem c hc')
    rw [sweep]
    split
    · next hexpired =>
      obtain ⟨kept, s1, a1, hsweep, ⟨⟨gone, hlog, hperm⟩, hsub, hbkts, halive, hlasting, hlater⟩,
        hfold⟩ :=
        @ih hrest (s.read.uncount message c) hread a
      refine ⟨kept, s1, a1, hsweep, ⟨⟨c :: gone, ?_, hperm.cons c⟩, hsub.cons c, hbkts, halive,
        fun c' hc' hlast => ?_, hlater⟩, hfold⟩
      · rw [hlog]
        show (s.log ++ [(message, c)]) ++ _ = _
        rw [append_assoc]
        rfl
      · rcases mem_cons.mp hc' with rfl | hc'
        · have := of_decide_eq_true hexpired
          have := hlast s.readings hn
          omega
        · exact hlasting c' hc' hlast
    · next hexpired =>
      obtain ⟨a1, ha1⟩ := hvisit a c mem_cons_self
      obtain ⟨kept, s1, a2, hsweep, ⟨⟨gone, hlog, hperm⟩, hsub, hbkts, halive, hlasting, hlater⟩,
        hfold⟩ :=
        @ih hrest s.read hread a1
      simp only [ha1, hsweep]
      refine ⟨c :: kept, s1, a2, rfl, ⟨⟨gone, hlog, ?_⟩, hsub.cons_cons c, hbkts, ?_, ?_, hlater⟩, ?_⟩
      · exact (hperm.cons c).trans perm_middle.symm
      · intro c' hc'
        rcases mem_cons.mp hc' with rfl | hc'
        · exact ⟨s.readings, hn, Int.not_lt.mp fun hlt => hexpired (decide_eq_true hlt)⟩
        · exact halive c' hc'
      · intro c' hc' hlast
        rcases mem_cons.mp hc' with rfl | hc'
        · exact .head _
        · exact mem_cons_of_mem c (hlasting c' hc' hlast)
      · rw [foldlM_cons, ha1]
        exact hfold

/-! ## Queries -/

section Query

variable {hostname : Text} {path : Option Text} {secureProtocol httpApi : Bool}

/-- The query admits the cookie. -/
def admitted (lib : Library) (hostname : Text) (path : Option Text) (secureProtocol httpApi : Bool)
    (c : Cookie) : Bool :=
  match admits lib hostname path secureProtocol httpApi c with
  | .ok v => v
  | .error _ => false

theorem admitted_iff {c : Cookie} : admitted lib hostname path secureProtocol httpApi c = true ↔
    admits lib hostname path secureProtocol httpApi c = .ok true := by
  unfold admitted
  cases admits lib hostname path secureProtocol httpApi c with
  | ok v | error failure => simp

theorem exists_admits {c : Cookie} (hpath : c.path.isSome) :
    ∃ v, admits lib hostname path secureProtocol httpApi c = .ok v := by
  obtain ⟨p, hp⟩ := Option.isSome_iff_exists.mp hpath
  have hmatch : ∃ v, pathMatches path c.path = .ok v := by
    rw [hp]
    cases path with
    | none | some path => exact ⟨_, rfl⟩
  obtain ⟨v, hv⟩ := hmatch
  unfold admits
  split
  · exact ⟨_, rfl⟩
  · split
    · exact ⟨_, rfl⟩
    · rw [hv]
      cases v with
      | false => exact ⟨_, rfl⟩
      | true =>
        dsimp only
        split
        · exact ⟨_, rfl⟩
        · split <;> exact ⟨_, rfl⟩

theorem collect_eq {c : Cookie} (hpath : c.path.isSome) (list : List Cookie) :
    collect lib hostname path secureProtocol httpApi list c =
      .ok (list ++ [c].filter (admitted lib hostname path secureProtocol httpApi)) := by
  obtain ⟨v, hv⟩ := @exists_admits lib hostname path secureProtocol httpApi c hpath
  have hadmitted : admitted lib hostname path secureProtocol httpApi c = v := by
    rw [admitted, hv]
  rw [collect, hv, filter_singleton, hadmitted]
  cases v with
  | false => exact congrArg Except.ok (append_nil list).symm
  | true => rfl

theorem foldlM_collect {kept : Bucket} (hpath : ∀ c ∈ kept, c.path.isSome) (list : List Cookie) :
    kept.foldlM (collect lib hostname path secureProtocol httpApi) list =
      .ok (list ++ kept.filter (admitted lib hostname path secureProtocol httpApi)) := by
  induction kept generalizing list with
  | nil => exact congrArg Except.ok (append_nil list).symm
  | cons c kept ih =>
    rw [foldlM_cons, collect_eq (hpath c mem_cons_self)]
    show kept.foldlM _ _ = _
    rw [ih fun c' hc' => hpath c' (mem_cons_of_mem c hc'), append_assoc, ← filter_append]
    rfl

/-- What the buckets of a store may have lost. -/
structure Thinned (clock : Nat → Int) (n : Nat) (s s₁ : CookieStore) : Prop where
  sublist : ∀ domain b₁, s₁.bucket domain = some b₁ →
    ∃ b, s.bucket domain = some b ∧ b₁.Sublist b
  lasting : ∀ domain b, s.bucket domain = some b →
    ∃ b₁, s₁.bucket domain = some b₁ ∧ ∀ c ∈ b, Lasting clock n c → c ∈ b₁
  later : n ≤ s₁.readings

theorem Thinned.refl {s : CookieStore} (hn : n ≤ s.readings) : Thinned clock n s s :=
  ⟨fun _ b hb => ⟨b, hb, List.Sublist.refl b⟩, fun _ b hb => ⟨b, hb, fun _ hc _ => hc⟩, hn⟩

theorem Thinned.trans {s1 s2 : CookieStore} (h : Thinned clock n s s1)
    (h' : Thinned clock n s1 s2) : Thinned clock n s s2 := by
  refine ⟨?_, ?_, h'.later⟩
  · intro domain b2 hb2
    obtain ⟨b1, hb1, hsub1⟩ := h'.sublist domain b2 hb2
    obtain ⟨b, hb, hsub⟩ := h.sublist domain b1 hb1
    exact ⟨b, hb, hsub1.trans hsub⟩
  · intro domain b hb
    obtain ⟨b1, hb1, hkeep⟩ := h.lasting domain b hb
    obtain ⟨b2, hb2, hkeep'⟩ := h'.lasting domain b1 hb1
    exact ⟨b2, hb2, fun c hc hlast => hkeep' c (hkeep c hc hlast) hlast⟩

theorem bucket_setBucket (s : CookieStore) (domain domain' : Text) (b : Bucket) :
    (s.setBucket domain b).bucket domain' = if domain' = domain then some b else s.bucket domain' :=
  valueAt_modifyOr domain domain' [] (fun _ => b) s.buckets

theorem findIn_spec {s : CookieStore} {domain : Text} (hn : n ≤ s.readings)
    (hpath : ∀ b, s.bucket domain = some b → ∀ c ∈ b, c.path.isSome) (list : List Cookie) :
    ∃ s1 kept, s.findIn clock lib domain hostname path secureProtocol httpApi list =
        (s1, .ok (list ++ kept.filter (admitted lib hostname path secureProtocol httpApi))) ∧
      Thinned clock n s s1 ∧ kept = (s1.bucket domain).getD [] ∧
      ∀ c ∈ kept, Alive clock n c := by
  rw [findIn]
  cases hb : s.bucket domain with
  | none =>
    refine ⟨s, [], ?_, Thinned.refl hn, ?_, fun c hc => absurd hc not_mem_nil⟩
    · exact congrArg (fun l => (s, Except.ok l)) (append_nil list).symm
    · rw [hb]
      rfl
  | some b =>
    have hpath' := hpath b hb
    obtain ⟨kept, s1, list1, hsweep, hswept, hfold⟩ := @sweep_swept clock n _ .expiredRemovedByFind
      (collect lib hostname path secureProtocol httpApi) b
      (fun a c hc => ⟨_, collect_eq (hpath' c hc) a⟩) s hn list
    rw [foldlM_collect fun c hc => hpath' c (hswept.sublist.subset hc)] at hfold
    cases hfold
    have hbucket : ∀ domain', (s1.setBucket domain kept).bucket domain' =
        if domain' = domain then some kept else s.bucket domain' := by
      intro domain'
      rw [bucket_setBucket]
      split
      · rfl
      · rw [bucket, hswept.buckets, bucket]
    refine ⟨s1.setBucket domain kept, kept, ?_, ⟨fun domain' b1 hb1 => ?_, fun domain' b' hb' => ?_,
      hswept.later⟩, ?_, hswept.alive⟩
    · dsimp only
      rw [find, hsweep]
    · rw [hbucket] at hb1
      split at hb1
      · next heq =>
        rw [heq]
        exact ⟨b, hb, Option.some.inj hb1 ▸ hswept.sublist⟩
      · exact ⟨b1, hb1, List.Sublist.refl b1⟩
    · rw [hbucket]
      split
      · next heq =>
        rw [heq, hb, Option.some.injEq] at hb'
        exact ⟨kept, rfl, hb' ▸ hswept.lasting⟩
      · exact ⟨b', hb', fun _ hc _ => hc⟩
    · rw [hbucket, if_pos rfl]
      rfl

/-- That of the host, and those above it. -/
def DomainOf (hostname domain : Text) : Prop :=
  domain ≠ [] ∧ (domain = hostname ∨ ('.'.toNat :: domain).IsSuffix hostname)

theorem parentDomain_length {domain parent : Text} (h : parentDomain domain = some parent) :
    parent.length < domain.length := by
  rw [parentDomain] at h
  have hle := (dropWhile_sublist (l := domain) (· != '.'.toNat)).length_le
  cases hdrop : domain.dropWhile (· != '.'.toNat) with
  | nil =>
    rw [hdrop] at h
    cases h
  | cons y rest =>
    rw [hdrop] at h hle
    cases h
    rw [length_cons] at hle
    omega

/-- A domain above another one is its parent, or above its parent. -/
theorem exists_parentDomain {domain d : Text} (h : ('.'.toNat :: d).IsSuffix domain) :
    ∃ parent, parentDomain domain = some parent ∧
      (d = parent ∨ ('.'.toNat :: d).IsSuffix parent) := by
  have hspl := takeWhile_append_dropWhile (p := (· != '.'.toNat)) (l := domain)
  obtain ⟨before, hbef⟩ := h
  rw [parentDomain]
  cases hdrop : domain.dropWhile (· != '.'.toNat) with
  | nil =>
    have hall := dropWhile_eq_nil_iff.mp hdrop '.'.toNat (by rw [← hbef]; simp)
    simp at hall
  | cons y parent =>
    have hy : y = '.'.toNat := by
      have hhead := head?_dropWhile_not (· != '.'.toNat) domain
      rw [hdrop] at hhead
      simpa using hhead
    subst hy
    refine ⟨parent, rfl, ?_⟩
    have hdropSuffix : ('.'.toNat :: parent).IsSuffix domain := hdrop ▸ dropWhile_suffix _
    rcases suffix_or_suffix_of_suffix ⟨before, hbef⟩ hdropSuffix with hsuf | hsuf
    · rcases suffix_cons_iff.mp hsuf with heq | hsuf
      · exact Or.inl (List.cons.inj heq).2
      · exact Or.inr hsuf
    · rcases suffix_cons_iff.mp hsuf with heq | ⟨w, hw⟩
      · exact Or.inl (List.cons.inj heq).2.symm
      · -- there is no point before the first one
        rw [hdrop, ← hbef, ← hw] at hspl
        have htake : domain.takeWhile (· != '.'.toNat) = before ++ '.'.toNat :: w := by
          have happ : domain.takeWhile (· != '.'.toNat) ++ '.'.toNat :: parent =
              (before ++ '.'.toNat :: w) ++ '.'.toNat :: parent := by
            rw [← hbef, ← hw]
            simpa using hspl
          exact append_cancel_right happ
        have hmem : '.'.toNat ∈ domain.takeWhile (· != '.'.toNat) := by rw [htake]; simp
        have := mem_takeWhile_imp hmem
        simp at this

/-- Cookies that the query finds, in domains of at most a length. -/
structure Found (clock : Nat → Int) (n : Nat) (lib : Library) (hostname : Text)
    (path : Option Text) (secureProtocol httpApi : Bool) (s : CookieStore) (length : Nat)
    (found : List Cookie) : Prop where
  stored : ∀ c ∈ found, ∃ b, s.bucket c.domain = some b ∧ c ∈ b
  length_le : ∀ c ∈ found, c.domain.length ≤ length
  admitted : ∀ c ∈ found, admitted lib hostname path secureProtocol httpApi c = true
  alive : ∀ c ∈ found, Alive clock n c
  distinct : (found.map key).Nodup

theorem Found.of_bucket {s s1 : CookieStore} {domain : Text}
    (hok : ∀ d b, s.bucket d = some b → Bucket.Ok d b) (hthin : Thinned clock n s s1)
    (halive : ∀ c ∈ (s1.bucket domain).getD [], Alive clock n c) :
    Found clock n lib hostname path secureProtocol httpApi s domain.length
        (((s1.bucket domain).getD []).filter
          (CookieStore.admitted lib hostname path secureProtocol httpApi)) ∧
      ∀ c ∈ (s1.bucket domain).getD [], c.domain = domain := by
  cases hb1 : s1.bucket domain with
  | none =>
    exact ⟨⟨fun c hc => absurd hc not_mem_nil, fun c hc => absurd hc not_mem_nil,
      fun c hc => absurd hc not_mem_nil, fun c hc => absurd hc not_mem_nil,
      nodup_nil⟩, fun c hc => absurd hc not_mem_nil⟩
  | some b1 =>
    obtain ⟨b, hb, hsub⟩ := hthin.sublist domain b1 hb1
    have hbok := (hok domain b hb).sublist hsub
    rw [hb1, Option.getD_some] at halive
    rw [Option.getD_some]
    refine ⟨⟨fun c hc => ?_, fun c hc => ?_, fun c hc => (mem_filter.mp hc).2, fun c hc =>
      halive c (mem_filter.mp hc).1, hbok.distinct.sublist (filter_sublist.map _)⟩,
      hbok.domain_eq⟩
    · have hmem := (mem_filter.mp hc).1
      rw [hbok.domain_eq c hmem]
      exact ⟨b, hb, hsub.subset hmem⟩
    · rw [hbok.domain_eq c (mem_filter.mp hc).1]

theorem Found.append {k m : Nat} {found found' : List Cookie}
    (h : Found clock n lib hostname path secureProtocol httpApi s k found)
    (h' : Found clock n lib hostname path secureProtocol httpApi s m found')
    (hlonger : ∀ c ∈ found, m < c.domain.length) (hmn : m ≤ k) :
    Found clock n lib hostname path secureProtocol httpApi s k (found ++ found') := by
  have hcases : ∀ {P : Cookie → Prop}, (∀ c ∈ found, P c) → (∀ c ∈ found', P c) →
      ∀ c ∈ found ++ found', P c := fun hl hr c hc => (mem_append.mp hc).elim (hl c) (hr c)
  refine ⟨hcases h.stored h'.stored, hcases h.length_le fun c hc => (h'.length_le c hc).trans hmn,
    hcases h.admitted h'.admitted, hcases h.alive h'.alive, ?_⟩
  rw [map_append]
  refine nodup_append.mpr ⟨h.distinct, h'.distinct, fun _ hk _ hk' heq => ?_⟩
  obtain ⟨c, hc, rfl⟩ := mem_map.mp hk
  obtain ⟨c', hc', rfl⟩ := mem_map.mp hk'
  have hdomain : c.domain = c'.domain := congrArg (fun k : Text × Text × Option Text => k.2.1) heq
  have hlt := hlonger c hc
  have hle := h'.length_le c' hc'
  rw [hdomain] at hlt
  omega

/-- The loop up the parents of the domain. -/
theorem findAll_spec {fuel : Nat} {domain : Text} {s0 s : CookieStore} (list : List Cookie)
    (hok : ∀ d b, s0.bucket d = some b → Bucket.Ok d b)
    (hpath : ∀ d b, s0.bucket d = some b → ∀ c ∈ b, c.path.isSome) (hthin : Thinned clock n s0 s)
    (hfuel : domain.length < fuel) :
    ∃ s1 found, s.findAll clock lib hostname path secureProtocol httpApi fuel domain list =
        (s1, .ok (list ++ found)) ∧ Thinned clock n s0 s1 ∧
      Found clock n lib hostname path secureProtocol httpApi s0 domain.length found ∧
      ∀ d b c, s0.bucket d = some b → c ∈ b → Lasting clock n c →
        CookieStore.admitted lib hostname path secureProtocol httpApi c = true → DomainOf domain d →
          c ∈ found := by
  induction fuel generalizing domain s list with
  | zero => exact absurd hfuel (Nat.not_lt_zero _)
  | succ fuel ih =>
    rw [findAll]
    split
    · next hnil =>
      subst hnil
      refine ⟨s, [], congrArg (fun l => (s, Except.ok l)) (append_nil list).symm, hthin,
        ⟨fun c hc => absurd hc not_mem_nil, fun c hc => absurd hc not_mem_nil,
          fun c hc => absurd hc not_mem_nil, fun c hc => absurd hc not_mem_nil,
          nodup_nil⟩, fun d b c _ _ _ _ hd => ?_⟩
      rcases hd.2 with hd' | hd'
      · exact absurd hd' hd.1
      · exact absurd (suffix_nil.mp hd') (cons_ne_nil _ _)
    · obtain ⟨s1, kept, hfind, hthin1, rfl, halive⟩ := @findIn_spec clock n lib hostname path
        secureProtocol httpApi s domain hthin.later (fun b hb c hc => by
          obtain ⟨b0, hb0, hsub⟩ := hthin.sublist domain b hb
          exact hpath domain b0 hb0 c (hsub.subset hc)) list
      have hthin0 := hthin.trans hthin1
      obtain ⟨hfound, hdomain⟩ := @Found.of_bucket clock n lib hostname path secureProtocol httpApi
        s0 s1 domain hok hthin0 halive
      -- the cookies of the domain itself; those of its parents come by induction
      have hown : ∀ b c, s0.bucket domain = some b → c ∈ b → Lasting clock n c →
          CookieStore.admitted lib hostname path secureProtocol httpApi c = true →
          c ∈ ((s1.bucket domain).getD []).filter
            (CookieStore.admitted lib hostname path secureProtocol httpApi) := by
        intro b c hb hc hlast hadm
        obtain ⟨b1, hb1, hkeep⟩ := hthin0.lasting domain b hb
        rw [hb1, Option.getD_some]
        exact mem_filter.mpr ⟨hkeep c hc hlast, hadm⟩
      rw [hfind]
      dsimp only
      cases hpar : parentDomain domain with
      | none =>
        refine ⟨s1, _, rfl, hthin0, hfound, fun d b c hb hc hlast hadm hd => ?_⟩
        rcases hd.2 with rfl | hd'
        · exact hown b c hb hc hlast hadm
        · obtain ⟨parent, hp, -⟩ := exists_parentDomain hd'
          rw [hpar] at hp
          cases hp
      | some parent =>
        have hshorter := parentDomain_length hpar
        obtain ⟨s2, found', hrest, hthin2, hfound', hcomp⟩ := @ih parent s1
          (list ++ ((s1.bucket domain).getD []).filter
            (CookieStore.admitted lib hostname path secureProtocol httpApi)) hthin0 (by omega)
        refine ⟨s2, _, ?_, hthin2, hfound.append hfound' (fun c hc => ?_) (by omega),
          fun d b c hb hc hlast hadm hd => ?_⟩
        · dsimp only
          rw [hrest, append_assoc]
        · rw [hdomain c (mem_filter.mp hc).1]
          exact hshorter
        · rcases hd.2 with rfl | hd'
          · exact mem_append_left _ (hown b c hb hc hlast hadm)
          · obtain ⟨parent', hp, habove⟩ := exists_parentDomain hd'
            rw [hpar] at hp
            cases hp
            exact mem_append_right _ (hcomp d b c hb hc hlast hadm ⟨hd.1, habove⟩)

/-- What `get` returns: the cookies that the query admits, in order. -/
structure Returned (clock : Nat → Int) (lib : Library) (hostname : Text) (path : Option Text)
    (secureProtocol httpApi : Bool) (s : CookieStore) (time : Int) (result : List Cookie) : Prop where
  ordered : result.Pairwise Before
  distinct : (result.map key).Nodup
  sound : ∀ c ∈ result, ∃ c₀ ∈ s.cookies,
    admits lib hostname path secureProtocol httpApi c₀ = .ok true ∧ Alive clock s.readings c₀ ∧
      c = { c₀ with lastAccessTime := time }
  complete : ∀ c₀ ∈ s.cookies, admits lib hostname path secureProtocol httpApi c₀ = .ok true →
    Lasting clock s.readings c₀ → DomainOf hostname c₀.domain →
      { c₀ with lastAccessTime := time } ∈ result

theorem get_returned (h : s.Consistent) (hpath : ∀ c ∈ s.cookies, c.path.isSome)
    (hcomparable : ∀ c1 ∈ s.cookies, ∀ c2 ∈ s.cookies,
      Alive clock s.readings c1 → Alive clock s.readings c2 →
      admits lib hostname path secureProtocol httpApi c1 = .ok true →
      admits lib hostname path secureProtocol httpApi c2 = .ok true → Comparable c1 c2) :
    ∃ s1 time result, s.get clock lib hostname path secureProtocol httpApi = (s1, .ok result) ∧
      Returned clock lib hostname path secureProtocol httpApi s time result := by
  have hmem : ∀ {d b c}, s.bucket d = some b → c ∈ b → c ∈ s.cookies := fun hb hc =>
    mem_flatMap.mpr ⟨_, bucket_mem hb, hc⟩
  obtain ⟨s1, found, hfind, -, hfound, hcomp⟩ := @findAll_spec clock s.readings lib hostname path
    secureProtocol httpApi (hostname.length + 1) hostname s s []
    (fun d b hb => h.bucket_ok _ (bucket_mem hb)) (fun d b hb c hc => hpath c (hmem hb hc))
    (Thinned.refl (Nat.le_refl _)) (Nat.lt_succ_self _)
  rw [nil_append] at hfind
  have hsort := @mergeSort_before found fun c1 h1 c2 h2 => by
    obtain ⟨b1, hb1, hc1⟩ := hfound.stored c1 h1
    obtain ⟨b2, hb2, hc2⟩ := hfound.stored c2 h2
    exact hcomparable c1 (hmem hb1 hc1) c2 (hmem hb2 hc2) (hfound.alive c1 h1) (hfound.alive c2 h2)
      (admitted_iff.mp (hfound.admitted c1 h1)) (admitted_iff.mp (hfound.admitted c2 h2))
  have hperm := List.mergeSort_perm found fun c1 c2 => decide (compareGet c1 c2 ≤ 0)
  set sorted := found.mergeSort fun c1 c2 => decide (compareGet c1 c2 ≤ 0) with hsortedDef
  have htouch : ∀ c ∈ sorted, touch sorted (clock s1.readings) c =
      { c with lastAccessTime := clock s1.readings } := fun c hc =>
    if_pos (mem_map_of_mem hc)
  refine ⟨{ s1.read with
      buckets := s1.buckets.map fun e => (e.1, e.2.map (touch sorted (clock s1.readings))) },
    clock s1.readings, sorted.map (touch sorted (clock s1.readings)), ?_, ?_, ?_, ?_, ?_⟩
  · rw [get, hfind]
  · refine pairwise_map.mpr (hsort.imp_of_mem fun {a b} ha hb hab => ?_)
    rw [htouch a ha, htouch b hb]
    exact hab
  · rw [map_map]
    have hkeys : sorted.map (key ∘ touch sorted (clock s1.readings)) = sorted.map key :=
      map_congr_left fun c _ => touch_key _ _ c
    rw [hkeys]
    exact (hperm.map key).nodup_iff.mpr hfound.distinct
  · intro c hc
    obtain ⟨c0, hc0, rfl⟩ := mem_map.mp hc
    have hin := hperm.mem_iff.mp hc0
    obtain ⟨b, hb, hcb⟩ := hfound.stored c0 hin
    exact ⟨c0, hmem hb hcb, admitted_iff.mp (hfound.admitted c0 hin), hfound.alive c0 hin,
      htouch c0 hc0⟩
  · intro c0 hc0 hadm hlast hdomain
    obtain ⟨⟨d, b⟩, he, hcb⟩ := mem_flatMap.mp hc0
    obtain rfl : c0.domain = d := (h.bucket_ok _ he).domain_eq c0 hcb
    have hin := hcomp c0.domain b c0 (lookup_of_mem h.domains he) hcb hlast
      (admitted_iff.mpr hadm) hdomain
    have hin' := hperm.mem_iff.mpr hin
    exact mem_map.mpr ⟨c0, hin', htouch c0 hin'⟩

end Query

/-! ## The global purge -/

section Purge

/-- Cookies whose access times can be compared with each other. -/
def AccessComparable (U : Cookie → Prop) : Prop :=
  ∀ c₁ c₂, U c₁ → U c₂ → KeepsSign (c₁.lastAccessTime - c₂.lastAccessTime)

variable {U : Cookie → Prop}

theorem AccessComparable.agrees (hU : AccessComparable U) {l : List Cookie} (hl : ∀ c ∈ l, U c) :
    PriorityQueue.Agrees compareRemoval lastAccessTime l :=
  agrees_compareRemoval fun c1 h1 c2 h2 => hU c1 c2 (hl c1 h1) (hl c2 h2)

theorem foldlM_enqueue_ordered (hU : AccessComparable U) {b : Bucket} {queue queue1 : List Cookie}
    (h : b.foldlM enqueue queue = .ok queue1) (hb : ∀ c ∈ b, U c) (hq : ∀ c ∈ queue, U c)
    (hordered : PriorityQueue.Ordered lastAccessTime queue) :
    PriorityQueue.Ordered lastAccessTime queue1 := by
  induction b generalizing queue with
  | nil =>
    cases h
    exact hordered
  | cons c b ih =>
    rw [foldlM_cons] at h
    have hall : ∀ c' ∈ c :: queue, U c' := fun c' hc' =>
      (mem_cons.mp hc').elim (fun heq => heq ▸ hb c mem_cons_self) (hq c')
    refine ih h (fun c' hc' => hb c' (mem_cons_of_mem c hc')) (fun c' hc' => ?_)
      (add_ordered hordered (hU.agrees hall))
    exact hall c' ((add_perm queue c).mem_iff.mp hc')

theorem sweepAll_ordered (hU : AccessComparable U) {m : List (Text × Bucket)} {s : CookieStore}
    (hn : n ≤ s.readings) {queue : List Cookie}
    (hm : ∀ c ∈ m.flatMap Prod.snd, Alive clock n c → U c)
    (hq : ∀ c ∈ queue, U c)
    (hordered : PriorityQueue.Ordered lastAccessTime queue) :
    ∃ m1 s1 queue1 gone, sweepAll clock m s queue = (m1, s1, queue1) ∧
      s1.log = s.log ++ gone.map (Message.expiredRemoved, ·) ∧
      (m.flatMap Prod.snd).Perm (gone ++ m1.flatMap Prod.snd) ∧
      PriorityQueue.Ordered lastAccessTime queue1 ∧ ∀ c ∈ queue1, U c := by
  induction m generalizing s queue with
  | nil => exact ⟨[], s, queue, [], rfl, (append_nil _).symm, List.Perm.refl _, hordered, hq⟩
  | cons e m ih =>
    obtain ⟨domain, b⟩ := e
    obtain ⟨kept, s2, queue2, hsweep, ⟨⟨gone, hlog, hperm⟩, hsub, -, halive, -, hlater⟩,
      hfold⟩ :=
      @sweep_swept clock n _ .expiredRemoved enqueue b (fun _ _ _ => ⟨_, rfl⟩) s hn queue
    have hkept : ∀ c ∈ kept, U c := fun c hc =>
      hm c (mem_append_left _ (hsub.subset hc)) (halive c hc)
    have hqueue2 : ∀ c ∈ queue2, U c := fun c hc =>
      (mem_append.mp ((foldlM_enqueue hfold).mem_iff.mp hc)).elim (hkept c) (hq c)
    obtain ⟨m1, s1, queue1, gone', hrest, hlog', hperm', hordered', hq'⟩ := @ih s2 hlater
      _ (fun c hc => hm c (mem_append_right _ hc)) hqueue2
      (foldlM_enqueue_ordered hU hfold hkept hq hordered)
    refine ⟨(domain, kept) :: m1, s1, queue1, gone ++ gone', ?_, ?_, ?_, hordered', hq'⟩
    · rw [sweepAll]
      simp only [hsweep, Except.toOption, Option.getD_some, hrest]
    · rw [hlog', hlog, append_assoc, map_append]
    · rw [flatMap_cons, flatMap_cons]
      refine (hperm.append hperm').trans ?_
      rw [append_assoc, append_assoc]
      refine List.Perm.append_left gone ?_
      rw [← append_assoc, ← append_assoc]
      exact perm_append_comm.append_right _

theorem purgeLoop_ordered (hU : AccessComparable U) {queue : List Cookie}
    (h : s.Consistent) (hq : queue.Perm s.cookies) (hall : ∀ c ∈ queue, U c)
    (hordered : PriorityQueue.Ordered lastAccessTime queue) :
    ∃ s' excess, purgeLoop queue.length queue s = some s' ∧
      s'.log = s.log ++ excess.map (Message.excessRemoved, ·) ∧
      s.cookies.Perm (excess ++ s'.cookies) ∧
      ∀ r ∈ excess, ∀ c ∈ s'.cookies, r.lastAccessTime ≤ c.lastAccessTime := by
  generalize hfuel : queue.length = fuel
  induction fuel generalizing queue s with
  | zero =>
    have hnil := eq_nil_of_length_eq_zero hfuel
    have hcnt := h.count
    rw [← hq.length_eq, hnil] at hcnt
    have hle : ¬ s.totalCount > totalCountLowerThreshold := by
      rw [hcnt]
      decide
    exact ⟨s, [], if_neg hle, (append_nil _).symm, List.Perm.refl _,
      fun r hr => absurd hr not_mem_nil⟩
  | succ fuel ih =>
    rw [purgeLoop]
    split
    · cases hremove : remove compareRemoval queue with
      | none =>
        rw [remove_eq_none_iff] at hremove
        rw [hremove] at hfuel
        cases hfuel
      | some p =>
        obtain ⟨c, queue1⟩ := p
        have hperm := remove_perm hremove
        obtain ⟨hleast, hordered1⟩ := remove_ordered hordered (hU.agrees hall) hremove
        have hmem : c ∈ s.cookies := (hperm.symm.trans hq).subset mem_cons_self
        obtain ⟨b, hb, -, hcons, hspl⟩ := h.take hmem .excessRemoved
        have hqueue1 := ((hperm.symm.trans hq).trans hspl).cons_inv
        obtain ⟨s', excess, hrun, hlog, hcookies, hkept⟩ := ih hcons hqueue1
          (fun c' hc' => hall c' (hperm.mem_iff.mpr (mem_cons_of_mem c hc'))) hordered1
          (by
            have := hperm.length_eq
            rw [length_cons] at this
            omega)
        refine ⟨s', c :: excess, ?_, ?_, hspl.trans (hcookies.cons c), fun r hr c' hc' => ?_⟩
        · simp only [hb]
          exact hrun
        · rw [hlog]
          show (s.log ++ [(Message.excessRemoved, c)]) ++ _ = _
          rw [append_assoc]
          rfl
        · rcases mem_cons.mp hr with rfl | hr
          · have hin := hcookies.mem_iff.mpr (mem_append_right excess hc')
            exact hleast c' (hperm.mem_iff.mpr (mem_cons_of_mem r (hqueue1.mem_iff.mpr hin)))
          · exact hkept r hr c' hc'
    · next hle =>
      exact ⟨s, [], rfl, (append_nil _).symm, List.Perm.refl _, fun r hr => absurd hr not_mem_nil⟩

/-- None was accessed later than those kept. -/
structure Purged (s s' : CookieStore) (expired excess : List Cookie) : Prop where
  log : s'.log = s.log ++ expired.map (Message.expiredRemoved, ·) ++
    excess.map (Message.excessRemoved, ·)
  cookies : s.cookies.Perm (expired ++ (excess ++ s'.cookies))
  earliest : ∀ r ∈ excess, ∀ c ∈ s'.cookies, r.lastAccessTime ≤ c.lastAccessTime

theorem purge_purged (h : s.Consistent)
    (haccess : ∀ c1 ∈ s.cookies, ∀ c2 ∈ s.cookies, Alive clock s.readings c1 →
      Alive clock s.readings c2 → KeepsSign (c1.lastAccessTime - c2.lastAccessTime)) :
    ∃ s' expired excess, s.purge clock lib = some s' ∧ Purged s s' expired excess := by
  have hU : AccessComparable fun c => c ∈ s.cookies ∧ Alive clock s.readings c :=
    fun c1 c2 h1 h2 => haccess c1 h1.1 c2 h2.1 h1.2 h2.2
  obtain ⟨m1, s1, queue, expired, hsweep, hlog, hperm, hordered, hall⟩ :=
    @sweepAll_ordered clock s.readings _ hU (s.visited lib).buckets s (Nat.le_refl _) []
      (fun c hc halive => ⟨(cookies_visited s).mem_iff.mp hc, halive⟩)
      (fun c hc => absurd hc not_mem_nil) nil_ordered
  obtain ⟨-, hq, -⟩ := sweepAll_spec hsweep
  rw [append_nil] at hq
  obtain ⟨s', excess, hloop, hlog', hcookies, hkept⟩ :=
    purgeLoop_ordered hU (h.visited.sweepAll (show s.totalCount = _ from rfl) hsweep) hq hall hordered
  refine ⟨s', expired, excess, ?_, ?_,
    ((cookies_visited s).symm.trans hperm).trans (hcookies.append_left expired), hkept⟩
  · rw [purge, hsweep]
    exact hloop
  · rw [hlog']
    exact congrArg (· ++ _) hlog

end Purge

/-! ## Both orders -/

/-- Texts of ASCII characters, and a map that is visited in the order of insertion. -/
def asciiLibrary : Library where
  equalsIgnoreCase a b := decide (a.map asciiLower = b.map asciiLower)
  entries _ m := m
  entries_perm _ m := List.Perm.refl m

/-- A cookie of the host `a` for all paths. -/
def rootCookie (name : Nat) (baseTime : Int) : Cookie :=
  ⟨[name], [], 2 ^ 40, text ['a'], some (text ['/']), ⟨baseTime, 0⟩, baseTime, true, false, false,
    false⟩

theorem mergeSort_pair {c1 c2 : Cookie} (h : ¬ compareGet c1 c2 ≤ 0) :
    [c1, c2].mergeSort (fun c1 c2 => decide (compareGet c1 c2 ≤ 0)) = [c2, c1] := by
  simp [List.mergeSort, h]

/-- Two cookies that were created 37 days apart. -/
def apart : CookieStore :=
  ⟨[(text ['a'], [rootCookie 0 0, rootCookie 1 (3 * 2 ^ 30)])], 2, 2,
    [(.cookieAdded, rootCookie 0 0), (.cookieAdded, rootCookie 1 (3 * 2 ^ 30))]⟩

end CookieStore

end OpenJfx.Network
