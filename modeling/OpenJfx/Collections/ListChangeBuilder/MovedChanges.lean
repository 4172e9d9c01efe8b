/-
  OpenJfx.Collections.ListChangeBuilder.MovedChanges

  The second half of `nextPermutation`: the sub-changes move along with the permutation.  Added
  positions go to their images; a block of removed elements goes to the image of the start of its
  sub-change, and from there to the run around it.  A sub-change under construction is paired with
  the entries of `newRemoved` that went into it (`Built`).
-/

import OpenJfx.Collections.ListChangeBuilder.OriginalPermutation
import OpenJfx.Collections.ListChangeBuilder.Recording

namespace OpenJfx.Collections.ListChangeBuilder

open List Prod

variable {i q from_ : Int} {set perm : List Int} {E : Type}

/-! ## `newAdded` and `newRemoved` -/

theorem mem_treeAdd {x y : Int} : y ∈ treeAdd x set ↔ y = x ∨ y ∈ set := by
  induction set with
  | nil => simp [treeAdd]
  | cons z set ih =>
    rw [treeAdd]
    split
    · rw [mem_cons]
    · split
      · next h =>
        subst h
        simp
      · rw [mem_cons, ih, mem_cons]
        exact or_left_comm

theorem treeAdd_sorted {x : Int} (h : set.Pairwise (· < ·)) : (treeAdd x set).Pairwise (· < ·) := by
  induction set with
  | nil => exact pairwise_singleton _ _
  | cons y set ih =>
    obtain ⟨hy, hset⟩ := pairwise_cons.mp h
    rw [treeAdd]
    split
    · next hlt =>
      refine pairwise_cons.mpr ⟨?_, h⟩
      intro z hz
      rcases mem_cons.mp hz with rfl | hz
      · exact hlt
      · exact Int.lt_trans hlt (hy z hz)
    · split
      · exact h
      · next hlt hne =>
        refine pairwise_cons.mpr ⟨?_, ih hset⟩
        intro z hz
        rcases mem_treeAdd.mp hz with rfl | hz
        · omega
        · exact hy z hz

/-- All of `xs` added to a `TreeSet`. -/
def treeAddAll (set xs : List Int) : List Int := xs.foldl (fun set x => treeAdd x set) set

theorem mem_treeAddAll {y : Int} {xs : List Int} :
    y ∈ treeAddAll set xs ↔ y ∈ set ∨ y ∈ xs := by
  induction xs generalizing set with
  | nil => simp [treeAddAll]
  | cons x xs ih =>
    rw [treeAddAll, foldl_cons]
    show y ∈ treeAddAll (treeAdd x set) xs ↔ _
    rw [ih, mem_treeAdd, mem_cons]
    tauto

theorem treeAddAll_sorted (h : set.Pairwise (· < ·)) (xs : List Int) :
    (treeAddAll set xs).Pairwise (· < ·) := by
  induction xs generalizing set with
  | nil => exact h
  | cons x xs ih => exact ih (treeAdd_sorted h)

theorem foldlM_eq_foldl {α β : Type} {f : β → α → Except JavaException β} {g : β → α → β}
    (h : ∀ b a, f b a = .ok (g b a)) (l : List α) (b : β) : l.foldlM f b = .ok (l.foldl g b) := by
  induction l generalizing b with
  | nil => rfl
  | cons a l ih =>
    rw [foldlM_cons, h]
    exact ih (g b a)

/-- The images of the added positions. -/
def addedImages (from_ : Int) (perm : List Int) (cs : List (SubChange E)) : List Int :=
  cs.flatMap fun c => (segment id c.from_ (c.to_ - c.from_).toNat).map (image from_ perm)

theorem foldlM_addImages (from_ : Int) (perm : List Int) (cs : List (SubChange E))
    (set : List Int) :
    cs.foldlM (addImages from_ (from_ + perm.length) perm) set
      = .ok (treeAddAll set (addedImages from_ perm cs)) := by
  have hone : ∀ (set : List Int) (c : SubChange E), addImages from_ (from_ + perm.length) perm set c
        = .ok (treeAddAll set ((segment id c.from_ (c.to_ - c.from_).toNat).map
            (image from_ perm))) := by
    intro set c
    rw [addImages, foldlM_eq_foldl (g := fun set i => treeAdd (image from_ perm i) set)]
    · rw [treeAddAll, foldl_map]
    · intro set i
      rw [moved_eq]
      rfl
  rw [foldlM_eq_foldl hone, addedImages]
  congr 1
  induction cs generalizing set with
  | nil => rfl
  | cons c cs ih => rw [foldl_cons, ih, flatMap_cons, treeAddAll, treeAddAll,
      treeAddAll, foldl_append]

/-- The positions the permutation moves added elements to. -/
def movedCovers (from_ : Int) (perm : List Int) (cs : List (SubChange E)) (q : Int) : Bool :=
  covers cs (source from_ perm q)

variable {cs : List (SubChange E)} {key k : Int} {value : List E} {entries z : List (Int × List E)}
  {e : Int × List E} {c : SubChange E} {w : SubChange E × List (Int × List E)}
  {V W : List (SubChange E × List (Int × List E))}

theorem mem_addedImages (hperm : IsPermutation from_ perm) :
    q ∈ addedImages from_ perm cs ↔ movedCovers from_ perm cs q = true := by
  rw [movedCovers, covers_iff, addedImages, mem_flatMap]
  apply exists_congr
  intro c
  apply and_congr_right
  intro hc
  rw [mem_map]
  constructor
  · rintro ⟨i, hi, rfl⟩
    obtain ⟨i, h1, h2, rfl⟩ := mem_segment.mp hi
    rw [id, hperm.source_image]
    omega
  · rintro ⟨h1, h2⟩
    exact ⟨source from_ perm q, mem_segment.mpr ⟨_, h1, by omega, rfl⟩, hperm.image_source⟩

/-- Where the removed elements of `c` go, when it has a list of them. -/
def anchor (from_ : Int) (perm : List Int) (c : SubChange E) : Option (Int × List E) :=
  c.removed.map fun r => (image from_ perm c.from_, r)

/-- All of `xs` put into a `HashMap`. -/
def mapPutAll (entries xs : List (Int × List E)) : List (Int × List E) :=
  xs.foldl (fun entries x => mapPut x.1 x.2 entries) entries

theorem foldlM_putImage (from_ : Int) (perm : List Int) (cs : List (SubChange E))
    (entries : List (Int × List E)) :
    cs.foldlM (putImage from_ (from_ + perm.length) perm) entries
      = .ok (mapPutAll entries (cs.filterMap (anchor from_ perm))) := by
  induction cs generalizing entries with
  | nil => rfl
  | cons c cs ih =>
    rw [foldlM_cons, putImage]
    cases hr : c.removed with
    | none =>
      rw [filterMap_cons_none (by rw [anchor, hr]; rfl)]
      exact ih entries
    | some r =>
      rw [filterMap_cons_some (b := (image from_ perm c.from_, r)) (by rw [anchor, hr]; rfl),
        moved_eq]
      exact ih _

/-- The keys of a `HashMap` are distinct. -/
def DistinctKeys (entries : List (Int × List E)) : Prop :=
  (entries.map fst).Nodup

theorem mem_keys_mapPut :
    k ∈ (mapPut key value entries).map fst ↔ k = key ∨ k ∈ entries.map fst := by
  induction entries with
  | nil => simp [mapPut]
  | cons e entries ih =>
    rw [mapPut]
    split
    · next h =>
      subst h
      simp
    · rw [map_cons, mem_cons, ih, map_cons, mem_cons]
      exact or_left_comm

theorem DistinctKeys.mapPut (h : DistinctKeys entries) (key : Int)
    (value : List E) : DistinctKeys (mapPut key value entries) := by
  induction entries with
  | nil => simp [DistinctKeys, ListChangeBuilder.mapPut]
  | cons e entries ih =>
    rw [DistinctKeys, map_cons, nodup_cons] at h
    rw [ListChangeBuilder.mapPut]
    split
    · rw [DistinctKeys, map_cons, nodup_cons]
      exact h
    · next hne =>
      rw [DistinctKeys, map_cons, nodup_cons, mem_keys_mapPut]
      refine ⟨?_, ih h.2⟩
      rintro (heq | hmem)
      · exact hne heq
      · exact h.1 hmem

theorem DistinctKeys.mapPutAll (h : DistinctKeys entries)
    (xs : List (Int × List E)) : DistinctKeys (mapPutAll entries xs) := by
  induction xs generalizing entries with
  | nil => exact h
  | cons x xs ih => exact ih (h.mapPut x.1 x.2)

variable {xs all : List (Int × List E)}

theorem mem_keys_mapPutAll : k ∈ (mapPutAll entries xs).map fst ↔
      k ∈ entries.map fst ∨ k ∈ xs.map fst := by
  induction xs generalizing entries with
  | nil => simp [mapPutAll]
  | cons x xs ih =>
    rw [mapPutAll, foldl_cons]
    show k ∈ (mapPutAll (mapPut x.1 x.2 entries) xs).map fst ↔ _
    rw [ih, mem_keys_mapPut, map_cons, mem_cons]
    tauto

/-- The entries with something in them. -/
def nonempty (entries : List (Int × List E)) : List (Int × List E) :=
  entries.filter fun e => !e.2.isEmpty

theorem mapPut_nonempty (h : ∀ e ∈ entries, e.1 = key → e.2 = []) :
    (nonempty (mapPut key value entries)).Perm (nonempty [(key, value)] ++ nonempty entries) := by
  induction entries with
  | nil => simp [mapPut, nonempty]
  | cons e entries ih =>
    obtain ⟨k, v⟩ := e
    have ih' := ih fun x hx => h x (.tail _ hx)
    rw [mapPut]
    split
    · next hk =>
      obtain rfl : v = [] := h (k, v) mem_cons_self hk
      subst hk
      have hdrop : nonempty ((k, ([] : List E)) :: entries) = nonempty entries :=
        filter_cons_of_neg (by simp)
      rw [hdrop, nonempty, nonempty, nonempty, ← filter_append]
      exact List.Perm.refl _
    · have hspl : ∀ xs : List (Int × List E),
          nonempty ((k, v) :: xs) = nonempty [(k, v)] ++ nonempty xs := by
        intro xs
        rw [nonempty, nonempty, nonempty, ← filter_append]
        rfl
      rw [hspl, hspl entries]
      refine (ih'.append_left _).trans ?_
      rw [← append_assoc, ← append_assoc]
      exact perm_append_comm.append_right _

theorem mem_mapPut (h : e ∈ mapPut key value entries) : e = (key, value) ∨ e ∈ entries := by
  induction entries with
  | nil => exact Or.inl (mem_singleton.mp h)
  | cons x entries ih =>
    obtain ⟨k, v⟩ := x
    rw [mapPut] at h
    split at h
    · next hk =>
      subst hk
      rcases mem_cons.mp h with h | h
      · exact Or.inl h
      · exact Or.inr (.tail _ h)
    · rcases mem_cons.mp h with h | h
      · exact Or.inr (by rw [h]; exact .head _)
      · exact (ih h).imp id (mem_cons_of_mem _)

theorem mapPutAll_nonempty (hold : ∀ e ∈ entries, ∀ x ∈ xs, e.1 = x.1 → e.2 = [])
    (hxs : xs.Pairwise fun a b => a.1 = b.1 → a.2 = []) :
    (nonempty (mapPutAll entries xs)).Perm (nonempty entries ++ nonempty xs) := by
  induction xs generalizing entries with
  | nil => simp [mapPutAll, nonempty]
  | cons x xs ih =>
    obtain ⟨hx, hxs⟩ := pairwise_cons.mp hxs
    have hput : (nonempty (mapPut x.1 x.2 entries)).Perm (nonempty [x] ++ nonempty entries) :=
      mapPut_nonempty fun e he heq => hold e he x mem_cons_self heq
    have hrest := ih (by
      intro e he y hy heq
      rcases mem_mapPut he with rfl | he
      · exact hx y hy heq
      · exact hold e he y (.tail _ hy) heq) hxs
    have hcons : nonempty (x :: xs) = nonempty [x] ++ nonempty xs := by
      rw [nonempty, nonempty, nonempty, ← filter_append]
      rfl
    rw [hcons, ← append_assoc]
    refine hrest.trans (List.Perm.append_right _ (hput.trans ?_))
    exact perm_append_comm

/-! ## Building the new sub-changes -/

/-- A sub-change with the entries of `newRemoved` that went into it. -/
structure Aligned (c : SubChange E) (entries : List (Int × List E)) : Prop where
  removed : c.getRemoved = entries.flatMap snd
  present : entries ≠ [] → ∃ r, c.removed = some r
  shape : (c.from_ < c.to_ ∧ ∀ e ∈ entries, c.from_ ≤ e.1 ∧ e.1 < c.to_) ∨
    (c.from_ = c.to_ ∧ ∃ r, entries = [(c.from_, r)])

theorem Aligned.le (h : Aligned c entries) :
    c.from_ ≤ c.to_ := by
  rcases h.shape with h | h <;> omega

/-- Built from `all` but for `entries`. -/
structure Built (all : List (Int × List E)) (added : List Int)
    (W : List (SubChange E × List (Int × List E))) (entries : List (Int × List E)) : Prop where
  aligned : ∀ w ∈ W, Aligned w.1 w.2
  separated : W.Pairwise fun v w => v.1.to_ ≤ w.1.from_
  covered : ∀ q, covers (W.map fst) q = true ↔ q ∈ added
  ordered : (W.flatMap snd).Pairwise fun a b => a.1 < b.1
  complete : (W.flatMap snd ++ entries).Perm all

/-- Only runs so far: they do not touch. -/
def Runs (W : List (SubChange E × List (Int × List E))) : Prop :=
  (∀ w ∈ W, w.1.from_ < w.1.to_) ∧ W.Pairwise fun v w => v.1.to_ < w.1.from_

section Run

variable {all entries : List (Int × List E)} {added : List Int}
  {W : List (SubChange E × List (Int × List E))}

section

variable (h : Built all added W entries)
include h

theorem Built.run_end (hruns : Runs W) (hi : ∀ d ∈ added, d < i) (hw : w ∈ W) :
    w.1.to_ ≤ i := by
  have hlt := hruns.1 w hw
  have hcov : covers (W.map fst) (w.1.to_ - 1) = true :=
    covers_iff.mpr ⟨w.1, mem_map_of_mem hw, by omega, by omega⟩
  have := hi _ ((h.covered _).mp hcov)
  omega

theorem Built.key_lt (hruns : Runs W)
    (hi : ∀ d ∈ added, d < i) (he : e ∈ W.flatMap snd) : e.1 < i := by
  obtain ⟨w, hw, he⟩ := mem_flatMap.mp he
  have hend := h.run_end hruns hi hw
  have hlt := hruns.1 w hw
  rcases (h.aligned w hw).shape with hshape | hshape
  · have := hshape.2 e he
    omega
  · omega

omit h in
theorem covers_append {xs ys : List (SubChange E)} :
    covers (xs ++ ys) q = true ↔ covers xs q = true ∨ covers ys q = true := by
  rw [covers, any_append, Bool.or_eq_true]
  rfl

omit h in
theorem covers_singleton :
    covers [c] q = true ↔ c.from_ ≤ q ∧ q < c.to_ := by
  simp [covers]

theorem Built.newRun (hruns : Runs W) (hi : ∀ w ∈ W, w.1.to_ < i) :
    Built all (added ++ [i]) (W ++ [(⟨i, i + 1, none, SubChange.emptyPerm, false⟩, [])]) entries ∧
      Runs (W ++ [(⟨i, i + 1, none, SubChange.emptyPerm, false⟩, [])]) := by
  have hnew : Aligned (E := E) ⟨i, i + 1, none, SubChange.emptyPerm, false⟩ [] :=
    ⟨rfl, fun hne => absurd rfl hne, Or.inl ⟨Int.lt_succ i, fun e he => by cases he⟩⟩
  refine ⟨⟨?_, ?_, ?_, ?_, ?_⟩, ?_, ?_⟩
  · intro w hw
    rcases mem_append.mp hw with hw | hw
    · exact h.aligned w hw
    · rw [mem_singleton.mp hw]
      exact hnew
  · refine pairwise_append.mpr ⟨h.separated, pairwise_singleton _ _, ?_⟩
    intro v hv w hw
    rw [mem_singleton.mp hw]
    exact Int.le_of_lt (hi v hv)
  · intro q
    rw [map_append, covers_append, h.covered, mem_append, mem_singleton]
    show _ ∨ covers [_] q = true ↔ _
    rw [covers_singleton]
    dsimp only
    have hone : i ≤ q ∧ q < i + 1 ↔ q = i := by omega
    rw [hone]
  · simpa using h.ordered
  · simpa using h.complete
  · intro w hw
    rcases mem_append.mp hw with hw | hw
    · exact hruns.1 w hw
    · rw [mem_singleton.mp hw]
      exact Int.lt_succ i
  · refine pairwise_append.mpr ⟨hruns.2, pairwise_singleton _ _, ?_⟩
    intro v hv w hw
    rw [mem_singleton.mp hw]
    exact hi v hv

omit h in
theorem Built.longerRun (h : Built all added (V ++ [(c, z)]) entries)
    (hruns : Runs (V ++ [(c, z)])) (hi : c.to_ = i) :
    Built all (added ++ [i]) (V ++ [({ c with to_ := i + 1 }, z)]) entries ∧
      Runs (V ++ [({ c with to_ := i + 1 }, z)]) := by
  subst hi
  have hlast := h.aligned (c, z) (by simp)
  have hlt := hruns.1 (c, z) (by simp)
  dsimp only at hlast hlt
  have hgrown : Aligned { c with to_ := c.to_ + 1 } z := by
    refine ⟨hlast.removed, hlast.present, Or.inl ⟨?_, ?_⟩⟩
    · dsimp only
      omega
    · intro e he
      rcases hlast.shape with hshape | hshape
      · have := hshape.2 e he
        dsimp only
        omega
      · omega
  obtain ⟨hsep, -, hsep'⟩ := pairwise_append.mp h.separated
  obtain ⟨hrun, -, hrun'⟩ := pairwise_append.mp hruns.2
  refine ⟨⟨?_, ?_, ?_, ?_, ?_⟩, ?_, ?_⟩
  · intro w hw
    rcases mem_append.mp hw with hw | hw
    · exact h.aligned w (mem_append_left _ hw)
    · rw [mem_singleton.mp hw]
      exact hgrown
  · refine pairwise_append.mpr ⟨hsep, pairwise_singleton _ _, ?_⟩
    intro v hv w hw
    rw [mem_singleton.mp hw]
    exact hsep' v hv (c, z) mem_cons_self
  · intro q
    have hq := h.covered q
    rw [map_append, covers_append] at hq ⊢
    rw [mem_append, mem_singleton, ← hq, or_assoc]
    apply or_congr_right
    show covers [_] q = true ↔ covers [_] q = true ∨ _
    rw [covers_singleton, covers_singleton]
    dsimp only
    omega
  · simpa using h.ordered
  · simpa using h.complete
  · intro w hw
    rcases mem_append.mp hw with hw | hw
    · exact hruns.1 w (mem_append_left _ hw)
    · rw [mem_singleton.mp hw]
      dsimp only
      omega
  · refine pairwise_append.mpr ⟨hrun, pairwise_singleton _ _, ?_⟩
    intro v hv w hw
    rw [mem_singleton.mp hw]
    exact hrun' v hv (c, z) mem_cons_self

theorem Built.growRun (hruns : Runs W) (hi : ∀ d ∈ added, d < i) :
    ∃ V c z, ListChangeBuilder.growRun false (W.map fst) i = (V ++ [(c, z)]).map fst ∧
      c.to_ = i + 1 ∧ Built all (added ++ [i]) (V ++ [(c, z)]) entries ∧ Runs (V ++ [(c, z)]) ∧
      ∀ e ∈ (V ++ [(c, z)]).flatMap snd, e.1 < i := by
  have hkeys := fun e => h.key_lt hruns hi (e := e)
  rcases eq_nil_or_concat' W with rfl | ⟨V, w, rfl⟩
  · obtain ⟨hb, hr⟩ := h.newRun hruns (i := i) (by simp)
    exact ⟨[], _, [], rfl, rfl, hb, hr, by simp⟩
  · obtain ⟨c, z⟩ := w
    have hend := h.run_end hruns hi (w := (c, z)) (by simp)
    have hlast : ((V ++ [(c, z)]).map fst).getLast? = some c := by simp
    rw [ListChangeBuilder.growRun, hlast]
    dsimp only at hend ⊢
    by_cases hto : c.to_ = i
    · obtain ⟨hb, hr⟩ := h.longerRun hruns hto
      refine ⟨V, _, z, ?_, rfl, hb, hr, by simpa using hkeys⟩
      rw [if_neg (by simpa using hto)]
      simp
    · obtain ⟨hb, hr⟩ := h.newRun hruns (i := i) (by
        intro w hw
        rcases mem_append.mp hw with hw | hw
        · have h1 := (pairwise_append.mp hruns.2).2.2 w hw (c, z) mem_cons_self
          have h2 := hruns.1 (c, z) (by simp)
          dsimp only at h1 h2
          omega
        · rw [mem_singleton.mp hw]
          dsimp only
          omega)
      refine ⟨V ++ [(c, z)], _, [], ?_, rfl, hb, hr, by simpa using hkeys⟩
      rw [if_pos hto]
      simp

omit h in
/-- A removed list joins the sub-change that ends at its place. -/
theorem Built.attach {rest : List (Int × List E)} {r : List E}
    (h : Built all added (V ++ [(c, z)]) entries) (hruns : Runs (V ++ [(c, z)]))
    (hto : c.to_ = i + 1) (hkeys : ∀ e ∈ (V ++ [(c, z)]).flatMap snd, e.1 < i)
    (hrest : entries.Perm ((i, r) :: rest)) :
    Built all added (V ++ [({ c with removed := some (c.getRemoved ++ r) }, z ++ [(i, r)])]) rest ∧
      Runs (V ++ [({ c with removed := some (c.getRemoved ++ r) }, z ++ [(i, r)])]) := by
  have hlast := h.aligned (c, z) (by simp)
  have hlt := hruns.1 (c, z) (by simp)
  dsimp only at hlast hlt
  have hnew : Aligned { c with removed := some (c.getRemoved ++ r) } (z ++ [(i, r)]) := by
    refine ⟨?_, fun _ => ⟨_, rfl⟩, Or.inl ⟨hlt, ?_⟩⟩
    · show c.getRemoved ++ r = _
      rw [hlast.removed, flatMap_append]
      simp
    · intro e he
      rcases mem_append.mp he with he | he
      · rcases hlast.shape with hshape | hshape
        · exact hshape.2 e he
        · omega
      · rw [mem_singleton.mp he]
        dsimp only
        omega
  have hflat : (V ++ [({ c with removed := some (c.getRemoved ++ r) }, z ++ [(i, r)])]).flatMap
      snd = (V ++ [(c, z)]).flatMap snd ++ [(i, r)] := by simp
  obtain ⟨hsep, -, hsep'⟩ := pairwise_append.mp h.separated
  obtain ⟨hrun, -, hrun'⟩ := pairwise_append.mp hruns.2
  refine ⟨⟨?_, ?_, ?_, ?_, ?_⟩, ?_, ?_⟩
  · intro w hw
    rcases mem_append.mp hw with hw | hw
    · exact h.aligned w (mem_append_left _ hw)
    · rw [mem_singleton.mp hw]
      exact hnew
  · refine pairwise_append.mpr ⟨hsep, pairwise_singleton _ _, ?_⟩
    intro v hv w hw
    rw [mem_singleton.mp hw]
    exact hsep' v hv (c, z) mem_cons_self
  · intro q
    rw [← h.covered q, map_append, map_append, covers_append, covers_append]
    rfl
  · rw [hflat]
    refine pairwise_append.mpr ⟨h.ordered, pairwise_singleton _ _, ?_⟩
    intro a ha b hb
    rw [mem_singleton.mp hb]
    exact hkeys a ha
  · rw [hflat, append_assoc]
    exact (hrest.symm.append_left _).trans h.complete
  · intro w hw
    rcases mem_append.mp hw with hw | hw
    · exact hruns.1 w (mem_append_left _ hw)
    · rw [mem_singleton.mp hw]
      exact hlt
  · refine pairwise_append.mpr ⟨hrun, pairwise_singleton _ _, ?_⟩
    intro v hv w hw
    rw [mem_singleton.mp hw]
    exact hrun' v hv (c, z) mem_cons_self

omit h in
theorem lookup_none (h : entries.lookup i = none) : ∀ e ∈ entries, e.1 ≠ i := by
  rw [lookup_eq_none_iff] at h
  intro e he heq
  simpa [heq] using h e he

omit h in
theorem lookup_perm {r : List E} (hkeys : DistinctKeys entries) (h : entries.lookup i = some r) :
    entries.Perm ((i, r) :: entries.filter fun e => e.1 ≠ i) := by
  induction entries with
  | nil => cases h
  | cons e entries ih =>
    obtain ⟨k, v⟩ := e
    rw [DistinctKeys, map_cons, nodup_cons] at hkeys
    rw [lookup_cons] at h
    by_cases hk : i = k
    · subst hk
      simp only [beq_self_eq_true, Option.some.injEq] at h
      subst h
      have hrest : entries.filter (fun e => e.1 ≠ i) = entries := by
        rw [filter_eq_self]
        intro e he
        have : e.1 ≠ i := fun heq => hkeys.1 (mem_map.mpr ⟨e, he, heq⟩)
        simpa using this
      rw [filter_cons_of_neg (by simp), hrest]
    · have hbeq : (i == k) = false := by simpa using hk
      rw [hbeq] at h
      rw [filter_cons_of_pos (by simpa using fun heq => hk heq.symm)]
      exact (List.Perm.cons _ (ih hkeys.2 h)).trans (List.Perm.swap _ _ _)

theorem Built.distinctKeys (hall : DistinctKeys all) : DistinctKeys (W.flatMap snd ++ entries) :=
  (h.complete.map fst).nodup_iff.mpr hall

theorem Built.addRun (hruns : Runs W) (hall : DistinctKeys all) (hi : ∀ d ∈ added, d < i) :
    ∃ W' rest, ListChangeBuilder.addRun (W.map fst, entries) i = (W'.map fst, rest) ∧
      Built all (added ++ [i]) W' rest ∧ Runs W' ∧ ∀ e ∈ rest, e ∈ entries ∧ e.1 ≠ i := by
  have hdistinct : DistinctKeys entries := by
    have := h.distinctKeys hall
    rw [DistinctKeys, map_append] at this
    exact this.of_append_right
  obtain ⟨V, c, z, hgrow, hto, hb, hr, hkeys⟩ := h.growRun hruns hi
  rw [ListChangeBuilder.addRun, hgrow]
  cases hlookup : entries.lookup i with
  | none => exact ⟨_, entries, rfl, hb, hr, fun e he => ⟨he, lookup_none hlookup e he⟩⟩
  | some r =>
    obtain ⟨hb', hr'⟩ := hb.attach hr hto hkeys (lookup_perm hdistinct hlookup)
    refine ⟨_, _, ?_, hb', hr', ?_⟩
    · have hlast : ((V ++ [(c, z)]).map fst).getLast? = some c := by simp
      simp only [attachRemoved, hlast]
      simp
    · intro e he
      rw [mem_filter] at he
      exact ⟨he.1, by simpa using he.2⟩

theorem Built.addRuns (hruns : Runs W) (hall : DistinctKeys all)
    {xs : List Int} (hxs : (added ++ xs).Pairwise (· < ·)) :
    ∃ W' rest, xs.foldl ListChangeBuilder.addRun (W.map fst, entries)
        = (W'.map fst, rest) ∧ Built all (added ++ xs) W' rest ∧ Runs W' ∧
      ∀ e ∈ rest, e ∈ entries ∧ e.1 ∉ xs := by
  induction xs generalizing added W entries with
  | nil => exact ⟨W, entries, rfl, by simpa using h, hruns, fun e he => ⟨he, not_mem_nil⟩⟩
  | cons i xs ih =>
    have hi : ∀ d ∈ added, d < i := fun d hd =>
      (pairwise_append.mp hxs).2.2 d hd i mem_cons_self
    obtain ⟨W1, rest1, hstep, h1, hruns1, hrest1⟩ := h.addRun hruns hall hi
    rw [append_cons] at hxs ⊢
    obtain ⟨W', rest, hloop, h', hruns', hrest⟩ := ih h1 hruns1 hxs
    refine ⟨W', rest, ?_, h', hruns', ?_⟩
    · rw [foldl_cons, hstep, hloop]
    · intro e he
      obtain ⟨he1, hne⟩ := hrest e he
      obtain ⟨he2, hne'⟩ := hrest1 e he1
      refine ⟨he2, ?_⟩
      rw [mem_cons]
      rintro (heq | hmem)
      · exact hne' heq
      · exact hne hmem

omit h in
theorem Aligned.key_lt (h : Aligned c z)
    (hto : c.to_ ≤ k) (hne : ∀ e ∈ z, e.1 ≠ k) : ∀ e ∈ z, e.1 < k := by
  intro e he
  have := hne e he
  rcases h.shape with hshape | ⟨heq, r, rfl⟩
  · have := hshape.2 e he
    omega
  · obtain rfl := mem_singleton.mp he
    dsimp only at this ⊢
    omega

omit h in
theorem Aligned.lt_key (h : Aligned c z) (hfrom : k < c.from_) : ∀ e ∈ z, k < e.1 := by
  intro e he
  rcases h.shape with hshape | ⟨heq, r, rfl⟩
  · have := hshape.2 e he
    omega
  · obtain rfl := mem_singleton.mp he
    exact hfrom

omit h in
/-- One more removed list is inserted at its place. -/
theorem Built.insertAnchor (h : Built all added W (e :: entries))
    (hall : DistinctKeys all) (he : e.1 ∉ added) :
    ∃ W', ListChangeBuilder.insertAnchor (W.map fst) e = .ok (W'.map fst) ∧
      Built all added W' entries ∧ ∀ w ∈ W', w ∈ W ∨ w.2 ≠ [] := by
  have hle : ∀ c ∈ W.map fst, c.from_ ≤ c.to_ := by
    intro c hc
    obtain ⟨w, hw, rfl⟩ := mem_map.mp hc
    exact (h.aligned w hw).le
  have hsort : (W.map fst).Pairwise fun a b => a.to_ ≤ b.from_ := pairwise_map.mpr h.separated
  cases hfind : findSubChange e.1 (W.map fst) with
  | found i =>
    obtain ⟨pre, c, post, hW, -, h1, h2⟩ := findSubChange_found hfind
    have hcov : covers (W.map fst) e.1 = true := covers_iff.mpr ⟨c, by rw [hW]; simp, h1, h2⟩
    exact absurd ((h.covered e.1).mp hcov) he
  | notFound i =>
    obtain ⟨pre, post, hW, rfl, hpre, hpost⟩ := findSubChange_notFound hle hsort hfind
    -- the key is not added, so that it lies between two sub-changes
    obtain ⟨W1, W2, rfl, rfl, rfl⟩ := map_eq_append_iff.mp hW
    have hpre' : ∀ w ∈ W1, w.1.to_ ≤ e.1 := fun w hw => hpre w.1 (mem_map_of_mem hw)
    have hpost' : ∀ w ∈ W2, e.1 < w.1.from_ := fun w hw => hpost w.1 (mem_map_of_mem hw)
    have hne : ∀ x ∈ (W1 ++ W2).flatMap snd, x.1 ≠ e.1 := by
      intro x hx heq
      have := h.distinctKeys hall
      rw [DistinctKeys, map_append, nodup_append] at this
      exact this.2.2 x.1 (mem_map_of_mem hx) e.1 (by simp) heq
    have hnew : Aligned (⟨e.1, e.1, some e.2, [], false⟩ : SubChange E) [e] :=
      ⟨by simp [SubChange.getRemoved], fun _ => ⟨_, rfl⟩, Or.inr ⟨rfl, e.2, rfl⟩⟩
    have hflat : (W1 ++ (⟨e.1, e.1, some e.2, [], false⟩, [e]) :: W2).flatMap snd
        = W1.flatMap snd ++ e :: W2.flatMap snd := by simp
    refine ⟨W1 ++ (⟨e.1, e.1, some e.2, [], false⟩, [e]) :: W2, ?_, ⟨?_, ?_, ?_, ?_, ?_⟩, ?_⟩
    · rw [ListChangeBuilder.insertAnchor, hfind, map_append]
      simp only [ListAt.insertIdx_seam, map_append, map_cons]
    · intro w hw
      rcases mem_append.mp hw with hw | hw
      · exact h.aligned w (mem_append_left _ hw)
      · rcases mem_cons.mp hw with rfl | hw
        · exact hnew
        · exact h.aligned w (mem_append_right _ hw)
    · obtain ⟨hs1, hs2, hs12⟩ := pairwise_append.mp h.separated
      refine pairwise_append.mpr ⟨hs1, pairwise_cons.mpr ⟨?_, hs2⟩, ?_⟩
      · intro w hw
        exact Int.le_of_lt (hpost' w hw)
      · intro v hv w hw
        rcases mem_cons.mp hw with rfl | hw
        · exact hpre' v hv
        · exact hs12 v hv w hw
    · intro q
      rw [← h.covered q, map_append, map_append, map_cons, covers_append, covers_append]
      apply or_congr_right
      show covers ([_] ++ W2.map fst) q = true ↔ _
      rw [covers_append, covers_singleton]
      constructor
      · rintro (hq | hq)
        · dsimp only at hq
          omega
        · exact hq
      · exact Or.inr
    · have hordered := h.ordered
      rw [flatMap_append] at hordered
      obtain ⟨ho1, ho2, ho12⟩ := pairwise_append.mp hordered
      rw [hflat]
      refine pairwise_append.mpr ⟨ho1, pairwise_cons.mpr ⟨?_, ho2⟩, ?_⟩
      · intro x hx
        obtain ⟨w, hw, hx⟩ := mem_flatMap.mp hx
        exact (h.aligned w (mem_append_right _ hw)).lt_key (hpost' w hw) x hx
      · intro x hx y hy
        rcases mem_cons.mp hy with rfl | hy
        · obtain ⟨w, hw, hx⟩ := mem_flatMap.mp hx
          refine (h.aligned w (mem_append_left _ hw)).key_lt (hpre' w hw) ?_ x hx
          intro x' hx'
          exact hne x' (mem_flatMap.mpr ⟨w, mem_append_left _ hw, hx'⟩)
        · exact ho12 x hx y hy
    · rw [hflat]
      refine List.Perm.trans ?_ h.complete
      rw [flatMap_append, append_assoc, append_assoc]
      exact List.Perm.append_left _ (by simpa using perm_middle.symm)
    · intro w hw
      rcases mem_append.mp hw with hw | hw
      · exact Or.inl (mem_append_left _ hw)
      · rcases mem_cons.mp hw with rfl | hw
        · exact Or.inr (by simp)
        · exact Or.inl (mem_append_right _ hw)

theorem Built.insertAnchors (hall : DistinctKeys all) (hout : ∀ e ∈ entries, e.1 ∉ added) :
    ∃ W', entries.foldlM ListChangeBuilder.insertAnchor (W.map fst) = .ok (W'.map fst) ∧
      Built all added W' [] ∧ ∀ w ∈ W', w ∈ W ∨ w.2 ≠ [] := by
  induction entries generalizing W with
  | nil => exact ⟨W, rfl, h, fun w hw => Or.inl hw⟩
  | cons e entries ih =>
    obtain ⟨W1, hstep, h1, hold1⟩ := h.insertAnchor hall (hout e mem_cons_self)
    obtain ⟨W', hloop, h', hold⟩ := ih h1 fun x hx => hout x (mem_cons_of_mem _ hx)
    refine ⟨W', ?_, h', ?_⟩
    · rw [foldlM_cons, hstep]
      exact hloop
    · intro w hw
      rcases hold w hw with hw | hw
      · exact hold1 w hw
      · exact Or.inr hw

end

end Run

/-! ## The moved sub-changes -/

/-- The added positions, and `newRemoved`. -/
def newAdded (from_ : Int) (perm : List Int) (cs : List (SubChange E)) : List Int :=
  treeAddAll [] (addedImages from_ perm cs)

/-- The removed lists by their places after the permutation. -/
def newRemoved (from_ : Int) (perm : List Int) (cs : List (SubChange E)) : List (Int × List E) :=
  mapPutAll [] (cs.filterMap (anchor from_ perm))

theorem mem_newAdded (hperm : IsPermutation from_ perm) :
    q ∈ newAdded from_ perm cs ↔ movedCovers from_ perm cs q = true := by
  rw [newAdded, mem_treeAddAll, mem_addedImages hperm]
  simp

/-- In every run of images of added positions a sub-change with a list of removed elements ends
    up. -/
def EveryRunAnchored (from_ : Int) (perm : List Int) (cs : List (SubChange E)) : Prop :=
  ∀ q ∈ addedImages from_ perm cs, ∃ d ∈ cs, d.removed.isSome ∧
    ∀ r ∈ segment id (min q (image from_ perm d.from_))
        ((max q (image from_ perm d.from_) - min q (image from_ perm d.from_)).toNat + 1),
      r ∈ addedImages from_ perm cs

instance (from_ : Int) (perm : List Int) (cs : List (SubChange E)) :
    Decidable (EveryRunAnchored from_ perm cs) :=
  inferInstanceAs (Decidable (∀ q ∈ _, _))

theorem EveryRunAnchored.between (hperm : IsPermutation from_ perm)
    (h : EveryRunAnchored from_ perm cs) (hq : q ∈ newAdded from_ perm cs) :
    ∃ d ∈ cs, d.removed.isSome ∧ ∀ r, min q (image from_ perm d.from_) ≤ r →
      r ≤ max q (image from_ perm d.from_) → r ∈ newAdded from_ perm cs := by
  rw [mem_newAdded hperm, ← mem_addedImages hperm] at hq
  obtain ⟨d, hd, hsome, hbetween⟩ := h q hq
  refine ⟨d, hd, hsome, fun r h1 h2 => ?_⟩
  rw [mem_newAdded hperm, ← mem_addedImages hperm]
  exact hbetween r (mem_segment.mpr ⟨r, h1, by omega, rfl⟩)

theorem Runs.eq_of_touch (hruns : Runs W)
    {v : SubChange E × List (Int × List E)} (hv : v ∈ W) (hw : w ∈ W)
    (h1 : v.1.from_ ≤ w.1.to_) (h2 : w.1.from_ ≤ v.1.to_) : v = w := by
  obtain ⟨pre, post, rfl⟩ := append_of_mem hw
  obtain ⟨-, hpost, hpre⟩ := pairwise_append.mp hruns.2
  rcases mem_append.mp hv with hv | hv
  · have := hpre v hv w mem_cons_self
    omega
  · rcases mem_cons.mp hv with rfl | hv
    · rfl
    · have := (pairwise_cons.mp hpost).1 v hv
      omega

theorem Built.run_maximal {added : List Int} (h : Built all added W entries)
    (hruns : Runs W) (hw : w ∈ W) :
    w.1.from_ - 1 ∉ added ∧ w.1.to_ ∉ added := by
  have hlt := hruns.1 w hw
  have hout : ∀ q, (q = w.1.from_ - 1 ∨ q = w.1.to_) → q ∉ added := by
    intro q hq hmem
    obtain ⟨c, hc, h1, h2⟩ := covers_iff.mp ((h.covered q).mpr hmem)
    obtain ⟨v, hv, rfl⟩ := mem_map.mp hc
    obtain rfl := hruns.eq_of_touch hv hw (by omega) (by omega)
    omega
  exact ⟨hout _ (Or.inl rfl), hout _ (Or.inr rfl)⟩

theorem moveAddRemove_spec (hperm : IsPermutation from_ perm) (cs : List (SubChange E)) :
    ∃ W, moveAddRemove from_ (from_ + perm.length) perm cs = .ok (W.map fst) ∧
      Built (newRemoved from_ perm cs) (newAdded from_ perm cs) W [] ∧
      (EveryRunAnchored from_ perm cs → HasRemoved (W.map fst)) := by
  have hall : DistinctKeys (newRemoved from_ perm cs) :=
    DistinctKeys.mapPutAll (by simp [DistinctKeys]) _
  have hsort : (newAdded from_ perm cs).Pairwise (· < ·) := treeAddAll_sorted List.Pairwise.nil _
  have hst : Built (newRemoved from_ perm cs) [] [] (newRemoved from_ perm cs) :=
    ⟨by simp, List.Pairwise.nil, by simp [covers], List.Pairwise.nil, List.Perm.refl _⟩
  obtain ⟨V, rest, hloop, hV, hruns, hrest⟩ := hst.addRuns
    ⟨by simp, List.Pairwise.nil⟩ hall (by simpa using hsort)
  rw [nil_append] at hV
  obtain ⟨W, hloop', hW, hold⟩ := hV.insertAnchors hall fun e he => (hrest e he).2
  refine ⟨W, ?_, hW, ?_⟩
  · rw [moveAddRemove, foldlM_addImages, foldlM_putImage]
    simp only [bind, Except.bind]
    rw [map_nil] at hloop
    simp only [newAdded, newRemoved] at hloop hloop'
    rw [hloop]
    exact hloop'
  · intro hanchored c hc
    obtain ⟨w, hw, rfl⟩ := mem_map.mp hc
    refine (hW.aligned w hw).present ?_
    rcases hold w hw with hwV | hne
    · -- a run: the entry of the anchor it contains went into it
      have hlt := hruns.1 w hwV
      obtain ⟨hbef, hbehind⟩ := hV.run_maximal hruns hwV
      have hfst : w.1.from_ ∈ newAdded from_ perm cs :=
        (hV.covered _).mp (covers_iff.mpr ⟨w.1, mem_map_of_mem hwV, by omega, by omega⟩)
      obtain ⟨d, hd, hsome, hbetween⟩ := hanchored.between hperm hfst
      have hin : w.1.from_ ≤ image from_ perm d.from_ ∧ image from_ perm d.from_ < w.1.to_ := by
        constructor
        · by_contra hcon
          exact hbef (hbetween _ (by omega) (by omega))
        · by_contra hcon
          exact hbehind (hbetween _ (by omega) (by omega))
      have hkey : image from_ perm d.from_ ∈ (newRemoved from_ perm cs).map fst := by
        rw [newRemoved, mem_keys_mapPutAll]
        obtain ⟨r, hr⟩ := Option.isSome_iff_exists.mp hsome
        exact Or.inr (mem_map.mpr ⟨(image from_ perm d.from_, r),
          mem_filterMap.mpr ⟨d, hd, by rw [anchor, hr]; rfl⟩, rfl⟩)
      obtain ⟨e, he, hekey⟩ := mem_map.mp hkey
      rcases mem_append.mp (hV.complete.mem_iff.mpr he) with hmem | hmem
      · obtain ⟨v, hv, hev⟩ := mem_flatMap.mp hmem
        rcases (hV.aligned v hv).shape with hshape | hshape
        · have := hshape.2 e hev
          obtain rfl := hruns.eq_of_touch hv hwV (by omega) (by omega)
          exact ne_nil_of_mem hev
        · have := hruns.1 v hv
          omega
      · refine absurd ?_ (hrest e hmem).2
        rw [hekey]
        exact hbetween _ (by omega) (by omega)
    · exact hne

theorem placed_of_pairwise {p : Int} (hpq : p ≤ q)
    (hbounds : ∀ c ∈ cs, p ≤ c.from_ ∧ c.from_ ≤ c.to_ ∧ c.to_ ≤ q)
    (hsep : cs.Pairwise fun a b => a.to_ ≤ b.from_) : Placed p cs q := by
  induction cs generalizing p with
  | nil => exact hpq
  | cons c cs ih =>
    obtain ⟨h1, h2, h3⟩ := hbounds c mem_cons_self
    obtain ⟨hc, hsep⟩ := pairwise_cons.mp hsep
    refine ⟨h1, h2, ih h3 ?_ hsep⟩
    intro d hd
    have := hbounds d (.tail _ hd)
    exact ⟨hc d hd, this.2⟩

/-- The moved sub-changes stand in the list as the old ones did. -/
theorem Built.placed (hperm : IsPermutation from_ perm) (h0 : 0 ≤ from_) {n : Nat}
    (hle : from_ + perm.length ≤ n) (hcs : Placed 0 cs n)
    (h : Built (newRemoved from_ perm cs) (newAdded from_ perm cs) W []) :
    Placed 0 (W.map fst) n := by
  have hadded : ∀ q ∈ newAdded from_ perm cs, 0 ≤ q ∧ q < n := by
    intro q hq
    obtain ⟨c, hc, h1, h2⟩ := covers_iff.mp ((mem_newAdded hperm).mp hq)
    have hb := hcs.bounds c hc
    have := hperm.image_bounds h0 hle (p := source from_ perm q) (by omega) (by omega)
    rwa [hperm.image_source] at this
  have hkeys : ∀ e ∈ newRemoved from_ perm cs, 0 ≤ e.1 ∧ e.1 ≤ n := by
    intro e he
    have hkey := mem_keys_mapPutAll.mp (mem_map_of_mem he (f := fst))
    simp only [map_nil, not_mem_nil, false_or] at hkey
    obtain ⟨x, hx, hxe⟩ := mem_map.mp hkey
    obtain ⟨c, hc, hanchor⟩ := mem_filterMap.mp hx
    rw [anchor, Option.map_eq_some_iff] at hanchor
    obtain ⟨r, -, rfl⟩ := hanchor
    have hb := hcs.bounds c hc
    rw [← hxe]
    dsimp only
    by_cases hend : c.from_ = n
    · rw [image_of_not_range (by omega)]
      omega
    · have := hperm.image_bounds h0 hle (p := c.from_) (by omega) (by omega)
      omega
  apply placed_of_pairwise (by omega) _ (pairwise_map.mpr h.separated)
  intro c hc
  obtain ⟨w, hw, rfl⟩ := mem_map.mp hc
  rcases (h.aligned w hw).shape with ⟨hlt, -⟩ | ⟨heq, r, hr⟩
  · have hin : ∀ q, w.1.from_ ≤ q → q < w.1.to_ → 0 ≤ q ∧ q < n := fun q h1 h2 =>
      hadded q ((h.covered q).mp (covers_iff.mpr ⟨w.1, mem_map_of_mem hw, h1, h2⟩))
    have hfst := hin w.1.from_ (by omega) hlt
    have hlast := hin (w.1.to_ - 1) (by omega) (by omega)
    omega
  · have hmem : (w.1.from_, r) ∈ W.flatMap snd ++ [] := by
      rw [append_nil, mem_flatMap]
      exact ⟨w, hw, by rw [hr]; exact mem_singleton_self _⟩
    have := hkeys _ (h.complete.mem_iff.mp hmem)
    dsimp only at this
    omega

/-- The elements by the kept positions before. -/
def anchoredEntries (added : Int → Bool) (entries : List (Int × List E)) : List (Nat × E) :=
  entries.flatMap fun e => e.2.map fun x => (keptBefore added e.1, x)

theorem Built.anchored_eq {added : List Int} (h : Built all added W entries)
    (h0 : ∀ w ∈ W, 0 ≤ w.1.from_) {f : Int → Bool} (hf : ∀ q, f q = true ↔ q ∈ added) :
    anchored f (W.map fst) = anchoredEntries f (W.flatMap snd) := by
  rw [anchored, anchoredEntries, flatMap_map, flatMap_assoc]
  apply flatMap_congr
  intro w hw
  have hsame : ∀ e ∈ w.2, keptBefore f e.1 = keptBefore f w.1.from_ := by
    intro e he
    rcases (h.aligned w hw).shape with hshape | ⟨heq, r, hr⟩
    · have := hshape.2 e he
      apply keptBefore_added (h0 w hw) this.1
      intro i h1 h2
      rw [hf, ← h.covered]
      exact covers_iff.mpr ⟨w.1, mem_map_of_mem hw, h1, by omega⟩
    · rw [hr] at he
      rw [mem_singleton.mp he]
  rw [(h.aligned w hw).removed, map_flatMap]
  apply flatMap_congr
  intro e he
  rw [hsame e he]

theorem anchoredEntries_nonempty (f : Int → Bool) (entries : List (Int × List E)) :
    anchoredEntries f entries = anchoredEntries f (nonempty entries) := by
  induction entries with
  | nil => rfl
  | cons e entries ih =>
    cases hv : e.2 with
    | nil =>
      rw [nonempty, filter_cons_of_neg (by simp [hv]), anchoredEntries, flatMap_cons, hv]
      exact ih
    | cons x xs =>
      rw [nonempty, filter_cons_of_pos (by simp [hv]), anchoredEntries, flatMap_cons,
        anchoredEntries, flatMap_cons]
      exact congrArg _ ih

end OpenJfx.Collections.ListChangeBuilder
