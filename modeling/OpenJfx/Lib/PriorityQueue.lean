/-
  OpenJfx.Lib.PriorityQueue

  The binary heap of `java.util.PriorityQueue`, over any comparator.

  The elements are kept for any comparator, consistent or not.  They come out in
  order when the comparator agrees with the order of their keys.
-/

import Mathlib.Data.List.Perm.Basic
import OpenJfx.Lib.HeapOrder

namespace OpenJfx

open List

namespace PriorityQueue

variable {α : Type} (compare : α → α → Int)

/-! ## Operations -/

/-- `siftUp` from index `k`, which is at most `fuel`. -/
def siftUp : Nat → Nat → List α → List α
  | 0, _, queue => queue
  | fuel + 1, k, queue =>
    let parent := (k - 1) / 2
    match queue[k]?, queue[parent]? with
    | some x, some e =>
      if k = 0 ∨ compare x e ≥ 0 then queue else siftUp fuel parent (queue.swap k parent)
    | _, _ => queue

/-- The child of `k` that comes first. -/
def lesserChild (k : Nat) (queue : List α) : Nat :=
  let child := 2 * k + 1
  match queue[child]?, queue[child + 1]? with
  | some c, some right => if compare c right > 0 then child + 1 else child
  | _, _ => child

/-- `siftDown` from index `k`, which grows. -/
def siftDown : Nat → Nat → List α → List α
  | 0, _, queue => queue
  | fuel + 1, k, queue =>
    if k < queue.length / 2 then
      let child := lesserChild compare k queue
      match queue[k]?, queue[child]? with
      | some x, some c =>
        if compare x c ≤ 0 then queue else siftDown fuel child (queue.swap k child)
      | _, _ => queue
    else queue

/-- At the end, and then sifted up. -/
def add (queue : List α) (x : α) : List α :=
  siftUp compare queue.length queue.length (queue ++ [x])

/-- `remove`: the head of the queue and the rest; an empty queue has none. -/
def remove : List α → Option (α × List α)
  | [] => none
  | head :: rest =>
    match rest.getLast? with
    | none => some (head, [])
    | some last => some (head, siftDown compare rest.length 0 (last :: rest.dropLast))

/-! ## The elements stay -/

variable {compare}

theorem siftUp_perm (fuel k : Nat) (queue : List α) : (siftUp compare fuel k queue).Perm queue := by
  induction fuel generalizing k queue with
  | zero => exact List.Perm.refl _
  | succ fuel ih =>
    rw [siftUp]
    split
    · split
      · exact List.Perm.refl _
      · exact (ih _ _).trans (swap_perm _ _ _)
    · exact List.Perm.refl _

theorem siftDown_perm (fuel k : Nat) (queue : List α) :
    (siftDown compare fuel k queue).Perm queue := by
  induction fuel generalizing k queue with
  | zero => exact List.Perm.refl _
  | succ fuel ih =>
    rw [siftDown]
    dsimp only
    split
    · split
      · split
        · exact List.Perm.refl _
        · exact (ih _ _).trans (swap_perm _ _ _)
      · exact List.Perm.refl _
    · exact List.Perm.refl _

theorem add_perm (queue : List α) (x : α) : (add compare queue x).Perm (x :: queue) :=
  (siftUp_perm _ _ _).trans (perm_append_singleton x queue)

theorem remove_eq_none_iff {queue : List α} : remove compare queue = none ↔ queue = [] := by
  cases queue with
  | nil => exact ⟨fun _ => rfl, fun _ => rfl⟩
  | cons head rest =>
    rw [remove]
    split <;> simp

variable {x : α}

theorem remove_perm {queue rest : List α} (h : remove compare queue = some (x, rest)) :
    queue.Perm (x :: rest) := by
  cases queue with
  | nil => cases h
  | cons head tail =>
    rw [remove] at h
    split at h
    · next hnone =>
      cases h
      rw [getLast?_eq_none_iff.mp hnone]
    · next last hlast =>
      cases h
      apply List.Perm.cons
      obtain ⟨init, rfl⟩ := getLast?_eq_some_iff.mp hlast
      rw [dropLast_concat]
      exact (perm_append_singleton last init).trans (siftDown_perm _ _ _).symm

/-! ## The order -/

open HeapOrder

variable {β : Type} [LinearOrder β] {key : α → β} {queue : List α}

/-- The comparator agrees with the order of the keys. -/
def Agrees (compare : α → α → Int) (key : α → β) (l : List α) : Prop :=
  ∀ a ∈ l, ∀ b ∈ l, (compare a b < 0 ↔ key a < key b) ∧ (0 < compare a b ↔ key b < key a)

theorem Agrees.subset {l l' : List α} (h : Agrees compare key l) (hsub : ∀ a ∈ l', a ∈ l) :
    Agrees compare key l' :=
  fun a ha b hb => h a (hsub a ha) b (hsub b hb)

/-- The key at an index, and that of `d` beyond the end. -/
def keyAt (key : α → β) (d : α) (queue : List α) (m : Nat) : β := key (queue.getD m d)

omit [LinearOrder β] in
theorem keyAt_of_getElem? {d : α} {m : Nat} (hx : queue[m]? = some x) :
    keyAt key d queue m = key x := by
  rw [keyAt, getD_eq_getElem?_getD, hx, Option.getD_some]

omit [LinearOrder β] in
theorem keyAt_append {d : α} {m : Nat} (l : List α) (hm : m < queue.length) :
    keyAt key d (queue ++ l) m = keyAt key d queue m := by
  rw [keyAt, keyAt, getD_eq_getElem?_getD, getD_eq_getElem?_getD, getElem?_append_left hm]

/-- No element has a smaller key than the one above it. -/
def Ordered (key : α → β) (queue : List α) : Prop :=
  ∀ d, OrderedFrom (keyAt key d queue) queue.length 0

omit [LinearOrder β] in
theorem exchanged_swap {d : α} {i j : Nat} (hi : i < queue.length) (hj : j < queue.length) :
    Exchanged (keyAt key d queue) (keyAt key d (queue.swap i j)) i j := by
  intro m
  have hlen : (queue.swap i j).length = queue.length := length_swap
  split
  · next hm =>
    rw [hm, keyAt_of_getElem? (getElem?_eq_getElem hj),
      keyAt_of_getElem? (getElem?_eq_getElem (hlen ▸ hi)), getElem_swap_left_of_lt hj]
  · next hmi =>
    split
    · next hm =>
      rw [hm, keyAt_of_getElem? (getElem?_eq_getElem hi),
        keyAt_of_getElem? (getElem?_eq_getElem (hlen ▸ hj)),
        getElem_swap_right_of_lt hi]
    · next hmj =>
      rcases Nat.lt_or_ge m queue.length with hm | hm
      · rw [keyAt_of_getElem? (getElem?_eq_getElem hm),
          keyAt_of_getElem? (getElem?_eq_getElem (hlen ▸ hm)),
          getElem_swap_of_ne hmi hmj]
      · rw [keyAt, keyAt, getD_eq_getElem?_getD, getD_eq_getElem?_getD,
          getElem?_eq_none hm, getElem?_eq_none (hlen ▸ hm)]

theorem siftUp_ordered {fuel k : Nat} (hagr : Agrees compare key queue) (hk : k < queue.length)
    (hfuel : k ≤ fuel) (h : ∀ d, TooSmall (keyAt key d queue) queue.length k) :
    Ordered key (siftUp compare fuel k queue) := by
  have hroot : k = 0 → Ordered key queue := by
    rintro rfl d
    refine (h d).done fun p hp => ?_
    have := hp.lt
    omega
  induction fuel generalizing k queue with
  | zero => exact hroot (Nat.le_zero.mp hfuel)
  | succ fuel ih =>
    have hpar : (k - 1) / 2 < queue.length := by omega
    have hx := getElem?_eq_getElem hk
    have he := getElem?_eq_getElem hpar
    rw [siftUp]
    simp only [hx, he]
    by_cases hzero : k = 0
    · rw [if_pos (Or.inl hzero)]
      exact hroot hzero
    · have hchild := isChild_parent (Nat.pos_of_ne_zero hzero)
      obtain ⟨hlt, -⟩ := hagr _ (getElem_mem hk) _ (getElem_mem hpar)
      split
      · next hge =>
        intro d
        refine (h d).done fun p hp => ?_
        rw [hp.unique hchild, keyAt_of_getElem? hx, keyAt_of_getElem? he]
        exact not_lt.mp fun hlt' => by have := hlt.mpr hlt'; omega
      · next hless =>
        have hkeys : ∀ d, keyAt key d queue k ≤ keyAt key d queue ((k - 1) / 2) := by
          intro d
          rw [keyAt_of_getElem? hx, keyAt_of_getElem? he]
          exact (hlt.mp (by omega)).le
        have hlen : (queue.swap k ((k - 1) / 2)).length = queue.length := length_swap
        have hmove : ∀ d, TooSmall (keyAt key d (queue.swap k ((k - 1) / 2)))
            (queue.swap k ((k - 1) / 2)).length ((k - 1) / 2) := by
          intro d
          rw [hlen]
          exact (h d).move hk hchild (hkeys d) (exchanged_swap hk hpar)
        refine ih (hagr.subset fun a ha => (swap_perm _ _ _).mem_iff.mp ha)
          (by rw [hlen]; exact hpar) (by omega) hmove ?_
        intro hzero' d
        refine (hmove d).done fun p hp => ?_
        have := hp.lt
        omega

theorem lesserChild_spec {k : Nat} (hagr : Agrees compare key queue)
    (hk : k < queue.length / 2) :
    IsChild (lesserChild compare k queue) k ∧ lesserChild compare k queue < queue.length ∧
      ∀ d, ∀ c < queue.length, IsChild c k →
        keyAt key d queue (lesserChild compare k queue) ≤ keyAt key d queue c := by
  have hleft : 2 * k + 1 < queue.length := by omega
  have hl := getElem?_eq_getElem hleft
  rcases Nat.lt_or_ge (2 * k + 1 + 1) queue.length with hright | hright
  · have hr := getElem?_eq_getElem hright
    obtain ⟨-, hgt⟩ := hagr _ (getElem_mem hleft) _ (getElem_mem hright)
    rw [lesserChild]
    simp only [hl, hr]
    split
    · next hpos =>
      refine ⟨Or.inr rfl, hright, fun d c _ hc => ?_⟩
      rcases hc with rfl | rfl
      · rw [keyAt_of_getElem? hr, keyAt_of_getElem? hl]
        exact (hgt.mp hpos).le
      · exact le_refl _
    · next hnot =>
      refine ⟨Or.inl rfl, hleft, fun d c _ hc => ?_⟩
      rcases hc with rfl | rfl
      · exact le_refl _
      · rw [keyAt_of_getElem? hl]
        refine le_of_le_of_eq ?_ (keyAt_of_getElem? hr).symm
        exact not_lt.mp fun hlt => hnot (hgt.mpr hlt)
  · have hr := getElem?_eq_none hright
    rw [lesserChild]
    simp only [hl, hr]
    refine ⟨Or.inl rfl, hleft, fun d c hc hck => ?_⟩
    rcases hck with rfl | rfl
    · exact le_refl _
    · omega

theorem siftDown_ordered {fuel k : Nat} (hagr : Agrees compare key queue)
    (hfuel : queue.length ≤ fuel + k) (h : ∀ d, TooLarge (keyAt key d queue) queue.length 0 k) :
    Ordered key (siftDown compare fuel k queue) := by
  induction fuel generalizing k queue with
  | zero =>
    intro d
    refine (h d).done fun c hc hck => ?_
    have := hck.lt
    omega
  | succ fuel ih =>
    rw [siftDown]
    dsimp only
    split
    · next hk =>
      obtain ⟨hchild, hlt, hsmall⟩ := lesserChild_spec hagr hk
      have hgt := hchild.lt
      have hklt : k < queue.length := by omega
      have hx := getElem?_eq_getElem hklt
      have hc := getElem?_eq_getElem hlt
      obtain ⟨-, hcmp⟩ := hagr _ (getElem_mem hklt) _ (getElem_mem hlt)
      simp only [hx, hc]
      split
      · next hle =>
        intro d
        refine (h d).done fun c' hc' hck => le_trans ?_ (hsmall d c' hc' hck)
        rw [keyAt_of_getElem? hx, keyAt_of_getElem? hc]
        exact not_lt.mp fun hlt' => by have := hcmp.mpr hlt'; omega
      · next hmore =>
        have hlen : (queue.swap k (lesserChild compare k queue)).length = queue.length :=
          length_swap
        refine ih (hagr.subset fun a ha => (swap_perm _ _ _).mem_iff.mp ha)
          (by rw [hlen]; omega) fun d => ?_
        rw [hlen]
        refine (h d).move (Nat.zero_le _) hchild hlt (hsmall d) ?_ (exchanged_swap hklt hlt)
        rw [keyAt_of_getElem? hx, keyAt_of_getElem? hc]
        exact (hcmp.mp (by omega)).le
    · next hk =>
      intro d
      refine (h d).done fun c hc hck => ?_
      rcases hck with rfl | rfl <;> omega

theorem nil_ordered : Ordered key [] := fun _ _ _ _ hc => absurd hc (Nat.not_lt_zero _)

theorem add_ordered (h : Ordered key queue) (hagr : Agrees compare key (x :: queue)) :
    Ordered key (add compare queue x) := by
  have hlen : (queue ++ [x]).length = queue.length + 1 := by simp
  refine siftUp_ordered (hagr.subset fun a ha => ?_) (by omega) (Nat.le_refl _) fun d => ?_
  · rcases mem_append.mp ha with ha | ha
    · exact mem_cons_of_mem x ha
    · exact mem_singleton.mp ha ▸ .head _
  · constructor
    · intro p c hc hne hcp
      have hcq : c < queue.length := by omega
      rw [keyAt_append [x] (by have := hcp.lt; omega), keyAt_append [x] hcq]
      exact h d p (Nat.zero_le p) c hcq hcp
    · intro p _ c hc hcp
      have := hcp.lt
      omega

theorem remove_ordered {rest : List α} (h : Ordered key queue)
    (hagr : Agrees compare key queue) (hremove : remove compare queue = some (x, rest)) :
    (∀ y ∈ queue, key x ≤ key y) ∧ Ordered key rest := by
  cases queue with
  | nil => cases hremove
  | cons head tail =>
    have hhead : ∀ y ∈ head :: tail, key head ≤ key y := by
      intro y hy
      obtain ⟨m, hm⟩ := mem_iff_getElem?.mp hy
      have htop := (h head).top_le (List.getElem?_eq_some_iff.mp hm).1
      rw [keyAt_of_getElem? hm] at htop
      exact htop
    rw [remove] at hremove
    split at hremove
    · cases hremove
      exact ⟨hhead, nil_ordered⟩
    · next last hlast =>
      cases hremove
      obtain ⟨init, rfl⟩ := getLast?_eq_some_iff.mp hlast
      rw [dropLast_concat]
      refine ⟨hhead, siftDown_ordered (hagr.subset fun a ha => ?_) (by simp) fun d => ?_⟩
      · refine mem_cons_of_mem _ ?_
        rcases mem_cons.mp ha with rfl | ha
        · exact mem_append_right _ (mem_singleton_self a)
        · exact mem_append_left _ ha
      · have hsame : ∀ m, 0 < m → m < (last :: init).length →
            keyAt key d (last :: init) m = keyAt key d (x :: (init ++ [last])) m := by
          intro m hm hlt
          rcases m with _ | m
          · omega
          rw [length_cons] at hlt
          have happ : keyAt key d (init ++ [last]) m = keyAt key d init m :=
            keyAt_append [last] (by omega)
          rw [keyAt, keyAt] at happ
          rw [keyAt, keyAt, getD_cons_succ, getD_cons_succ, happ]
        constructor
        · intro p _ hp c hc hcp
          have hlt := hcp.lt
          rw [hsame p (by omega) (by omega), hsame c (by omega) hc]
          refine h d p (Nat.zero_le p) c ?_ hcp
          rw [length_cons] at hc ⊢
          rw [length_append]
          omega
        · intro p _ hp
          have := hp.lt
          omega

end PriorityQueue

end OpenJfx
