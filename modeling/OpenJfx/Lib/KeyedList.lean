/-
  OpenJfx.Lib.KeyedList

  A map as the list of its entries, looked up with `List.lookup`.  `modifyOr`
  is the idiom "get the value of a key, putting a fresh one there if there is
  none, and change it".
-/

import Mathlib.Data.List.Nodup

namespace OpenJfx

open List

variable {K V α : Type} [DecidableEq K]

/-- Change the value at `k`, a fresh one if there is none. -/
def modifyOr (k : K) (fresh : V) (f : V → V) : List (K × V) → List (K × V)
  | [] => [(k, f fresh)]
  | (k', v) :: m => if k' = k then (k', f v) :: m else (k', v) :: modifyOr k fresh f m

/-- The value at `k`, found with the decidable equality of the keys. -/
def valueAt (k : K) (m : List (K × V)) : Option V := m.lookup k

theorem lookup_cons_eq_ite (k k' : K) (v : V) (m : List (K × V)) :
    List.lookup k' ((k, v) :: m) = if k' = k then some v else m.lookup k' := by
  rw [lookup_cons]
  by_cases h : k' = k
  · rw [if_pos h, beq_iff_eq.mpr h]
  · rw [if_neg h, beq_eq_false_iff_ne.mpr h]

theorem lookup_modifyOr (k k' : K) (fresh : V) (f : V → V) (m : List (K × V)) :
    (modifyOr k fresh f m).lookup k'
      = if k' = k then some (f ((m.lookup k).getD fresh)) else m.lookup k' := by
  induction m with
  | nil =>
    rw [modifyOr, lookup_cons_eq_ite]
    rfl
  | cons e m ih =>
    obtain ⟨k0, v⟩ := e
    rw [modifyOr]
    split
    · next h =>
      subst h
      simp only [lookup_cons_eq_ite, if_true, Option.getD_some]
      split <;> rfl
    · next h =>
      have hk : List.lookup k ((k0, v) :: m) = m.lookup k := by
        rw [lookup_cons_eq_ite, if_neg fun heq => h heq.symm]
      rw [hk, lookup_cons_eq_ite, lookup_cons_eq_ite, ih]
      by_cases h0 : k' = k0
      · subst h0
        rw [if_pos rfl, if_neg h, if_pos rfl]
      · rw [if_neg h0, if_neg h0]

theorem valueAt_cons (k k' : K) (v : V) (m : List (K × V)) :
    valueAt k' ((k, v) :: m) = if k' = k then some v else valueAt k' m :=
  lookup_cons_eq_ite k k' v m

theorem valueAt_modifyOr (k k' : K) (fresh : V) (f : V → V) (m : List (K × V)) :
    valueAt k' (modifyOr k fresh f m) =
      if k' = k then some (f ((valueAt k m).getD fresh)) else valueAt k' m :=
  lookup_modifyOr k k' fresh f m

variable {k : K} {P : K → V → Prop} {fresh : V} {f : V → V} {m : List (K × V)} {g : V → List α}
  {extra : List α}

theorem valueAt_filter_ne {k' : K} (hk : k' ≠ k) (m : List (K × V)) :
    valueAt k' (m.filter fun e => e.1 ≠ k) = valueAt k' m := by
  induction m with
  | nil => rfl
  | cons e m ih =>
    obtain ⟨k0, v⟩ := e
    by_cases h0 : k0 = k
    · subst h0
      rw [filter_cons_of_neg (by simp), ih, valueAt_cons, if_neg hk]
    · rw [filter_cons_of_pos (by simpa using h0), valueAt_cons, valueAt_cons, ih]

theorem forall_modifyOr
    (hm : ∀ e ∈ m, P e.1 e.2) (hf : ∀ v, P k v → P k (f v)) (hfresh : P k fresh) :
    ∀ e ∈ modifyOr k fresh f m, P e.1 e.2 := by
  induction m with
  | nil =>
    intro e he
    rw [modifyOr, mem_singleton] at he
    subst he
    exact hf _ hfresh
  | cons e0 m ih =>
    obtain ⟨k0, v⟩ := e0
    intro e he
    rw [modifyOr] at he
    split at he
    · next h =>
      subst h
      rcases mem_cons.mp he with rfl | he
      · exact hf _ (hm _ mem_cons_self)
      · exact hm e (mem_cons_of_mem _ he)
    · rcases mem_cons.mp he with rfl | he
      · exact hm _ mem_cons_self
      · exact ih (fun e he => hm e (mem_cons_of_mem _ he)) e he

theorem flatMap_modifyOr (hm : ∀ e ∈ m, P e.1 e.2)
    (hg : ∀ v, P k v → (g (f v)).Perm (g v ++ extra)) (hfresh : P k fresh) (hnil : g fresh = []) :
    ((modifyOr k fresh f m).flatMap fun e => g e.2).Perm ((m.flatMap fun e => g e.2) ++ extra) := by
  induction m with
  | nil =>
    have := hg fresh hfresh
    rw [hnil] at this
    simpa [modifyOr] using this
  | cons e m ih =>
    obtain ⟨k0, v⟩ := e
    rw [modifyOr]
    split
    · next h =>
      subst h
      simp only [flatMap_cons]
      have hv := (hg v (hm _ mem_cons_self)).append_right (m.flatMap fun e => g e.2)
      apply hv.trans
      rw [append_assoc, append_assoc]
      exact List.Perm.append_left _ perm_append_comm
    · simp only [flatMap_cons]
      rw [append_assoc]
      exact (ih fun e he => hm e (.tail _ he)).append_left _

theorem flatMap_perm_of_grows {F F' : K → List α}
    (hother : ∀ k', k' ≠ k → F' k' = F k') (hk : (F' k).Perm (F k ++ extra)) {ks : List K}
    (hks : ks.Nodup) :
    (ks.flatMap F').Perm (ks.flatMap F ++ if k ∈ ks then extra else []) := by
  induction ks with
  | nil => simp
  | cons k0 ks ih =>
    obtain ⟨hnot, hks⟩ := nodup_cons.mp hks
    rw [flatMap_cons, flatMap_cons, append_assoc]
    by_cases h : k0 = k
    · subst h
      rw [if_pos mem_cons_self]
      have hrest := ih hks
      rw [if_neg hnot, append_nil] at hrest
      apply (hk.append hrest).trans
      rw [append_assoc]
      exact List.Perm.append_left _ perm_append_comm
    · rw [hother k0 h]
      have hmem : k ∈ k0 :: ks ↔ k ∈ ks := by
        rw [mem_cons]
        exact or_iff_right fun heq => h heq.symm
      simp only [hmem]
      exact (ih hks).append_left _

/-- What is collected from the value of a key. -/
def collectAt (g : V → List α) (m : List (K × V)) (k : K) : List α :=
  match m.lookup k with
  | none => []
  | some v => g v

theorem mem_of_lookup {v : V} (h : m.lookup k = some v) : (k, v) ∈ m := by
  induction m with
  | nil => cases h
  | cons e m ih =>
    obtain ⟨k0, v0⟩ := e
    rw [lookup_cons_eq_ite] at h
    split at h
    · next hk =>
      cases h
      subst hk
      exact .head _
    · exact .tail _ (ih h)

/-- Collecting over some keys, when the value of one key is changed. -/
theorem flatMap_collectAt_modifyOr {P : V → Prop} (hm : ∀ e ∈ m, P e.2)
    (hg : ∀ v, P v → (g (f v)).Perm (g v ++ extra)) (hfresh : P fresh) (hnil : g fresh = [])
    {ks : List K} (hks : ks.Nodup) :
    (ks.flatMap (collectAt g (modifyOr k fresh f m))).Perm
      (ks.flatMap (collectAt g m) ++ if k ∈ ks then extra else []) := by
  apply flatMap_perm_of_grows (k := k) _ _ hks
  · intro k' hne
    rw [collectAt, lookup_modifyOr, if_neg hne]
    rfl
  · rw [collectAt, lookup_modifyOr, if_pos rfl, collectAt]
    cases hv : m.lookup k with
    | none =>
      have := hg fresh hfresh
      rw [hnil] at this
      exact this
    | some v => exact hg v (hm _ (mem_of_lookup hv))

theorem keys_modifyOr (k : K) (fresh : V) (f : V → V) (m : List (K × V)) :
    (modifyOr k fresh f m).map Prod.fst =
      if k ∈ m.map Prod.fst then m.map Prod.fst else m.map Prod.fst ++ [k] := by
  induction m with
  | nil => rfl
  | cons e m ih =>
    obtain ⟨k0, v⟩ := e
    rw [modifyOr]
    split
    · next h =>
      subst h
      rw [if_pos (by simp)]
      rfl
    · next h =>
      have hmem : k ∈ k0 :: m.map Prod.fst ↔ k ∈ m.map Prod.fst := by
        rw [mem_cons]
        exact or_iff_right fun heq => h heq.symm
      rw [map_cons, map_cons, ih]
      simp only [hmem]
      split <;> rfl

theorem nodup_keys_modifyOr
    (h : (m.map Prod.fst).Nodup) : ((modifyOr k fresh f m).map Prod.fst).Nodup := by
  rw [keys_modifyOr]
  split
  · exact h
  · next hk => exact List.Nodup.append h (nodup_singleton k) (by simpa using hk)

theorem modifyOr_modifyOr (k : K) (fresh v : V) (f : V → V) (m : List (K × V)) :
    modifyOr k fresh (fun _ => v) (modifyOr k fresh f m) = modifyOr k fresh (fun _ => v) m := by
  induction m with
  | nil => simp [modifyOr]
  | cons e m ih =>
    obtain ⟨k0, v0⟩ := e
    rw [modifyOr]
    split
    · next h => simp [modifyOr, h]
    · next h => simp [modifyOr, h, ih]

/-- The value put at a key: its part comes in for the old one's. -/
theorem flatMap_modifyOr_const {v : V} (hnil : g fresh = []) :
    (((modifyOr k fresh (fun _ => v) m).flatMap fun e => g e.2) ++
        g ((m.lookup k).getD fresh)).Perm ((m.flatMap fun e => g e.2) ++ g v) := by
  induction m with
  | nil => simp [modifyOr, hnil]
  | cons e m ih =>
    obtain ⟨k0, v0⟩ := e
    rw [modifyOr, lookup_cons_eq_ite]
    split
    · next h =>
      subst h
      rw [if_pos rfl]
      simp only [flatMap_cons, Option.getD_some]
      exact perm_append_comm.trans ((perm_append_comm.append_left _).trans (by rw [append_assoc]))
    · next h =>
      rw [if_neg fun heq => h heq.symm]
      simp only [flatMap_cons, append_assoc]
      exact ih.append_left _

/-- Among distinct keys an entry is what its key is looked up to. -/
theorem lookup_of_mem {v : V} (hm : (m.map Prod.fst).Nodup)
    (h : (k, v) ∈ m) : m.lookup k = some v := by
  induction m with
  | nil => cases h
  | cons e m ih =>
    obtain ⟨k0, v0⟩ := e
    obtain ⟨hnot, hm⟩ := nodup_cons.mp hm
    rw [lookup_cons_eq_ite]
    rcases mem_cons.mp h with heq | hmem
    · cases heq
      rw [if_pos rfl]
    · have hne : k ≠ k0 := by
        rintro rfl
        exact hnot (mem_map.mpr ⟨_, hmem, rfl⟩)
      rw [if_neg hne]
      exact ih hm hmem

end OpenJfx
