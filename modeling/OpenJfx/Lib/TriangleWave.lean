/-
  OpenJfx.Lib.TriangleWave

  The triangle wave over the integers: it rises from `0` to `c` in `c` steps,
  falls back to `0` in `c` more and repeats.  It is even and has period `2 * c`,
  and a value `p` with `0 ≤ p ≤ c` is met at the times `p` and `-p` of a period
  only.
-/

import Mathlib.Data.Int.ModEq
import Mathlib.Tactic.Ring

namespace OpenJfx.TriangleWave

open Int

/-- The height of the wave at `t`. -/
def triangle (c t : Int) : Int :=
  if t % (2 * c) ≤ c then t % (2 * c) else 2 * c - t % (2 * c)

variable {c t s p : Int}

theorem triangle_nonneg (hc : 0 < c) : 0 ≤ triangle c t := by
  have hlow := emod_nonneg t (show 2 * c ≠ 0 by omega)
  have hhigh := emod_lt_of_pos t (show 0 < 2 * c by omega)
  unfold triangle
  split <;> omega

theorem triangle_le : triangle c t ≤ c := by
  unfold triangle
  split <;> omega

theorem triangle_congr (h : t ≡ s [ZMOD 2 * c]) : triangle c t = triangle c s := by
  unfold triangle
  rw [h.eq]

theorem triangle_of_mem (hp : 0 ≤ p) (hpc : p ≤ c) : triangle c p = p := by
  unfold triangle
  rcases hp.lt_or_eq with hpos | rfl
  · rw [emod_eq_of_lt hp (by omega), if_pos hpc]
  · rw [zero_emod, if_pos hpc]

theorem triangle_neg (hc : 0 < c) : triangle c (-t) = triangle c t := by
  have hlow := emod_nonneg t (show 2 * c ≠ 0 by omega)
  have hhigh := emod_lt_of_pos t (show 0 < 2 * c by omega)
  have hneg : (-t) % (2 * c) = (2 * c - t % (2 * c)) % (2 * c) := by
    have hcongr : -t ≡ 2 * c - t % (2 * c) [ZMOD 2 * c] :=
      calc -t ≡ -(t % (2 * c)) [ZMOD 2 * c] := (mod_modEq t (2 * c)).symm.neg
        _ ≡ 2 * c - t % (2 * c) [ZMOD 2 * c] := by
          rw [modEq_iff_dvd]
          exact ⟨1, by omega⟩
    exact hcongr.eq
  unfold triangle
  rw [hneg]
  rcases hlow.lt_or_eq with hpos | hzero
  · rw [emod_eq_of_lt (by omega) (by omega)]
    split <;> split <;> omega
  · rw [← hzero, sub_zero, emod_self, sub_zero]

theorem triangle_half (hc : 0 < c) : triangle c (c - t) = c - triangle c t := by
  have hlow := emod_nonneg t (show 2 * c ≠ 0 by omega)
  have hhigh := emod_lt_of_pos t (show 0 < 2 * c by omega)
  have hcongr : c - t ≡ c - t % (2 * c) [ZMOD 2 * c] :=
    (Int.ModEq.refl c).sub (mod_modEq t (2 * c)).symm
  rw [triangle_congr hcongr]
  by_cases hle : t % (2 * c) ≤ c
  · rw [triangle_of_mem (by omega) (by omega), triangle, if_pos hle]
  · have hback : triangle c (c - t % (2 * c)) = triangle c (t % (2 * c) - c) := by
      rw [← triangle_neg hc, neg_sub]
    rw [hback, triangle_of_mem (by omega) (by omega), triangle, if_neg hle]
    omega

theorem triangle_eq (hc : 0 < c) :
    triangle c t = if t % (2 * c) < c then t % c else c - t % c := by
  have hlow := emod_nonneg t (show 2 * c ≠ 0 by omega)
  have hhigh := emod_lt_of_pos t (show 0 < 2 * c by omega)
  have hcycle : t % c = t % (2 * c) % c := (emod_emod_of_dvd t (Int.dvd_mul_left 2 c)).symm
  unfold triangle
  rw [hcycle]
  by_cases hlt : t % (2 * c) < c
  · rw [if_pos hlt.le, if_pos hlt, emod_eq_of_lt hlow hlt]
  · have hsub : t % (2 * c) % c = t % (2 * c) - c := by
      rw [← sub_emod_right, emod_eq_of_lt (by omega) (by omega)]
    rw [if_neg hlt, hsub]
    split <;> omega

theorem triangle_cycle (hc : 0 < c) (k : Nat) {x : Int} (hx : 0 ≤ x) (hxc : x ≤ c) :
    triangle c (k * c + x) = if k % 2 = 1 then c - x else x := by
  rcases Nat.mod_two_eq_zero_or_one k with heven | hodd
  · obtain ⟨j, rfl⟩ : ∃ j, k = 2 * j := ⟨k / 2, by omega⟩
    have hmod : ((2 * j : Nat) : Int) * c + x ≡ x [ZMOD 2 * c] := by
      rw [modEq_iff_dvd]
      exact ⟨-j, by push_cast; ring⟩
    rw [if_neg (by omega), triangle_congr hmod, triangle_of_mem hx hxc]
  · obtain ⟨j, rfl⟩ : ∃ j, k = 2 * j + 1 := ⟨k / 2, by omega⟩
    have hmod : ((2 * j + 1 : Nat) : Int) * c + x ≡ -(c - x) [ZMOD 2 * c] := by
      rw [modEq_iff_dvd]
      exact ⟨-(j + 1), by push_cast; ring⟩
    rw [if_pos hodd, triangle_congr hmod, triangle_neg hc, triangle_of_mem (by omega) (by omega)]

theorem two_mul_triangle_eq_iff (hc : 0 < c) : 2 * triangle c t = c ↔ 2 * (t % c) = c := by
  rw [triangle_eq hc]
  split
  · rfl
  · constructor <;> intro h <;> omega

theorem signed_triangle_modEq :
    (if t % (2 * c) < c then triangle c t else -triangle c t) ≡ t [ZMOD 2 * c] := by
  refine Int.ModEq.trans ?_ (mod_modEq t (2 * c))
  unfold triangle
  by_cases hlt : t % (2 * c) < c
  · rw [if_pos hlt, if_pos hlt.le]
  · rw [if_neg hlt, modEq_iff_dvd]
    split
    · exact ⟨1, by omega⟩
    · exact ⟨1, by omega⟩

theorem triangle_succ_ne (hc : 0 < c) : triangle c (t + 1) ≠ triangle c t := by
  have hlow := emod_nonneg t (show 2 * c ≠ 0 by omega)
  have hhigh := emod_lt_of_pos t (show 0 < 2 * c by omega)
  have hmod := mod_modEq t (2 * c)
  rw [← triangle_congr (hmod.add_right 1), ← triangle_congr hmod]
  rcases (show t % (2 * c) + 1 ≤ 2 * c by omega).lt_or_eq with hlt | heq
  · unfold triangle
    rw [emod_eq_of_lt (by omega) hlt, emod_eq_of_lt hlow hhigh]
    split <;> split <;> omega
  · have hzero : triangle c (t % (2 * c) + 1) = 0 := by
      unfold triangle
      rw [heq, emod_self, if_pos hc.le]
    rw [hzero]
    unfold triangle
    rw [emod_eq_of_lt hlow hhigh]
    split <;> omega

theorem triangle_succ_ne_pred (hc : 0 < c) (ht : t % c ≠ 0) :
    triangle c (t + 1) ≠ triangle c (t - 1) := by
  have hlow := emod_nonneg t (show 2 * c ≠ 0 by omega)
  have hhigh := emod_lt_of_pos t (show 0 < 2 * c by omega)
  have hcycle : t % (2 * c) % c = t % c := emod_emod_of_dvd t (Int.dvd_mul_left 2 c)
  have hzero : t % (2 * c) ≠ 0 := by
    intro h
    rw [h, zero_emod] at hcycle
    exact ht hcycle.symm
  have hmiddle : t % (2 * c) ≠ c := by
    intro h
    rw [h, emod_self] at hcycle
    exact ht hcycle.symm
  have hmod := mod_modEq t (2 * c)
  rw [← triangle_congr (hmod.add_right 1), ← triangle_congr (hmod.sub_right 1)]
  by_cases hup : t % (2 * c) < c
  · rw [triangle_of_mem (by omega) (by omega), triangle_of_mem (by omega) (by omega)]
    omega
  · have hsucc : t % (2 * c) + 1 ≡ -(2 * c - (t % (2 * c) + 1)) [ZMOD 2 * c] := by
      rw [modEq_iff_dvd]
      exact ⟨-1, by omega⟩
    have hpred : t % (2 * c) - 1 ≡ -(2 * c - (t % (2 * c) - 1)) [ZMOD 2 * c] := by
      rw [modEq_iff_dvd]
      exact ⟨-1, by omega⟩
    rw [triangle_congr hsucc, triangle_congr hpred, triangle_neg hc, triangle_neg hc,
      triangle_of_mem (by omega) (by omega), triangle_of_mem (by omega) (by omega)]
    omega

end OpenJfx.TriangleWave
