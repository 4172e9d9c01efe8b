/-
  OpenJfx.Lib.Raster

  Rasters: a list of cells, `b` for each pixel, pixels row by row.

  `Paints` says what a piece of code has done to a raster: the pixels of a set
  show their value, and all others are as they were.  Two pieces of code one
  after the other paint the union of their sets.
-/

import Mathlib.Data.List.Basic
import Mathlib.Tactic.Ring

namespace OpenJfx.Lib.Raster

open List Nat

variable {α : Type*}

/-! ## Runs of cells -/

/-- Cells put over those at an offset. -/
def putAll (image : List α) (offset : Nat) : List α → List α
  | [] => image
  | a :: cells => putAll (image.set offset a) (offset + 1) cells

theorem length_putAll (image : List α) (offset : Nat) (cells : List α) :
    (putAll image offset cells).length = image.length := by
  induction cells generalizing image offset with
  | nil => rfl
  | cons a cells ih => rw [putAll, ih, length_set]

theorem getElem?_putAll {image cells : List α} {offset : Nat}
    (h : offset + cells.length ≤ image.length) (k : Nat) :
    (putAll image offset cells)[k]? =
      if offset ≤ k ∧ k < offset + cells.length then cells[k - offset]? else image[k]? := by
  induction cells generalizing image offset with
  | nil => rw [putAll, if_neg (by simp)]
  | cons a cells ih =>
    rw [length_cons] at h ⊢
    rw [putAll, ih (by rw [length_set]; omega)]
    by_cases hk : k = offset
    · subst hk
      rw [if_neg (by omega), if_pos (by omega), getElem?_set_self (by omega), Nat.sub_self,
        getElem?_cons_zero]
    · by_cases hlt : offset + 1 ≤ k ∧ k < offset + 1 + cells.length
      · have hsub : k - offset = k - (offset + 1) + 1 := by omega
        rw [if_pos hlt, if_pos (by omega), hsub, getElem?_cons_succ]
      · rw [if_neg hlt, if_neg (by omega), getElem?_set_ne (by omega)]

/-! ## Pixels -/

/-- The place of the first cell of a pixel. -/
def pixelOffset (w b x y : Nat) : Nat := (y * w + x) * b

section Pixels

variable {w h b : Nat}

theorem pixelOffset_add_lt {x y c : Nat} (hx : x < w) (hy : y < h) (hc : c < b) :
    pixelOffset w b x y + c < w * h * b := by
  have hrow : y * w + x + 1 ≤ w * h := by
    calc y * w + x + 1 ≤ y * w + w := by omega
      _ = (y + 1) * w := by ring
      _ ≤ h * w := Nat.mul_le_mul_right w hy
      _ = w * h := Nat.mul_comm h w
  calc pixelOffset w b x y + c < (y * w + x) * b + b := Nat.add_lt_add_left hc _
    _ = (y * w + x + 1) * b := by ring
    _ ≤ w * h * b := Nat.mul_le_mul_right b hrow

theorem pixelOffset_add_le {x y : Nat} (hx : x < w) (hy : y < h) :
    pixelOffset w b x y + b ≤ w * h * b := by
  cases b with
  | zero => exact Nat.le_refl _
  | succ b =>
    have := @pixelOffset_add_lt w h (b + 1) x y b hx hy (lt_succ_self b)
    omega

theorem pixelOffset_inj {x y c x' y' c' : Nat} (hx : x < w) (hx' : x' < w) (hc : c < b) (hc' : c' < b)
    (heq : pixelOffset w b x y + c = pixelOffset w b x' y' + c') : x = x' ∧ y = y' ∧ c = c' := by
  have hb : 0 < b := zero_lt_of_lt hc
  have hw : 0 < w := zero_lt_of_lt hx
  have hpixel : y * w + x = y' * w + x' := by
    have hdiv := congrArg (· / b) heq
    simpa only [pixelOffset, Nat.mul_comm _ b, mul_add_div hb, div_eq_of_lt hc,
      div_eq_of_lt hc', Nat.add_zero] using hdiv
  have hcell : c = c' := by
    have hmod := congrArg (· % b) heq
    simpa only [pixelOffset, Nat.mul_comm _ b, mul_add_mod, mod_eq_of_lt hc,
      mod_eq_of_lt hc'] using hmod
  have hy : y = y' := by
    have hdiv := congrArg (· / w) hpixel
    simpa only [Nat.mul_comm _ w, mul_add_div hw, div_eq_of_lt hx, div_eq_of_lt hx',
      Nat.add_zero] using hdiv
  subst hy
  exact ⟨by omega, rfl, hcell⟩

theorem exists_pixelOffset {k : Nat} (hk : k < w * h * b) :
    ∃ x < w, ∃ y < h, ∃ c < b, k = pixelOffset w b x y + c := by
  have hb : 0 < b := Nat.pos_of_ne_zero (by rintro rfl; omega)
  have hw : 0 < w := Nat.pos_of_ne_zero (by rintro rfl; simp at hk)
  have hpixel : k / b < h * w := by
    rw [Nat.mul_comm h w]
    exact Nat.div_lt_of_lt_mul (by rwa [Nat.mul_comm b])
  refine ⟨k / b % w, mod_lt _ hw, k / b / w, Nat.div_lt_of_lt_mul (by rwa [Nat.mul_comm w]),
    k % b, mod_lt _ hb, ?_⟩
  rw [pixelOffset, Nat.mul_comm _ w, div_add_mod, Nat.mul_comm _ b, div_add_mod]

end Pixels

/-! ## Painting -/

/-- The pixels of `P` show their value, all others are kept. -/
structure Paints (w h b : Nat) (value : Nat → Nat → List α) (P : Nat → Nat → Prop)
    (image image' : List α) : Prop where
  length_eq : image'.length = image.length
  written : ∀ x y, x < w → y < h → P x y → ∀ c < b,
    image'[pixelOffset w b x y + c]? = (value x y)[c]?
  kept : ∀ x y, x < w → y < h → ¬ P x y → ∀ c < b,
    image'[pixelOffset w b x y + c]? = image[pixelOffset w b x y + c]?

namespace Paints

variable {w h b : Nat} {value : Nat → Nat → List α} {P Q : Nat → Nat → Prop}
  {image image' image'' : List α}

theorem refl (hP : ∀ x y, x < w → y < h → ¬ P x y) : Paints w h b value P image image where
  length_eq := rfl
  written x y hx hy hp := (hP x y hx hy hp).elim
  kept _ _ _ _ _ _ _ := rfl

theorem trans {R : Nat → Nat → Prop} (h1 : Paints w h b value P image image')
    (h2 : Paints w h b value Q image' image'')
    (hR : ∀ x y, x < w → y < h → (R x y ↔ P x y ∨ Q x y)) :
    Paints w h b value R image image'' where
  length_eq := h2.length_eq.trans h1.length_eq
  written x y hx hy hr c hc := by
    by_cases hq : Q x y
    · exact h2.written x y hx hy hq c hc
    · have hp : P x y := ((hR x y hx hy).mp hr).resolve_right hq
      exact (h2.kept x y hx hy hq c hc).trans (h1.written x y hx hy hp c hc)
  kept x y hx hy hr c hc := by
    have hpq := mt (hR x y hx hy).mpr hr
    rw [not_or] at hpq
    exact (h2.kept x y hx hy hpq.2 c hc).trans (h1.kept x y hx hy hpq.1 c hc)

theorem congr (hp : Paints w h b value P image image')
    (hQ : ∀ x y, x < w → y < h → (Q x y ↔ P x y)) : Paints w h b value Q image image' where
  length_eq := hp.length_eq
  written x y hx hy hq := hp.written x y hx hy ((hQ x y hx hy).mp hq)
  kept x y hx hy hq := hp.kept x y hx hy (mt (hQ x y hx hy).mpr hq)

theorem putAll {x0 y0 : Nat} (hx0 : x0 < w) (hy0 : y0 < h) (hlen : image.length = w * h * b)
    (hval : (value x0 y0).length = b) :
    Paints w h b value (fun x y => x = x0 ∧ y = y0) image
      (putAll image (pixelOffset w b x0 y0) (value x0 y0)) := by
  have hroom : pixelOffset w b x0 y0 + (value x0 y0).length ≤ image.length := by
    rw [hval, hlen]
    exact pixelOffset_add_le hx0 hy0
  refine ⟨length_putAll .., ?_, ?_⟩
  · rintro x y hx hy ⟨rfl, rfl⟩ c hc
    rw [getElem?_putAll hroom, if_pos (by omega), Nat.add_sub_cancel_left]
  · intro x y hx hy hne c hc
    rw [getElem?_putAll hroom, if_neg]
    rintro ⟨hle, hlt⟩
    obtain ⟨hxx, hyy, _⟩ := @pixelOffset_inj w b x y c x0 y0
      (pixelOffset w b x y + c - pixelOffset w b x0 y0) hx hx0 hc (by omega) (by omega)
    exact hne ⟨hxx, hyy⟩

/-- A raster painted all over does not depend on what was there. -/
theorem eq_of_all {image1 image1' : List α} (h0 : Paints w h b value P image image')
    (h1 : Paints w h b value Q image1 image1') (hP : ∀ x y, x < w → y < h → P x y)
    (hQ : ∀ x y, x < w → y < h → Q x y) (hlen : image.length = w * h * b)
    (hlength1 : image1.length = w * h * b) : image' = image1' := by
  apply ext_getElem?
  intro k
  by_cases hk : k < w * h * b
  · obtain ⟨x, hx, y, hy, c, hc, rfl⟩ := exists_pixelOffset hk
    rw [h0.written x y hx hy (hP x y hx hy) c hc, h1.written x y hx hy (hQ x y hx hy) c hc]
  · rw [getElem?_eq_none (by rw [h0.length_eq]; omega),
      getElem?_eq_none (by rw [h1.length_eq]; omega)]

end Paints

end OpenJfx.Lib.Raster
