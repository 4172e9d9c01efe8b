/-
  OpenJfx.Animation.TimelineClipCore.Visits

  Which key frames a run of `playTo` visits: those on the stretch covered, in the order of
  movement, but for those at its first point run on reaching it (`prescribed`).  The proofs cut
  the key frames at the ends of the stretch.
-/

import OpenJfx.Animation.TimelineClipCore.Basic
import Mathlib.Data.List.Induction

namespace OpenJfx.Animation.TimelineClipCore

open List

variable {core' : TimelineClipCore}

/-! ## What a call has to do -/

/-- The indices of the key frames that satisfy `p`. -/
def indicesOf (frames : List KeyFrame) (p : KeyFrame → Bool) : List Nat :=
  (frames.zipIdx.filter fun keyFrame => p keyFrame.1).map Prod.snd

/-- The key frames from `a` to `b`; when `fresh`, `a` too. -/
def prescribed (frames : List KeyFrame) (fresh : Bool) (a b : Int) : List Nat :=
  if a ≤ b then
    indicesOf frames fun x => decide (a ≤ x.ticks ∧ x.ticks ≤ b ∧ (fresh = true ∨ x.ticks ≠ a))
  else
    (indicesOf frames fun x =>
      decide (b ≤ x.ticks ∧ x.ticks ≤ a ∧ (fresh = true ∨ x.ticks ≠ a))).reverse

/-- `lastKF` is nothing, or beside the position. -/
inductive Memory where
  | undefined
  | forward
  | backward
  deriving DecidableEq, Repr

/-- What is remembered after a call from `a` to `b`. -/
def Memory.next (frames : List KeyFrame) (memory : Memory) (a b : Int) : Memory :=
  if a ≤ b then
    if (∀ x ∈ frames, b < x.ticks) ∨ (memory = .undefined ∧ ∀ x ∈ frames, x.ticks < a) then
      .undefined
    else .forward
  else if memory = .undefined ∧ ∀ x ∈ frames, a < x.ticks then .undefined
  else .backward

/-- The call turns round. -/
def Memory.Turns (memory : Memory) (a b : Int) : Prop :=
  (memory = .backward ∧ a ≤ b) ∨ (memory = .forward ∧ b < a)

instance (memory : Memory) (a b : Int) : Decidable (memory.Turns a b) :=
  inferInstanceAs (Decidable (_ ∨ _))

/-- A call goes right: not beyond the last key frame on its way back, and it turns round at exactly
    one key frame or covers none. -/
def Harmless (frames : List KeyFrame) (memory : Memory) (a b : Int) : Prop :=
  (frames = [] ∨ a ≤ b ∨ ∃ x ∈ frames, b ≤ x.ticks) ∧
    (memory.Turns a b → (frames.filter fun x => x.ticks = a).length = 1 ∨
      ∀ x ∈ frames, x.ticks < min a b ∨ max a b < x.ticks)

instance (frames : List KeyFrame) (memory : Memory) (a b : Int) :
    Decidable (Harmless frames memory a b) :=
  inferInstanceAs (Decidable (_ ∧ _))

/-- Every call of the run is harmless where it is made. -/
def HarmlessRun (frames : List KeyFrame) : Memory → Int → List Int → Prop
  | _, _, [] => True
  | memory, a, b :: rest =>
    Harmless frames memory a b ∧ HarmlessRun frames (memory.next frames a b) b rest

instance decidableHarmlessRun (frames : List KeyFrame) : (memory : Memory) → (a : Int) →
    (ticks : List Int) → Decidable (HarmlessRun frames memory a ticks)
  | _, _, [] => isTrue trivial
  | memory, a, b :: rest =>
    have := decidableHarmlessRun frames (memory.next frames a b) b rest
    inferInstanceAs (Decidable (_ ∧ _))

/-- Handlers that never abort. -/
def noneAborts : List Nat → Bool := fun _ => false

/-- Every call runs the prescribed handlers. -/
def VisitsCrossed : TimelineClipCore → Bool → Int → List Int → Prop
  | _, _, _, [] => True
  | core, fresh, a, b :: rest =>
    ∃ core', core.playTo noneAborts b = some core' ∧
      core'.handled = core.handled ++ prescribed core.keyFrames.frames fresh a b ∧
      VisitsCrossed core' false b rest

/-! ## Cutting the key frames -/

variable {frames A V W : List KeyFrame} {core : TimelineClipCore} {a b : Int}

theorem exists_cut (hsort : frames.Pairwise fun x y => x.ticks ≤ y.ticks) (c : Int) :
    ∃ A B, frames = A ++ B ∧ (∀ x ∈ A, x.ticks < c) ∧ ∀ x ∈ B, c ≤ x.ticks := by
  induction frames with
  | nil => exact ⟨[], [], rfl, by simp, by simp⟩
  | cons x frames ih =>
    by_cases hlt : x.ticks < c
    · obtain ⟨A, B, rfl, hA, hB⟩ := ih hsort.of_cons
      refine ⟨x :: A, B, rfl, ?_, hB⟩
      intro y hy
      rcases mem_cons.mp hy with rfl | hy
      · exact hlt
      · exact hA y hy
    · refine ⟨[], x :: frames, rfl, by simp, ?_⟩
      intro y hy
      rcases mem_cons.mp hy with rfl | hy
      · omega
      · have := rel_of_pairwise_cons hsort hy
        omega

theorem exists_cut_le (hsort : frames.Pairwise fun x y => x.ticks ≤ y.ticks) (c : Int) :
    ∃ A B, frames = A ++ B ∧ (∀ x ∈ A, x.ticks ≤ c) ∧ ∀ x ∈ B, c < x.ticks := by
  obtain ⟨A, B, hcut, hA, hB⟩ := exists_cut hsort (c + 1)
  exact ⟨A, B, hcut, fun x hx => Int.lt_add_one_iff.mp (hA x hx), hB⟩

theorem indicesOf_cut {p : KeyFrame → Bool} (hA : ∀ x ∈ A, p x = false) (hV : ∀ x ∈ V, p x = true)
    (hW : ∀ x ∈ W, p x = false) :
    indicesOf (A ++ V ++ W) p = List.range' A.length V.length := by
  have hnone : ∀ (B : List KeyFrame) (k : Nat), (∀ x ∈ B, p x = false) →
      (B.zipIdx k).filter (fun keyFrame => p keyFrame.1) = [] := by
    intro B k hB
    rw [filter_eq_nil_iff]
    intro keyFrame hmem
    rw [hB keyFrame.1 (fst_mem_of_mem_zipIdx hmem)]
    decide
  unfold indicesOf
  rw [zipIdx_append, zipIdx_append, filter_append, filter_append,
    hnone A _ hA, hnone W _ hW, append_nil, nil_append, filter_eq_self.mpr
      (fun keyFrame hmem => hV keyFrame.1 (fst_mem_of_mem_zipIdx hmem)),
    zipIdx_map_snd, Nat.zero_add]

/-! ## The loops -/

/-- `core'` comes from `core` by visits, and no handler has aborted. -/
structure Moved (core core' : TimelineClipCore) : Prop where
  keyFrames : core'.keyFrames = core.keyFrames
  canSkipFrames : core'.canSkipFrames = core.canSkipFrames
  aborted : core'.aborted = false

variable {x : KeyFrame} {k : Nat}

theorem visitKeyFrame_eq (hx : x.onFinished = true)
    (hk : (k : Int) ≠ core.lastKF) (habort : core.aborted = false) :
    core.visitKeyFrame noneAborts x k =
      { core with
        lastKF := k, curTicks := x.ticks, handled := core.handled ++ [k], aborted := false } := by
  unfold visitKeyFrame
  rw [if_pos hk]
  simp only [hx, if_true, habort, noneAborts, Bool.or_false]

theorem visitKeyFrame_suppressed (hk : (k : Int) = core.lastKF) :
    core.visitKeyFrame noneAborts x k = core := by
  unfold visitKeyFrame
  rw [if_neg (not_not.mpr hk)]

variable {rest : List (KeyFrame × Nat)} {k : Nat}

theorem forwardLoop_skip (hA : ∀ x ∈ A, x.ticks < core.curTicks ∧ x.ticks ≤ b) :
    core.forwardLoop noneAborts b (A.zipIdx k ++ rest) = core.forwardLoop noneAborts b rest := by
  induction A generalizing k with
  | nil => rfl
  | cons x A ih =>
    obtain ⟨hlt, hle⟩ := hA x mem_cons_self
    rw [zipIdx_cons, cons_append, forwardLoop, if_neg (by omega), if_neg (by omega)]
    exact ih fun y hy => hA y (.tail _ hy)

theorem forwardLoop_through (hsort : V.Pairwise fun x y => x.ticks ≤ y.ticks)
    (hhandler : ∀ x ∈ V, x.onFinished = true)
    (hV : ∀ x ∈ V, core.curTicks ≤ x.ticks ∧ x.ticks ≤ b) (hW : ∀ x ∈ W, b < x.ticks)
    (hlast : V = [] ∨ core.lastKF < k) (habort : core.aborted = false) :
    ∃ core', core.forwardLoop noneAborts b (V.zipIdx k ++ W.zipIdx (k + V.length)) = core' ∧
      Moved core core' ∧ core'.handled = core.handled ++ List.range' k V.length ∧
      core'.lastKF = (if V = [] ∧ W = [] then core.lastKF else (k : Int) + V.length - 1) ∧
      core'.curTicks = ((V.getLast?).map KeyFrame.ticks).getD core.curTicks := by
  induction V generalizing core k with
  | nil =>
    cases W with
    | nil => exact ⟨core, rfl, ⟨rfl, rfl, habort⟩, by simp, rfl, rfl⟩
    | cons x W =>
      refine ⟨{ core with lastKF := (k : Int) - 1 }, ?_, ⟨rfl, rfl, habort⟩, by simp, by simp, rfl⟩
      show core.forwardLoop noneAborts b ((x, k) :: W.zipIdx (k + 1)) = _
      rw [forwardLoop, if_pos (hW x mem_cons_self)]
  | cons x V ih =>
    obtain ⟨hlow, hhigh⟩ := hV x mem_cons_self
    have hk : core.lastKF < k := hlast.resolve_left (cons_ne_nil x V)
    rw [zipIdx_cons, cons_append, forwardLoop, if_neg (by omega), if_pos hlow]
    simp only [visitKeyFrame_eq (hhandler x mem_cons_self) hk.ne' habort, Bool.false_eq_true,
      if_false]
    obtain ⟨core', hloop, hmoved, hhand, hidx, hcur⟩ := @ih
      { core with
        lastKF := k, curTicks := x.ticks, handled := core.handled ++ [k], aborted := false } (k + 1)
      hsort.of_cons (fun y hy => hhandler y (.tail _ hy))
      (fun y hy => ⟨rel_of_pairwise_cons hsort hy, (hV y (.tail _ hy)).2⟩)
      (Or.inr (by show (k : Int) < _; omega)) rfl
    rw [length_cons, Nat.add_comm V.length, ← Nat.add_assoc]
    refine ⟨core', hloop, { hmoved with }, ?_, ?_, ?_⟩
    · rw [hhand, Nat.add_comm 1, range'_succ, append_assoc]
      rfl
    · rw [if_neg fun h => cons_ne_nil x V h.1, hidx]
      split
      · rename_i hnil
        simp [hnil.1]
      · push_cast
        omega
    · rw [hcur]
      cases V with
      | nil => rfl
      | cons y V => rw [getLast?_cons_cons]; rfl

theorem backwardLoop_skip (hW : ∀ x ∈ W, core.curTicks < x.ticks ∧ b ≤ x.ticks) :
    core.backwardLoop noneAborts b ((W.zipIdx k).reverse ++ rest) =
      core.backwardLoop noneAborts b rest := by
  induction W using List.reverseRecOn with
  | nil => rfl
  | append_singleton W x ih =>
    obtain ⟨hlt, hle⟩ := hW x (by simp)
    rw [zipIdx_append, reverse_append]
    show core.backwardLoop noneAborts b ((x, k + W.length) :: ((W.zipIdx k).reverse ++ rest)) = _
    rw [backwardLoop, if_neg (by omega), if_neg (by omega)]
    exact ih fun y hy => hW y (mem_append_left _ hy)

theorem backwardLoop_stop (hA : ∀ x ∈ A, x.ticks < b) :
    core.backwardLoop noneAborts b (A.zipIdx 0).reverse =
      if A = [] then core else { core with lastKF := (A.length : Int) } := by
  rcases eq_nil_or_concat A with rfl | ⟨A, x, rfl⟩
  · rfl
  · rw [concat_eq_append, zipIdx_append, reverse_append]
    show core.backwardLoop noneAborts b ((x, 0 + A.length) :: (A.zipIdx 0).reverse) = _
    rw [backwardLoop, if_pos (hA x (by simp)), if_neg (by simp), length_append]
    simp

theorem backwardLoop_through (hsort : V.Pairwise fun x y => x.ticks ≤ y.ticks)
    (hhandler : ∀ x ∈ V, x.onFinished = true)
    (hV : ∀ x ∈ V, x.ticks ≤ core.curTicks ∧ b ≤ x.ticks) (hA : ∀ x ∈ A, x.ticks < b)
    (hlast : V = [] ∨ core.lastKF = undefinedKeyFrame ∨
      ((A.length + V.length : Nat) : Int) ≤ core.lastKF) (habort : core.aborted = false) :
    ∃ core', core.backwardLoop noneAborts b ((V.zipIdx A.length).reverse ++ (A.zipIdx 0).reverse) =
        core' ∧
      Moved core core' ∧ core'.handled = core.handled ++ (List.range' A.length V.length).reverse ∧
      core'.lastKF = (if A = [] ∧ V = [] then core.lastKF else (A.length : Int)) ∧
      core'.curTicks = ((V.head?).map KeyFrame.ticks).getD core.curTicks := by
  induction V using List.reverseRecOn generalizing core with
  | nil =>
    refine ⟨_, backwardLoop_stop hA, ?_⟩
    by_cases hnil : A = []
    · rw [if_pos hnil, if_pos ⟨hnil, rfl⟩]
      exact ⟨⟨rfl, rfl, habort⟩, by simp, rfl, rfl⟩
    · rw [if_neg hnil, if_neg fun h => hnil h.1]
      exact ⟨⟨rfl, rfl, habort⟩, by simp, rfl, rfl⟩
  | append_singleton V x ih =>
    obtain ⟨hhigh, hlow⟩ := hV x (by simp)
    rw [zipIdx_append, reverse_append]
    show ∃ core', core.backwardLoop noneAborts b
      ((x, A.length + V.length) :: ((V.zipIdx A.length).reverse ++ (A.zipIdx 0).reverse)) = _ ∧ _
    have hne : ((A.length + V.length : Nat) : Int) ≠ core.lastKF := by
      have := hlast.resolve_left (by simp)
      rw [length_append, length_singleton] at this
      unfold undefinedKeyFrame at this
      omega
    rw [backwardLoop, if_neg (by omega), if_pos hhigh]
    simp only [visitKeyFrame_eq (hhandler x (by simp)) hne habort, Bool.false_eq_true, if_false]
    obtain ⟨core', hloop, hmoved, hhand, hidx, hcur⟩ := @ih
      { core with
        lastKF := ((A.length + V.length : Nat) : Int), curTicks := x.ticks
        handled := core.handled ++ [A.length + V.length], aborted := false }
      (pairwise_append.mp hsort).1
      (fun y hy => hhandler y (mem_append_left _ hy))
      (fun y hy => ⟨(pairwise_append.mp hsort).2.2 y hy x (by simp),
        (hV y (mem_append_left _ hy)).2⟩)
      (Or.inr (Or.inr (Int.le_refl _))) rfl
    refine ⟨core', hloop, { hmoved with }, ?_, ?_, ?_⟩
    · rw [hhand, length_append, length_singleton, range'_concat,
        reverse_append, append_assoc, Nat.one_mul]
      rfl
    · rw [if_neg fun h => append_ne_nil_of_right_ne_nil V (cons_ne_nil x []) h.2, hidx]
      split
      · rename_i hnil
        simp [hnil.2]
      · rfl
    · rw [hcur]
      cases V with
      | nil | cons y V => rfl

/-! ## Between the calls -/

/-- What `lastKF` is when `memory` is remembered at position `a`. -/
def Memory.Holds (frames : List KeyFrame) (a lastKF : Int) : Memory → Prop
  | .undefined => lastKF = undefinedKeyFrame
  | .forward => ∃ P x Q, frames = P ++ x :: Q ∧ x.ticks ≤ a ∧ (∀ y ∈ Q, a < y.ticks) ∧
      lastKF = P.length
  | .backward => ∃ P x Q, frames = P ++ x :: Q ∧ (∀ y ∈ P, y.ticks < a) ∧ a ≤ x.ticks ∧
      lastKF = P.length

/-- The core stands at `a` between two calls. -/
structure Stands (frames : List KeyFrame) (memory : Memory) (fresh : Bool) (a : Int)
    (core : TimelineClipCore) : Prop where
  keyFrames : core.keyFrames.frames = frames
  canSkipFrames : core.canSkipFrames = false
  curTicks : core.curTicks = a
  holds : memory.Holds frames a core.lastKF
  fresh_undefined : fresh = true → memory = .undefined
  undefined_run : memory = .undefined → fresh = true ∨ ∀ x ∈ frames, x.ticks ≠ a

theorem keyFrameAt_length {P Q : List KeyFrame}
    (h : core.keyFrames.frames = P ++ x :: Q) : core.keyFrameAt (P.length : Int) = some x := by
  unfold keyFrameAt
  rw [if_neg (by omega), h, Int.toNat_natCast, getElem?_append_right (Nat.le_refl _),
    Nat.sub_self]
  rfl

theorem setEndTime_spec (habort : core.aborted = false)
    (hend : core.lastKF = undefinedKeyFrame ∨ ∃ x, core.keyFrameAt core.lastKF = some x ∧
      (x.ticks = b → core.curTicks = b)) :
    ∃ core', core.setEndTime b = some core' ∧ Moved core core' ∧ core'.handled = core.handled ∧
      core'.lastKF = core.lastKF ∧ core'.curTicks = b := by
  unfold setEndTime
  rw [if_neg (by rw [habort]; decide)]
  by_cases hundef : core.lastKF = undefinedKeyFrame
  · rw [if_pos hundef]
    exact ⟨_, rfl, ⟨rfl, rfl, habort⟩, rfl, rfl, rfl⟩
  · obtain ⟨x, hx, hset⟩ := hend.resolve_left hundef
    rw [if_neg hundef, hx, Option.map_some]
    by_cases hdone : x.ticks ≠ b ∨ x.onFinished = false
    · rw [if_pos hdone]
      exact ⟨_, rfl, ⟨rfl, rfl, habort⟩, rfl, rfl, rfl⟩
    · rw [if_neg hdone]
      exact ⟨core, rfl, ⟨rfl, rfl, habort⟩, rfl, rfl, hset (by by_contra h; exact hdone (Or.inl h))⟩

theorem setEndTime_none (habort : core.aborted = false) (hlast : core.lastKF ≠ undefinedKeyFrame)
    (hat : core.keyFrameAt core.lastKF = none) : core.setEndTime b = none := by
  unfold setEndTime
  rw [if_neg (by rw [habort]; decide), if_neg hlast, hat, Option.map_none]

theorem forward_ends {memory : Memory} (hframes : core.keyFrames.frames = A ++ V ++ W)
    (hskip : core.canSkipFrames = false) (hab : a ≤ b) (hA : ∀ x ∈ A, x.ticks ≤ a)
    (hV : ∀ x ∈ V, a ≤ x.ticks ∧ x.ticks ≤ b) (hW : ∀ x ∈ W, b < x.ticks)
    (habort : core.aborted = false)
    (hcur : core.curTicks = ((V.getLast?).map KeyFrame.ticks).getD a)
    (hlast : (core.lastKF = (A.length : Int) + V.length - 1 ∧
        (memory = .undefined → V ≠ [] ∨ W ≠ [])) ∨
      (core.lastKF = undefinedKeyFrame ∧ memory = .undefined ∧ V = [] ∧ W = [] ∧
        ∀ x ∈ A, x.ticks < a)) :
    ∃ core', core.setEndTime b = some core' ∧ core'.handled = core.handled ∧
      Stands (A ++ V ++ W) (memory.next (A ++ V ++ W) a b) false b core' := by
  unfold Memory.next
  rw [if_pos hab]
  by_cases hundef : core.lastKF = undefinedKeyFrame
  · -- nothing is remembered, and no key frame lies at the new position
    have hnone : (∀ x ∈ A ++ V ++ W, b < x.ticks) ∨
        (memory = .undefined ∧ ∀ x ∈ A ++ V ++ W, x.ticks < a) := by
      rcases hlast with ⟨hlast, -⟩ | ⟨-, hmemory, rfl, rfl, hbef⟩
      · have hzero : A.length + V.length = 0 := by
          rw [hundef] at hlast
          unfold undefinedKeyFrame at hlast
          omega
        obtain rfl := length_eq_zero_iff.mp (Nat.eq_zero_of_add_eq_zero_right hzero)
        obtain rfl := length_eq_zero_iff.mp (Nat.eq_zero_of_add_eq_zero_left hzero)
        exact Or.inl hW
      · rw [append_nil, append_nil]
        exact Or.inr ⟨hmemory, hbef⟩
    obtain ⟨core', hset, hmoved, hhand, hidx, hcur'⟩ :=
      @setEndTime_spec core b habort (Or.inl hundef)
    rw [if_pos hnone]
    refine ⟨core', hset, hhand, hmoved.keyFrames ▸ hframes, hmoved.canSkipFrames.trans hskip,
      hcur', hidx.trans hundef, nofun, fun _ => Or.inr fun x hx => ?_⟩
    rcases hnone with h | ⟨-, h⟩ <;> have := h x hx <;> omega
  · obtain ⟨hlast, hmemory⟩ := hlast.resolve_right fun h => hundef h.1
    obtain ⟨P, x, hP⟩ : ∃ P x, A ++ V = P ++ [x] := by
      rcases eq_nil_or_concat (A ++ V) with h | ⟨P, x, h⟩
      · exfalso
        obtain ⟨rfl, rfl⟩ := append_eq_nil_iff.mp h
        exact hundef hlast
      · exact ⟨P, x, by rw [h, concat_eq_append]⟩
    have hlen : A.length + V.length = P.length + 1 := by
      have := congrArg List.length hP
      simpa using this
    have hspl : A ++ V ++ W = P ++ x :: W := by rw [hP, append_assoc]; rfl
    have hidx : core.lastKF = (P.length : Int) := by rw [hlast]; omega
    have hxmem : x ∈ A ++ V := by rw [hP]; simp
    have hxle : x.ticks ≤ b := by
      rcases mem_append.mp hxmem with h | h
      · have := hA x h; omega
      · exact (hV x h).2
    have hreached : x.ticks = b → core.curTicks = b := by
      intro hxb
      rw [hcur]
      rcases eq_nil_or_concat V with rfl | ⟨V', y, rfl⟩
      · have := hA x (by simpa using hxmem)
        show a = b
        omega
      · have hxy : x = y := by
          rw [concat_eq_append, ← append_assoc] at hP
          exact (append_inj_right' hP.symm rfl |> singleton_inj.mp)
        rw [concat_eq_append, getLast?_append]
        show y.ticks = b
        rw [← hxy, hxb]
    obtain ⟨core', hset, hmoved, hhand, hidx', hcur'⟩ := @setEndTime_spec core b habort
      (Or.inr ⟨x, hidx ▸ keyFrameAt_length (hframes.trans hspl), hreached⟩)
    have hsome : ¬ ((∀ x ∈ A ++ V ++ W, b < x.ticks) ∨
        (memory = .undefined ∧ ∀ x ∈ A ++ V ++ W, x.ticks < a)) := by
      rintro (h | ⟨hm, h⟩)
      · have := h x (mem_append_left _ hxmem)
        omega
      · rcases hmemory hm with hne | hne
        · obtain ⟨y, hy⟩ := exists_mem_of_ne_nil _ hne
          have := h y (mem_append_left _ (mem_append_right _ hy))
          have := (hV y hy).1
          omega
        · obtain ⟨y, hy⟩ := exists_mem_of_ne_nil _ hne
          have := h y (mem_append_right _ hy)
          have := hW y hy
          omega
    rw [if_neg hsome]
    exact ⟨core', hset, hhand, hmoved.keyFrames ▸ hframes, hmoved.canSkipFrames.trans hskip,
      hcur', ⟨P, x, W, hspl, hxle, hW, hidx'.trans hidx⟩, nofun,
      nofun⟩

/-- Where the loop back from `a` to `b` ends. -/
theorem backward_ends {memory : Memory} (hframes : core.keyFrames.frames = A ++ V ++ W)
    (hskip : core.canSkipFrames = false) (hab : b < a) (hA : ∀ x ∈ A, x.ticks < b)
    (hV : ∀ x ∈ V, b ≤ x.ticks ∧ x.ticks ≤ a) (hW : ∀ x ∈ W, a ≤ x.ticks)
    (habort : core.aborted = false)
    (hcur : core.curTicks = ((V.head?).map KeyFrame.ticks).getD a)
    (hlast : (core.lastKF = (A.length : Int) ∧ V ++ W ≠ [] ∧
        (memory = .undefined → A ≠ [] ∨ V ≠ [])) ∨
      (core.lastKF = undefinedKeyFrame ∧ memory = .undefined ∧ A = [] ∧ V = [] ∧
        ∀ x ∈ W, a < x.ticks)) :
    ∃ core', core.setEndTime b = some core' ∧ core'.handled = core.handled ∧
      Stands (A ++ V ++ W) (memory.next (A ++ V ++ W) a b) false b core' := by
  unfold Memory.next
  rw [if_neg (by omega)]
  rcases hlast with ⟨hlast, hne, hmemory⟩ | ⟨hundef, hmemory, rfl, rfl, hbehind⟩
  · obtain ⟨x, Q, hQ⟩ := exists_cons_of_ne_nil hne
    have hspl : A ++ V ++ W = A ++ x :: Q := by rw [append_assoc, hQ]
    have hxmem : x ∈ V ++ W := by rw [hQ]; simp
    have hxge : b ≤ x.ticks := by
      rcases mem_append.mp hxmem with h | h
      · exact (hV x h).1
      · have := hW x h; omega
    have hreached : x.ticks = b → core.curTicks = b := by
      intro hxb
      rw [hcur]
      cases V with
      | nil =>
        have := hW x (by simpa using hxmem)
        omega
      | cons y V =>
        obtain ⟨rfl, -⟩ := List.cons.inj hQ
        exact hxb
    obtain ⟨core', hset, hmoved, hhand, hidx', hcur'⟩ := @setEndTime_spec core b habort
      (Or.inr ⟨x, hlast ▸ keyFrameAt_length (hframes.trans hspl), hreached⟩)
    have hsome : ¬ (memory = .undefined ∧ ∀ x ∈ A ++ V ++ W, a < x.ticks) := by
      rintro ⟨hm, h⟩
      rcases hmemory hm with hne | hne
      · obtain ⟨y, hy⟩ := exists_mem_of_ne_nil _ hne
        have := h y (mem_append_left _ (mem_append_left _ hy))
        have := hA y hy
        omega
      · obtain ⟨y, hy⟩ := exists_mem_of_ne_nil _ hne
        have := h y (mem_append_left _ (mem_append_right _ hy))
        have := (hV y hy).2
        omega
    rw [if_neg hsome]
    exact ⟨core', hset, hhand, hmoved.keyFrames ▸ hframes, hmoved.canSkipFrames.trans hskip,
      hcur', ⟨A, x, Q, hspl, hA, hxge, hidx'.trans hlast⟩, nofun,
      nofun⟩
  · obtain ⟨core', hset, hmoved, hhand, hidx, hcur'⟩ :=
      @setEndTime_spec core b habort (Or.inl hundef)
    rw [if_pos ⟨hmemory, hbehind⟩]
    refine ⟨core', hset, hhand, hmoved.keyFrames ▸ hframes, hmoved.canSkipFrames.trans hskip,
      hcur', hidx.trans hundef, nofun, fun _ => Or.inr fun x hx => ?_⟩
    have := hbehind x hx
    omega

/-- The beginning of a call. -/
def begin (core : TimelineClipCore) : TimelineClipCore := { core with aborted := false }

theorem playTo_forward (hskip : core.canSkipFrames = false) (hab : core.curTicks ≤ b)
    (hfrom : core.fromForward = some (k : Int)) :
    core.playTo noneAborts b =
      (core.begin.forwardLoop noneAborts b (core.keyFrames.frames.zipIdx.drop k)).setEndTime b := by
  unfold playTo
  rw [if_neg (by rw [hskip]; decide)]
  show (if core.curTicks ≤ b then core.fromForward.map _ else _).bind _ = _
  rw [if_pos hab, hfrom]
  rfl

theorem playTo_backward (hskip : core.canSkipFrames = false) (hab : b < core.curTicks)
    (hfrom : core.fromBackward = some ((k : Int) - 1)) :
    core.playTo noneAborts b =
      (core.begin.backwardLoop noneAborts b
        (core.keyFrames.frames.zipIdx.take k).reverse).setEndTime b := by
  unfold playTo
  rw [if_neg (by rw [hskip]; decide)]
  show (if core.curTicks ≤ b then _ else core.fromBackward.map _).bind _ = _
  rw [if_neg (by omega), hfrom]
  show (core.begin.backwardLoop noneAborts b
    (core.keyFrames.frames.zipIdx.take ((k : Int) - 1 + 1).toNat).reverse).setEndTime b = _
  rw [Int.sub_add_cancel, Int.toNat_natCast]

theorem setEndTime_handled (h : core.setEndTime b = some core') : core'.handled = core.handled := by
  unfold setEndTime at h
  split at h
  · rw [← Option.some.inj h]
  · split at h
    · rw [← Option.some.inj h]
    · obtain ⟨x, -, hx⟩ := Option.map_eq_some_iff.mp h
      rw [← hx]
      split <;> rfl

/-! ## One call -/

variable {memory : Memory} {fresh : Bool} {S P Q : List KeyFrame} {x : KeyFrame}

/-- The call runs the prescribed handlers. -/
def Runs (frames : List KeyFrame) (memory : Memory) (fresh : Bool) (a b : Int)
    (core : TimelineClipCore) : Prop :=
  ∃ core', core.playTo noneAborts b = some core' ∧
    core'.handled = core.handled ++ prescribed frames fresh a b ∧
    Stands frames (memory.next frames a b) false b core'

/-- The call does not run the prescribed handlers. -/
def Misses (frames : List KeyFrame) (fresh : Bool) (a b : Int) (core : TimelineClipCore) : Prop :=
  ∀ core', core.playTo noneAborts b = some core' →
    core'.handled ≠ core.handled ++ prescribed frames fresh a b

theorem Stands.fresh_eq (h : Stands frames memory fresh a core) (hmemory : memory ≠ .undefined) :
    fresh = false := by
  by_contra hfresh
  exact hmemory (h.fresh_undefined (by simpa using hfresh))

section

variable (h : Stands (P ++ x :: Q) memory fresh a core)
include h

theorem Stands.around :
    (P.Pairwise fun y z => y.ticks ≤ z.ticks) ∧ (Q.Pairwise fun y z => y.ticks ≤ z.ticks) ∧
      (∀ y ∈ P, y.ticks ≤ x.ticks) ∧ ∀ y ∈ Q, x.ticks ≤ y.ticks := by
  have hsort := core.keyFrames.sorted
  rw [h.keyFrames, pairwise_append] at hsort
  exact ⟨hsort.1, hsort.2.1.of_cons, fun y hy => hsort.2.2 y hy x mem_cons_self,
    fun y hy => rel_of_pairwise_cons hsort.2.1 hy⟩

theorem Stands.fromForward_eq (hlast : core.lastKF = (P.length : Int)) :
    core.fromForward = some (if x.ticks ≤ a then (P.length : Int) + 1 else P.length) := by
  unfold fromForward
  rw [if_neg (by rw [hlast]; unfold undefinedKeyFrame; omega), hlast, keyFrameAt_length h.keyFrames,
    Option.map_some, h.curTicks]

theorem Stands.fromBackward_eq (hlast : core.lastKF = (P.length : Int)) :
    core.fromBackward = some (if a ≤ x.ticks then (P.length : Int) - 1 else P.length) := by
  unfold fromBackward
  rw [if_neg (by rw [hlast]; unfold undefinedKeyFrame; omega), hlast, keyFrameAt_length h.keyFrames,
    Option.map_some, h.curTicks]

end

theorem harmless_iff_of_ne (hside : frames = [] ∨ a ≤ b ∨ ∃ y ∈ frames, b ≤ y.ticks)
    (hturn : memory.Turns a b) (hne : ∀ y ∈ frames, y.ticks ≠ a) :
    Harmless frames memory a b ↔ ∀ y ∈ frames, y.ticks < min a b ∨ max a b < y.ticks := by
  have hnone : frames.filter (fun y => y.ticks = a) = [] := by
    rw [filter_eq_nil_iff]
    intro y hy
    simpa using hne y hy
  rw [Harmless, and_iff_right hside, forall_prop_of_true hturn, hnone]
  exact or_iff_right (by decide)

theorem harmless_iff_of_eq (hside : P ++ x :: Q = [] ∨ a ≤ b ∨ ∃ y ∈ P ++ x :: Q, b ≤ y.ticks)
    (hturn : memory.Turns a b) (hx : x.ticks = a) :
    Harmless (P ++ x :: Q) memory a b ↔ (∀ y ∈ P, y.ticks ≠ a) ∧ ∀ y ∈ Q, y.ticks ≠ a := by
  have hnone : ∀ R : List KeyFrame,
      (R.filter fun y => y.ticks = a).length = 0 ↔ ∀ y ∈ R, y.ticks ≠ a := by
    simp [filter_eq_nil_iff]
  rw [Harmless, and_iff_right hside, forall_prop_of_true hturn, ← hnone P, ← hnone Q,
    filter_append, filter_cons_of_pos (by simp [hx]), length_append, length_cons]
  constructor
  · rintro (hone | hfar)
    · omega
    · have := hfar x (by simp)
      omega
  · intro hzero
    exact Or.inl (by omega)

/-! ## Forward calls -/

theorem playTo_forward_cut (hframes : core.keyFrames.frames = A ++ S ++ V ++ W)
    (hhandler : ∀ x ∈ V, x.onFinished = true) (hskip : core.canSkipFrames = false)
    (hcur : core.curTicks = a) (hab : a ≤ b) (hfrom : core.fromForward = some (A.length : Int))
    (hA : ∀ x ∈ A, x.ticks ≤ a) (hS : ∀ x ∈ S, x.ticks < a)
    (hV : ∀ x ∈ V, a ≤ x.ticks ∧ x.ticks ≤ b) (hW : ∀ x ∈ W, b < x.ticks)
    (hvisit : V = [] ∨ core.lastKF < (A ++ S).length)
    (hlast : V = [] → W = [] → (core.lastKF = ((A ++ S).length : Int) - 1 ∧ memory ≠ .undefined) ∨
      (core.lastKF = undefinedKeyFrame ∧ memory = .undefined ∧ ∀ x ∈ A ++ S, x.ticks < a)) :
    ∃ core', core.playTo noneAborts b = some core' ∧
      core'.handled = core.handled ++ List.range' (A ++ S).length V.length ∧
      Stands (A ++ S ++ V ++ W) (memory.next (A ++ S ++ V ++ W) a b) false b core' := by
  have hsort : V.Pairwise fun x y => x.ticks ≤ y.ticks := by
    have := core.keyFrames.sorted
    rw [hframes, append_assoc (A ++ S), pairwise_append] at this
    exact (pairwise_append.mp this.2.1).1
  rw [playTo_forward hskip (hcur ▸ hab) hfrom, hframes]
  have hdrop : ((A ++ S ++ V ++ W).zipIdx.drop A.length) = S.zipIdx A.length ++
      (V.zipIdx (A ++ S).length ++ W.zipIdx ((A ++ S).length + V.length)) := by
    rw [append_assoc, append_assoc, zipIdx_append,
      drop_left' (length_zipIdx ..), zipIdx_append, zipIdx_append]
    simp only [length_append, Nat.zero_add]
  have hbegin : core.begin.curTicks = a := hcur
  rw [hdrop, forwardLoop_skip fun x hx => ⟨hbegin ▸ hS x hx, by have := hS x hx; omega⟩]
  -- the visits leave the index of the last of them behind
  obtain ⟨core1, hloop, hmoved, hhand, hidx, htime⟩ := @forwardLoop_through V W core.begin b
    (A ++ S).length hsort hhandler (fun x hx => ⟨hbegin ▸ (hV x hx).1, (hV x hx).2⟩) hW hvisit rfl
  rw [hbegin] at htime
  have hAS : ∀ x ∈ A ++ S, x.ticks ≤ a := by
    intro x hx
    rcases mem_append.mp hx with h | h
    · exact hA x h
    · exact (hS x h).le
  have hidx' : (core1.lastKF = ((A ++ S).length : Int) + V.length - 1 ∧
        (memory = .undefined → V ≠ [] ∨ W ≠ [])) ∨
      (core1.lastKF = undefinedKeyFrame ∧ memory = .undefined ∧ V = [] ∧ W = [] ∧
        ∀ x ∈ A ++ S, x.ticks < a) := by
    by_cases hnil : V = [] ∧ W = []
    · rw [if_pos hnil] at hidx
      rcases hlast hnil.1 hnil.2 with ⟨h, hm⟩ | ⟨h, hm, hall⟩
      · exact Or.inl ⟨by rw [hnil.1, length_nil, Nat.cast_zero, add_zero]; exact hidx.trans h,
          fun h' => absurd h' hm⟩
      · exact Or.inr ⟨hidx.trans h, hm, hnil.1, hnil.2, hall⟩
    · rw [if_neg hnil] at hidx
      exact Or.inl ⟨hidx, fun _ => not_and_or.mp hnil⟩
  obtain ⟨core', hset, hsame, hstands⟩ := forward_ends (hmoved.keyFrames ▸ hframes)
    (hmoved.canSkipFrames.trans hskip) hab hAS hV hW hmoved.aborted htime hidx'
  rw [hloop]
  exact ⟨core', hset, hsame.trans hhand, hstands⟩

theorem prescribed_forward (hab : a ≤ b) (hA : ∀ x ∈ A, x.ticks < a ∨ (x.ticks = a ∧ fresh = false))
    (hV : ∀ x ∈ V, a ≤ x.ticks ∧ x.ticks ≤ b ∧ (fresh = true ∨ x.ticks ≠ a))
    (hW : ∀ x ∈ W, b < x.ticks) :
    prescribed (A ++ V ++ W) fresh a b = List.range' A.length V.length := by
  rw [prescribed, if_pos hab]
  refine indicesOf_cut (fun x hx => decide_eq_false ?_) (fun x hx => decide_eq_true (hV x hx))
    (fun x hx => decide_eq_false ?_)
  · rintro ⟨hlow, -, hrun⟩
    rcases hA x hx with h | ⟨h, hf⟩
    · omega
    · rcases hrun with hr | hr
      · rw [hf] at hr; cases hr
      · exact hr h
  · rintro ⟨-, hhigh, -⟩
    have := hW x hx
    omega

theorem Stands.forward_past (h : Stands (P ++ x :: (V ++ W)) memory fresh a core)
    (hhandler : ∀ y ∈ V, y.onFinished = true) (hab : a ≤ b) (hx : x.ticks ≤ a)
    (hV : ∀ y ∈ V, a ≤ y.ticks ∧ y.ticks ≤ b) (hW : ∀ y ∈ W, b < y.ticks)
    (hlast : core.lastKF = (P.length : Int)) (hmemory : memory ≠ .undefined) :
    ∃ core', core.playTo noneAborts b = some core' ∧
      core'.handled = core.handled ++ List.range' (P ++ [x]).length V.length ∧
      Stands (P ++ x :: (V ++ W)) (memory.next (P ++ x :: (V ++ W)) a b) false b core' := by
  have hspl : P ++ x :: (V ++ W) = P ++ [x] ++ [] ++ V ++ W := by simp
  have hbef : ∀ y ∈ P ++ [x], y.ticks ≤ a := by
    intro y hy
    rcases mem_append.mp hy with hy | hy
    · exact (h.around.2.2.1 y hy).trans hx
    · rwa [mem_singleton.mp hy]
  have hcut := @playTo_forward_cut (P ++ [x]) V W core a b memory [] (h.keyFrames.trans hspl)
    hhandler h.canSkipFrames h.curTicks hab
    (by rw [h.fromForward_eq hlast, if_pos hx, length_append]; rfl) hbef (by simp) hV hW
    (Or.inr (by rw [hlast]; simp)) (fun _ _ => Or.inl ⟨by rw [hlast]; simp, hmemory⟩)
  rwa [← hspl, append_nil] at hcut

theorem Stands.forward_from (h : Stands (P ++ x :: Q) memory false a core)
    (hhandler : ∀ y ∈ P ++ x :: Q, y.onFinished = true) (hab : a ≤ b) (hx : x.ticks ≤ a)
    (hQ : ∀ y ∈ Q, a < y.ticks) (hlast : core.lastKF = (P.length : Int))
    (hmemory : memory ≠ .undefined) : Runs (P ++ x :: Q) memory false a b core := by
  obtain ⟨-, hsort, hP, -⟩ := h.around
  obtain ⟨V, W, rfl, hV, hW⟩ := exists_cut_le hsort b
  have hQV : ∀ y ∈ V, a < y.ticks := fun y hy => hQ y (mem_append_left _ hy)
  obtain ⟨core', hplay, hhand, hstands⟩ := h.forward_past
    (fun y hy => hhandler y (by simp [hy])) hab hx (fun y hy => ⟨(hQV y hy).le, hV y hy⟩) hW hlast
    hmemory
  refine ⟨core', hplay, ?_, hstands⟩
  rw [hhand, show P ++ x :: (V ++ W) = P ++ [x] ++ V ++ W by simp, prescribed_forward hab ?_
    (fun y hy => ⟨(hQV y hy).le, hV y hy, Or.inr (hQV y hy).ne'⟩) hW]
  intro y hy
  refine (le_trans ?_ hx : y.ticks ≤ a).lt_or_eq.imp id fun h => ⟨h, rfl⟩
  rcases mem_append.mp hy with hy | hy
  · exact hP y hy
  · rw [mem_singleton.mp hy]

theorem Stands.forward_undefined (h : Stands frames .undefined fresh a core)
    (hhandler : ∀ y ∈ frames, y.onFinished = true) (hab : a ≤ b) :
    Runs frames .undefined fresh a b core := by
  have hsort := core.keyFrames.sorted
  rw [h.keyFrames] at hsort
  obtain ⟨S, B, rfl, hS, hB⟩ := exists_cut hsort a
  obtain ⟨V, W, rfl, hV, hW⟩ := exists_cut_le (pairwise_append.mp hsort).2.1 b
  have hBV : ∀ y ∈ V, a ≤ y.ticks := fun y hy => hB y (mem_append_left _ hy)
  have hspl : S ++ (V ++ W) = [] ++ S ++ V ++ W := by simp
  have hlast : core.lastKF = undefinedKeyFrame := h.holds
  obtain ⟨core', hplay, hhand, hstands⟩ := @playTo_forward_cut [] V W core a b .undefined S
    (h.keyFrames.trans hspl) (fun y hy => hhandler y (by simp [hy])) h.canSkipFrames h.curTicks hab
    (by unfold fromForward; rw [if_pos hlast]; rfl) (by simp) hS
    (fun y hy => ⟨hBV y hy, hV y hy⟩) hW (Or.inr (by rw [hlast]; unfold undefinedKeyFrame; omega))
    (fun _ _ => Or.inr ⟨hlast, rfl, hS⟩)
  rw [← hspl] at hstands
  refine ⟨core', hplay, ?_, hstands⟩
  rw [hhand, hspl, nil_append, prescribed_forward hab (fun y hy => Or.inl (hS y hy))
    (fun y hy => ⟨hBV y hy, hV y hy,
      (h.undefined_run rfl).imp id fun hno => hno y (by simp [hy])⟩) hW]

/-- The handlers of a call whose first key frame is suppressed. -/
theorem playTo_forward_suppressed (h : Stands (P ++ x :: (V ++ W)) memory fresh a core)
    (hhandler : ∀ y ∈ V, y.onFinished = true) (hab : a ≤ b) (hx : a < x.ticks) (hxb : x.ticks ≤ b)
    (hV : ∀ y ∈ V, y.ticks ≤ b) (hW : ∀ y ∈ W, b < y.ticks)
    (hlast : core.lastKF = (P.length : Int)) (hplay : core.playTo noneAborts b = some core') :
    core'.handled = core.handled ++ List.range' (P.length + 1) V.length := by
  obtain ⟨-, hsort, -, hQ⟩ := h.around
  have hfrom : core.fromForward = some (P.length : Int) := by
    rw [h.fromForward_eq hlast, if_neg (by omega)]
  have hbegin : core.begin.curTicks = a := h.curTicks
  rw [playTo_forward h.canSkipFrames (h.curTicks ▸ hab) hfrom, h.keyFrames, zipIdx_append,
    drop_left' (length_zipIdx ..), zipIdx_cons, Nat.zero_add, forwardLoop,
    if_neg (by omega), if_pos (by omega),
    visitKeyFrame_suppressed (show (P.length : Int) = core.begin.lastKF from hlast.symm)] at hplay
  simp only [show core.begin.aborted = false from rfl, Bool.false_eq_true, if_false] at hplay
  obtain ⟨core1, hloop, -, hhand, -⟩ := @forwardLoop_through V W core.begin b (P.length + 1)
    (pairwise_append.mp hsort).1 hhandler
    (fun y hy => ⟨by have := hQ y (mem_append_left _ hy); omega, hV y hy⟩) hW
    (Or.inr (by show core.lastKF < _; rw [hlast]; omega)) rfl
  rw [zipIdx_append, hloop] at hplay
  rw [setEndTime_handled hplay]
  exact hhand

theorem Stands.forward_turn (h : Stands frames .backward fresh a core)
    (hhandler : ∀ y ∈ frames, y.onFinished = true) (hab : a ≤ b) :
    (Harmless frames .backward a b → Runs frames .backward fresh a b core) ∧
      (¬ Harmless frames .backward a b → Misses frames fresh a b core) := by
  have hturn : Memory.backward.Turns a b := Or.inl ⟨rfl, hab⟩
  obtain ⟨P, x, Q, rfl, hP, hx, hlast⟩ := h.holds
  obtain rfl := h.fresh_eq (by decide)
  obtain ⟨-, hsort, -, hQ⟩ := h.around
  rcases hx.lt_or_eq with hlt | heq
  · have hge : ∀ y ∈ x :: Q, x.ticks ≤ y.ticks := by
      intro y hy
      rcases mem_cons.mp hy with rfl | hy
      · exact Int.le_refl _
      · exact hQ y hy
    rw [harmless_iff_of_ne (Or.inr (Or.inl hab)) hturn fun y hy => by
      rcases mem_append.mp hy with hy | hy
      · exact (hP y hy).ne
      · exact (hlt.trans_le (hge y hy)).ne']
    refine ⟨fun hfar => ?_, fun hfar core' hplay hsame => ?_⟩
    · -- no key frame on the way
      have hxb := hfar x (by simp)
      have hW : ∀ y ∈ x :: Q, b < y.ticks := fun y hy => by have := hge y hy; omega
      have hspl : P ++ x :: Q = P ++ [] ++ [] ++ (x :: Q) := by simp
      obtain ⟨core', hplay, hhand, hstands⟩ := @playTo_forward_cut P [] (x :: Q) core a b
        .backward [] (h.keyFrames.trans hspl) (by simp) h.canSkipFrames h.curTicks hab
        (by rw [h.fromForward_eq hlast, if_neg (by omega)]) (fun y hy => (hP y hy).le) (by simp)
        (by simp) hW (Or.inl rfl) (fun _ h => by cases h)
      rw [← hspl] at hstands
      refine ⟨core', hplay, ?_, hstands⟩
      rw [hhand, hspl, append_nil, prescribed_forward hab (fun y hy => Or.inl (hP y hy))
        (by simp) hW]
    · -- the remembered key frame is crossed and suppressed
      have hxb : x.ticks ≤ b := by
        by_contra hxb
        refine hfar fun y hy => ?_
        rcases mem_append.mp hy with hy | hy
        · have := hP y hy; omega
        · have := hge y hy; omega
      obtain ⟨V, W, rfl, hV, hW⟩ := exists_cut_le hsort b
      have hprescribed : prescribed (P ++ x :: (V ++ W)) false a b =
          List.range' P.length (x :: V).length := by
        rw [show P ++ x :: (V ++ W) = P ++ (x :: V) ++ W by simp]
        refine prescribed_forward hab (fun y hy => Or.inl (hP y hy)) (fun y hy => ?_) hW
        have hy' : y.ticks ≤ b := by
          rcases mem_cons.mp hy with rfl | hy
          · exact hxb
          · exact hV y hy
        have := hge y (mem_append_left W hy)
        exact ⟨by omega, hy', Or.inr (by omega)⟩
      rw [playTo_forward_suppressed h (fun y hy => hhandler y (by simp [hy])) hab hlt hxb hV hW hlast
        hplay, hprescribed] at hsame
      simpa using congrArg List.length hsame
  · rw [harmless_iff_of_eq (Or.inr (Or.inl hab)) hturn heq.symm,
      and_iff_right fun y hy => (hP y hy).ne]
    refine ⟨fun hne => ?_, fun hne core' hplay hsame => ?_⟩
    · -- exactly the remembered key frame is at the position
      exact h.forward_from hhandler hab heq.ge
        (fun y hy => (heq ▸ hQ y hy : a ≤ y.ticks).lt_of_ne' (hne y hy)) hlast (by decide)
    · -- a second key frame at the position is run again
      obtain ⟨B, W, rfl, hB, hW⟩ := exists_cut_le hsort b
      obtain ⟨D, V, rfl, hD, hV⟩ := exists_cut_le (pairwise_append.mp hsort).1 a
      have hDV : ∀ y ∈ D ++ V, a ≤ y.ticks ∧ y.ticks ≤ b := fun y hy =>
        ⟨heq ▸ hQ y (mem_append_left W hy), hB y hy⟩
      obtain ⟨core1, hplay1, hhand, -⟩ := h.forward_past
        (fun y hy => hhandler y (mem_append_right _ (mem_cons_of_mem _
          (mem_append_left _ hy)))) hab heq.ge hDV hW hlast (by decide)
      obtain rfl : core1 = core' := Option.some.inj (hplay1.symm.trans hplay)
      have hprescribed : prescribed (P ++ x :: (D ++ V ++ W)) false a b =
          List.range' (P ++ x :: D).length V.length := by
        rw [show P ++ x :: (D ++ V ++ W) = P ++ x :: D ++ V ++ W by simp]
        refine prescribed_forward hab (fun y hy => ?_) (fun y hy => ?_) hW
        · rcases mem_append.mp hy with hy | hy
          · exact Or.inl (hP y hy)
          · rcases mem_cons.mp hy with rfl | hy
            · exact Or.inr ⟨heq.symm, rfl⟩
            · exact Or.inr ⟨(hD y hy).antisymm (hDV y (mem_append_left V hy)).1, rfl⟩
        · have := hDV y (mem_append_right D hy)
          exact ⟨this.1, this.2, Or.inr (hV y hy).ne'⟩
      rw [hhand, hprescribed] at hsame
      have hlen := congrArg List.length (append_cancel_left hsame)
      simp only [length_range', length_append] at hlen
      obtain rfl : D = [] := length_eq_zero_iff.mp (by omega)
      refine hne fun y hy => ?_
      rcases mem_append.mp hy with hy | hy
      · exact (hV y hy).ne'
      · exact (hab.trans_lt (hW y hy)).ne'

/-! ## Backward calls -/

theorem playTo_backward_cut (hframes : core.keyFrames.frames = A ++ V ++ (S ++ W))
    (hhandler : ∀ x ∈ V, x.onFinished = true) (hskip : core.canSkipFrames = false)
    (hcur : core.curTicks = a) (hab : b < a)
    (hfrom : core.fromBackward = some (((A ++ V ++ S).length : Int) - 1))
    (hA : ∀ x ∈ A, x.ticks < b) (hV : ∀ x ∈ V, b ≤ x.ticks ∧ x.ticks ≤ a)
    (hS : ∀ x ∈ S, a < x.ticks) (hW : ∀ x ∈ W, a ≤ x.ticks)
    (hvisit : V = [] ∨ core.lastKF = undefinedKeyFrame ∨
      (((A ++ V).length : Nat) : Int) ≤ core.lastKF) (hexists : V ++ (S ++ W) ≠ [])
    (hlast : A = [] → V = [] → (core.lastKF = 0 ∧ memory ≠ .undefined) ∨
      (core.lastKF = undefinedKeyFrame ∧ memory = .undefined ∧ ∀ x ∈ S ++ W, a < x.ticks)) :
    ∃ core', core.playTo noneAborts b = some core' ∧
      core'.handled = core.handled ++ (List.range' A.length V.length).reverse ∧
      Stands (A ++ V ++ (S ++ W)) (memory.next (A ++ V ++ (S ++ W)) a b) false b core' := by
  have hsort : V.Pairwise fun x y => x.ticks ≤ y.ticks := by
    have := core.keyFrames.sorted
    rw [hframes, pairwise_append] at this
    exact (pairwise_append.mp this.1).2.1
  rw [playTo_backward hskip (hcur ▸ hab) hfrom, hframes]
  have htake : ((A ++ V ++ (S ++ W)).zipIdx.take (A ++ V ++ S).length).reverse =
      (S.zipIdx (A ++ V).length).reverse ++ ((V.zipIdx A.length).reverse ++
        (A.zipIdx 0).reverse) := by
    rw [← append_assoc (A ++ V), zipIdx_append, take_left' (length_zipIdx ..),
      zipIdx_append, zipIdx_append, reverse_append, reverse_append]
    simp only [Nat.zero_add]
  have hbegin : core.begin.curTicks = a := hcur
  rw [htake, backwardLoop_skip fun x hx => ⟨hbegin ▸ hS x hx, by have := hS x hx; omega⟩]
  obtain ⟨core1, hloop, hmoved, hhand, hidx, htime⟩ := @backwardLoop_through A V core.begin b
    hsort hhandler (fun x hx => ⟨hbegin ▸ (hV x hx).2, (hV x hx).1⟩) hA
    (by rw [length_append] at hvisit; exact hvisit) rfl
  rw [hbegin] at htime
  have hSW : ∀ x ∈ S ++ W, a ≤ x.ticks := by
    intro x hx
    rcases mem_append.mp hx with h | h
    · exact (hS x h).le
    · exact hW x h
  have hidx' : (core1.lastKF = (A.length : Int) ∧ V ++ (S ++ W) ≠ [] ∧
        (memory = .undefined → A ≠ [] ∨ V ≠ [])) ∨
      (core1.lastKF = undefinedKeyFrame ∧ memory = .undefined ∧ A = [] ∧ V = [] ∧
        ∀ x ∈ S ++ W, a < x.ticks) := by
    by_cases hnil : A = [] ∧ V = []
    · rw [if_pos hnil] at hidx
      rcases hlast hnil.1 hnil.2 with ⟨h, hm⟩ | ⟨h, hm, hall⟩
      · exact Or.inl ⟨by rw [hidx, hnil.1]; exact h, hexists, fun h' => absurd h' hm⟩
      · exact Or.inr ⟨hidx.trans h, hm, hnil.1, hnil.2, hall⟩
    · rw [if_neg hnil] at hidx
      exact Or.inl ⟨hidx, hexists, fun _ => not_and_or.mp hnil⟩
  obtain ⟨core', hset, hsame, hstands⟩ := backward_ends (hmoved.keyFrames ▸ hframes)
    (hmoved.canSkipFrames.trans hskip) hab hA hV hSW hmoved.aborted htime hidx'
  rw [hloop]
  exact ⟨core', hset, hsame.trans hhand, hstands⟩

theorem prescribed_backward (hab : b < a) (hA : ∀ x ∈ A, x.ticks < b)
    (hV : ∀ x ∈ V, b ≤ x.ticks ∧ x.ticks ≤ a ∧ (fresh = true ∨ x.ticks ≠ a))
    (hW : ∀ x ∈ W, a < x.ticks ∨ (x.ticks = a ∧ fresh = false)) :
    prescribed (A ++ V ++ W) fresh a b = (List.range' A.length V.length).reverse := by
  rw [prescribed, if_neg (by omega), indicesOf_cut (fun x hx => decide_eq_false ?_)
    (fun x hx => decide_eq_true (hV x hx)) (fun x hx => decide_eq_false ?_)]
  · rintro ⟨hlow, -, -⟩
    have := hA x hx
    omega
  · rintro ⟨-, hhigh, hrun⟩
    rcases hW x hx with h | ⟨h, hf⟩
    · omega
    · rcases hrun with hr | hr
      · rw [hf] at hr; cases hr
      · exact hr h

theorem Stands.backward_past (h : Stands (A ++ V ++ x :: Q) memory fresh a core)
    (hhandler : ∀ y ∈ V, y.onFinished = true) (hab : b < a) (hx : a ≤ x.ticks)
    (hA : ∀ y ∈ A, y.ticks < b) (hV : ∀ y ∈ V, b ≤ y.ticks ∧ y.ticks ≤ a)
    (hlast : core.lastKF = ((A ++ V).length : Int)) (hmemory : memory ≠ .undefined) :
    ∃ core', core.playTo noneAborts b = some core' ∧
      core'.handled = core.handled ++ (List.range' A.length V.length).reverse ∧
      Stands (A ++ V ++ x :: Q) (memory.next (A ++ V ++ x :: Q) a b) false b core' := by
  have hbehind : ∀ y ∈ x :: Q, a ≤ y.ticks := by
    intro y hy
    rcases mem_cons.mp hy with rfl | hy
    · exact hx
    · exact hx.trans (h.around.2.2.2 y hy)
  exact @playTo_backward_cut A V (x :: Q) core a b memory [] h.keyFrames hhandler h.canSkipFrames
    h.curTicks hab (by rw [h.fromBackward_eq hlast, if_pos hx, append_nil]) hA hV (by simp)
    hbehind (Or.inr (Or.inr (Int.le_of_eq hlast.symm))) (by simp)
    (fun hA hV => Or.inl ⟨by rw [hlast, hA, hV]; rfl, hmemory⟩)

theorem Stands.backward_from (h : Stands (P ++ x :: Q) memory false a core)
    (hhandler : ∀ y ∈ P ++ x :: Q, y.onFinished = true) (hab : b < a) (hx : a ≤ x.ticks)
    (hP : ∀ y ∈ P, y.ticks < a) (hlast : core.lastKF = (P.length : Int))
    (hmemory : memory ≠ .undefined) : Runs (P ++ x :: Q) memory false a b core := by
  obtain ⟨hsort, -, -, hQ⟩ := h.around
  obtain ⟨A, V, rfl, hA, hV⟩ := exists_cut hsort b
  have hPV : ∀ y ∈ V, y.ticks < a := fun y hy => hP y (mem_append_right _ hy)
  obtain ⟨core', hplay, hhand, hstands⟩ := h.backward_past
    (fun y hy => hhandler y (by simp [hy])) hab hx hA (fun y hy => ⟨hV y hy, (hPV y hy).le⟩) hlast
    hmemory
  refine ⟨core', hplay, ?_, hstands⟩
  rw [hhand, prescribed_backward hab hA
    (fun y hy => ⟨hV y hy, (hPV y hy).le, Or.inr (hPV y hy).ne⟩) ?_]
  intro y hy
  refine (le_trans hx ?_ : a ≤ y.ticks).lt_or_eq.imp id fun h => ⟨h.symm, rfl⟩
  rcases mem_cons.mp hy with rfl | hy
  · exact Int.le_refl _
  · exact hQ y hy

theorem Stands.backward_undefined (h : Stands frames .undefined fresh a core)
    (hhandler : ∀ y ∈ frames, y.onFinished = true) (hab : b < a)
    (hexists : ∃ y ∈ frames, b ≤ y.ticks) : Runs frames .undefined fresh a b core := by
  have hsort := core.keyFrames.sorted
  rw [h.keyFrames] at hsort
  obtain ⟨A, B, rfl, hA, hB⟩ := exists_cut hsort b
  obtain ⟨V, S, rfl, hV, hS⟩ := exists_cut_le (pairwise_append.mp hsort).2.1 a
  have hBV : ∀ y ∈ V, b ≤ y.ticks := fun y hy => hB y (mem_append_left _ hy)
  have hspl : A ++ (V ++ S) = A ++ V ++ (S ++ []) := by simp
  have hlast : core.lastKF = undefinedKeyFrame := h.holds
  obtain ⟨core', hplay, hhand, hstands⟩ := @playTo_backward_cut A V [] core a b .undefined S
    (h.keyFrames.trans hspl) (fun y hy => hhandler y (by simp [hy])) h.canSkipFrames h.curTicks hab
    (by unfold fromBackward; rw [if_pos hlast, h.keyFrames, append_assoc]) hA
    (fun y hy => ⟨hBV y hy, hV y hy⟩) hS (by simp) (Or.inr (Or.inl hlast))
    (by
      obtain ⟨y, hy, hyb⟩ := hexists
      rcases mem_append.mp hy with hy | hy
      · have := hA y hy; omega
      · rw [append_nil]; exact ne_nil_of_mem hy)
    (fun _ _ => Or.inr ⟨hlast, rfl, by rwa [append_nil]⟩)
  rw [← hspl] at hstands
  refine ⟨core', hplay, ?_, hstands⟩
  rw [hhand, ← append_assoc, prescribed_backward hab hA (fun y hy => ⟨hBV y hy, hV y hy,
      (h.undefined_run rfl).imp id fun hno => hno y (by simp [hy])⟩)
    (fun y hy => Or.inl (hS y hy))]

theorem playTo_backward_suppressed (h : Stands (A ++ V ++ x :: Q) memory fresh a core)
    (hhandler : ∀ y ∈ V, y.onFinished = true) (hab : b < a) (hx : x.ticks < a) (hxb : b ≤ x.ticks)
    (hA : ∀ y ∈ A, y.ticks < b) (hV : ∀ y ∈ V, b ≤ y.ticks)
    (hlast : core.lastKF = ((A ++ V).length : Int)) (hplay : core.playTo noneAborts b = some core') :
    core'.handled = core.handled ++ (List.range' A.length V.length).reverse := by
  obtain ⟨hsort, -, hP, -⟩ := h.around
  have hfrom : core.fromBackward = some (((A ++ V ++ [x]).length : Int) - 1) := by
    rw [h.fromBackward_eq hlast, if_neg (by omega), @length_append _ (A ++ V),
      length_singleton, Nat.cast_add, Nat.cast_one, add_sub_cancel_right]
  have htake : ((A ++ V ++ x :: Q).zipIdx.take (A ++ V ++ [x]).length).reverse =
      (x, (A ++ V).length) :: ((V.zipIdx A.length).reverse ++ (A.zipIdx 0).reverse) := by
    rw [show A ++ V ++ x :: Q = A ++ V ++ [x] ++ Q by simp, zipIdx_append,
      take_left' (length_zipIdx ..), zipIdx_append, zipIdx_append,
      reverse_append, reverse_append]
    simp
  have hbegin : core.begin.curTicks = a := h.curTicks
  rw [playTo_backward h.canSkipFrames (h.curTicks ▸ hab) hfrom, h.keyFrames, htake, backwardLoop,
    if_neg (by omega), if_pos (by omega),
    visitKeyFrame_suppressed (show ((A ++ V).length : Int) = core.begin.lastKF from hlast.symm)]
    at hplay
  simp only [show core.begin.aborted = false from rfl, Bool.false_eq_true, if_false] at hplay
  obtain ⟨core1, hloop, -, hhand, -⟩ := @backwardLoop_through A V core.begin b
    (pairwise_append.mp hsort).2.1 hhandler
    (fun y hy => ⟨by have := hP y (mem_append_right _ hy); omega, hV y hy⟩) hA
    (Or.inr (Or.inr (by show _ ≤ core.lastKF; rw [hlast, length_append]))) rfl
  rw [hloop] at hplay
  rw [setEndTime_handled hplay]
  exact hhand

theorem Stands.backward_fails (h : Stands frames memory fresh a core) (hne : frames ≠ [])
    (hab : b < a) (hall : ∀ y ∈ frames, y.ticks < b) : core.playTo noneAborts b = none := by
  have hfrom : core.fromBackward = some ((frames.length : Int) - 1) := by
    cases memory with
    | undefined =>
      unfold fromBackward
      rw [if_pos (show core.lastKF = undefinedKeyFrame from h.holds), h.keyFrames]
    | forward =>
      obtain ⟨P, x, Q, rfl, hx, hQ, hlast⟩ := h.holds
      have hxb := hall x (by simp)
      cases Q with
      | nil =>
        rw [h.fromBackward_eq hlast, if_neg (by omega)]
        simp
      | cons y Q =>
        have := hQ y mem_cons_self
        have := hall y (by simp)
        omega
    | backward =>
      obtain ⟨P, x, Q, rfl, hP, hx, hlast⟩ := h.holds
      have := hall x (by simp)
      omega
  rw [playTo_backward h.canSkipFrames (h.curTicks ▸ hab) hfrom, h.keyFrames,
    take_of_length_le (by rw [length_zipIdx]), backwardLoop_stop hall, if_neg hne]
  refine setEndTime_none rfl ?_ ?_
  · show (frames.length : Int) ≠ undefinedKeyFrame
    unfold undefinedKeyFrame
    omega
  · unfold keyFrameAt
    rw [if_neg (show ¬ (frames.length : Int) < 0 by omega)]
    show core.keyFrames.frames[(frames.length : Int).toNat]? = none
    rw [h.keyFrames, Int.toNat_natCast, getElem?_eq_none (Nat.le_refl _)]

theorem Stands.backward_turn (h : Stands frames .forward fresh a core)
    (hhandler : ∀ y ∈ frames, y.onFinished = true) (hab : b < a)
    (hexists : ∃ y ∈ frames, b ≤ y.ticks) :
    (Harmless frames .forward a b → Runs frames .forward fresh a b core) ∧
      (¬ Harmless frames .forward a b → Misses frames fresh a b core) := by
  have hturn : Memory.forward.Turns a b := Or.inr ⟨rfl, hab⟩
  obtain ⟨P, x, Q, rfl, hx, hQ, hlast⟩ := h.holds
  obtain rfl := h.fresh_eq (by decide)
  obtain ⟨hsort, -, hP, -⟩ := h.around
  rcases hx.lt_or_eq with hlt | heq
  · have hle : ∀ y ∈ P ++ [x], y.ticks ≤ x.ticks := by
      intro y hy
      rcases mem_append.mp hy with hy | hy
      · exact hP y hy
      · rw [mem_singleton.mp hy]
    have hcases : ∀ y ∈ P ++ x :: Q, y ∈ P ++ [x] ∨ y ∈ Q := by
      intro y hy
      rwa [show P ++ x :: Q = P ++ [x] ++ Q by simp, mem_append] at hy
    rw [harmless_iff_of_ne (Or.inr (Or.inr hexists)) hturn fun y hy => by
      rcases hcases y hy with hy | hy
      · exact ((hle y hy).trans_lt hlt).ne
      · exact (hQ y hy).ne']
    refine ⟨fun hfar => ?_, fun hfar core' hplay hsame => ?_⟩
    · -- no key frame on the way
      have hxb := hfar x (by simp)
      have hA : ∀ y ∈ P ++ [x], y.ticks < b := fun y hy => by have := hle y hy; omega
      have hspl : P ++ x :: Q = P ++ [x] ++ [] ++ ([] ++ Q) := by simp
      obtain ⟨core', hplay, hhand, hstands⟩ := @playTo_backward_cut (P ++ [x]) [] Q core a b
        .forward [] (h.keyFrames.trans hspl) (by simp) h.canSkipFrames h.curTicks hab
        (by rw [h.fromBackward_eq hlast, if_neg (by omega)]; simp) hA (by simp) (by simp)
        (fun y hy => (hQ y hy).le) (Or.inl rfl)
        (by
          obtain ⟨y, hy, hyb⟩ := hexists
          rcases hcases y hy with hy | hy
          · have := hA y hy; omega
          · exact ne_nil_of_mem hy)
        (fun h => by simp at h)
      rw [← hspl] at hstands
      refine ⟨core', hplay, ?_, hstands⟩
      rw [hhand, hspl, nil_append, prescribed_backward hab hA (by simp)
        (fun y hy => Or.inl (hQ y hy))]
    · -- the remembered key frame is crossed and suppressed
      have hxb : b ≤ x.ticks := by
        by_contra hxb
        refine hfar fun y hy => ?_
        rcases hcases y hy with hy | hy
        · have := hle y hy; omega
        · have := hQ y hy; omega
      obtain ⟨A, V, rfl, hA, hV⟩ := exists_cut hsort b
      have hprescribed : prescribed (A ++ V ++ x :: Q) false a b =
          (List.range' A.length (V ++ [x]).length).reverse := by
        rw [show A ++ V ++ x :: Q = A ++ (V ++ [x]) ++ Q by simp]
        refine prescribed_backward hab hA (fun y hy => ?_) (fun y hy => Or.inl (hQ y hy))
        have hy' : b ≤ y.ticks := by
          rcases mem_append.mp hy with hy | hy
          · exact hV y hy
          · rwa [mem_singleton.mp hy]
        have := hle y (by rw [append_assoc]; exact mem_append_right A hy)
        exact ⟨hy', by omega, Or.inr (by omega)⟩
      rw [playTo_backward_suppressed h (fun y hy => hhandler y (by simp [hy])) hab hlt hxb hA hV hlast
        hplay, hprescribed] at hsame
      simpa using congrArg List.length hsame
  · rw [harmless_iff_of_eq (Or.inr (Or.inr hexists)) hturn heq,
      and_iff_left fun y hy => (hQ y hy).ne']
    refine ⟨fun hne => ?_, fun hne core' hplay hsame => ?_⟩
    · -- exactly the remembered key frame is at the position
      exact h.backward_from hhandler hab heq.ge
        (fun y hy => (heq ▸ hP y hy : y.ticks ≤ a).lt_of_ne (hne y hy)) hlast (by decide)
    · -- a second key frame at the position is run again
      obtain ⟨A, B, rfl, hA, hB⟩ := exists_cut hsort b
      obtain ⟨V, D, rfl, hV, hD⟩ := exists_cut (pairwise_append.mp hsort).2.1 a
      have hVD : ∀ y ∈ V ++ D, b ≤ y.ticks ∧ y.ticks ≤ a := fun y hy =>
        ⟨hB y hy, heq ▸ hP y (mem_append_right A hy)⟩
      obtain ⟨core1, hplay1, hhand, -⟩ := h.backward_past
        (fun y hy => hhandler y (mem_append_left _ (mem_append_right _ hy))) hab heq.ge hA
        hVD hlast (by decide)
      obtain rfl : core1 = core' := Option.some.inj (hplay1.symm.trans hplay)
      have hprescribed : prescribed (A ++ (V ++ D) ++ x :: Q) false a b =
          (List.range' A.length V.length).reverse := by
        rw [show A ++ (V ++ D) ++ x :: Q = A ++ V ++ (D ++ x :: Q) by simp]
        refine prescribed_backward hab hA (fun y hy => ?_) (fun y hy => ?_)
        · have := hVD y (mem_append_left D hy)
          exact ⟨this.1, this.2, Or.inr (hV y hy).ne⟩
        · rcases mem_append.mp hy with hy | hy
          · exact Or.inr ⟨(hVD y (mem_append_right V hy)).2.antisymm (hD y hy), rfl⟩
          · rcases mem_cons.mp hy with rfl | hy
            · exact Or.inr ⟨heq, rfl⟩
            · exact Or.inl (hQ y hy)
      rw [hhand, hprescribed] at hsame
      have hlen := congrArg List.length (append_cancel_left hsame)
      simp only [length_reverse, length_range', length_append] at hlen
      obtain rfl : D = [] := length_eq_zero_iff.mp (by omega)
      refine hne fun y hy => ?_
      rcases mem_append.mp hy with hy | hy
      · exact ((hA y hy).trans hab).ne
      · rw [append_nil] at hy
        exact (hV y hy).ne

/-! ## Runs -/

theorem Stands.goesOn (h : Stands frames memory fresh a core)
    (hhandler : ∀ y ∈ frames, y.onFinished = true)
    (hside : a ≤ b ∨ ∃ y ∈ frames, b ≤ y.ticks) (hturn : ¬ memory.Turns a b) :
    Runs frames memory fresh a b core := by
  rcases le_or_gt a b with hab | hab
  · cases memory with
    | undefined => exact h.forward_undefined hhandler hab
    | forward =>
      obtain ⟨P, x, Q, rfl, hx, hQ, hlast⟩ := h.holds
      obtain rfl := h.fresh_eq (by decide)
      exact h.forward_from hhandler hab hx hQ hlast (by decide)
    | backward => exact absurd (Or.inl ⟨rfl, hab⟩) hturn
  · have hexists := hside.resolve_left (by omega)
    cases memory with
    | undefined => exact h.backward_undefined hhandler hab hexists
    | forward => exact absurd (Or.inr ⟨rfl, hab⟩) hturn
    | backward =>
      obtain ⟨P, x, Q, rfl, hP, hx, hlast⟩ := h.holds
      obtain rfl := h.fresh_eq (by decide)
      exact h.backward_from hhandler hab hx hP hlast (by decide)

theorem Stands.playTo (h : Stands frames memory fresh a core) (hne : frames ≠ [])
    (hhandler : ∀ y ∈ frames, y.onFinished = true) (b : Int) :
    (Harmless frames memory a b → Runs frames memory fresh a b core) ∧
      (¬ Harmless frames memory a b → Misses frames fresh a b core) := by
  by_cases hside : a ≤ b ∨ ∃ y ∈ frames, b ≤ y.ticks
  · by_cases hturn : memory.Turns a b
    · rcases hturn with ⟨rfl, hab⟩ | ⟨rfl, hab⟩
      · exact h.forward_turn hhandler hab
      · exact h.backward_turn hhandler hab (hside.resolve_left (by omega))
    · exact ⟨fun _ => h.goesOn hhandler hside hturn,
        fun hno => absurd ⟨Or.inr hside, fun hturns => absurd hturns hturn⟩ hno⟩
  · refine ⟨fun hharm => absurd (hharm.1.resolve_left hne) hside, fun _ core' hplay => ?_⟩
    rw [not_or, not_le] at hside
    rw [h.backward_fails hne hside.1 fun y hy => by
      by_contra hge
      exact hside.2 ⟨y, hy, by omega⟩] at hplay
    cases hplay

theorem Stands.visitsCrossed_iff (h : Stands frames memory fresh a core) (hne : frames ≠ [])
    (hhandler : ∀ y ∈ frames, y.onFinished = true) (ticks : List Int) :
    core.VisitsCrossed fresh a ticks ↔ HarmlessRun frames memory a ticks := by
  induction ticks generalizing core memory fresh a with
  | nil => exact Iff.rfl
  | cons b ticks ih =>
    obtain ⟨hright, hwrong⟩ := h.playTo hne hhandler b
    rw [VisitsCrossed, HarmlessRun, h.keyFrames]
    by_cases hharm : Harmless frames memory a b
    · obtain ⟨core', hplay, hhand, h'⟩ := hright hharm
      rw [and_iff_right hharm, ← ih h']
      constructor
      · rintro ⟨core1, hplay1, -, hrest⟩
        obtain rfl : core' = core1 := Option.some.inj (hplay.symm.trans hplay1)
        exact hrest
      · intro hrest
        exact ⟨core', hplay, hhand, hrest⟩
    · refine iff_of_false ?_ (fun hrun => hharm hrun.1)
      rintro ⟨core1, hplay, hhand, -⟩
      exact hwrong hharm core1 hplay hhand

theorem stands_jumpTo {keyFrames : List KeyFrame} (hne : keyFrames ≠ [])
    (hhandler : ∀ x ∈ keyFrames, x.onFinished = true) (start : Int) :
    Stands ((new.setKeyFrames keyFrames).jumpTo start).keyFrames.frames .undefined true start
      ((new.setKeyFrames keyFrames).jumpTo start) := by
  refine ⟨rfl, ?_, rfl, rfl, fun _ => rfl, fun _ => Or.inl rfl⟩
  show (keyFrames.all fun x => !x.onFinished) = false
  rw [all_eq_false]
  obtain ⟨x, hx⟩ := exists_mem_of_ne_nil _ hne
  exact ⟨x, hx, by simp [hhandler x hx]⟩

theorem harmlessRun_nil (memory : Memory) (a : Int) (ticks : List Int) :
    HarmlessRun [] memory a ticks := by
  induction ticks generalizing memory a with
  | nil => trivial
  | cons b ticks ih => exact ⟨⟨Or.inl rfl, fun _ => Or.inr (by simp)⟩, ih _ _⟩

theorem visitsCrossed_nil (hframes : core.keyFrames.frames = []) (hskip : core.canSkipFrames = true)
    (ticks : List Int) : core.VisitsCrossed fresh a ticks := by
  induction ticks generalizing core fresh a with
  | nil => trivial
  | cons b ticks ih =>
    refine ⟨{ core with lastKF := undefinedKeyFrame, curTicks := b }, if_pos hskip, ?_,
      ih hframes hskip⟩
    rw [hframes, prescribed]
    show core.handled = _
    split <;> simp [indicesOf]

/-- Every call of a run runs exactly the handlers on its stretch if and only if every call is
    harmless. -/
theorem visitsCrossed_iff_harmlessRun (keyFrames : List KeyFrame)
    (hhandler : ∀ x ∈ keyFrames, x.onFinished = true) (start : Int) (ticks : List Int) :
    ((new.setKeyFrames keyFrames).jumpTo start).VisitsCrossed true start ticks ↔
      HarmlessRun ((new.setKeyFrames keyFrames).jumpTo start).keyFrames.frames .undefined start
        ticks := by
  by_cases hnil : keyFrames = []
  · subst hnil
    exact iff_of_true (visitsCrossed_nil rfl rfl ticks) (harmlessRun_nil _ _ _)
  · have hperm : ((new.setKeyFrames keyFrames).jumpTo start).keyFrames.frames.Perm keyFrames :=
      perm_insertionSort _ _
    refine (stands_jumpTo hnil hhandler start).visitsCrossed_iff ?_
      (fun x hx => hhandler x (hperm.mem_iff.mp hx)) ticks
    intro hemp
    rw [hemp] at hperm
    exact hnil hperm.symm.eq_nil

/-- Key frames at 0, 3 and 6, there and back. -/
theorem visitsCrossed_iff_harmlessRun_turn :
    ((new.setKeyFrames [⟨0, true⟩, ⟨1 / 2, true⟩, ⟨1, true⟩]).jumpTo 0).VisitsCrossed true 0
      [2, 6, 1, 0] :=
  (visitsCrossed_iff_harmlessRun [⟨0, true⟩, ⟨1 / 2, true⟩, ⟨1, true⟩] (by decide) 0
    [2, 6, 1, 0]).mpr (by decide +kernel)

/-- Tick 3 is crossed on the way back from 4 to 2. -/
theorem crossed_keyFrame_not_run :
    (((new.setKeyFrames [⟨0, true⟩, ⟨1 / 2, true⟩, ⟨1, true⟩]).jumpTo 0).playTo noneAborts 4).bind
        (fun core => (core.playTo noneAborts 2).map TimelineClipCore.handled) = some [0, 1] ∧
      ¬ ((new.setKeyFrames [⟨0, true⟩, ⟨1 / 2, true⟩, ⟨1, true⟩]).jumpTo 0).VisitsCrossed true 0
        [4, 2] := by
  refine ⟨by decide +kernel, fun h => ?_⟩
  have hstands := stands_jumpTo (cons_ne_nil ⟨0, true⟩ [⟨1 / 2, true⟩, ⟨1, true⟩]) (by decide) 0
  have hrun := (hstands.visitsCrossed_iff (by decide +kernel) (by decide +kernel) [4, 2]).mp h
  revert hrun
  decide +kernel

end OpenJfx.Animation.TimelineClipCore
