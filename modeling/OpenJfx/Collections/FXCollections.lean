/-
  OpenJfx.Collections.FXCollections

  `FXCollections.rotate`: the elements are moved cycle by cycle.  With `g` the gcd of the
  size and the distance, the positions that are `c` modulo `g` are one cycle.
-/

import Mathlib.Data.Int.GCD
import Mathlib.Data.Nat.ModEq

namespace OpenJfx.Collections.FXCollections

open List

variable {α : Type}

/-- An exception, or a loop that never ends. -/
inductive Failure where
  | arithmetic
  | arrayIndexOutOfBounds
  | endless
  deriving DecidableEq

/-- The local variables of the inner loop. -/
structure Moving (α : Type) where
  newContent : List α
  displaced : α
  i : Int
  nMoved : Int

/-- The inner loop's index, in `int` arithmetic. -/
def next (size distance i : Int) : Int :=
  let i := (i + distance).bmod (2 ^ 32)
  if i ≥ size then i - size else i

/-- The body of the inner loop. -/
def move (size distance : Int) (s : Moving α) : Except Failure (Moving α) :=
  let i := next size distance s.i
  if i < 0 then .error .arrayIndexOutOfBounds
  else match s.newContent[i.toNat]? with
    | none => .error .arrayIndexOutOfBounds
    | some tmp => .ok ⟨s.newContent.set i.toNat s.displaced, tmp, i, s.nMoved + 1⟩

/-- The inner loop; it ends at the start of the cycle. -/
def moveCycle (size distance : Int) (cycleStart : Nat) :
    Nat → Moving α → Except Failure (Moving α)
  | 0, _ => .error .endless
  | fuel + 1, s =>
    match move size distance s with
    | .error e => .error e
    | .ok s => if s.i = cycleStart then .ok s else moveCycle size distance cycleStart fuel s

/-- The outer loop, until as many elements as there are have moved. -/
def moveCycles (size distance : Int) : Nat → Nat → List α → Int → Except Failure (List α)
  | 0, _, _, _ => .error .endless
  | fuel + 1, cycleStart, newContent, nMoved =>
    if nMoved = size then .ok newContent
    else match newContent[cycleStart]? with
      | none => .error .arrayIndexOutOfBounds
      | some displaced =>
        match moveCycle size distance cycleStart newContent.length
          ⟨newContent, displaced, cycleStart, nMoved⟩ with
        | .error e => .error e
        | .ok s => moveCycles size distance fuel (cycleStart + 1) s.newContent s.nMoved

/-- The content of the list afterwards.  A loop may take a round for each element. -/
def rotate (content : List α) (distance : Int) : Except Failure (List α) :=
  let size : Int := content.length
  -- `distance % 0`
  if size = 0 then .error .arithmetic
  else
    let distance := distance.tmod size
    let distance := if distance < 0 then distance + size else distance
    if distance = 0 then .ok content
    else moveCycles size distance (content.length + 1) 0 content 0

/-- Each element has moved right by `distance`, modulo the size. -/
def Rotated (content : List α) (distance : Int) (newContent : List α) : Prop :=
  newContent.length = content.length ∧ ∀ q : Nat, q < content.length →
    newContent[q]? = content[((q - distance) % content.length).toNat]?

/-! ## The cycles -/

/-- The position reached from `c` after `k` rounds. -/
def position (n d c k : Nat) : Nat := (c + k * d) % n

/-- The number of rounds of a cycle. -/
def period (n d : Nat) : Nat := n / n.gcd d

variable {n d c k j q : Nat}

theorem period_pos (h0 : 0 < d) (hd : d < n) : 0 < period n d :=
  Nat.div_pos (Nat.gcd_le_left d (h0.trans hd)) (Nat.gcd_pos_of_pos_right n h0)

theorem position_lt (hd : d < n) : position n d c k < n := Nat.mod_lt _ (by omega)

theorem position_zero (hc : c < n) : position n d c 0 = c := by
  rw [position, Nat.zero_mul, Nat.add_zero, Nat.mod_eq_of_lt hc]

theorem position_succ : position n d c (k + 1) = (position n d c k + d) % n := by
  rw [position, position, Nat.mod_add_mod, Nat.add_assoc, Nat.succ_mul]

theorem position_mod (hc : c < n.gcd d) : position n d c k % n.gcd d = c := by
  rw [position, Nat.mod_mod_of_dvd _ (Nat.gcd_dvd_left n d), Nat.add_mod,
    Nat.mod_eq_zero_of_dvd ((Nat.gcd_dvd_right n d).mul_left k), Nat.add_zero, Nat.mod_mod,
    Nat.mod_eq_of_lt hc]

theorem position_eq (hd : d < n) :
    position n d c j = position n d c k ↔ j ≡ k [MOD period n d] := by
  constructor
  · intro h
    exact Nat.ModEq.cancel_right_div_gcd (by omega) (Nat.ModEq.add_left_cancel' c h)
  · intro h
    have hmul := h.mul_right' d
    refine Nat.ModEq.add_left c (hmul.of_dvd ?_)
    rw [period, Nat.div_mul_right_comm (Nat.gcd_dvd_left n d)]
    exact ⟨d / n.gcd d, Nat.mul_div_assoc n (Nat.gcd_dvd_right n d)⟩

/-- The cycle that starts at `c` passes all positions that are `c` modulo the gcd. -/
theorem exists_position (h0 : 0 < d) (hd : d < n) (hq : q < n) (hc : q % n.gcd d = c) :
    ∃ k < period n d, position n d c k = q := by
  have hm := period_pos h0 hd
  have hgcd : d.gcd n < n := (Nat.gcd_le_left n h0).trans_lt hd
  obtain ⟨x, -, hx⟩ := Nat.exists_mul_mod_eq_gcd hgcd
  refine ⟨x * (q / n.gcd d) % (period n d), Nat.mod_lt _ hm, ?_⟩
  rw [(position_eq hd).mpr (Nat.mod_modEq _ _)]
  have hmod : x * (q / n.gcd d) * d ≡ n.gcd d * (q / n.gcd d) [MOD n] := by
    rw [Nat.mul_right_comm, Nat.mul_comm x d]
    refine Nat.ModEq.mul_right _ ?_
    rw [Nat.ModEq, hx, Nat.gcd_comm, Nat.mod_eq_of_lt (Nat.gcd_comm d n ▸ hgcd)]
  have hsum := Nat.ModEq.add_left c hmod
  rw [← hc, Nat.mod_add_div] at hsum
  rw [position, ← hc]
  exact Eq.trans hsum (Nat.mod_eq_of_lt hq)

/-! ## The loops -/

variable {content : List α} {L : List α} {s : Moving α}

/-- The positions that are written when `k` rounds of the cycle of `c` have been made. -/
def Moved (n d c k q : Nat) : Prop := q % n.gcd d < c ∨ ∃ j < k, position n d c (j + 1) = q

/-- What the array holds then. -/
structure Filled (content : List α) (n d c k : Nat) (L : List α) : Prop where
  size : content.length = n
  length : L.length = n
  moved : ∀ q < n, Moved n d c k q →
    L[q]? = content[(q + (n - d)) % n]?
  rest : ∀ q < n, ¬ Moved n d c k q → L[q]? = content[q]?

/-- The inner loop after `k` moves of the cycle that starts at `c`. -/
structure At (content : List α) (n d c k : Nat) (s : Moving α) : Prop where
  filled : Filled content n d c k s.newContent
  displaced : content[position n d c k]? = some s.displaced
  i : s.i = position n d c k
  nMoved : s.nMoved = (c * (period n d) + k : Nat)

theorem not_moved (hd : d < n) (hc : c < n.gcd d) (hk : k < period n d) :
    ¬ Moved n d c k (position n d c (k + 1)) := by
  rintro (hlt | ⟨j, hj, heq⟩)
  · rw [position_mod hc] at hlt
    exact hlt.false
  · have hmod := (Nat.ModEq.add_right_cancel' 1) ((position_eq hd).mp heq)
    rw [Nat.ModEq, Nat.mod_eq_of_lt (hj.trans hk), Nat.mod_eq_of_lt hk] at hmod
    exact hj.ne hmod

theorem moved_succ : Moved n d c (k + 1) q ↔ Moved n d c k q ∨ position n d c (k + 1) = q := by
  rw [Moved, Moved, or_assoc]
  refine or_congr_right ⟨?_, ?_⟩
  · rintro ⟨j, hj, rfl⟩
    rcases Nat.lt_succ_iff_lt_or_eq.mp hj with hj | rfl
    · exact Or.inl ⟨j, hj, rfl⟩
    · exact Or.inr rfl
  · rintro (⟨j, hj, rfl⟩ | rfl)
    · exact ⟨j, hj.trans (Nat.lt_succ_self k), rfl⟩
    · exact ⟨k, Nat.lt_succ_self k, rfl⟩

theorem moved_cycle (h0 : 0 < d) (hd : d < n) (hc : c < n.gcd d) (hq : q < n) :
    Moved n d c (period n d) q ↔ Moved n d (c + 1) 0 q := by
  have hm := period_pos h0 hd
  constructor
  · rintro (hlt | ⟨j, -, rfl⟩)
    · exact Or.inl (by omega)
    · exact Or.inl (by rw [position_mod hc]; omega)
  · rintro (hlt | ⟨j, hj, -⟩)
    · rcases Nat.lt_succ_iff_lt_or_eq.mp hlt with hlt | heq
      · exact Or.inl hlt
      · obtain ⟨k, -, rfl⟩ := exists_position h0 hd hq heq
        refine Or.inr ⟨(k + (period n d - 1)) % (period n d), Nat.mod_lt _ hm,
          (position_eq hd).mpr ?_⟩
        rw [Nat.ModEq, Nat.mod_add_mod, Nat.add_assoc, Nat.sub_add_cancel hm, Nat.add_mod_right]
    · omega

theorem next_eq {p : Nat} (hp : p < n) (hd : d < n) (hint : p + d < 2 ^ 31) :
    next n d p = ((p + d) % n : Nat) := by
  have hbmod : ((p : Int) + d).bmod (2 ^ 32) = p + d := by
    rw [Int.bmod_def]
    split <;> omega
  rw [next, hbmod]
  rcases Nat.lt_or_ge (p + d) n with hlt | hge
  · rw [if_neg (by omega), Nat.mod_eq_of_lt hlt]
    omega
  · rw [if_pos (by omega), Nat.mod_eq_sub_mod hge, Nat.mod_eq_of_lt (by omega)]
    omega

theorem next_neg {p : Nat} (hp : p < n) (hd : d < n) (hn : n < 2 ^ 31) (hint : 2 ^ 31 ≤ p + d) :
    next n d p < 0 := by
  have hbmod : ((p : Int) + d).bmod (2 ^ 32) = p + d - 2 ^ 32 := by
    rw [Int.bmod_def]
    split <;> omega
  rw [next, hbmod, if_neg (by omega)]
  omega

/-- An index overflows, or the loop returns and `P` holds. -/
def Ends {β : Type} (n d : Nat) (r : Except Failure β) (P : β → Prop) : Prop :=
  match r with
  | .error _ => ∃ p < n, 2 ^ 31 ≤ p + d
  | .ok b => P b

theorem Ends.imp {β : Type} {r : Except Failure β} {P Q : β → Prop} (h : Ends n d r P)
    (hPQ : ∀ b, P b → Q b) : Ends n d r Q := by
  cases r with
  | error e => exact h
  | ok b => exact hPQ b h

variable (hn : n < 2 ^ 31) (hd : d < n)
include hn hd

theorem At.move (h : At content n d c k s) (hc : c < n.gcd d) (hk : k < period n d) :
    Ends n d (move n d s) fun s' =>
      At content n d c (k + 1) s' ∧ position n d c k + d < 2 ^ 31 := by
  have hlt := position_lt (c := c) (k := k) hd
  have hnext := position_lt (c := c) (k := k + 1) hd
  have hsucc := position_succ (n := n) (d := d) (c := c) (k := k)
  rcases Nat.lt_or_ge (position n d c k + d) (2 ^ 31) with hint | hint
  · have hi := next_eq hlt hd hint
    have htmp := h.filled.rest _ hnext (not_moved hd hc hk)
    obtain ⟨tmp, hcon⟩ : ∃ tmp, content[position n d c (k + 1)]? = some tmp :=
      ⟨_, getElem?_eq_getElem (h.filled.size ▸ hnext)⟩
    rw [← hsucc] at hi
    rw [FXCollections.move, h.i, hi, if_neg (by omega), Int.toNat_natCast, htmp, hcon]
    refine ⟨⟨⟨h.filled.size, ?_, ?_, ?_⟩, hcon, rfl, ?_⟩, hint⟩
    · rw [length_set, h.filled.length]
    · intro q hq hmoved
      rcases Decidable.eq_or_ne (position n d c (k + 1)) q with rfl | hne
      · have hback : (position n d c (k + 1) + (n - d)) % n = position n d c k := by
          rw [hsucc, Nat.mod_add_mod, Nat.add_assoc, Nat.add_sub_cancel' hd.le, Nat.add_mod_right,
            Nat.mod_eq_of_lt hlt]
        rw [getElem?_set_self (h.filled.length ▸ hnext), hback, h.displaced]
      · rw [getElem?_set_ne hne]
        exact h.filled.moved q hq ((moved_succ.mp hmoved).resolve_right hne)
    · intro q hq hrest
      obtain ⟨hrest, hne⟩ := not_or.mp (mt moved_succ.mpr hrest)
      rw [getElem?_set_ne hne]
      exact h.filled.rest q hq hrest
    · rw [h.nMoved]
      rfl
  · rw [FXCollections.move, h.i, if_pos (next_neg hlt hd hn hint)]
    exact ⟨_, hlt, hint⟩

variable (h0 : 0 < d)
include h0

theorem At.moveCycle (hc : c < n.gcd d) (fuel : Nat) (h : At content n d c k s)
    (hk : k < period n d) (hfuel : period n d ≤ k + fuel) :
    Ends n d (moveCycle n d c fuel s) fun s' => At content n d c (period n d) s' ∧
      ∀ j, k ≤ j → j < period n d → position n d c j + d < 2 ^ 31 := by
  induction fuel generalizing k s with
  | zero => omega
  | succ fuel ih =>
    have hstep := h.move hn hd hc hk
    rw [FXCollections.moveCycle]
    cases hs : FXCollections.move n d s with
    | error e =>
      rw [hs] at hstep
      exact hstep
    | ok s' =>
      rw [hs] at hstep
      obtain ⟨h', hint⟩ := hstep
      have hstop : s'.i = c ↔ k + 1 = period n d := by
        rw [h'.i, Int.natCast_inj]
        nth_rewrite 2 [← position_zero (hc.trans_le (Nat.gcd_le_left d (h0.trans hd)))]
        rw [position_eq hd, Nat.modEq_zero_iff_dvd]
        exact ⟨fun hdvd => le_antisymm hk (Nat.le_of_dvd (Nat.succ_pos k) hdvd),
          fun heq => heq ▸ dvd_rfl⟩
      dsimp only
      by_cases hlast : k + 1 = period n d
      · rw [if_pos (hstop.mpr hlast)]
        refine ⟨hlast ▸ h', fun j hj hjm => ?_⟩
        obtain rfl : j = k := by omega
        exact hint
      · rw [if_neg (mt hstop.mp hlast)]
        refine (ih h' (by omega) (by omega)).imp fun s'' ⟨hat, hall⟩ => ⟨hat, fun j hj hjm => ?_⟩
        rcases Nat.eq_or_lt_of_le hj with rfl | hj
        · exact hint
        · exact hall j hj hjm

theorem moveCycles_ends (fuel : Nat) (hL : Filled content n d c 0 L) (hc : c ≤ n.gcd d)
    (hfuel : n.gcd d < c + fuel) :
    Ends n d (moveCycles n d fuel c L (c * period n d : Nat)) fun L' =>
      Filled content n d (n.gcd d) 0 L' ∧ ∀ q < n, c ≤ q % n.gcd d → q + d < 2 ^ 31 := by
  have hg : 0 < n.gcd d := Nat.gcd_pos_of_pos_right _ h0
  have hmul : n.gcd d * period n d = n := Nat.mul_div_cancel' (Nat.gcd_dvd_left n d)
  have hm := period_pos h0 hd
  induction fuel generalizing c L with
  | zero => omega
  | succ fuel ih =>
    rw [moveCycles]
    rcases Nat.eq_or_lt_of_le hc with rfl | hlt
    · rw [hmul, if_pos rfl]
      exact ⟨hL, fun q hq hle => absurd (Nat.mod_lt q hg) (by omega)⟩
    · have hne : ¬ ((c * period n d : Nat) : Int) = n := by
        rw [Int.natCast_inj]
        exact fun heq => hlt.ne (Nat.eq_of_mul_eq_mul_right hm (heq.trans hmul.symm))
      have hcn : c < n := hlt.trans_le (Nat.gcd_le_left d (h0.trans hd))
      have hdisp := hL.rest c hcn (by
        rintro (h | ⟨j, hj, -⟩)
        · exact absurd (Nat.mod_eq_of_lt hlt) h.ne
        · omega)
      obtain ⟨displaced, hcon⟩ : ∃ displaced, content[c]? = some displaced :=
        ⟨_, getElem?_eq_getElem (hL.size ▸ hcn)⟩
      rw [if_neg hne, hdisp, hcon]
      have hcycle := At.moveCycle hn hd h0 hlt L.length
        (s := ⟨L, displaced, c, (c * period n d : Nat)⟩)
        ⟨hL, (congrArg (content[·]?) (position_zero hcn)).trans hcon,
          congrArg Nat.cast (position_zero hcn).symm, rfl⟩ hm
        (by rw [hL.length, Nat.zero_add]; exact Nat.div_le_self _ _)
      dsimp only
      cases hs : FXCollections.moveCycle n d c L.length
          ⟨L, displaced, c, (c * period n d : Nat)⟩ with
      | error e =>
        rw [hs] at hcycle
        exact hcycle
      | ok s =>
        rw [hs] at hcycle
        obtain ⟨hend, hall⟩ := hcycle
        have hnext : Filled content n d (c + 1) 0 s.newContent :=
          ⟨hL.size, hend.filled.length, fun q hq hmoved =>
            hend.filled.moved q hq ((moved_cycle h0 hd hlt hq).mpr hmoved), fun q hq hrest =>
            hend.filled.rest q hq (mt (moved_cycle h0 hd hlt hq).mp hrest)⟩
        dsimp only
        rw [hend.nMoved, ← Nat.succ_mul]
        refine (ih hnext hlt (by omega)).imp fun L' ⟨hfill, hrest⟩ => ⟨hfill, fun q hq hle => ?_⟩
        rcases Nat.eq_or_lt_of_le hle with heq | hle
        · obtain ⟨k, hk, rfl⟩ := exists_position h0 hd hq heq.symm
          exact hall k (Nat.zero_le k) hk
        · exact hrest q hq hle

omit hn hd h0

/-! ## The rotation -/

theorem distance_eq {distance size : Int} (hsize : 0 < size) :
    (if distance.tmod size < 0 then distance.tmod size + size else distance.tmod size) =
      distance % size := by
  have hlt := Int.emod_lt_of_pos distance hsize
  have hnonneg := Int.emod_nonneg distance hsize.ne'
  rw [Int.tmod_eq_emod]
  by_cases h : 0 ≤ distance ∨ size ∣ distance
  · rw [if_pos h, if_neg (by omega)]
    omega
  · rw [if_neg h, if_pos (by omega)]
    omega

/-- The list is rotated unless it is empty or an index of the loop overflows. -/
theorem rotate_iff (hn : content.length < 2 ^ 31) (distance : Int) :
    (∃ newContent, rotate content distance = .ok newContent ∧
      Rotated content distance newContent) ↔
    content ≠ [] ∧ (content.length - 1) + distance % content.length < 2 ^ 31 := by
  unfold rotate
  rcases Nat.eq_zero_or_pos content.length with h0 | hpos
  · refine iff_of_false ?_ fun h => h.1 (length_eq_zero_iff.mp h0)
    dsimp only
    rw [if_pos (by omega)]
    rintro ⟨L, hL, -⟩
    cases hL
  · have hsize : (0 : Int) < content.length := by omega
    obtain ⟨d, hd⟩ := Int.eq_ofNat_of_zero_le (Int.emod_nonneg distance hsize.ne')
    have hdn : d < content.length := by
      have := Int.emod_lt_of_pos distance hsize
      omega
    dsimp only
    rw [if_neg hsize.ne', distance_eq hsize, hd, and_iff_right (length_pos_iff.mp hpos)]
    have hsource (q : Nat) (hq : q < content.length) :
        ((q - distance) % content.length).toNat = (q + (content.length - d)) % content.length := by
      have heq : (q : Int) - distance = (q + (content.length - d) : Nat) -
          content.length * (distance / content.length + 1) := by
        have := Int.mul_ediv_add_emod distance content.length
        rw [Int.mul_add]
        omega
      rw [heq, Int.sub_mul_emod_self_left]
      rfl
    rcases Nat.eq_zero_or_pos d with rfl | h0
    · rw [if_pos Int.natCast_zero]
      refine iff_of_true ⟨content, rfl, rfl, fun q hq => ?_⟩ (by omega)
      rw [hsource q hq, Nat.sub_zero, Nat.add_mod_right, Nat.mod_eq_of_lt hq]
    · rw [if_neg (by omega)]
      have hfill : Filled content content.length d 0 0 content := ⟨rfl, rfl, fun q hq hmoved => by
        rcases hmoved with h | ⟨j, hj, -⟩ <;> omega, fun q hq hrest => rfl⟩
      have hg : 0 < content.length.gcd d := Nat.gcd_pos_of_pos_right _ h0
      have hgn : content.length.gcd d ≤ content.length := Nat.gcd_le_left d hpos
      have hends := moveCycles_ends hn hdn h0 (content.length + 1) hfill (Nat.zero_le _)
        (by omega)
      rw [Nat.zero_mul] at hends
      cases hL : moveCycles content.length d (content.length + 1) 0 content (0 : Nat) with
      | error e =>
        rw [hL] at hends
        obtain ⟨p, hp, hint⟩ := hends
        refine iff_of_false ?_ (by omega)
        rintro ⟨L, hL, -⟩
        cases hL
      | ok L =>
        rw [hL] at hends
        obtain ⟨hend, hall⟩ := hends
        refine iff_of_true ⟨L, rfl, hend.length, fun q hq => ?_⟩ ?_
        · rw [hsource q hq]
          exact hend.moved q hq (Or.inl (Nat.mod_lt q hg))
        · have := hall (content.length - 1) (by omega) (Nat.zero_le _)
          omega

/-- Two cycles. -/
theorem rotate_six : ∃ newContent, rotate [1, 2, 3, 4, 5, 6] (-8) = .ok newContent ∧
    Rotated [1, 2, 3, 4, 5, 6] (-8) newContent :=
  (rotate_iff (by decide) (-8)).mpr (by decide)

/-- The remainder by the size 0 throws. -/
theorem rotate_nil : ¬ ∃ newContent, rotate ([] : List Nat) 1 = .ok newContent ∧
    Rotated [] 1 newContent := by
  rintro ⟨L, hL, -⟩
  cases hL

end OpenJfx.Collections.FXCollections
