/-
  OpenJfx.Lib.InternTable

  Writers that put an entry into a shared table and write its index in its place.  `Encodes
  entries p r a`: `p` returns, and `r` reads `a` back with any final table that starts with the
  one `p` left; `EncodesTo` only says that what is read has some property.  `Interns p xs`: what a
  writer has put into the table, `Adds p xs n` also how many bytes it wrote.
-/

import OpenJfx.Lib.DataStream
import Mathlib.Data.Finset.Card

namespace OpenJfx.InternTable

open OpenJfx.DataStream List

variable {bs : List UInt8}

variable {τ : Type} [DecidableEq τ]

/-! ## The table -/

/-- The index of `x`, which becomes the last entry when it is new. -/
def intern (x : τ) (table : List τ) : Nat × List τ :=
  if x ∈ table then (table.idxOf x, table) else (table.length, table ++ [x])

theorem prefix_intern (x : τ) (table : List τ) : table <+: (intern x table).2 := by
  unfold intern
  split
  · exact prefix_rfl
  · exact prefix_append table [x]

theorem intern_getElem? (x : τ) (table : List τ) :
    (intern x table).2[(intern x table).1]? = some x := by
  unfold intern
  split
  · next h => exact getElem?_idxOf h
  · simp

variable {table : List τ}

theorem mem_intern {x y : τ} :
    y ∈ (intern x table).2 ↔ y ∈ table ∨ y = x := by
  unfold intern
  split
  · next h =>
    constructor
    · exact .inl
    · rintro (hy | rfl)
      · exact hy
      · exact h
  · simp

theorem nodup_intern (x : τ) (h : table.Nodup) : (intern x table).2.Nodup := by
  unfold intern
  split
  · exact h
  · next hx =>
    rw [nodup_append]
    refine ⟨h, nodup_singleton x, ?_⟩
    intro y hy z hz hyz
    rw [mem_singleton] at hz
    exact hx (hz ▸ hyz ▸ hy)

/-- The table after the entries `xs`. -/
def internAll (xs : List τ) (table : List τ) : List τ :=
  xs.foldl (fun table x => (intern x table).2) table

theorem internAll_append (xs ys table : List τ) :
    internAll (xs ++ ys) table = internAll ys (internAll xs table) :=
  foldl_append

theorem mem_internAll {y : τ} {xs : List τ} :
    y ∈ internAll xs table ↔ y ∈ table ∨ y ∈ xs := by
  induction xs generalizing table with
  | nil => simp [internAll]
  | cons x xs ih =>
    show y ∈ internAll xs (intern x table).2 ↔ _
    rw [ih, mem_intern, mem_cons, or_assoc]

theorem nodup_internAll (xs : List τ) (h : table.Nodup) : (internAll xs table).Nodup := by
  induction xs generalizing table with
  | nil => exact h
  | cons x xs ih => exact ih (nodup_intern x h)

theorem internAll_nil_length (xs : List τ) : (internAll xs []).length = xs.toFinset.card := by
  have hset : (internAll xs []).toFinset = xs.toFinset := by
    ext y
    simp [mem_internAll]
  rw [← hset, toFinset_card_of_nodup (nodup_internAll xs nodup_nil)]

/-! ## Writers -/

/-- A writer takes the table and returns the bytes and the new table. -/
abbrev Put (τ : Type) := List τ → Except Throwable (List UInt8 × List τ)

variable {p q : Put τ} {table' : List τ} {α : Type} {ps : List (Put τ)} {write : Int → List UInt8}

namespace Put

/-- Bytes that do not depend on the table. -/
def bytes (bs : List UInt8) : Put τ := fun table => .ok (bs, table)

def throw (e : Throwable) : Put τ := fun _ => .error e

/-- The index at which `x` stands, or is put. -/
def index (write : Int → List UInt8) (x : τ) : Put τ := fun table =>
  .ok (write (intern x table).1, (intern x table).2)

def seq (p q : Put τ) : Put τ := fun table =>
  match p table with
  | .error e => .error e
  | .ok (bs, table) =>
    match q table with
    | .error e => .error e
    | .ok (bs', table) => .ok (bs ++ bs', table)

/-- The statements of a method, one after the other. -/
def all : List (Put τ) → Put τ
  | [] => bytes []
  | p :: ps => p.seq (all ps)

/-- A loop over `xs`. -/
def each {α : Type} (write : α → Put τ) (xs : List α) : Put τ := all (xs.map write)

omit [DecidableEq τ] in
theorem seq_eq_ok (h : p.seq q table = .ok (bs, table')) :
    ∃ bs1 table1 bs2, p table = .ok (bs1, table1) ∧ q table1 = .ok (bs2, table') ∧
      bs = bs1 ++ bs2 := by
  unfold seq at h
  split at h
  · cases h
  · next bs1 table1 hp =>
    split at h
    · cases h
    · next bs2 table2 hq =>
      cases h
      exact ⟨bs1, table1, bs2, hp, hq, rfl⟩

omit [DecidableEq τ] in
theorem all_eq_ok (h : all ps table = .ok (bs, table')) (hp : p ∈ ps) :
    ∃ table1 bs1 table2, p table1 = .ok (bs1, table2) := by
  induction ps generalizing table bs with
  | nil => cases hp
  | cons q ps ih =>
    obtain ⟨bs1, table1, bs2, hq, hps, -⟩ := seq_eq_ok h
    rcases mem_cons.1 hp with rfl | hp
    · exact ⟨table, bs1, table1, hq⟩
    · exact ih hps hp

omit [DecidableEq τ] in
theorem each_eq_ok {write : α → Put τ} {xs : List α}
    (h : each write xs table = .ok (bs, table')) {x : α} (hx : x ∈ xs) :
    ∃ table1 bs1 table2, write x table1 = .ok (bs1, table2) :=
  all_eq_ok h (mem_map_of_mem hx)

end Put

/-- `entries[index]` with an index that is read. -/
def lookup (entries : List τ) (read : DataInput Int) : DataInput τ := do
  let i ← read
  if 0 ≤ i then
    match entries[i.toNat]? with
    | some x => return x
    | none => throw (.exception .indexOutOfBounds)
  else throw (.exception .indexOutOfBounds)

omit [DecidableEq τ] in
theorem yields_lookup (entries : List τ) (read : DataInput Int) :
    Yields (lookup entries read) (· ∈ entries) := by
  refine Yields.skip fun i => Yields.ite (fun _ => ?_) fun _ => Yields.throw _
  cases h : entries[i.toNat]? with
  | none => exact Yields.throw _
  | some x => exact Yields.pure (mem_of_getElem? h)

/-! ## What is read back -/

variable {α β : Type} {entries : List τ}

/-- `r` reads back a result with the property `Q`. -/
def EncodesTo (entries : List τ) (p : Put τ) (r : DataInput α) (Q : α → Prop) : Prop :=
  ∀ table, ∃ bs table', p table = .ok (bs, table') ∧ table <+: table' ∧
    (table' <+: entries → ∃ a, Decodes r bs a ∧ Q a)

/-- `p` returns, and `r` reads `a` from its bytes. -/
abbrev Encodes (entries : List τ) (p : Put τ) (r : DataInput α) (a : α) : Prop :=
  EncodesTo entries p r (· = a)

variable {r : DataInput α} {f : α → DataInput β} {Q : α → Prop}

namespace EncodesTo

omit [DecidableEq τ] in
theorem bytes {a : α} (h : Decodes r bs a) :
    Encodes entries (Put.bytes bs) r a := fun table =>
  ⟨bs, table, rfl, prefix_rfl, fun _ => ⟨a, h, rfl⟩⟩

omit [DecidableEq τ] in
theorem imp {R : α → Prop} (hp : EncodesTo entries p r Q)
    (h : ∀ a, Q a → R a) : EncodesTo entries p r R := by
  intro table
  obtain ⟨bs, table', hok, hpre, hdec⟩ := hp table
  refine ⟨bs, table', hok, hpre, fun hent => ?_⟩
  obtain ⟨a, hr, hQ⟩ := hdec hent
  exact ⟨a, hr, h a hQ⟩

omit [DecidableEq τ] in
theorem done (a : α) : Encodes entries (Put.all []) (pure a) a := bytes (Decodes.pure a)

omit [DecidableEq τ] in
theorem seq {a : α} {Q : β → Prop} (hp : Encodes entries p r a) (hq : EncodesTo entries q (f a) Q) :
    EncodesTo entries (p.seq q) (r >>= f) Q := by
  intro table
  obtain ⟨bs1, table1, hp1, hpre1, hdec1⟩ := hp table
  obtain ⟨bs2, table2, hq2, hpre2, hdec2⟩ := hq table1
  refine ⟨bs1 ++ bs2, table2, ?_, hpre1.trans hpre2, ?_⟩
  · simp only [Put.seq, hp1, hq2]
  · intro hpre
    obtain ⟨_, hr, rfl⟩ := hdec1 (hpre2.trans hpre)
    obtain ⟨b, hf, hQ⟩ := hdec2 hpre
    exact ⟨b, hr.bind hf, hQ⟩

omit [DecidableEq τ] in
theorem cons {p : Put τ} {ps : List (Put τ)} {r : DataInput α} {f : α → DataInput β} {a : α}
    {Q : β → Prop} (hp : Encodes entries p r a) (hps : EncodesTo entries (Put.all ps) (f a) Q) :
    EncodesTo entries (Put.all (p :: ps)) (r >>= f) Q :=
  hp.seq hps

omit [DecidableEq τ] in
theorem last (hp : EncodesTo entries p r Q) :
    EncodesTo entries (Put.all [p]) r Q := by
  intro table
  obtain ⟨bs, table', hok, hpre, hdec⟩ := hp table
  refine ⟨bs, table', ?_, hpre, hdec⟩
  show Put.seq p (Put.bytes []) table = _
  simp [Put.seq, hok, Put.bytes]

omit [DecidableEq τ] in
/-- The next statement, when what it reads is only used at the end. -/
theorem consTo [Inhabited α] {R : α → β → Prop} (hp : EncodesTo entries p r Q)
    (hps : ∀ a, EncodesTo entries (Put.all ps) (f a) (R a)) :
    EncodesTo entries (Put.all (p :: ps)) (r >>= f) fun b => ∃ a, Q a ∧ R a b := by
  intro table
  obtain ⟨bs1, table1, hp1, hpre1, hdec1⟩ := hp table
  obtain ⟨bs2, table2, hq2, hpre2, -⟩ := hps default table1
  refine ⟨bs1 ++ bs2, table2, ?_, hpre1.trans hpre2, ?_⟩
  · show Put.seq p (Put.all ps) table = _
    simp only [Put.seq, hp1, hq2]
  · intro hpre
    obtain ⟨a, hr, hQ⟩ := hdec1 (hpre2.trans hpre)
    obtain ⟨bs3, table3, hq3, -, hdec3⟩ := hps a table1
    rw [hq2] at hq3
    cases hq3
    obtain ⟨b, hf, hR⟩ := hdec3 hpre
    exact ⟨b, hr.bind hf, a, hQ, hR⟩

omit [DecidableEq τ] in
theorem map {a : α} {b : β}
    (hp : Encodes entries p r a) (hf : Decodes (f a) [] b) : Encodes entries p (r >>= f) b := by
  intro table
  obtain ⟨bs, table', hok, hpre, hdec⟩ := hp table
  refine ⟨bs, table', hok, hpre, fun h => ?_⟩
  obtain ⟨_, hr, rfl⟩ := hdec h
  exact ⟨b, hr.map hf, rfl⟩

omit [DecidableEq τ] in
theorem each {write : α → Put τ} {r : DataInput β} {g : α → β} {xs : List α}
    (h : ∀ x ∈ xs, Encodes entries (write x) r (g x)) :
    Encodes entries (Put.each write xs) (readMany r xs.length) (xs.map g) := by
  induction xs with
  | nil => exact done []
  | cons x xs ih =>
    have hxs := ih fun y hy => h y (mem_cons_of_mem x hy)
    exact (h x mem_cons_self).seq (hxs.map (Decodes.pure (g x :: xs.map g)))

omit [DecidableEq τ] in
theorem eachTo [Inhabited β] {write : α → Put τ} {r : DataInput β} {Q : α → β → Prop}
    {xs : List α} (h : ∀ x ∈ xs, EncodesTo entries (write x) r (Q x)) :
    EncodesTo entries (Put.each write xs) (readMany r xs.length) (List.Forall₂ Q xs) := by
  induction xs with
  | nil =>
    intro table
    exact ⟨[], table, rfl, prefix_rfl, fun _ => ⟨[], Decodes.pure [], .nil⟩⟩
  | cons x xs ih =>
    have hxs := ih fun y hy => h y (mem_cons_of_mem x hy)
    have hrest : ∀ a, EncodesTo entries (Put.each write xs)
        (readMany r xs.length >>= fun as => pure (a :: as))
        (fun bs => ∃ as, List.Forall₂ Q xs as ∧ bs = a :: as) := by
      intro a table
      obtain ⟨bs, table', hok, hpre, hdec⟩ := hxs table
      refine ⟨bs, table', hok, hpre, fun hp => ?_⟩
      obtain ⟨as, hr, hQ⟩ := hdec hp
      exact ⟨a :: as, hr.map (Decodes.pure _), as, hQ, rfl⟩
    intro table
    obtain ⟨bs, table', hok, hpre, hdec⟩ := (h x mem_cons_self).consTo hrest table
    refine ⟨bs, table', hok, hpre, fun hp => ?_⟩
    obtain ⟨b, hr, a, hQ, as, hall, rfl⟩ := hdec hp
    exact ⟨a :: as, hr, .cons hQ hall⟩

theorem index {read : DataInput Int} {limit : Nat}
    (hread : ∀ i : Nat, i < limit → Decodes read (write i) i) (hlimit : entries.length ≤ limit)
    (x : τ) : Encodes entries (Put.index write x) (lookup entries read) x := by
  intro table
  refine ⟨_, _, rfl, prefix_intern x table, fun hpre => ⟨x, ?_, rfl⟩⟩
  have hget : entries[(intern x table).1]? = some x := by
    obtain ⟨rest, rfl⟩ := hpre
    have hx := intern_getElem? x table
    rw [getElem?_append_left (List.getElem?_eq_some_iff.1 hx).1, hx]
  have hlt : (intern x table).1 < entries.length := (List.getElem?_eq_some_iff.1 hget).1
  refine (hread _ (hlt.trans_le hlimit)).map ?_
  have hnn : (0 : Int) ≤ ((intern x table).1 : Int) := Int.natCast_nonneg _
  simp only [if_pos hnn, Int.toNat_natCast, hget]
  exact Decodes.pure x

end EncodesTo

/-! ## What is written -/

/-- When `p` returns it has put `xs` into the table. -/
def Interns (p : Put τ) (xs : List τ) : Prop :=
  ∀ table bs table', p table = .ok (bs, table') → table' = internAll xs table

namespace Interns

theorem bytes (bs : List UInt8) : Interns (Put.bytes bs : Put τ) [] := by
  intro table bs' table' h
  cases h
  rfl

theorem throw (e : Throwable) (xs : List τ) : Interns (Put.throw e) xs := by
  intro table bs table' h
  cases h

theorem index (write : Int → List UInt8) (x : τ) : Interns (Put.index write x) [x] := by
  intro table bs table' h
  cases h
  rfl

theorem seq {xs ys : List τ} (hp : Interns p xs) (hq : Interns q ys) :
    Interns (p.seq q) (xs ++ ys) := by
  intro table bs table' h
  obtain ⟨bs1, table1, bs2, hp1, hq2, -⟩ := Put.seq_eq_ok h
  obtain rfl := hp _ _ _ hp1
  obtain rfl := hq _ _ _ hq2
  exact (internAll_append xs ys table).symm

theorem done : Interns (Put.all [] : Put τ) [] := bytes []

theorem cons {p : Put τ} {ps : List (Put τ)} {xs ys : List τ} (hp : Interns p xs)
    (hps : Interns (Put.all ps) ys) : Interns (Put.all (p :: ps)) (xs ++ ys) :=
  hp.seq hps

theorem each {write : α → Put τ} {entriesOf : α → List τ} {xs : List α}
    (h : ∀ x ∈ xs, Interns (write x) (entriesOf x)) :
    Interns (Put.each write xs) (xs.flatMap entriesOf) := by
  induction xs with
  | nil => exact done
  | cons x xs ih =>
    rw [flatMap_cons]
    exact (h x mem_cons_self).seq (ih fun y hy => h y (mem_cons_of_mem x hy))

end Interns

/-- When `p` returns it has put `xs` into the table and written `n` bytes. -/
def Adds (p : Put τ) (xs : List τ) (n : Nat) : Prop :=
  ∀ table bs table', p table = .ok (bs, table') → table' = internAll xs table ∧ bs.length = n

namespace Adds

theorem bytes (bs : List UInt8) : Adds (Put.bytes bs : Put τ) [] bs.length := by
  intro table bs' table' h
  cases h
  exact ⟨rfl, rfl⟩

theorem throw (e : Throwable) (xs : List τ) (n : Nat) : Adds (Put.throw e) xs n := by
  intro table bs table' h
  cases h

theorem index {n : Nat} (hn : ∀ i, (write i).length = n) (x : τ) :
    Adds (Put.index write x) [x] n := by
  intro table bs table' h
  cases h
  exact ⟨rfl, hn _⟩

theorem seq {xs ys : List τ} {m n : Nat} (hp : Adds p xs m) (hq : Adds q ys n) :
    Adds (p.seq q) (xs ++ ys) (m + n) := by
  intro table bs table' h
  obtain ⟨bs1, table1, bs2, hp1, hq2, rfl⟩ := Put.seq_eq_ok h
  obtain ⟨rfl, rfl⟩ := hp _ _ _ hp1
  obtain ⟨rfl, rfl⟩ := hq _ _ _ hq2
  exact ⟨(internAll_append xs ys table).symm, length_append⟩

theorem done : Adds (Put.all [] : Put τ) [] 0 := bytes []

theorem cons {p : Put τ} {ps : List (Put τ)} {xs ys : List τ} {m n : Nat} (hp : Adds p xs m)
    (hps : Adds (Put.all ps) ys n) : Adds (Put.all (p :: ps)) (xs ++ ys) (m + n) :=
  hp.seq hps

theorem each {write : α → Put τ} {entriesOf : α → List τ} {size : α → Nat}
    {xs : List α} (h : ∀ x ∈ xs, Adds (write x) (entriesOf x) (size x)) :
    Adds (Put.each write xs) (xs.flatMap entriesOf) (xs.map size).sum := by
  induction xs with
  | nil => exact done
  | cons x xs ih =>
    rw [flatMap_cons, map_cons, sum_cons]
    exact (h x mem_cons_self).seq (ih fun y hy => h y (mem_cons_of_mem x hy))

end Adds

end OpenJfx.InternTable
