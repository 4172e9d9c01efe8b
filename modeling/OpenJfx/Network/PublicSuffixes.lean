/-
  OpenJfx.Network.PublicSuffixes

  `PublicSuffixes`: the rules are read into one map, in which `isPublicSuffix` looks the domain
  and its parent up. `IDN.toASCII` is a parameter.
-/

import OpenJfx.Network.Cookie
import Mathlib.Data.List.Induction
import Mathlib.Data.List.Perm.Basic
import Mathlib.Logic.Function.Basic

namespace OpenJfx.Network.PublicSuffixes

open List Function Option

variable {toASCII : Text → Option Text} {lines : List Text} {domain : Text} {rule : Rule}

/-- The class `\s` of regular expressions. -/
def isSpace (c : Nat) : Bool := c = 32 ∨ 9 ≤ c ∧ c ≤ 13

/-- The rule on a line, none for a comment or a blank. -/
def statedRule (line : Text) : Option (Text × Rule) :=
  let line := line.takeWhile fun c => !isSpace c
  if line = [] then none
  else if text ['/', '/'] <+: line then none
  else if text ['!'] <+: line then some (line.drop 1, .exception)
  else if text ['*', '.'] <+: line then some (line.drop 2, .wildcard)
  else some (line, .simple)

/-- One turn of the loop of `loadRules`. -/
def readLine (toASCII : Text → Option Text) (result : Text → Option Rule) (line : Text) :
    Text → Option Rule :=
  match statedRule line with
  | none => result
  | some (stated, rule) =>
    match toASCII stated with
    | none => result
    | some domain => update result domain (some rule)

/-- A later line overwrites an earlier one with its domain. -/
def loadRules (toASCII : Text → Option Text) (lines : List Text) : Text → Option Rule :=
  lines.foldl (readLine toASCII) fun _ => none

/-- What stands behind the first dot. -/
def parent (domain : Text) : Text :=
  domain.drop (if '.'.toNat ∈ domain then domain.idxOf '.'.toNat + 1 else domain.length)

def isPublicSuffix (rules : Text → Option Rule) (domain : Text) : Bool :=
  if domain = [] then false
  else match rules domain with
    | some .exception => false
    | some .simple => true
    | some .wildcard => true
    | none => rules (parent domain) = some .wildcard

/-! ## The rules that are loaded -/

/-- A line states the rule for the domain. -/
def States (lines : List Text) (rule : Rule) (domain : Text) : Prop :=
  ∃ line ∈ lines, statedRule line = some (domain, rule)

/-- `IDN.toASCII` leaves the domains of the list as they are. -/
def Plain (toASCII : Text → Option Text) (lines : List Text) : Prop :=
  ∀ rule domain, States lines rule domain → toASCII domain = some domain

theorem states_perm {lines' : List Text} (hperm : lines'.Perm lines) : States lines' = States lines := by
  funext rule domain
  simp only [States, hperm.mem_iff]

theorem states_concat {line : Text} : States (lines ++ [line]) rule domain ↔
      States lines rule domain ∨ statedRule line = some (domain, rule) := by
  simp only [States, mem_append, mem_singleton, or_and_right, exists_or, exists_eq_left]

theorem loadRules_concat (toASCII : Text → Option Text) (lines : List Text) (line : Text) :
    loadRules toASCII (lines ++ [line]) = readLine toASCII (loadRules toASCII lines) line :=
  foldl_append

theorem loadRules_last {line : Text} (h : Plain toASCII (lines ++ [line]))
    (hline : statedRule line = some (domain, rule)) :
    loadRules toASCII (lines ++ [line]) domain = some rule := by
  have hascii := h rule domain (states_concat.mpr (.inr hline))
  rw [loadRules_concat, readLine, hline]
  simp only [hascii, update_self]

theorem loadRules_spec (h : Plain toASCII lines) (domain : Text) :
    match loadRules toASCII lines domain with
    | some rule => States lines rule domain
    | none => ∀ rule, ¬ States lines rule domain := by
  induction lines using reverseRecOn with
  | nil => exact fun rule hstates => absurd hstates (by simp [States])
  | append_singleton lines line ih =>
    have hlines : Plain toASCII lines := fun rule domain hstates =>
      h rule domain (states_concat.mpr (.inl hstates))
    cases hline : statedRule line with
    | none =>
      have hsame : loadRules toASCII (lines ++ [line]) = loadRules toASCII lines := by
        rw [loadRules_concat, readLine, hline]
      simp only [hsame, states_concat, hline, reduceCtorEq, or_false]
      exact ih hlines
    | some stated =>
      obtain ⟨stated, last⟩ := stated
      by_cases hdomain : domain = stated
      · subst hdomain
        rw [loadRules_last h hline]
        exact states_concat.mpr (.inr hline)
      · have hascii := h last stated (states_concat.mpr (.inr hline))
        have hsame : loadRules toASCII (lines ++ [line]) domain = loadRules toASCII lines domain := by
          rw [loadRules_concat, readLine, hline]
          simp only [hascii, update_of_ne hdomain]
        have hother : ∀ rule, some (stated, last) ≠ some (domain, rule) := by
          rintro rule ⟨⟩
          exact hdomain rfl
        simp only [hsame, states_concat, hline, hother, or_false]
        exact ih hlines

/-- Every rule of a domain is the last one in some order of the lines. -/
theorem States.exists_last (h : States lines rule domain) (hplain : Plain toASCII lines) :
    ∃ lines', lines'.Perm lines ∧ loadRules toASCII lines' domain = some rule := by
  obtain ⟨line, hmem, hline⟩ := h
  have hperm : (lines.erase line ++ [line]).Perm lines :=
    (perm_append_singleton _ _).trans (perm_cons_erase hmem).symm
  refine ⟨_, hperm, loadRules_last ?_ hline⟩
  rwa [Plain, states_perm hperm]

/-! ## The answer -/

/-- What the list says of a domain. -/
def IsSuffix (lines : List Text) (domain : Text) : Prop :=
  ¬ States lines .exception domain ∧
    (States lines .simple domain ∨ States lines .wildcard domain ∨
      States lines .wildcard (parent domain))

/-- The rules that the answer depends on are not mixed with others. -/
def Unmixed (lines : List Text) (domain : Text) : Prop :=
  (States lines .exception domain → ∀ rule, States lines rule domain → rule = .exception) ∧
    ((∀ rule, ¬ States lines rule domain) → States lines .wildcard (parent domain) →
      ∀ rule, States lines rule (parent domain) → rule = .wildcard)

/-- Where the rules are not mixed, the answer is what the list says. -/
theorem Unmixed.isPublicSuffix (h : Unmixed lines domain) (hplain : Plain toASCII lines)
    (hdomain : domain ≠ []) :
    isPublicSuffix (loadRules toASCII lines) domain = true ↔ IsSuffix lines domain := by
  have hself := loadRules_spec hplain domain
  have hpar := loadRules_spec hplain (parent domain)
  rw [PublicSuffixes.isPublicSuffix, if_neg hdomain, IsSuffix]
  cases hrule : loadRules toASCII lines domain with
  | none =>
    rw [hrule] at hself
    simp only [hself, not_false_eq_true, true_and, false_or, decide_eq_true_eq]
    constructor
    · intro hwildcard
      rwa [hwildcard] at hpar
    · intro hwildcard
      cases hfound : loadRules toASCII lines (parent domain) with
      | none =>
        rw [hfound] at hpar
        exact absurd hwildcard (hpar _)
      | some rule =>
        rw [hfound] at hpar
        rw [h.2 hself hwildcard rule hpar]
  | some rule =>
    rw [hrule] at hself
    have hnot : rule ≠ .exception → ¬ States lines .exception domain := fun hne hexception =>
      hne (h.1 hexception rule hself)
    cases rule with
    | exception => exact ⟨nofun, fun hspec => absurd hself hspec.1⟩
    | simple => exact ⟨fun _ => ⟨hnot nofun, .inl hself⟩, fun _ => rfl⟩
    | wildcard => exact ⟨fun _ => ⟨hnot nofun, .inr (.inl hself)⟩, fun _ => rfl⟩

/-- The answer is the list's, in every order of its lines, if and only if no exception of the
    domain, and where it has no rule no wildcard of its parent, shares its domain with another
    rule. -/
theorem isPublicSuffix_iff_unmixed (hplain : Plain toASCII lines) (hdomain : domain ≠ []) :
    (∀ lines', lines'.Perm lines →
      (isPublicSuffix (loadRules toASCII lines') domain = true ↔ IsSuffix lines domain)) ↔
      Unmixed lines domain := by
  constructor
  · intro h
    refine ⟨fun hexception rule hrule => ?_, fun hnone hwildcard rule hrule => ?_⟩
    · obtain ⟨lines', hperm, hlast⟩ := hrule.exists_last hplain
      have hanswer := h lines' hperm
      rw [isPublicSuffix, if_neg hdomain, hlast] at hanswer
      cases rule with
      | exception => rfl
      | simple | wildcard => exact absurd hexception (hanswer.mp rfl).1
    · obtain ⟨lines', hperm, hlast⟩ := hrule.exists_last hplain
      have hanswer := (h lines' hperm).mpr ⟨hnone _, .inr (.inr hwildcard)⟩
      have hself := loadRules_spec (show Plain toASCII lines' by rwa [Plain, states_perm hperm]) domain
      rw [states_perm hperm] at hself
      cases hfound : loadRules toASCII lines' domain with
      | some found =>
        rw [hfound] at hself
        exact absurd hself (hnone found)
      | none =>
        rw [isPublicSuffix, if_neg hdomain, hfound, hlast] at hanswer
        exact some.inj (of_decide_eq_true hanswer)
  · intro h lines' hperm
    rw [Plain, ← states_perm hperm] at hplain
    rw [Unmixed, ← states_perm hperm] at h
    rw [IsSuffix, ← states_perm hperm]
    exact Unmixed.isPublicSuffix h hplain hdomain

/-- The lines `*.ck`, `!www.ck` and a comment, and the domain `a.ck`. -/
theorem isPublicSuffix_iff_unmixed_ck : ∃ lines domain, lines.length = 3 ∧ domain.length = 4 ∧
    ((∀ lines', lines'.Perm lines →
      (isPublicSuffix (loadRules some lines') domain = true ↔ IsSuffix lines domain)) ↔
      Unmixed lines domain) :=
  ⟨[text ['*', '.', 'c', 'k'], text ['!', 'w', 'w', 'w', '.', 'c', 'k'], text ['/', '/', 'a']],
    text ['a', '.', 'c', 'k'], rfl, rfl,
    isPublicSuffix_iff_unmixed (fun _ _ _ => rfl) (by decide)⟩

/-- The line `ck` takes the place of `*.ck`, and `a.ck` is not a public suffix any more. -/
theorem isPublicSuffix_fails :
    ¬ ∀ (lines : List Text) (domain : Text), domain ≠ [] → ∀ lines', lines'.Perm lines →
      (isPublicSuffix (loadRules some lines') domain = true ↔ IsSuffix lines domain) := by
  intro h
  have hanswer := h [text ['*', '.', 'c', 'k'], text ['c', 'k']] (text ['a', '.', 'c', 'k'])
    (by decide) _ (Perm.refl _)
  have hfalse : isPublicSuffix (loadRules some [text ['*', '.', 'c', 'k'], text ['c', 'k']])
      (text ['a', '.', 'c', 'k']) = false := by decide
  have hnone : ¬ States [text ['*', '.', 'c', 'k'], text ['c', 'k']] .exception
      (text ['a', '.', 'c', 'k']) := by
    simp only [States, mem_cons, not_mem_nil, or_false, exists_eq_or_imp, exists_eq_left]
    decide
  rw [hfalse] at hanswer
  have hwildcard : IsSuffix [text ['*', '.', 'c', 'k'], text ['c', 'k']]
      (text ['a', '.', 'c', 'k']) :=
    ⟨hnone, .inr (.inr ⟨_, .head _, by decide⟩)⟩
  cases hanswer.mpr hwildcard

end OpenJfx.Network.PublicSuffixes
