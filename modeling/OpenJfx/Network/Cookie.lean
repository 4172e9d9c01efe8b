/-
  OpenJfx.Network.Cookie

  Cookies: when two of them are the same, how the times of their creation compare, and which hosts
  and paths one matches.  A text is the list of its UTF-16 code units.
-/

import Mathlib.Data.List.Basic
import Mathlib.Tactic.Ring

namespace OpenJfx.Network

abbrev Text := List Nat

/-- The text of some characters. -/
def text (cs : List Char) : Text := cs.map Char.toNat

def Ascii (t : Text) : Prop := ∀ c ∈ t, c < 128

/-- The lower case of an ASCII character. -/
def asciiLower (c : Nat) : Nat := if 65 ≤ c ∧ c ≤ 90 then c + 32 else c

/-- The types of rules in the list of public suffixes. -/
inductive Rule where
  | simple
  | wildcard
  | exception
  deriving DecidableEq, Repr

/-! ## Cookies -/

/-- `ExtendedTime`. -/
structure ExtendedTime where
  baseTime : Int
  subtime : Int
  deriving DecidableEq, Repr

namespace ExtendedTime

/-- The conversion of a `long` to an `int`. -/
def toInt (n : Int) : Int := Int.bmod n (2 ^ 32)

/-- By `int` differences. -/
def compareTo (a b : ExtendedTime) : Int :=
  if toInt (a.baseTime - b.baseTime) ≠ 0 then toInt (a.baseTime - b.baseTime)
  else a.subtime - b.subtime

end ExtendedTime

/-- The fields that the store reads. -/
structure Cookie where
  name : Text
  value : Text
  expiryTime : Int
  domain : Text
  path : Option Text
  creationTime : ExtendedTime
  lastAccessTime : Int
  persistent : Bool
  hostOnly : Bool
  secureOnly : Bool
  httpOnly : Bool
  deriving DecidableEq, Repr

namespace Cookie

/-- What `equals` and `hashCode` look at. -/
def key (c : Cookie) : Text × Text × Option Text := (c.name, c.domain, c.path)

/-- `hasExpired` at a reading of the clock. -/
def hasExpired (c : Cookie) (currentTimeMillis : Int) : Bool :=
  decide (currentTimeMillis > c.expiryTime)

end Cookie

/-! ## Matching -/

def isDecimalDigit (c : Nat) : Bool := decide (48 ≤ c) && decide (c ≤ 57)

def decimalValue (digits : Text) : Nat := digits.foldl (fun n c => n * 10 + (c - 48)) 0

/-- One group of the pattern, and its value. -/
def isIpGroup (group : Text) : Bool :=
  decide (1 ≤ group.length) && decide (group.length ≤ 3) && group.all isDecimalDigit &&
    decide (decimalValue group ≤ 255)

/-- Four groups of digits between dots. -/
def isIpAddress (hostname : Text) : Bool :=
  let groups := hostname.splitOn '.'.toNat
  decide (groups.length = 4) && groups.all isIpGroup

/-- The host itself, or, of no IP address, what follows a dot. -/
def domainMatches (domain cookieDomain : Text) : Bool :=
  cookieDomain.isSuffixOf domain && (decide (domain.length = cookieDomain.length) ||
      decide (domain[domain.length - cookieDomain.length - 1]? = some '.'.toNat) &&
        !isIpAddress domain)

/-- A `NullPointerException`. -/
inductive Failure where
  | nullPointer
  deriving DecidableEq, Repr

/-- `pathMatches`, where either path may be null. -/
def pathMatches (path cookiePath : Option Text) : Except Failure Bool :=
  match path, cookiePath with
  | none, _ => .ok false
  | some _, none => .error .nullPointer
  | some path, some cookiePath => .ok (cookiePath.isPrefixOf path &&
      (decide (path.length = cookiePath.length) || decide (cookiePath.getLast? = some '/'.toNat) ||
        decide (path[cookiePath.length]? = some '/'.toNat)))

end OpenJfx.Network
