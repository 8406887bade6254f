import EventSeal.Decimal.Signed
import EventSeal.Json.Reader
import EventSeal.Text.Blank

/-!
# Lenient readings

Records also come as loose members, with a number where a text belongs,
an integer in quotes, a flag as `1`. A lenient reading takes any value,
or none at all, and never fails: what cannot be used counts as zero,
false or empty.
-/

namespace EventSeal.Json

/-- Digits in full, with a point only where there is a fraction. -/
def plainStyle : RealStyle where
  positional _ := true
  pointZero := false
  tie := .up

/-- A whole number of at most fifteen digits is written as the integer it
is, which has no negative zero. -/
def coerceReal (x : Binary64) : String :=
  if x.isWhole ∧ x.truncate.natAbs < 1000000000000000 then Decimal.ofInt x.truncate
  else plainStyle.write x

def coerceText : Option Value → String
  | some (.text s) => s
  | some (.bool b) => if b then "true" else "false"
  | some (.number (.whole n)) => Decimal.ofInt n
  | some (.number (.real x)) => coerceReal x
  | some .null | some (.array _) | some (.object _) | none => ""

/-! ## Integers -/

/-- The nearest 64-bit integer. -/
def saturate (n : Int) : Int64 :=
  Int64.ofInt (max (-9223372036854775808) (min n 9223372036854775807))

/-- Drops a fraction of zeros, if there is something in front of it. Only
the first point counts. -/
def dropZeroFraction (cs : List Char) : List Char :=
  let whole := cs.takeWhile (· != '.')
  match cs.dropWhile (· != '.') with
  | _ :: fraction =>
      if whole ≠ [] ∧ fraction ≠ [] ∧ fraction.all (· == '0') = true then whole else cs
  | [] => cs

def readLooseInt64 (s : String) : Int64 :=
  match Decimal.readInt64 (dropZeroFraction (Text.trimChars s.toList)) with
  | .ok n => n
  | .error _ => 0

def coerceInt64 : Option Value → Int64
  | some (.number (.whole n)) => (int64OfInt? n).getD 0
  | some (.number (.real x)) => saturate x.truncate
  | some (.bool b) => if b then 1 else 0
  | some (.text s) => readLooseInt64 s
  | some .null | some (.array _) | some (.object _) | none => 0

/-! ## Flags -/

def readLooseFlag (s : String) : Bool :=
  let cs := (Text.trimChars s.toList).map Char.toLower
  cs == ['1'] || cs == ['t'] || cs == ['t', 'r', 'u', 'e']

def coerceFlag : Option Value → Bool
  | some (.bool b) => b
  | some (.number (.whole n)) => n != 0
  | some (.number (.real x)) => !x.isZero
  | some (.text s) => readLooseFlag s
  | some .null | some (.array _) | some (.object _) | none => false

/-! ## Members -/

/-- The members of an object, also of one given as a text that holds it. -/
def coerceMembers : Option Value → Members
  | some (.object m) => m
  | some (.text s) =>
      match Value.ofText s with
      | .ok (.object m) => m
      | _ => []
  | some .null | some (.bool _) | some (.number _) | some (.array _) | none => []

end EventSeal.Json
