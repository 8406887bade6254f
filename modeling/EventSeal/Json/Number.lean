import EventSeal.Json.Numeral
import EventSeal.Number.Style

/-!
# JSON numbers

A number is an integer or a binary64 number. Which of the two is read is
decided by how it is written: an integer numeral that fits a word of 64
bits, signed or unsigned, is an integer, and everything else, minus zero
and longer integers included, is the nearest binary64 number. A numeral
beyond the largest one denotes nothing.

Integers are read exactly. For other numerals `number?` gives the nearest
number, and here it is better than the program, whose reader is a quick one:
it rounds the digits and then what becomes of them by a power of ten. Both
give the same as long as the digits fit 53 bits and the power is the 22nd at
most. Beyond that the program may give a neighbour, and next to the largest
number it may accept what is refused here, or refuse what is accepted.
-/

namespace EventSeal.Json

/-- Fits a signed or an unsigned word of 64 bits. -/
def IsWord (n : Int) : Prop :=
  -9223372036854775808 ≤ n ∧ n ≤ 18446744073709551615

instance (n : Int) : Decidable (IsWord n) :=
  inferInstanceAs (Decidable (_ ∧ _))

inductive Number
  | whole (n : Int)
  | real (x : Binary64)
deriving DecidableEq

namespace Number

def ofInt64 (n : Int64) : Number :=
  .whole n.toInt

theorem isWord_toInt (n : Int64) : IsWord n.toInt :=
  ⟨n.le_toInt, by have := n.toInt_lt; omega⟩

/-- Up to fifteen places left of the point, and down to five zeros right
of it, a number is written without exponent. -/
def style : RealStyle where
  positional e := -5 ≤ e && e ≤ 15
  pointZero := true
  tie := .even

def write : Number → String
  | .whole n => Decimal.ofInt n
  | .real x => style.write x

end Number

/-- Within the signed range of 64 bits. -/
def int64OfInt? (n : Int) : Option Int64 :=
  if -9223372036854775808 ≤ n ∧ n ≤ 9223372036854775807 then some (Int64.ofInt n) else none

@[simp] theorem int64OfInt?_toInt (n : Int64) : int64OfInt? n.toInt = some n := by
  have h₁ := n.le_toInt
  have h₂ := n.toInt_lt
  rw [int64OfInt?, if_pos ⟨h₁, by omega⟩, Int64.ofInt_toInt]

/-- Within the signed range of 32 bits. -/
def int32OfInt? (n : Int) : Option Int32 :=
  if -2147483648 ≤ n ∧ n ≤ 2147483647 then some (Int32.ofInt n) else none

@[simp] theorem int32OfInt?_toInt (n : Int32) : int32OfInt? n.toInt = some n := by
  have h₁ := n.le_toInt
  have h₂ := n.toInt_lt
  rw [int32OfInt?, if_pos ⟨h₁, by omega⟩, Int32.ofInt_toInt]

namespace Numeral

def number? (n : Numeral) : Option Number :=
  if n.isInteger = true ∧ IsWord n.integer then some (.whole n.integer)
  else (Binary64.ofDecimal? n.negative n.digits n.power).map .real

def int64? (n : Numeral) : Option Int64 :=
  if n.isInteger then int64OfInt? n.integer else none

def int32? (n : Numeral) : Option Int32 :=
  if n.isInteger then int32OfInt? n.integer else none

end Numeral

end EventSeal.Json
