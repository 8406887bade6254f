import EventSeal.Decimal

/-!
# Reading an integer within bounds

A sign or none, then digits, of which there may be any number of leading
zeros. The digits are read from left to right, and what goes wrong first
is the fault: a character that is no digit, or the value leaving its
bounds. A sign alone lacks its first digit.
-/

namespace EventSeal.Decimal

inductive IntegerFault
  | empty
  | invalidDigit
  | aboveRange
  | belowRange
deriving DecidableEq

namespace IntegerFault

def message : IntegerFault → String
  | .empty => "cannot parse integer from empty string"
  | .invalidDigit => "invalid digit found in string"
  | .aboveRange => "number too large to fit in target type"
  | .belowRange => "number too small to fit in target type"

end IntegerFault

/-- Reads on with the digits before worth `acc`. The value may not exceed
`bound`. -/
def readDigits (bound : Nat) (excess : IntegerFault) (acc : Nat) :
    List Char → Except IntegerFault Nat
  | [] => .ok acc
  | c :: cs =>
      if isDigit c then
        let acc := 10 * acc + (c.toNat - '0'.toNat)
        if acc ≤ bound then readDigits bound excess acc cs else .error excess
      else .error .invalidDigit

/-- The digits after a sign. -/
def readMagnitude (bound : Nat) (excess : IntegerFault) : List Char → Except IntegerFault Nat
  | [] => .error .invalidDigit
  | cs => readDigits bound excess 0 cs

/-- Reads an integer from `-lower` to `upper`. -/
def readSigned (lower upper : Nat) : List Char → Except IntegerFault Int
  | [] => .error .empty
  | '-' :: cs => (readMagnitude lower .belowRange cs).map fun n => -(n : Int)
  | '+' :: cs => (readMagnitude upper .aboveRange cs).map fun n => (n : Int)
  | cs => (readMagnitude upper .aboveRange cs).map fun n => (n : Int)

def readInt64 (cs : List Char) : Except IntegerFault Int64 :=
  (readSigned 9223372036854775808 9223372036854775807 cs).map Int64.ofInt

def readInt32 (cs : List Char) : Except IntegerFault Int32 :=
  (readSigned 2147483648 2147483647 cs).map Int32.ofInt

end EventSeal.Decimal
