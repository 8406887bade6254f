/-!
# Numerals

A numeral as it is written, read octet by octet. What is kept is what
its value depends on, plus whether a point or an exponent was written:
`1`, `1.0` and `1e0` are one number and three numerals, and only the
first is accepted where an integer is asked for.

A `Draft` is a numeral under way. `push?` says how it goes on;
`endsBefore` says whether an octet that does not go on may follow. The
two are not complementary: after a leading zero a digit does neither.
-/

namespace EventSeal.Json

structure Numeral where
  negative : Bool
  /-- all digits of the significand, read as one number -/
  digits : Nat
  /-- how many of them stand after the point -/
  places : Nat
  exponentNegative : Bool
  exponent : Nat
  /-- neither a point nor an exponent was written -/
  plain : Bool
deriving DecidableEq

namespace Numeral

def start (negative : Bool) : Numeral :=
  ⟨negative, 0, 0, false, 0, true⟩

/-- The number is `± digits · 10 ^ power`. -/
def power (n : Numeral) : Int :=
  (if n.exponentNegative then -(n.exponent : Int) else n.exponent) - n.places

/-- The value of a plain numeral. -/
def integer (n : Numeral) : Int :=
  if n.negative then -(n.digits : Int) else n.digits

/-- A plain numeral denotes an integer, except that minus zero does not:
no integer keeps that sign. -/
def isInteger (n : Numeral) : Bool :=
  n.plain && !(n.negative && n.digits == 0)

def pushDigit (n : Numeral) (d : Nat) : Numeral :=
  { n with digits := 10 * n.digits + d }

def pushPlace (n : Numeral) (d : Nat) : Numeral :=
  { n with digits := 10 * n.digits + d, places := n.places + 1 }

def pushExponent (n : Numeral) (d : Nat) : Numeral :=
  { n with exponent := 10 * n.exponent + d }

end Numeral

/-- The value of an octet that is an ASCII digit. -/
def digit? (b : UInt8) : Option Nat :=
  if 0x30 ≤ b ∧ b ≤ 0x39 then some (b.toNat - 0x30) else none

/-- Where in a numeral the scan stands. -/
inductive Numeral.Phase
  | sign
  | zero
  | whole
  | point
  | fraction
  | mark
  | markSign
  | exponent
deriving DecidableEq

namespace Numeral.Phase

/-- Whether a numeral may end here. -/
def isFinal : Phase → Bool
  | .zero | .whole | .fraction | .exponent => true
  | .sign | .point | .mark | .markSign => false

end Numeral.Phase

structure Numeral.Draft where
  phase : Numeral.Phase
  numeral : Numeral
deriving DecidableEq

namespace Numeral.Draft

def afterPoint (n : Numeral) : Draft :=
  ⟨.point, { n with plain := false }⟩

def afterMark (n : Numeral) : Draft :=
  ⟨.mark, { n with plain := false }⟩

def isPoint (b : UInt8) : Bool := b == 0x2E

def isMark (b : UInt8) : Bool := b == 0x65 || b == 0x45

/-- The draft after one more octet, if the octet goes on with it. -/
def push? (d : Draft) (b : UInt8) : Option Draft :=
  let n := d.numeral
  match d.phase, digit? b with
  | .sign, some k => some ⟨if k = 0 then .zero else .whole, n.pushDigit k⟩
  | .sign, none => none
  | .zero, some _ => none
  | .zero, none =>
      if isPoint b then some (afterPoint n) else if isMark b then some (afterMark n) else none
  | .whole, some k => some ⟨.whole, n.pushDigit k⟩
  | .whole, none =>
      if isPoint b then some (afterPoint n) else if isMark b then some (afterMark n) else none
  | .point, some k => some ⟨.fraction, n.pushPlace k⟩
  | .point, none => none
  | .fraction, some k => some ⟨.fraction, n.pushPlace k⟩
  | .fraction, none => if isMark b then some (afterMark n) else none
  | .mark, some k => some ⟨.exponent, n.pushExponent k⟩
  | .mark, none =>
      if b = 0x2B then some ⟨.markSign, n⟩
      else if b = 0x2D then some ⟨.markSign, { n with exponentNegative := true }⟩
      else none
  | .markSign, some k => some ⟨.exponent, n.pushExponent k⟩
  | .markSign, none => none
  | .exponent, some k => some ⟨.exponent, n.pushExponent k⟩
  | .exponent, none => none

/-- Whether the numeral may end with this octet, which is no part of it, next. -/
def endsBefore (d : Draft) (b : UInt8) : Bool :=
  d.phase.isFinal && (d.phase != .zero || (digit? b).isNone)

/-- The draft that an octet begins. -/
def start? (b : UInt8) : Option Draft :=
  if b = 0x2D then some ⟨.sign, .start true⟩ else push? ⟨.sign, .start false⟩ b

end Numeral.Draft

end EventSeal.Json
