/-!
# Finite binary64 numbers

A finite binary64 number is `± mantissa · 2 ^ exponent`. It is kept in
these three parts rather than as a machine float, so that reading a
decimal, cutting off the fraction and choosing digits are arithmetic on
naturals. Both zeros are there; infinities and NaN are not: a decimal too
large for the format has no value (`ofDecimal?`).

Numbers made here are in the format's own form: the mantissa has at most
53 bits, and it has all of them unless the exponent is the least one.

A decimal is rounded once, from its exact value. A quick reader rounds the
digits first and then their product with a power of ten, or their quotient.
It may differ from `ofDecimal?` in the last place, and next to the largest
number in whether there is a value at all.
-/

namespace EventSeal

structure Binary64 where
  negative : Bool
  mantissa : Nat
  exponent : Int
deriving DecidableEq

namespace Binary64

def leastExponent : Int := -1074

def greatestExponent : Int := 971

/-- A mantissa of 53 bits, the first of them set, is at least this. -/
def leastFull : Nat := 4503599627370496

/-- Mantissas are below this. -/
def mantissaLimit : Nat := 9007199254740992

/-- The power of two; one where the exponent is negative. -/
def pow2 (k : Int) : Nat :=
  Nat.pow 2 k.toNat

/-- The power of ten; one where the exponent is negative. -/
def pow10 (k : Int) : Nat :=
  Nat.pow 10 k.toNat

def zero (negative : Bool) : Binary64 :=
  ⟨negative, 0, leastExponent⟩

def isZero (x : Binary64) : Bool :=
  x.mantissa == 0

/-- Numerator and denominator of the magnitude. -/
def ratio (x : Binary64) : Nat × Nat :=
  (x.mantissa * pow2 x.exponent, pow2 (-x.exponent))

/-! ## From decimals -/

/-- The natural number nearest to `num / den`, the even one of two. -/
def roundHalfEven (num den : Nat) : Nat :=
  let q := num / den
  let r := num % den
  if 2 * r < den then q
  else if den < 2 * r then q + 1
  else q + q % 2

/-- The power of two at or just below `num / den`. -/
def topExponent (num den : Nat) : Int :=
  let e : Int := (num.log2 : Int) - den.log2
  if num * pow2 (-e) < den * pow2 e then e - 1 else e

/-- The number nearest to `± num / den`, unless that lies beyond the
largest one by half a unit or more. -/
def ofRatio? (negative : Bool) (num den : Nat) : Option Binary64 :=
  if num = 0 then some (zero negative)
  else
    let q := max (topExponent num den - 52) leastExponent
    let m := roundHalfEven (num * pow2 (-q)) (den * pow2 q)
    let x : Binary64 :=
      if m = mantissaLimit then ⟨negative, leastFull, q + 1⟩ else ⟨negative, m, q⟩
    if x.exponent ≤ greatestExponent then some x else none

/-- The number nearest to `± digits · 10 ^ power`. Far outside the range
of the format the answer does not depend on the digits, and no power of
ten is computed. -/
def ofDecimal? (negative : Bool) (digits : Nat) (power : Int) : Option Binary64 :=
  let width : Int := ((Nat.toDigits 10 digits).length : Int) + power
  if digits = 0 ∨ width < -330 then some (zero negative)
  else if 310 < width then none
  else ofRatio? negative (digits * pow10 power) (pow10 (-power))

/-! ## To integers -/

/-- The integer part. -/
def truncate (x : Binary64) : Int :=
  let n : Int := (x.ratio.1 / x.ratio.2 : Nat)
  if x.negative then -n else n

def isWhole (x : Binary64) : Bool :=
  x.ratio.1 % x.ratio.2 == 0

end Binary64

end EventSeal
