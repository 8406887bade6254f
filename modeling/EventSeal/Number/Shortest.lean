import EventSeal.Number.Binary64

/-!
# The shortest decimal

The decimal that stands for a binary64 number is the shortest one that
reads back as that number, and of two equally short ones the nearer. The
search takes this definition at its word. For one digit, two digits and
so on it looks at the two neighbours of the number on the decimal grid
and stops at the first grid that has one inside the interval of reals
that round to the number.

If any point of a grid lies in the interval, so does one of the two
neighbours; so no shorter decimal is missed.
-/

namespace EventSeal

/-- The number `digits · 10 ^ power`. -/
structure Decimal10 where
  digits : Nat
  power : Int
deriving DecidableEq

namespace Binary64

/-- What becomes of a number exactly between two equally short decimals. -/
inductive Tie
  | even
  | up
deriving DecidableEq

/-- Compares `a · 10 ^ i` with `n · 2 ^ j`. -/
def compareScaled (a : Nat) (i : Int) (n : Nat) (j : Int) : Ordering :=
  compare (a * pow10 i * pow2 (-j)) (n * pow2 j * pow10 (-i))

/-- The gap below is half the gap above, except where the exponent cannot shrink. -/
def narrowBelow (x : Binary64) : Bool :=
  x.mantissa == leastFull && leastExponent < x.exponent

/-- Whether a decimal lies among the reals that round to the magnitude of
`x`. The two ends belong to it when the mantissa is even. -/
def readsBack (x : Binary64) (d : Decimal10) : Bool :=
  let low := if x.narrowBelow then 4 * x.mantissa - 1 else 4 * x.mantissa - 2
  let high := 4 * x.mantissa + 2
  let closed := x.mantissa % 2 == 0
  let toLow := compareScaled d.digits d.power low (x.exponent - 2)
  let toHigh := compareScaled d.digits d.power high (x.exponent - 2)
  (toLow == .gt || (closed && toLow == .eq)) && (toHigh == .lt || (closed && toHigh == .eq))

/-- The power of ten of the first digit of a magnitude that is not zero. -/
def leadingPower (x : Binary64) : Int :=
  let scaled := x.ratio.1 * pow10 324 / x.ratio.2
  ((Nat.toDigits 10 scaled).length : Int) - 325

/-- Of the neighbours on the grid `10 ^ power`, the one below and the one
above, the one that reads back, and if both do the nearer. -/
def onGrid? (tie : Tie) (x : Binary64) (power : Int) : Option Decimal10 :=
  let below := x.ratio.1 * pow10 (-power) / (x.ratio.2 * pow10 power)
  let down : Decimal10 := ⟨below, power⟩
  let up : Decimal10 := ⟨below + 1, power⟩
  match x.readsBack down, x.readsBack up with
  | true, false => some down
  | false, true => some up
  | false, false => none
  | true, true =>
      match compareScaled (2 * below + 1) power (2 * x.mantissa) x.exponent with
      | .gt => some down
      | .lt => some up
      | .eq => if tie = .up ∨ below % 2 = 1 then some up else some down

/-- The exact value, as a decimal. -/
def exact (x : Binary64) : Decimal10 :=
  ⟨x.mantissa * pow2 x.exponent * Nat.pow 5 (-x.exponent).toNat, min x.exponent 0⟩

/-- The shortest decimal of a magnitude that is not zero; seventeen
digits always suffice. -/
def shortest (tie : Tie) (x : Binary64) : Decimal10 :=
  ((List.range 17).findSome? fun (n : Nat) => x.onGrid? tie (x.leadingPower - n)).getD x.exact

end Binary64

end EventSeal
