import EventSeal.Number.Shortest
import EventSeal.Decimal

/-!
# Writing numbers with a fraction

The digits are those of the shortest decimal; what remains is where the
point goes. A `RealStyle` holds the decisions, and each output that
writes such numbers has one.
-/

namespace EventSeal

structure RealStyle where
  /-- which powers of ten of the first digit are written without an exponent -/
  positional : Int → Bool
  /-- whether a whole number is written with `.0` -/
  pointZero : Bool
  tie : Binary64.Tie

namespace RealStyle

/-- Drops zeros at the end. -/
def stripZeros (ds : List Char) : List Char :=
  (ds.reverse.dropWhile (· == '0')).reverse

/-- Digits with a point after the digit of power zero, the first digit
having power `e`. -/
def pointed (pointZero : Bool) (ds : List Char) (e : Int) : List Char :=
  if e < 0 then ['0', '.'] ++ List.replicate ((-e).toNat - 1) '0' ++ ds
  else
    let whole := e.toNat + 1
    if ds.length ≤ whole then
      ds ++ List.replicate (whole - ds.length) '0' ++ (if pointZero then ['.', '0'] else [])
    else ds.take whole ++ ['.'] ++ ds.drop whole

/-- One digit, the others after a point, and the exponent with its sign. -/
def scientific (ds : List Char) (e : Int) : List Char :=
  ds.take 1 ++ (if ds.length ≤ 1 then [] else ['.'] ++ ds.drop 1)
    ++ ['e', if e < 0 then '-' else '+'] ++ Decimal.natChars e.natAbs

def magnitude (style : RealStyle) (x : Binary64) : List Char :=
  if x.isZero then pointed style.pointZero ['0'] 0
  else
    let d := x.shortest style.tie
    let all := Decimal.natChars d.digits
    let e := d.power + (all.length : Int) - 1
    let ds := stripZeros all
    if style.positional e then pointed style.pointZero ds e else scientific ds e

def write (style : RealStyle) (x : Binary64) : String :=
  String.ofList ((if x.negative then ['-'] else []) ++ style.magnitude x)

end RealStyle

end EventSeal
