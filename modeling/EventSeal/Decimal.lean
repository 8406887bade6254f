/-!
# Decimal integers

One written form for every integer: a minus sign where it is negative,
then its digits without leading zeros. Reading is more generous, and
differently so in different places (a sign or none, zeros in front or
none), so what is here is only the common part: the value of a run of
digits.
-/

namespace EventSeal.Decimal

def isDigit (c : Char) : Bool :=
  '0' ≤ c && c ≤ '9'

def natChars (n : Nat) : List Char :=
  Nat.toDigits 10 n

def intChars (i : Int) : List Char :=
  if i < 0 then '-' :: natChars i.natAbs else natChars i.natAbs

def ofNat (n : Nat) : String :=
  String.ofList (natChars n)

def ofInt (i : Int) : String :=
  String.ofList (intChars i)

/-- The value of a run of digits, of which the empty run has none. -/
def value? (cs : List Char) : Option Nat :=
  if cs ≠ [] ∧ cs.all isDigit = true then some (Nat.ofDigitChars 10 cs 0) else none

theorem isDigit_digitChar {d : Nat} (h : d < 10) : isDigit d.digitChar = true := by
  have : ∀ d : Fin 10, isDigit d.val.digitChar = true := by decide
  exact this ⟨d, h⟩

theorem all_isDigit_natChars (n : Nat) : (natChars n).all isDigit = true := by
  induction n using Nat.strongRecOn with
  | ind n ih =>
    rw [natChars, Nat.toDigits_eq_if (by decide)]
    split
    · simp [isDigit_digitChar, *]
    · rename_i h
      have := ih (n / 10) (Nat.div_lt_self (by omega) (by decide))
      simp only [natChars] at this
      simp [this, isDigit_digitChar (Nat.mod_lt n (by decide))]

theorem natChars_of_lt {n : Nat} (h : n < 10) : natChars n = [n.digitChar] := by
  rw [natChars, Nat.toDigits_eq_if (by decide), if_pos h]

theorem natChars_of_le {n : Nat} (h : 10 ≤ n) :
    natChars n = natChars (n / 10) ++ [(n % 10).digitChar] := by
  rw [natChars, Nat.toDigits_eq_if (by decide), if_neg (Nat.not_lt.mpr h)]
  rfl

theorem natChars_ne_nil (n : Nat) : natChars n ≠ [] :=
  Nat.toDigits_ne_nil

@[simp] theorem value?_natChars (n : Nat) : value? (natChars n) = some n := by
  rw [value?, if_pos ⟨natChars_ne_nil n, all_isDigit_natChars n⟩]
  simp [natChars]

theorem natChars_injective {m n : Nat} (h : natChars m = natChars n) : m = n := by
  have hvalue := congrArg value? h
  rw [value?_natChars, value?_natChars] at hvalue
  exact Option.some.inj hvalue

/-- A minus sign is no digit, so it tells the negative integers apart. -/
theorem intChars_injective {i j : Int} (h : intChars i = intChars j) : i = j := by
  have hminus : ∀ {m n : Nat}, '-' :: natChars m ≠ natChars n := by
    intro m n heq
    have hdigits := all_isDigit_natChars n
    rw [← heq, List.all_cons, Bool.and_eq_true] at hdigits
    exact absurd hdigits.1 (by decide)
  rw [intChars, intChars] at h
  split at h <;> split at h
  · have := natChars_injective (List.cons.inj h).2
    omega
  · exact absurd h hminus
  · exact absurd h.symm hminus
  · have := natChars_injective h
    omega

theorem ofInt_injective {i j : Int} (h : ofInt i = ofInt j) : i = j :=
  intChars_injective (String.ofList_injective h)

end EventSeal.Decimal
