import EventSeal.Json.Lexeme
import EventSeal.Json.Number
import EventSeal.Proofs.Text.Octets
import Mathlib.Tactic.IntervalCases

/-!
# Integers read back

A numeral has no mark at its end: it is a lexeme only once an octet comes
that cannot go on with it. So what is written of an integer leaves the
scan in a draft (`scanPart_ofInt`), and the lexeme is settled by what
follows, which must be nothing or an octet outside numerals (`Delimited`,
`scanFrom_ofInt`).

The digits are followed from the last one backwards, as `Nat.toDigits`
makes them: the digits of `n / 10` leave a draft of `n / 10`, and one more
digit makes it a draft of `n`. The leading digit is zero only for zero,
which is the one draft that takes no further digit.
-/

namespace EventSeal.Json

namespace Numeral

/-- The numeral an integer is written as. -/
def ofInt (i : Int) : Numeral :=
  ⟨decide (i < 0), i.natAbs, 0, false, 0, true⟩

theorem isInteger_ofInt (i : Int) : (ofInt i).isInteger = true := by
  simp only [isInteger, ofInt, Bool.true_and, Bool.not_eq_eq_eq_not, Bool.not_true,
    Bool.and_eq_false_iff, decide_eq_false_iff_not, beq_eq_false_iff_ne]
  omega

theorem integer_ofInt (i : Int) : (ofInt i).integer = i := by
  simp only [integer, ofInt, decide_eq_true_eq]
  split <;> omega

theorem number?_ofInt {i : Int} (h : IsWord i) : (ofInt i).number? = some (.whole i) := by
  rw [number?, integer_ofInt, if_pos ⟨isInteger_ofInt i, h⟩]

theorem int64?_ofInt (n : Int64) : (ofInt n.toInt).int64? = some n := by
  rw [int64?, if_pos (isInteger_ofInt _), integer_ofInt, int64OfInt?_toInt]

/-! ## Digits -/

/-- The octet of a decimal digit. -/
def digitOctet (k : Nat) : UInt8 :=
  UInt8.ofNat k.digitChar.toNat

theorem utf8EncodeChar_digitChar {k : Nat} (h : k < 10) :
    String.utf8EncodeChar k.digitChar = [digitOctet k] := by
  have hlt : ∀ k : Fin 10, k.val.digitChar.toNat < 0x80 := by decide
  exact Text.utf8EncodeChar_of_lt (hlt ⟨k, h⟩)

theorem digit?_digitOctet {k : Nat} (h : k < 10) : digit? (digitOctet k) = some k := by
  have hall : ∀ k : Fin 10, digit? (digitOctet k) = some k.val := by decide
  exact hall ⟨k, h⟩

/-- A draft that holds the digits of `n`. -/
def Draft.ofNat (negative : Bool) (n : Nat) : Draft :=
  ⟨if n = 0 then .zero else .whole, { start negative with digits := n }⟩

end Numeral

namespace Lexeme

open Numeral

theorem scanPart_push {d d' : Draft} {b : UInt8} (h : d.push? b = some d') :
    scanPart (.number d) [b] = ([], .number d') := by
  simp only [scanPart, State.step, h]
  rfl

/-- The digits may be met by any state that takes a digit as a numeral
without digits takes it. -/
theorem scanPart_natChars {s : State} {negative : Bool}
    (hs : ∀ k < 10, s.step (digitOctet k)
      = State.step (.number ⟨.sign, start negative⟩) (digitOctet k)) (n : Nat) :
    scanPart s ((Decimal.natChars n).flatMap String.utf8EncodeChar)
      = ([], .number (Draft.ofNat negative n)) := by
  induction n using Nat.strongRecOn with
  | ind n ih =>
      rw [Decimal.natChars, Nat.toDigits_eq_if (by decide)]
      split
      · next h =>
        have hpush : Draft.push? ⟨.sign, start negative⟩ (digitOctet n)
            = some (Draft.ofNat negative n) := by
          simp [Draft.push?, digit?_digitOctet h, Draft.ofNat, start, pushDigit]
        have hfirst := scanPart_push hpush
        rw [List.flatMap_singleton, utf8EncodeChar_digitChar h]
        simp only [scanPart] at hfirst ⊢
        rw [hs n h, hfirst]
      · next h =>
        have hdigit : n % 10 < 10 := Nat.mod_lt n (by decide)
        have hleft := ih (n / 10) (Nat.div_lt_self (by omega) (by decide))
        have hvalue : 10 * (n / 10) + n % 10 = n := Nat.div_add_mod n 10
        have hpush : (Draft.ofNat negative (n / 10)).push? (digitOctet (n % 10))
            = some (Draft.ofNat negative n) := by
          have h₁ : n / 10 ≠ 0 := by omega
          have h₂ : n ≠ 0 := by omega
          simp [Draft.push?, digit?_digitOctet hdigit, Draft.ofNat, h₁, h₂, start, pushDigit,
            hvalue]
        rw [List.flatMap_append, List.flatMap_singleton, utf8EncodeChar_digitChar hdigit]
        exact scanPart_trans hleft (scanPart_push hpush)

/-! ## Integers -/

/-- A digit begins a numeral without a sign. -/
theorem step_idle_digit {k : Nat} (h : k < 10) :
    State.idle.step (digitOctet k)
      = State.step (.number ⟨.sign, start false⟩) (digitOctet k) := by
  interval_cases k <;> rfl

theorem scanPart_ofInt (i : Int) :
    scanPart .idle (Text.bytes (Decimal.ofInt i))
      = ([], .number (Draft.ofNat (decide (i < 0)) i.natAbs)) := by
  rw [Decimal.ofInt, Decimal.intChars, Text.bytes_ofList]
  split
  · next h =>
    have hsign : scanPart .idle [0x2D] = ([], .number ⟨.sign, start true⟩) := rfl
    have hdigits := scanPart_natChars (s := .number ⟨.sign, start true⟩)
      (fun _ _ => rfl) i.natAbs
    rw [decide_eq_true h]
    exact scanPart_trans hsign hdigits
  · next h =>
    rw [decide_eq_false h]
    exact scanPart_natChars (fun _ hk => step_idle_digit hk) i.natAbs

/-- What may follow a numeral: nothing, or an octet that no numeral goes
on with. -/
def Delimited : List UInt8 → Prop
  | [] => True
  | b :: _ => digit? b = none ∧ Draft.isPoint b = false ∧ Draft.isMark b = false

/-- A numeral that may end is a lexeme, given what follows it. -/
theorem scanFrom_of_isFinal {d : Draft} (hfinal : d.phase.isFinal = true) {rest : List UInt8}
    (h : Delimited rest) :
    scanFrom (.number d) rest = .number d.numeral :: scanFrom .idle rest := by
  cases rest with
  | nil => rw [scanFrom, State.finish, if_pos hfinal]; rfl
  | cons b bs =>
      obtain ⟨hdigit, hpoint, hmark⟩ := h
      have hpush : d.push? b = none := by
        obtain ⟨phase, n⟩ := d
        cases phase <;> simp_all [Draft.push?, Phase.isFinal]
      have hends : d.endsBefore b = true := by
        simp [Draft.endsBefore, hfinal, hdigit]
      simp only [scanFrom, State.step, hpush, hends, if_pos, List.cons_append]

theorem isFinal_ofNat (negative : Bool) (n : Nat) :
    (Draft.ofNat negative n).phase.isFinal = true := by
  rw [Draft.ofNat]
  split <;> rfl

/-- A written integer is one lexeme, given what follows it. -/
theorem scanFrom_ofInt (i : Int) {rest : List UInt8} (h : Delimited rest) :
    scanFrom .idle (Text.bytes (Decimal.ofInt i) ++ rest)
      = .number (.ofInt i) :: scanFrom .idle rest := by
  rw [scanFrom_append, scanPart_ofInt, scanFrom_of_isFinal (isFinal_ofNat _ _) h]
  rfl

end Lexeme

end EventSeal.Json
