import EventSeal.Decimal.Signed
import EventSeal.Json.Coercion
import EventSeal.Proofs.Text.Digits
import Mathlib.Data.List.TakeWhile

/-!
# Which texts are integers

A run of digits with a sign or none in front of it is an integer
(`SpellsInt`), and within its bounds it is read as that integer and nothing
else is read (`readSigned_eq_ok_iff`). The reader stops at the first digit that
takes the value out of its bounds. That it may do so is because digits only
make a value greater, whatever they are (`le_ofDigitChars`).

Loosely, a fraction of zeros may follow (`SpellsLoosely`). What is cut off at
the first point leaves an integer exactly of such texts
(`spellsInt_dropZeroFraction_iff`): an integer has no point, so a second one
would stay, and without a digit in front of the point nothing is left to read.
-/

namespace EventSeal

namespace Decimal

/-! ## Digits within a bound -/

theorem le_ofDigitChars (acc : Nat) (cs : List Char) : acc ≤ Nat.ofDigitChars 10 cs acc := by
  induction cs generalizing acc with
  | nil => exact Nat.le_refl acc
  | cons c cs ih =>
      rw [Nat.ofDigitChars_cons]
      exact Nat.le_trans (by omega) (ih _)

theorem readDigits_eq_ok_iff {bound : Nat} {excess : IntegerFault} {acc n : Nat}
    {cs : List Char} (hacc : acc ≤ bound) :
    readDigits bound excess acc cs = .ok n ↔
      cs.all isDigit = true ∧ Nat.ofDigitChars 10 cs acc = n ∧ n ≤ bound := by
  induction cs generalizing acc with
  | nil =>
      rw [readDigits, Except.ok.injEq, Nat.ofDigitChars_nil]
      exact ⟨fun h => ⟨rfl, h, h ▸ hacc⟩, fun h => h.2.1⟩
  | cons c cs ih =>
      rw [readDigits, List.all_cons, Bool.and_eq_true, Nat.ofDigitChars_cons]
      by_cases hc : isDigit c = true
      · rw [if_pos hc, and_iff_right hc]
        dsimp only
        by_cases hnext : 10 * acc + (c.toNat - '0'.toNat) ≤ bound
        · rw [if_pos hnext]
          exact ih hnext
        · rw [if_neg hnext]
          refine iff_of_false nofun ?_
          rintro ⟨-, rfl, hn⟩
          exact hnext (Nat.le_trans (le_ofDigitChars _ cs) hn)
      · rw [if_neg hc]
        exact iff_of_false nofun fun h => hc h.1.1

theorem readMagnitude_eq_ok_iff {bound : Nat} {excess : IntegerFault} {n : Nat}
    {cs : List Char} : readMagnitude bound excess cs = .ok n ↔ Spells cs n ∧ n ≤ bound := by
  rw [← value?_eq_some_iff, value?]
  cases cs with
  | nil => exact iff_of_false (fun h => by cases h) (by simp)
  | cons c cs =>
      rw [readMagnitude, readDigits_eq_ok_iff (Nat.zero_le bound)]
      · by_cases hdigits : (c :: cs).all isDigit = true
        · rw [if_pos ⟨List.cons_ne_nil c cs, hdigits⟩, Option.some.injEq]
          exact and_iff_right hdigits
        · rw [if_neg fun h => hdigits h.2]
          exact iff_of_false (fun h => hdigits h.1) (by simp)
      · exact List.cons_ne_nil c cs

/-! ## Signs -/

/-- Digits with a sign or none. -/
inductive SpellsInt : List Char → Int → Prop
  | plain {cs : List Char} {n : Nat} (h : Spells cs n) : SpellsInt cs n
  | plus {cs : List Char} {n : Nat} (h : Spells cs n) : SpellsInt ('+' :: cs) n
  | minus {cs : List Char} {n : Nat} (h : Spells cs n) : SpellsInt ('-' :: cs) (-(n : Int))

theorem Spells.unique {cs : List Char} {m n : Nat} (hm : Spells cs m) (hn : Spells cs n) :
    m = n :=
  hm.value_eq.trans hn.value_eq.symm

section

variable {cs : List Char} {i : Int}

theorem spellsInt_minus_iff :
    SpellsInt ('-' :: cs) i ↔ ∃ n : Nat, Spells cs n ∧ i = -(n : Int) := by
  constructor
  · intro h
    cases h with
    | plain h => exact absurd List.mem_cons_self (h.not_mem rfl)
    | minus h => exact ⟨_, h, rfl⟩
  · rintro ⟨n, h, rfl⟩
    exact .minus h

theorem spellsInt_plus_iff : SpellsInt ('+' :: cs) i ↔ ∃ n : Nat, Spells cs n ∧ i = n := by
  constructor
  · intro h
    cases h with
    | plain h => exact absurd List.mem_cons_self (h.not_mem rfl)
    | plus h => exact ⟨_, h, rfl⟩
  · rintro ⟨n, h, rfl⟩
    exact .plus h

theorem spellsInt_unsigned_iff {c : Char} (hminus : c ≠ '-') (hplus : c ≠ '+') :
    SpellsInt (c :: cs) i ↔ ∃ n : Nat, Spells (c :: cs) n ∧ i = n := by
  constructor
  · intro h
    cases h with
    | plain h => exact ⟨_, h, rfl⟩
    | plus h => exact absurd rfl hplus
    | minus h => exact absurd rfl hminus
  · rintro ⟨n, h, rfl⟩
    exact .plain h

theorem not_spellsInt_nil : ¬ SpellsInt [] i := by
  intro h
  cases h with
  | plain h => exact h.ne_nil rfl

end

/-- A text is an integer in one way. -/
theorem SpellsInt.unique {cs : List Char} {i j : Int} (hi : SpellsInt cs i)
    (hj : SpellsInt cs j) : i = j := by
  cases hi with
  | plain hm =>
      cases hj with
      | plain hn => rw [hm.unique hn]
      | plus hn => exact absurd List.mem_cons_self (hm.not_mem rfl)
      | minus hn => exact absurd List.mem_cons_self (hm.not_mem rfl)
  | plus hm =>
      obtain ⟨n, hn, rfl⟩ := spellsInt_plus_iff.mp hj
      rw [hm.unique hn]
  | minus hm =>
      obtain ⟨n, hn, rfl⟩ := spellsInt_minus_iff.mp hj
      rw [hm.unique hn]

/-- Nothing in an integer but digits and signs. -/
theorem SpellsInt.mem {cs : List Char} {i : Int} (h : SpellsInt cs i) :
    ∀ c ∈ cs, isDigit c = true ∨ c = '+' ∨ c = '-' := by
  cases h with
  | plain h => exact fun c hc => Or.inl (isDigit_iff.mpr (h.digits c hc))
  | plus h =>
      exact List.forall_mem_cons.mpr
        ⟨Or.inr (Or.inl rfl), fun c hc => Or.inl (isDigit_iff.mpr (h.digits c hc))⟩
  | minus h =>
      exact List.forall_mem_cons.mpr
        ⟨Or.inr (Or.inr rfl), fun c hc => Or.inl (isDigit_iff.mpr (h.digits c hc))⟩

theorem SpellsInt.ne_nil {cs : List Char} {i : Int} (h : SpellsInt cs i) : cs ≠ [] := by
  rintro rfl
  exact not_spellsInt_nil h

theorem SpellsInt.point_not_mem {cs : List Char} {i : Int} (h : SpellsInt cs i) : '.' ∉ cs :=
  fun hmem => by simpa [isDigit] using h.mem '.' hmem

theorem isBlank_of_isDigit {c : Char} (h : isDigit c = true) : Text.isBlank c = false := by
  have hbounds := toNat_bounds (isDigit_iff.mp h)
  simp only [Text.isBlank, Bool.or_eq_false_iff, Bool.and_eq_false_iff, decide_eq_false_iff_not,
    beq_eq_false_iff_ne]
  omega

theorem SpellsInt.solid {cs : List Char} {i : Int} (h : SpellsInt cs i) :
    ∀ c ∈ cs, Text.isBlank c = false := by
  intro c hc
  rcases h.mem c hc with hdigit | rfl | rfl
  · exact isBlank_of_isDigit hdigit
  · rfl
  · rfl

theorem spellsInt_intChars (i : Int) : SpellsInt (intChars i) i := by
  rw [intChars]
  split
  · have h := SpellsInt.minus (spells_natChars i.natAbs)
    rwa [show -(i.natAbs : Int) = i by omega] at h
  · have h := SpellsInt.plain (spells_natChars i.natAbs)
    rwa [show (i.natAbs : Int) = i by omega] at h

/-! ## Reading -/

theorem map_eq_ok_iff {ε α β : Type} {f : α → β} {x : Except ε α} {b : β} :
    x.map f = .ok b ↔ ∃ a, x = .ok a ∧ f a = b := by
  cases x <;> simp [Except.map]

/-- Digits after a sign, where their bound is one for the signed value. -/
theorem map_readMagnitude_eq_ok_iff {sign : Nat → Int} {bound : Nat} {low high : Int}
    (hsign : ∀ n, n ≤ bound ↔ low ≤ sign n ∧ sign n ≤ high) {excess : IntegerFault}
    {cs : List Char} {i : Int} :
    Except.map sign (readMagnitude bound excess cs) = .ok i ↔
      (∃ n, Spells cs n ∧ i = sign n) ∧ low ≤ i ∧ i ≤ high := by
  rw [map_eq_ok_iff]
  constructor
  · rintro ⟨n, hread, rfl⟩
    obtain ⟨hspells, hn⟩ := readMagnitude_eq_ok_iff.mp hread
    exact ⟨⟨n, hspells, rfl⟩, (hsign n).mp hn⟩
  · rintro ⟨⟨n, hspells, rfl⟩, hn⟩
    exact ⟨n, readMagnitude_eq_ok_iff.mpr ⟨hspells, (hsign n).mpr hn⟩, rfl⟩

theorem readSigned_minus (lower upper : Nat) (cs : List Char) :
    readSigned lower upper ('-' :: cs)
      = Except.map (fun n : Nat => -(n : Int)) (readMagnitude lower .belowRange cs) := by
  rw [readSigned]
  cases readMagnitude lower .belowRange cs <;> rfl

theorem readSigned_plus (lower upper : Nat) (cs : List Char) :
    readSigned lower upper ('+' :: cs)
      = Except.map (fun n : Nat => (n : Int)) (readMagnitude upper .aboveRange cs) := by
  rw [readSigned]
  cases readMagnitude upper .aboveRange cs <;> rfl

theorem readSigned_unsigned (lower upper : Nat) {c : Char} (hminus : c ≠ '-') (hplus : c ≠ '+')
    (cs : List Char) :
    readSigned lower upper (c :: cs)
      = Except.map (fun n : Nat => (n : Int)) (readMagnitude upper .aboveRange (c :: cs)) := by
  rw [readSigned]
  · cases readMagnitude upper .aboveRange (c :: cs) <;> rfl
  · nofun
  · exact fun ds h => hminus (List.cons.inj h).1
  · exact fun ds h => hplus (List.cons.inj h).1

theorem readSigned_eq_ok_iff {lower upper : Nat} {cs : List Char} {i : Int} :
    readSigned lower upper cs = .ok i ↔ SpellsInt cs i ∧ -(lower : Int) ≤ i ∧ i ≤ upper := by
  have hplus : ∀ n : Nat, n ≤ upper ↔ -(lower : Int) ≤ n ∧ (n : Int) ≤ upper := by omega
  have hminus : ∀ n : Nat, n ≤ lower ↔ -(lower : Int) ≤ -(n : Int) ∧ -(n : Int) ≤ upper := by omega
  match cs with
  | [] => exact iff_of_false nofun fun h => not_spellsInt_nil h.1
  | c :: cs =>
      by_cases hc : c = '-'
      · subst hc
        rw [readSigned_minus, spellsInt_minus_iff, map_readMagnitude_eq_ok_iff hminus]
      by_cases hc' : c = '+'
      · subst hc'
        rw [readSigned_plus, spellsInt_plus_iff, map_readMagnitude_eq_ok_iff hplus]
      rw [readSigned_unsigned lower upper hc hc', spellsInt_unsigned_iff hc hc',
        map_readMagnitude_eq_ok_iff hplus]

theorem readInt64_eq_ok_iff {cs : List Char} {n : Int64} :
    readInt64 cs = .ok n ↔ SpellsInt cs n.toInt := by
  rw [readInt64, map_eq_ok_iff]
  constructor
  · rintro ⟨i, hread, rfl⟩
    obtain ⟨hspells, hlower, hupper⟩ := readSigned_eq_ok_iff.mp hread
    rwa [Int64.toInt_ofInt_of_le (by omega) (by omega)]
  · intro h
    have hlower := n.le_toInt
    have hupper := n.toInt_lt
    exact ⟨n.toInt, readSigned_eq_ok_iff.mpr ⟨h, by omega, by omega⟩, Int64.ofInt_toInt n⟩

theorem readInt32_eq_ok_iff {cs : List Char} {n : Int32} :
    readInt32 cs = .ok n ↔ SpellsInt cs n.toInt := by
  rw [readInt32, map_eq_ok_iff]
  constructor
  · rintro ⟨i, hread, rfl⟩
    obtain ⟨hspells, hlower, hupper⟩ := readSigned_eq_ok_iff.mp hread
    rwa [Int32.toInt_ofInt_of_le (by omega) (by omega)]
  · intro h
    have hlower := n.le_toInt
    have hupper := n.toInt_lt
    exact ⟨n.toInt, readSigned_eq_ok_iff.mpr ⟨h, by omega, by omega⟩, Int32.ofInt_toInt n⟩

/-! ## Fractions of zeros -/

/-- An integer, and perhaps a fraction of zeros after it. -/
inductive SpellsLoosely : List Char → Int → Prop
  | whole {cs : List Char} {i : Int} (h : SpellsInt cs i) : SpellsLoosely cs i
  | zeroFraction {cs : List Char} {i : Int} (h : SpellsInt cs i) (k : Nat) :
      SpellsLoosely (cs ++ '.' :: List.replicate (k + 1) '0') i

end Decimal

namespace Json

open Decimal

theorem dropZeroFraction_of_not_mem {cs : List Char} (h : '.' ∉ cs) :
    dropZeroFraction cs = cs := by
  have hdrop : cs.dropWhile (· != '.') = [] := by
    rw [List.dropWhile_eq_nil_iff]
    intro c hc
    exact bne_iff_ne.mpr fun heq => h (heq ▸ hc)
  rw [dropZeroFraction, hdrop]

/-- The first point is the one that counts. -/
theorem dropZeroFraction_append {whole : List Char} (h : '.' ∉ whole) (fraction : List Char) :
    dropZeroFraction (whole ++ '.' :: fraction)
      = if whole ≠ [] ∧ fraction ≠ [] ∧ fraction.all (· == '0') = true then whole
        else whole ++ '.' :: fraction := by
  have hall : ∀ c ∈ whole, (c != '.') = true := fun c hc => bne_iff_ne.mpr fun heq => h (heq ▸ hc)
  rw [dropZeroFraction, List.takeWhile_append_of_pos hall, List.dropWhile_append_of_pos hall]
  simp

theorem spellsInt_dropZeroFraction_iff {cs : List Char} {i : Int} :
    SpellsInt (dropZeroFraction cs) i ↔ SpellsLoosely cs i := by
  constructor
  · intro h
    by_cases hpoint : '.' ∈ cs
    · obtain ⟨whole, fraction, rfl, hwhole⟩ := List.eq_append_cons_of_mem hpoint
      rw [dropZeroFraction_append hwhole] at h
      split at h
      · next hzeros =>
        obtain ⟨-, hne, hall⟩ := hzeros
        have hfraction : fraction = List.replicate (fraction.length - 1 + 1) '0' := by
          rw [Nat.sub_add_cancel (List.length_pos_iff.mpr hne)]
          exact List.eq_replicate_of_mem fun c hc => beq_iff_eq.mp (List.all_eq_true.mp hall c hc)
        rw [hfraction]
        exact .zeroFraction h _
      · exact absurd hpoint h.point_not_mem
    · rw [dropZeroFraction_of_not_mem hpoint] at h
      exact .whole h
  · intro h
    cases h with
    | whole h => rwa [dropZeroFraction_of_not_mem h.point_not_mem]
    | zeroFraction h k =>
        rw [dropZeroFraction_append h.point_not_mem, if_pos]
        · exact h
        · exact ⟨h.ne_nil, by simp, by simp⟩

end Json

end EventSeal
