import EventSeal.Proofs.Text.Integers

/-!
# What is wrong with a text that is no integer

Digits are read from left to right, and reading stops where the value leaves its
bounds or where there is no digit, whichever comes first. So what counts is the
run of digits in front: if it is worth too much, that is the fault, whatever
comes after it, and otherwise a character behind it is (`readDigits_eq`). The
value only grows with the digits, so the whole run is worth too much as soon as
a part of it is.

With a sign or without one a text has at most one of the four faults
(`HasFault`), and it is read with that fault (`readSigned_eq_error_iff`). A text
without faults is an integer within the bounds.
-/

namespace EventSeal.Decimal

/-! ## The digits in front -/

section

variable {bound n : Nat} {excess e : IntegerFault} {c : Char} {cs : List Char}

theorem readDigits_eq {acc : Nat} (hacc : acc ≤ bound) :
    readDigits bound excess acc cs =
      if bound < Nat.ofDigitChars 10 (cs.takeWhile isDigit) acc then .error excess
      else if cs.all isDigit = true then .ok (Nat.ofDigitChars 10 cs acc)
      else .error .invalidDigit := by
  induction cs generalizing acc with
  | nil =>
      rw [readDigits, List.takeWhile_nil, Nat.ofDigitChars_nil, if_neg (by omega)]
      rfl
  | cons c cs ih =>
      rw [readDigits, List.takeWhile_cons, List.all_cons]
      by_cases hc : isDigit c = true
      · rw [if_pos hc, if_pos hc, Nat.ofDigitChars_cons, Nat.ofDigitChars_cons, hc, Bool.true_and]
        dsimp only
        by_cases hnext : 10 * acc + (c.toNat - '0'.toNat) ≤ bound
        · rw [if_pos hnext]
          exact ih hnext
        · -- the digits behind this one cannot bring the value back
          have hle := le_ofDigitChars (10 * acc + (c.toNat - '0'.toNat)) (cs.takeWhile isDigit)
          rw [if_neg hnext, if_pos (by omega)]
      · rw [if_neg hc, if_neg hc, Nat.ofDigitChars_nil, if_neg (by omega),
          if_neg fun hall => hc (Bool.and_eq_true_iff.mp hall).1]

/-- The run of digits in front is worth more than the bound. -/
def Exceeds (bound : Nat) (cs : List Char) : Prop :=
  ∃ n, Spells (cs.takeWhile isDigit) n ∧ bound < n

theorem exceeds_iff : Exceeds bound cs ↔ bound < Nat.ofDigitChars 10 (cs.takeWhile isDigit) 0 := by
  constructor
  · rintro ⟨n, hspells, hlt⟩
    rw [ofDigitChars_eq_ofDigits, ← hspells.value_eq]
    exact hlt
  · intro hlt
    have hne : cs.takeWhile isDigit ≠ [] := by
      intro hnil
      rw [hnil, Nat.ofDigitChars_nil] at hlt
      omega
    exact ⟨_, value?_eq_some_iff.mp (if_pos ⟨hne, List.all_takeWhile⟩), hlt⟩

theorem not_exceeds_of_not_digit (hc : isDigit c = false) : ¬ Exceeds bound (c :: cs) := by
  rw [exceeds_iff, List.takeWhile_cons, hc, if_neg Bool.false_ne_true, Nat.ofDigitChars_nil]
  omega

theorem not_exceeds_nil : ¬ Exceeds bound [] :=
  fun ⟨_, hspells, _⟩ => hspells.ne_nil rfl

theorem readMagnitude_eq (hne : cs ≠ []) :
    readMagnitude bound excess cs = readDigits bound excess 0 cs := by
  rw [readMagnitude]
  exact hne

theorem readMagnitude_of_exceeds (h : Exceeds bound cs) :
    readMagnitude bound excess cs = .error excess := by
  have hne : cs ≠ [] := by
    rintro rfl
    exact not_exceeds_nil h
  rw [readMagnitude_eq hne, readDigits_eq (Nat.zero_le bound), if_pos (exceeds_iff.mp h)]

theorem readMagnitude_of_spells (hexceeds : ¬ Exceeds bound cs) (h : Spells cs n) :
    readMagnitude bound excess cs = .ok n := by
  have hdigits : cs.takeWhile isDigit = cs :=
    List.takeWhile_eq_self_iff.mpr fun c hc => isDigit_iff.mpr (h.digits c hc)
  have hle : n ≤ bound := Nat.le_of_not_lt fun hlt => hexceeds ⟨n, hdigits.symm ▸ h, hlt⟩
  exact readMagnitude_eq_ok_iff.mpr ⟨h, hle⟩

theorem readMagnitude_of_not_spells (hexceeds : ¬ Exceeds bound cs) (hnone : ∀ n, ¬ Spells cs n) :
    readMagnitude bound excess cs = .error .invalidDigit := by
  by_cases hne : cs = []
  · rw [hne]
    rfl
  · have hall : ¬ cs.all isDigit = true := fun hall =>
      hnone _ (value?_eq_some_iff.mp (if_pos ⟨hne, hall⟩))
    rw [readMagnitude_eq hne, readDigits_eq (Nat.zero_le bound),
      if_neg fun hlt => hexceeds (exceeds_iff.mpr hlt), if_neg hall]

theorem readMagnitude_eq_error_iff :
    readMagnitude bound excess cs = .error e ↔
      (e = excess ∧ Exceeds bound cs)
        ∨ (e = .invalidDigit ∧ ¬ Exceeds bound cs ∧ ∀ n, ¬ Spells cs n) := by
  by_cases hexceeds : Exceeds bound cs
  · rw [readMagnitude_of_exceeds hexceeds, Except.error.injEq, eq_comm]
    simp [hexceeds]
  · by_cases hspells : ∃ n, Spells cs n
    · obtain ⟨n, hn⟩ := hspells
      rw [readMagnitude_of_spells hexceeds hn]
      refine iff_of_false (fun hok => by cases hok) ?_
      rintro (⟨-, hyes⟩ | ⟨-, -, hnone⟩)
      · exact hexceeds hyes
      · exact hnone n hn
    · have hnone := not_exists.mp hspells
      rw [readMagnitude_of_not_spells hexceeds hnone, Except.error.injEq, eq_comm]
      simp [hexceeds, hnone]

end

/-! ## Signs -/

/-- Without a minus sign, and too much for the upper bound. -/
def TooLarge (upper : Nat) (cs : List Char) : Prop :=
  ∃ ds, (cs = ds ∨ cs = '+' :: ds) ∧ Exceeds upper ds

/-- With a minus sign, and too much for the lower bound. -/
def TooSmall (lower : Nat) (cs : List Char) : Prop :=
  ∃ ds, cs = '-' :: ds ∧ Exceeds lower ds

/-- What is wrong with a text. -/
inductive HasFault (lower upper : Nat) (cs : List Char) : IntegerFault → Prop
  | empty (h : cs = []) : HasFault lower upper cs .empty
  | aboveRange (h : TooLarge upper cs) : HasFault lower upper cs .aboveRange
  | belowRange (h : TooSmall lower cs) : HasFault lower upper cs .belowRange
  | invalidDigit (hne : cs ≠ []) (hlarge : ¬ TooLarge upper cs) (hsmall : ¬ TooSmall lower cs)
      (hnone : ∀ i, ¬ SpellsInt cs i) : HasFault lower upper cs .invalidDigit

section

variable {lower upper : Nat} {c : Char} {cs : List Char}

theorem not_tooLarge_minus : ¬ TooLarge upper ('-' :: cs) := by
  rintro ⟨ds, rfl | hplus, hexceeds⟩
  · exact not_exceeds_of_not_digit rfl hexceeds
  · exact absurd (List.cons.inj hplus).1 (by decide)

theorem tooLarge_plus_iff : TooLarge upper ('+' :: cs) ↔ Exceeds upper cs := by
  constructor
  · rintro ⟨ds, rfl | hplus, hexceeds⟩
    · exact absurd hexceeds (not_exceeds_of_not_digit rfl)
    · rw [(List.cons.inj hplus).2]
      exact hexceeds
  · exact fun hexceeds => ⟨cs, Or.inr rfl, hexceeds⟩

theorem tooLarge_unsigned_iff (hplus : c ≠ '+') :
    TooLarge upper (c :: cs) ↔ Exceeds upper (c :: cs) := by
  constructor
  · rintro ⟨ds, rfl | heq, hexceeds⟩
    · exact hexceeds
    · exact absurd (List.cons.inj heq).1 hplus
  · exact fun hexceeds => ⟨_, Or.inl rfl, hexceeds⟩

theorem tooSmall_minus_iff : TooSmall lower ('-' :: cs) ↔ Exceeds lower cs := by
  constructor
  · rintro ⟨ds, heq, hexceeds⟩
    rw [(List.cons.inj heq).2]
    exact hexceeds
  · exact fun hexceeds => ⟨cs, rfl, hexceeds⟩

theorem not_tooSmall (hminus : c ≠ '-') : ¬ TooSmall lower (c :: cs) :=
  fun ⟨_, heq, _⟩ => hminus (List.cons.inj heq).1

end

theorem hasFault_nil_iff {lower upper : Nat} {e : IntegerFault} :
    HasFault lower upper [] e ↔ e = .empty := by
  constructor
  · intro h
    cases h with
    | empty h => rfl
    | aboveRange h =>
        obtain ⟨ds, rfl | heq, hexceeds⟩ := h
        · exact absurd hexceeds not_exceeds_nil
        · nomatch heq
    | belowRange h =>
        obtain ⟨ds, heq, -⟩ := h
        nomatch heq
    | invalidDigit hne => exact absurd rfl hne
  · rintro rfl
    exact .empty rfl

/-- The fault of a text `cs` is that of its digits `ds` after the sign, if
leaving the bounds means for the one what it means for the other. -/
theorem readMagnitude_eq_error_iff_hasFault {lower upper bound : Nat} {excess e : IntegerFault}
    {cs ds : List Char} {sign : Nat → Int} (hne : cs ≠ [])
    (hspells : ∀ i, SpellsInt cs i ↔ ∃ n, Spells ds n ∧ i = sign n)
    (hlarge : TooLarge upper cs ↔ excess = .aboveRange ∧ Exceeds bound ds)
    (hsmall : TooSmall lower cs ↔ excess = .belowRange ∧ Exceeds bound ds)
    (hexcess : excess = .aboveRange ∨ excess = .belowRange) :
    readMagnitude bound excess ds = .error e ↔ HasFault lower upper cs e := by
  rw [readMagnitude_eq_error_iff]
  constructor
  · rintro (⟨rfl, hexceeds⟩ | ⟨rfl, hnot, hnone⟩)
    · rcases hexcess with rfl | rfl
      · exact .aboveRange (hlarge.mpr ⟨rfl, hexceeds⟩)
      · exact .belowRange (hsmall.mpr ⟨rfl, hexceeds⟩)
    · refine .invalidDigit hne (fun h => hnot (hlarge.mp h).2) (fun h => hnot (hsmall.mp h).2) ?_
      intro i hi
      obtain ⟨n, hn, -⟩ := (hspells i).mp hi
      exact hnone n hn
  · intro h
    cases h with
    | empty h => exact absurd h hne
    | aboveRange h =>
        obtain ⟨rfl, hexceeds⟩ := hlarge.mp h
        exact Or.inl ⟨rfl, hexceeds⟩
    | belowRange h =>
        obtain ⟨rfl, hexceeds⟩ := hsmall.mp h
        exact Or.inl ⟨rfl, hexceeds⟩
    | invalidDigit _ hnotLarge hnotSmall hnone =>
        refine Or.inr ⟨rfl, fun hexceeds => ?_, fun n hn => ?_⟩
        · rcases hexcess with hexcess | hexcess
          · exact hnotLarge (hlarge.mpr ⟨hexcess, hexceeds⟩)
          · exact hnotSmall (hsmall.mpr ⟨hexcess, hexceeds⟩)
        · exact hnone (sign n) ((hspells (sign n)).mpr ⟨n, hn, rfl⟩)

theorem map_eq_error_iff {ε α β : Type} {f : α → β} {x : Except ε α} {e : ε} :
    x.map f = .error e ↔ x = .error e := by
  cases x <;> simp [Except.map]

/-- A text is read with the fault that it has. -/
theorem readSigned_eq_error_iff {lower upper : Nat} {cs : List Char} {e : IntegerFault} :
    readSigned lower upper cs = .error e ↔ HasFault lower upper cs e := by
  cases cs with
  | nil =>
      rw [readSigned, Except.error.injEq, hasFault_nil_iff]
      exact eq_comm
  | cons c cs =>
      by_cases hminus : c = '-'
      · subst hminus
        rw [readSigned_minus, map_eq_error_iff]
        refine readMagnitude_eq_error_iff_hasFault (List.cons_ne_nil _ _)
          (fun _ => spellsInt_minus_iff) ?_ ?_ (Or.inr rfl)
        · exact iff_of_false not_tooLarge_minus fun h => absurd h.1 (by decide)
        · rw [tooSmall_minus_iff]
          exact (and_iff_right rfl).symm
      by_cases hplus : c = '+'
      · subst hplus
        rw [readSigned_plus, map_eq_error_iff]
        refine readMagnitude_eq_error_iff_hasFault (List.cons_ne_nil _ _)
          (fun _ => spellsInt_plus_iff) ?_ ?_ (Or.inl rfl)
        · rw [tooLarge_plus_iff]
          exact (and_iff_right rfl).symm
        · exact iff_of_false (not_tooSmall (by decide)) fun h => absurd h.1 (by decide)
      rw [readSigned_unsigned lower upper hminus hplus, map_eq_error_iff]
      refine readMagnitude_eq_error_iff_hasFault (List.cons_ne_nil _ _)
        (fun _ => spellsInt_unsigned_iff hminus hplus) ?_ ?_ (Or.inl rfl)
      · rw [tooLarge_unsigned_iff hplus]
        exact (and_iff_right rfl).symm
      · exact iff_of_false (not_tooSmall hminus) fun h => absurd h.1 (by decide)

end EventSeal.Decimal
