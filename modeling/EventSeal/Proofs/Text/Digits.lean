import EventSeal.Decimal
import Mathlib.Data.List.Basic
import Mathlib.Data.List.Induction
import Mathlib.Data.Nat.Digits.Defs

/-!
# What a run of digits is worth

A run of digits is worth the sum of its digits, each times the power of ten
that belongs to its place (`Spells`). Reading it from left to right gives
just that value (`value?_eq_some_iff`).

Of the runs with one value, which differ in the zeros in front, one is the
written form: the run that has no zero in front unless it is the single
zero (`Spells.eq_natChars_iff`). The proof takes the last digit off and goes
on with a tenth of the value, as writing does.
-/

namespace EventSeal.Decimal

def digitValue (c : Char) : Nat :=
  c.toNat - '0'.toNat

/-- A run of ASCII digits that is worth `n`. -/
structure Spells (cs : List Char) (n : Nat) : Prop where
  ne_nil : cs ≠ []
  digits : ∀ c ∈ cs, '0' ≤ c ∧ c ≤ '9'
  value_eq : n = Nat.ofDigits 10 (cs.reverse.map digitValue)

theorem isDigit_iff {c : Char} : isDigit c = true ↔ '0' ≤ c ∧ c ≤ '9' := by
  simp [isDigit]

theorem ofDigitChars_eq_ofDigits (cs : List Char) :
    Nat.ofDigitChars 10 cs 0 = Nat.ofDigits 10 (cs.reverse.map digitValue) := by
  induction cs using List.reverseRecOn with
  | nil => rfl
  | append_singleton cs c ih =>
      rw [Nat.ofDigitChars_append, ih, Nat.ofDigitChars_cons, Nat.ofDigitChars_nil,
        List.reverse_append, List.reverse_singleton, List.singleton_append, List.map_cons,
        Nat.ofDigits_cons, Nat.add_comm]
      rfl

theorem value?_eq_some_iff {cs : List Char} {n : Nat} : value? cs = some n ↔ Spells cs n := by
  have hall : cs.all isDigit = true ↔ ∀ c ∈ cs, '0' ≤ c ∧ c ≤ '9' := by
    simp only [List.all_eq_true, isDigit_iff]
  rw [value?, ofDigitChars_eq_ofDigits]
  constructor
  · intro h
    split at h
    · next hcs => exact ⟨hcs.1, hall.mp hcs.2, (Option.some.inj h).symm⟩
    · cases h
  · rintro ⟨hne, hdigits, hvalue⟩
    rw [if_pos ⟨hne, hall.mpr hdigits⟩, hvalue]

theorem spells_natChars (n : Nat) : Spells (natChars n) n :=
  value?_eq_some_iff.mp (value?_natChars n)

theorem Spells.not_mem {cs : List Char} {n : Nat} (h : Spells cs n) {c : Char}
    (hc : isDigit c = false) : c ∉ cs := by
  intro hmem
  rw [isDigit_iff.mpr (h.digits c hmem)] at hc
  nomatch hc

/-! ## Zeros in front -/

/-- No zero stands in front, unless it is all there is. -/
def IsPlain (cs : List Char) : Prop :=
  cs.head? = some '0' → cs = ['0']

theorem toNat_bounds {c : Char} (h : '0' ≤ c ∧ c ≤ '9') : 48 ≤ c.toNat ∧ c.toNat ≤ 57 :=
  h

theorem digitChar_digitValue {c : Char} (h : '0' ≤ c ∧ c ≤ '9') :
    digitValue c < 10 ∧ (digitValue c).digitChar = c := by
  have hbounds := toNat_bounds h
  have hvalue : digitValue c = c.toNat - 48 := rfl
  have hlt : digitValue c < 10 := by omega
  refine ⟨hlt, Char.toNat_inj.mp ?_⟩
  rw [Nat.toNat_digitChar_of_lt_ten hlt]
  omega

/-- The last digit of a run, and what is before it. -/
theorem Spells.of_concat {cs : List Char} {c : Char} {n : Nat} (hne : cs ≠ [])
    (h : Spells (cs ++ [c]) n) : ∃ m, Spells cs m ∧ n = 10 * m + digitValue c := by
  obtain ⟨-, hdigits, rfl⟩ := h
  refine ⟨_, ⟨hne, fun d hd => hdigits d (List.mem_append_left _ hd), rfl⟩, ?_⟩
  rw [List.reverse_append, List.reverse_singleton, List.singleton_append, List.map_cons,
    Nat.ofDigits_cons, Nat.add_comm]

theorem isPlain_natChars (n : Nat) : IsPlain (natChars n) := by
  induction n using Nat.strongRecOn with
  | ind n ih =>
    intro hhead
    by_cases hn : n < 10
    · rw [natChars_of_lt hn] at hhead ⊢
      exact congrArg (· :: []) (Option.some.inj hhead)
    · rw [Nat.not_lt] at hn
      -- the digits in front are those of a tenth, which is not zero
      rw [natChars_of_le hn, List.head?_append_of_ne_nil _ (natChars_ne_nil _)] at hhead
      have hzero : natChars (n / 10) = natChars 0 := ih (n / 10) (by omega) hhead
      have := natChars_injective hzero
      omega

/-- The written form is the run without a zero in front. -/
theorem Spells.eq_natChars_iff {cs : List Char} {n : Nat} (h : Spells cs n) :
    cs = natChars n ↔ IsPlain cs := by
  constructor
  · rintro rfl
    exact isPlain_natChars n
  · intro hplain
    induction cs using List.reverseRecOn generalizing n with
    | nil => exact absurd rfl h.ne_nil
    | append_singleton cs c ih =>
        obtain ⟨hlt, hchar⟩ := digitChar_digitValue (h.digits c (by simp))
        by_cases hne : cs = []
        · subst hne
          have hn : n = digitValue c := by simpa using h.value_eq
          rw [List.nil_append, natChars_of_lt (hn ▸ hlt), hn, hchar]
        · obtain ⟨m, hm, rfl⟩ := h.of_concat hne
          -- a zero in front of the rest would be in front of the whole
          have hnot : cs.head? ≠ some '0' := by
            intro hhead
            rw [← List.head?_append_of_ne_nil cs hne] at hhead
            exact hne (by simpa using congrArg List.length (hplain hhead))
          have hrest : cs = natChars m := ih hm fun hhead => absurd hhead hnot
          have hpos : m ≠ 0 := by
            rintro rfl
            exact hnot (by rw [hrest]; rfl)
          have hdiv : (10 * m + digitValue c) / 10 = m := by omega
          have hmod : (10 * m + digitValue c) % 10 = digitValue c := by omega
          rw [natChars_of_le (by omega), hdiv, hmod, hchar, ← hrest]

end EventSeal.Decimal
