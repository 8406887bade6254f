import EventSeal.Proofs.Text.Digits
import EventSeal.Proofs.Version.Numbers

/-!
# Reading labels

A text names three numbers if it is three runs of digits with points between
them, each worth at most the largest integer (`Names`). These are exactly
the texts that are read as labels, and what is read are the numbers named
(`readLabel_eq_ok_iff`). Zeros in front change nothing, signs and digits of
other scripts are refused, and a text that names nothing comes back in the
error.

Matching is narrower. A version without negative numbers has one label among
the texts that name its numbers, the one without zeros in front
(`matchesLabel_iff`), and the label of a version with a negative number
names nothing (`not_names_label`), since no run of digits begins with a
minus sign.
-/

namespace EventSeal.Version

open Decimal (Spells IsPlain)

/-! ## Parts -/

/-- A run of digits that is worth `n`, which is at most the largest integer. -/
def Gives (part : List Char) (n : Int64) : Prop :=
  ∃ k : Nat, Spells part k ∧ k ≤ 9223372036854775807 ∧ n.toInt = k

theorem readPart?_eq_some_iff {part : List Char} {n : Int64} :
    readPart? part = some n ↔ Gives part n := by
  unfold readPart?
  constructor
  · intro h
    split at h
    · next k hk =>
      have hvalue := Json.int64OfInt?_eq_some_iff.mp h
      have hlt := n.toInt_lt
      exact ⟨k, Decimal.value?_eq_some_iff.mp hk, by omega, hvalue.symm⟩
    · nomatch h
  · rintro ⟨k, hspells, -, hvalue⟩
    rw [Decimal.value?_eq_some_iff.mpr hspells]
    exact Json.int64OfInt?_eq_some_iff.mpr hvalue.symm

theorem Gives.point_not_mem {part : List Char} {n : Int64} (h : Gives part n) : '.' ∉ part := by
  obtain ⟨k, hspells, -⟩ := h
  exact hspells.not_mem rfl

theorem gives_intChars {n : Int64} (h : 0 ≤ n) : Gives (Decimal.intChars n.toInt) n := by
  have hnonneg : 0 ≤ n.toInt := Int64.le_iff_toInt_le.mp h
  have hlt := n.toInt_lt
  refine ⟨n.toInt.natAbs, ?_, by omega, by omega⟩
  rw [Decimal.intChars, if_neg (by omega)]
  exact Decimal.spells_natChars _

/-- A negative number begins with a minus sign. -/
theorem not_gives_intChars {m n : Int64} (h : m < 0) : ¬ Gives (Decimal.intChars m.toInt) n := by
  have hneg : m.toInt < 0 := Int64.lt_iff_toInt_lt.mp h
  rintro ⟨k, hspells, -⟩
  rw [Decimal.intChars, if_pos hneg] at hspells
  exact hspells.not_mem (c := '-') rfl List.mem_cons_self

/-- Of the runs that give a number, its written form is the one without a
zero in front. -/
theorem Gives.eq_intChars_iff {part : List Char} {n : Int64} (h : Gives part n) :
    part = Decimal.intChars n.toInt ↔ IsPlain part := by
  obtain ⟨k, hspells, -, hvalue⟩ := h
  rw [hvalue, ← hspells.eq_natChars_iff]
  rfl

/-! ## Labels -/

/-- Three parts with points between them that give the numbers. -/
def Names (s : String) (n : Numbers) : Prop :=
  ∃ p q r : List Char, s.toList = p ++ '.' :: (q ++ '.' :: r)
    ∧ Gives p n.major ∧ Gives q n.minor ∧ Gives r n.patch

theorem splitOn_of_gives {s : String} {p q r : List Char} {a b c : Int64}
    (hs : s.toList = p ++ '.' :: (q ++ '.' :: r)) (hp : Gives p a) (hq : Gives q b)
    (hr : Gives r c) : Text.splitOn '.' s.toList = [p, q, r] := by
  rw [hs, Text.splitOn_append_sep, Text.splitOn_append_sep,
    Text.splitOn_of_not_mem hp.point_not_mem, Text.splitOn_of_not_mem hq.point_not_mem,
    Text.splitOn_of_not_mem hr.point_not_mem]
  rfl

theorem toList_eq_of_splitOn {s : String} {p q r : List Char}
    (h : Text.splitOn '.' s.toList = [p, q, r]) : s.toList = p ++ '.' :: (q ++ '.' :: r) := by
  have hjoin : ['.'].intercalate (s.toList.splitOn '.') = s.toList := List.intercalate_splitOn '.'
  rw [← Text.splitOn_eq, h] at hjoin
  rw [← hjoin]
  simp [List.intercalate]

theorem readLabel_eq_ok_iff {s : String} {n : Numbers} : readLabel s = .ok n ↔ Names s n := by
  unfold readLabel
  constructor
  · intro h
    split at h
    · next a b c hparts =>
      obtain ⟨p, l, hsplit, hp, hl⟩ := List.map_eq_cons_iff.mp hparts
      obtain ⟨q, l, rfl, hq, hl⟩ := List.map_eq_cons_iff.mp hl
      obtain ⟨r, l, rfl, hr, hl⟩ := List.map_eq_cons_iff.mp hl
      obtain rfl := List.map_eq_nil_iff.mp hl
      obtain rfl := Except.ok.inj h
      exact ⟨p, q, r, toList_eq_of_splitOn hsplit, readPart?_eq_some_iff.mp hp,
        readPart?_eq_some_iff.mp hq, readPart?_eq_some_iff.mp hr⟩
    · nomatch h
  · rintro ⟨p, q, r, hs, hp, hq, hr⟩
    rw [splitOn_of_gives hs hp hq hr]
    simp only [List.map_cons, List.map_nil, readPart?_eq_some_iff.mpr hp,
      readPart?_eq_some_iff.mpr hq, readPart?_eq_some_iff.mpr hr]

/-- What is no label comes back as it is. -/
theorem readLabel_eq_error {s : String} (h : ∀ n, ¬ Names s n) : readLabel s = .error ⟨s⟩ := by
  cases hread : readLabel s with
  | ok n => exact absurd (readLabel_eq_ok_iff.mp hread) (h n)
  | error e =>
      unfold readLabel at hread
      split at hread
      · nomatch hread
      · exact hread.symm

/-! ## Labels of versions -/

/-- None of the three numbers is negative. -/
def Numbers.Nonneg (n : Numbers) : Prop :=
  0 ≤ n.major ∧ 0 ≤ n.minor ∧ 0 ≤ n.patch

theorem Numbers.toList_label (n : Numbers) :
    n.label.toList = Decimal.intChars n.major.toInt
      ++ '.' :: (Decimal.intChars n.minor.toInt ++ '.' :: Decimal.intChars n.patch.toInt) :=
  toList_eq_of_splitOn n.splitOn_label

theorem names_label {n : Numbers} (h : n.Nonneg) : Names n.label n :=
  ⟨_, _, _, n.toList_label, gives_intChars h.1, gives_intChars h.2.1, gives_intChars h.2.2⟩

/-- A label read back. -/
theorem readLabel_label {n : Numbers} (h : n.Nonneg) : readLabel n.label = .ok n :=
  readLabel_eq_ok_iff.mpr (names_label h)

theorem not_names_label {m : Numbers} (h : m.major < 0 ∨ m.minor < 0 ∨ m.patch < 0)
    (n : Numbers) : ¬ Names m.label n := by
  rintro ⟨p, q, r, hs, hp, hq, hr⟩
  have hparts := splitOn_of_gives hs hp hq hr
  rw [m.splitOn_label] at hparts
  simp only [List.cons.injEq, and_true] at hparts
  obtain ⟨rfl, rfl, rfl⟩ := hparts
  rcases h with h | h | h
  · exact not_gives_intChars h hp
  · exact not_gives_intChars h hq
  · exact not_gives_intChars h hr

/-- The label of a version is the text without zeros in front among those
that name its numbers. -/
theorem matchesLabel_iff {v : Version} (h : v.numbers.Nonneg) {s : String} :
    v.matchesLabel s = true ↔
      readLabel s = .ok v.numbers ∧ ∀ part ∈ s.toList.splitOn '.', IsPlain part := by
  rw [matchesLabel, beq_iff_eq, readLabel_eq_ok_iff, ← Text.splitOn_eq]
  constructor
  · rintro rfl
    refine ⟨names_label h, fun part hpart => ?_⟩
    rw [label, v.numbers.splitOn_label] at hpart
    simp only [List.mem_cons, List.not_mem_nil, or_false] at hpart
    rcases hpart with rfl | rfl | rfl
    · exact (gives_intChars h.1).eq_intChars_iff.mp rfl
    · exact (gives_intChars h.2.1).eq_intChars_iff.mp rfl
    · exact (gives_intChars h.2.2).eq_intChars_iff.mp rfl
  · rintro ⟨⟨p, q, r, hs, hp, hq, hr⟩, hplain⟩
    rw [splitOn_of_gives hs hp hq hr] at hplain
    have hp := hp.eq_intChars_iff.mpr (hplain p (by simp))
    have hq := hq.eq_intChars_iff.mpr (hplain q (by simp))
    have hr := hr.eq_intChars_iff.mpr (hplain r (by simp))
    rw [hp, hq, hr] at hs
    exact String.toList_injective (v.numbers.toList_label.trans hs.symm)

/-- The texts that are read are the ones that name numbers, and what is read
is what they name. The label of a version is the plain one of the texts that
name its numbers, and no text can name a negative number. -/
theorem labels_name_numbers :
    (∀ (s : String) (n : Numbers), readLabel s = .ok n ↔ Names s n)
      ∧ (∀ s : String, (∀ n, ¬ Names s n) → readLabel s = .error ⟨s⟩)
      ∧ (∀ v : Version, v.numbers.Nonneg → ∀ s : String,
          (v.matchesLabel s = true ↔ readLabel s = .ok v.numbers
            ∧ ∀ part ∈ s.toList.splitOn '.', part.head? = some '0' → part = ['0']))
      ∧ ∀ v : Version, v.major < 0 ∨ v.minor < 0 ∨ v.patch < 0 →
          readLabel v.label = .error ⟨v.label⟩ := by
  refine ⟨fun s n => readLabel_eq_ok_iff, fun s => readLabel_eq_error, fun v h s => ?_,
    fun v h => ?_⟩
  · exact matchesLabel_iff h
  · exact readLabel_eq_error (not_names_label (m := v.numbers) h)

/-- Zeros in front, and the largest number. -/
def paddedLabel : String :=
  "007.9223372036854775807.0"

/-- The second number is one too large. -/
def excessiveLabel : String :=
  "7.9223372036854775808.0"

def plainVersion : Version :=
  { blank with major := 7, minor := 9223372036854775807 }

def negativeVersion : Version :=
  { blank with major := 7, patch := -1 }

/-- A padded label is read as the plain one is and does not match; the next
number and negative ones have no label that is read. -/
theorem paddedLabel_names_numbers :
    readLabel paddedLabel = .ok plainVersion.numbers
      ∧ plainVersion.matchesLabel paddedLabel = false
      ∧ plainVersion.matchesLabel "7.9223372036854775807.0" = true
      ∧ readLabel excessiveLabel = .error ⟨excessiveLabel⟩
      ∧ readLabel negativeVersion.label = .error ⟨"7.0.-1"⟩ := by
  have hnonneg : plainVersion.numbers.Nonneg := ⟨by decide, by decide, by decide⟩
  have hmatches := labels_name_numbers.2.2.1 plainVersion hnonneg
  have hpadded : readLabel paddedLabel = .ok plainVersion.numbers := by
    refine (labels_name_numbers.1 _ _).mpr
      ⟨"007".toList, "9223372036854775807".toList, ['0'], rfl, ?_, ?_, ?_⟩ <;>
    exact readPart?_eq_some_iff.mp (by decide +kernel)
  refine ⟨hpadded, ?_, ?_, ?_, ?_⟩
  · rw [← Bool.not_eq_true, hmatches]
    rintro ⟨-, hplain⟩
    have hzeros := hplain "007".toList (by decide +kernel) rfl
    nomatch hzeros
  · exact (hmatches _).mpr ⟨by decide +kernel, by decide +kernel⟩
  · refine labels_name_numbers.2.1 _ fun n hn => ?_
    have hread := (labels_name_numbers.1 _ _).mpr hn
    nomatch hread
  · exact labels_name_numbers.2.2.2 negativeVersion (Or.inr (Or.inr (by decide)))

end EventSeal.Version
