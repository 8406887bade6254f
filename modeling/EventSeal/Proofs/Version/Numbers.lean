import EventSeal.Proofs.Json.Occurrences
import EventSeal.Version

/-!
# The numbers of a version

The label of a version is its three numbers with points between them. No
number holds a point, negative or not, so the points of a label are the
ones between its numbers and a label determines them (`label_injective`).

Versions are ordered by their numbers. A bump raises the first number that
it changes, whatever it does to the later ones, so a bumped version is
above the one it was made from (`compare_of_bump?`), and has another label.
-/

namespace EventSeal.Version.Numbers

variable {m n : Numbers}

/-! ## Labels -/

theorem point_not_mem_intChars (i : Int) : '.' ∉ Decimal.intChars i := by
  have hdigits : '.' ∉ Decimal.natChars i.natAbs := by
    intro hmem
    have hdigit := List.all_eq_true.mp (Decimal.all_isDigit_natChars i.natAbs) '.' hmem
    exact absurd hdigit (by decide)
  rw [Decimal.intChars]
  split
  · rw [List.mem_cons, not_or]
    exact ⟨by decide, hdigits⟩
  · exact hdigits

/-- The parts of a label are the numbers as they are written. -/
theorem splitOn_label (n : Numbers) :
    Text.splitOn '.' n.label.toList = [Decimal.intChars n.major.toInt,
      Decimal.intChars n.minor.toInt, Decimal.intChars n.patch.toInt] := by
  have hchars : n.label.toList = Decimal.intChars n.major.toInt
      ++ '.' :: (Decimal.intChars n.minor.toInt
        ++ '.' :: Decimal.intChars n.patch.toInt) := by
    simp [label, Decimal.ofInt]
  rw [hchars, Text.splitOn_append_sep, Text.splitOn_append_sep,
    Text.splitOn_of_not_mem (point_not_mem_intChars _),
    Text.splitOn_of_not_mem (point_not_mem_intChars _),
    Text.splitOn_of_not_mem (point_not_mem_intChars _)]
  rfl

theorem label_injective (h : m.label = n.label) : m = n := by
  have hparts := splitOn_label m
  rw [h, splitOn_label] at hparts
  obtain ⟨hmajor, hminor, hpatch⟩ := by simpa using hparts
  have hnumber : ∀ {a b : Int64},
      Decimal.intChars b.toInt = Decimal.intChars a.toInt → a = b :=
    fun heq => Int64.toInt_inj.mp (Decimal.intChars_injective heq).symm
  obtain ⟨⟩ := m
  obtain ⟨⟩ := n
  rw [mk.injEq]
  exact ⟨hnumber hmajor, hnumber hminor, hnumber hpatch⟩

/-! ## Order -/

theorem compare_self (n : Numbers) : n.compare n = .eq := by
  simp [compare]

theorem toInt_of_next? {a b : Int64} (h : next? a = some b) : b.toInt = a.toInt + 1 :=
  (Json.int64OfInt?_eq_some_iff.mp h).symm

theorem compare_of_next? {a b : Int64} (h : next? a = some b) :
    Ord.compare b.toInt a.toInt = .gt := by
  rw [toInt_of_next? h]
  exact compare_gt_iff_gt.mpr (Int.lt_succ _)

/-- A bumped version is above the one it was made from. -/
theorem compare_of_bump? {c : Component} (h : n.bump? c = some m) : m.compare n = .gt := by
  cases c with
  | major =>
      obtain ⟨k, hk, rfl⟩ := Option.map_eq_some_iff.mp h
      simp [compare, compare_of_next? hk]
  | minor =>
      obtain ⟨k, hk, rfl⟩ := Option.map_eq_some_iff.mp h
      simp [compare, compare_of_next? hk]
  | patch =>
      obtain ⟨k, hk, rfl⟩ := Option.map_eq_some_iff.mp h
      simp [compare, compare_of_next? hk]

theorem label_ne_of_compare (h : m.compare n = .gt) : m.label ≠ n.label := by
  intro hlabel
  rw [label_injective hlabel, compare_self] at h
  nomatch h

theorem label_ne_of_bump? {c : Component} (h : n.bump? c = some m) : m.label ≠ n.label :=
  label_ne_of_compare (compare_of_bump? h)

end EventSeal.Version.Numbers

namespace EventSeal.Version

/-- What a bump makes, and of what. -/
theorem bump_eq_ok {v w : Version} {c : Component} (h : v.bump c = .ok w) :
    w.project = v.project ∧ v.numbers.bump? c = some w.numbers := by
  rw [bump] at h
  split at h
  · next n hn =>
    obtain rfl := Except.ok.inj h
    exact ⟨rfl, hn⟩
  · nomatch h

end EventSeal.Version
