import Mathlib.Data.List.Infix

/-!
# Texts joined by a separator

A text, a separator and another text, written one after the other, do not
always show where the first text ended. When two such pairs look the same and
are not, one of the first texts goes on past the separator of the other pair
(`join_eq_iff`): it holds that whole separator, and what it has taken is missing
from its second text.

This needs that two copies of the separator cannot overlap, which every
separator of one character satisfies, and `->` too. Otherwise a first text
could end in the middle of a separator: with `--` between them, `a-` and `b`
look like `a` and `-b`.
-/

namespace EventSeal.Text

/-- No beginning of the separator, except the whole, is also its end. -/
def Unbordered (sep : List Char) : Prop :=
  ∀ k < sep.length, 0 < k → sep.take k ≠ sep.drop (sep.length - k)

instance : DecidablePred Unbordered := fun sep =>
  inferInstanceAs (Decidable (∀ k < sep.length, 0 < k → sep.take k ≠ sep.drop (sep.length - k)))

section

variable {sep : List Char}

theorem Unbordered.eq_nil_or_eq (h : Unbordered sep) {n : List Char} (hstart : n <+: sep)
    (hend : n <:+ sep) : n = [] ∨ n = sep := by
  by_cases hlen : n.length < sep.length
  · by_cases hpos : 0 < n.length
    · have hborder := h n.length hlen hpos
      rw [← List.prefix_iff_eq_take.mp hstart, ← List.suffix_iff_eq_drop.mp hend] at hborder
      exact absurd rfl hborder
    · exact Or.inl (List.eq_nil_of_length_eq_zero (by omega))
  · exact Or.inr (hstart.eq_of_length_le (by omega))

/-- What stands in front of a copy of the separator that comes later is nothing,
or it begins with a whole copy. -/
theorem Unbordered.eq_nil_or_exists (h : Unbordered sep) {m b d : List Char}
    (heq : sep ++ b = m ++ (sep ++ d)) :
    (m = [] ∧ b = d) ∨ ∃ n, m = sep ++ n ∧ b = n ++ (sep ++ d) := by
  rcases List.append_eq_append_iff.mp heq with ⟨n, hm, hb⟩ | ⟨n, hsep, hrest⟩
  · exact Or.inr ⟨n, hm, hb⟩
  · have hend : n <:+ sep := ⟨m, hsep.symm⟩
    have hstart : n <+: sep :=
      List.prefix_of_prefix_length_le ⟨b, hrest.symm⟩ ⟨d, rfl⟩ hend.length_le
    rcases h.eq_nil_or_eq hstart hend with rfl | rfl
    · rw [List.append_nil] at hsep
      exact Or.inr ⟨[], by rw [List.append_nil, hsep], hrest.symm⟩
    · exact Or.inl ⟨List.append_left_eq_self.mp hsep.symm, (List.append_cancel_left hrest).symm⟩

end

/-! ## Texts -/

/-- Somewhere in the text. -/
def Holds (s part : String) : Prop :=
  ∃ before after, s = before ++ part ++ after

/-- The text `c` goes on past the separator after `a`, and `b` has what is left
of it in front of `d`. -/
def Overruns (sep a b c d : String) : Prop :=
  ∃ m, c = a ++ sep ++ m ∧ b = m ++ sep ++ d

variable {sep a b c d : String}

theorem Overruns.holds (h : Overruns sep a b c d) : Holds c sep := by
  obtain ⟨m, hc, -⟩ := h
  exact ⟨a, m, hc⟩

theorem Overruns.join_eq (h : Overruns sep a b c d) : a ++ sep ++ b = c ++ sep ++ d := by
  obtain ⟨m, rfl, rfl⟩ := h
  simp only [String.append_assoc]

theorem ne_append_append (hsep : sep ≠ "") (a m : String) : a ≠ a ++ sep ++ m := by
  intro heq
  have hlen := congrArg String.length heq
  have hpos : sep.length ≠ 0 := fun hzero => hsep (String.length_eq_zero_iff.mp hzero)
  rw [String.length_append, String.length_append] at hlen
  omega

theorem Overruns.ne (h : Overruns sep a b c d) (hsep : sep ≠ "") : a ≠ c := by
  obtain ⟨m, rfl, -⟩ := h
  exact ne_append_append hsep a m

theorem eq_or_overruns_of_append (hsep : Unbordered sep.toList) {m : List Char}
    (hc : c.toList = a.toList ++ m)
    (hrest : sep.toList ++ b.toList = m ++ (sep.toList ++ d.toList)) :
    (a = c ∧ b = d) ∨ Overruns sep a b c d := by
  rcases hsep.eq_nil_or_exists hrest with ⟨rfl, hb⟩ | ⟨n, rfl, hb⟩
  · rw [List.append_nil] at hc
    exact Or.inl ⟨String.toList_injective hc.symm, String.toList_injective hb⟩
  · refine Or.inr ⟨String.ofList n, String.toList_injective ?_, String.toList_injective ?_⟩
    · simp [hc]
    · simp [hb]

/-- Two pairs look the same if they are, or if one overruns the other. -/
theorem join_eq_iff (hsep : Unbordered sep.toList) :
    a ++ sep ++ b = c ++ sep ++ d ↔
      (a = c ∧ b = d) ∨ Overruns sep a b c d ∨ Overruns sep c d a b := by
  constructor
  · intro heq
    have hchars : a.toList ++ (sep.toList ++ b.toList) = c.toList ++ (sep.toList ++ d.toList) := by
      simpa using congrArg String.toList heq
    rcases List.append_eq_append_iff.mp hchars with ⟨m, hc, hrest⟩ | ⟨m, ha, hrest⟩
    · rcases eq_or_overruns_of_append hsep hc hrest with hsame | hover
      · exact Or.inl hsame
      · exact Or.inr (Or.inl hover)
    · rcases eq_or_overruns_of_append hsep ha hrest with ⟨rfl, rfl⟩ | hover
      · exact Or.inl ⟨rfl, rfl⟩
      · exact Or.inr (Or.inr hover)
  · rintro (⟨rfl, rfl⟩ | hover | hover)
    · rfl
    · exact hover.join_eq
    · exact hover.join_eq.symm

/-- First texts without the separator end where it is. -/
theorem eq_or_holds_of_join_eq (hsep : Unbordered sep.toList)
    (heq : a ++ sep ++ b = c ++ sep ++ d) : (a = c ∧ b = d) ∨ Holds a sep ∨ Holds c sep := by
  rcases (join_eq_iff hsep).mp heq with hsame | hover | hover
  · exact Or.inl hsame
  · exact Or.inr (Or.inr hover.holds)
  · exact Or.inr (Or.inl hover.holds)

end EventSeal.Text
