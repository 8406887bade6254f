import EventSeal.Proofs.Json.Occurrences
import EventSeal.Proofs.Json.Spelling

/-!
# Which figures are integers

The scan keeps of a numeral what its value depends on. Of a figure without
a fraction and an exponent that is its sign and its digits, read as one
number; of any other figure, that it is not plain. So a figure is read as an
integer of 64 bits exactly if it is one as it stands (`int64?_eq_some_iff`).
-/

namespace EventSeal.Json

/-- Nothing pushed onto a numeral makes it plain or takes that away. -/
theorem plain_pushAll {push : Numeral → Nat → Numeral} (h : ∀ n d, (push n d).plain = n.plain)
    (ds : List (Fin 10)) (n : Numeral) : (pushAll push ds n).plain = n.plain := by
  induction ds generalizing n with
  | nil => rfl
  | cons d ds ih => exact (ih _).trans (h n d)

theorem pushAll_pushDigit (ds : List (Fin 10)) (n : Numeral) :
    pushAll Numeral.pushDigit ds n
      = { n with digits := ds.foldl (fun k d => 10 * k + d.val) n.digits } := by
  induction ds generalizing n with
  | nil => rfl
  | cons d ds ih => exact ih (n.pushDigit d.val)

theorem decimal_eq_zero_iff {w : Whole} : decimal w.digits = 0 ↔ w = .zero := by
  have hpos : ∀ (ds : List (Fin 10)) (k : Nat), 0 < k →
      0 < ds.foldl (fun k d => 10 * k + d.val) k := by
    intro ds
    induction ds with
    | nil => exact fun k hk => hk
    | cons d ds ih =>
        intro k hk
        have hnext : 0 < 10 * k + d.val := by omega
        exact ih _ hnext
  cases w with
  | zero => exact iff_of_true rfl rfl
  | positive d ds =>
      have hfirst : 0 < 10 * 0 + d.succ.val := by
        rw [Fin.val_succ]
        omega
      exact iff_of_false (Nat.ne_of_gt (hpos ds _ hfirst)) nofun

namespace Figure

theorem numeral_of_plain {f : Figure} (hfraction : f.fraction = none)
    (hexponent : f.exponent = none) :
    f.draft.numeral = { Numeral.start f.negative with digits := decimal f.whole.digits } := by
  rw [draft, hfraction, hexponent]
  exact pushAll_pushDigit _ _

theorem plain_eq_true_iff {f : Figure} :
    f.draft.numeral.plain = true ↔ f.fraction = none ∧ f.exponent = none := by
  have hexponents : ∀ n d, (Numeral.pushExponent n d).plain = n.plain := fun _ _ => rfl
  have hplaces : ∀ n d, (Numeral.pushPlace n d).plain = n.plain := fun _ _ => rfl
  cases hexponent : f.exponent with
  | some e =>
      refine iff_of_false ?_ fun h => nomatch h.2
      rw [draft, hexponent, exponentDraft, plain_pushAll hexponents]
      cases e.sign <;> exact Bool.false_ne_true
  | none =>
      cases hfraction : f.fraction with
      | some ds =>
          refine iff_of_false ?_ fun h => nomatch h.1
          rw [draft, hexponent, hfraction, exponentDraft, fractionDraft, plain_pushAll hplaces]
          exact Bool.false_ne_true
      | none =>
          refine iff_of_true ?_ ⟨rfl, rfl⟩
          rw [numeral_of_plain hfraction hexponent]
          rfl

theorem isInteger_iff {f : Figure} : f.draft.numeral.isInteger = true ↔ f.IsInteger := by
  rw [Numeral.isInteger, Bool.and_eq_true, plain_eq_true_iff, IsInteger, and_assoc]
  refine and_congr_right fun hfraction => and_congr_right fun hexponent => ?_
  rw [numeral_of_plain hfraction hexponent, ← decimal_eq_zero_iff]
  cases f.negative <;> simp [Numeral.start]

theorem int64?_eq_some_iff {f : Figure} {i : Int64} :
    f.draft.numeral.int64? = some i ↔ f.IsInteger ∧ f.integer = i.toInt := by
  rw [Numeral.int64?_eq_some_iff, isInteger_iff]
  refine and_congr_right fun h => ?_
  rw [numeral_of_plain h.1 h.2.1]
  rfl

end Figure

end EventSeal.Json
