import EventSeal.Mode
import EventSeal.Proofs.Json.Reals
import EventSeal.Proofs.Text.LetterCase
import Mathlib.Data.Bool.AllAny

/-!
# What counts as production

Production hides secrets, so a text that does not plainly name it must not
switch it on. The mode is looked up in lower case, and lower case ranges over
all of Unicode, but the two names have no `k` in them, and every other small
letter comes from itself or from its own capital. So a text counts as production
just if it is one of the names up to the case of ASCII letters
(`isProductionText_iff`), and this does not depend on the form that a sigma takes.

A value counts as its text does. Only texts can name production: flags have two
other names, lists, objects and null have none, and every number has a digit in
it (`exists_digit_of_number`), of which the names have none.
-/

namespace EventSeal

open Json Text

/-! ## Numbers as texts -/

theorem Json.Figure.exists_digit (f : Figure) : ∃ c ∈ f.chars, Decimal.isDigit c = true := by
  have hwhole : ∀ w : Whole, ∃ d, d ∈ w.digits := fun w => by
    cases w with
    | zero => exact ⟨0, List.mem_cons_self⟩
    | positive d ds => exact ⟨d.succ, List.mem_cons_self⟩
  obtain ⟨d, hd⟩ := hwhole f.whole
  refine ⟨d.val.digitChar, ?_, Decimal.isDigit_digitChar d.isLt⟩
  have hmem : d.val.digitChar ∈ digitChars f.whole.digits := List.mem_map_of_mem hd
  simp only [chars, List.mem_append]
  exact Or.inl (Or.inl (Or.inr hmem))

theorem Json.exists_digit_of_number (n : Number) :
    ∃ c ∈ (coerceText (some (.number n))).toList, Decimal.isDigit c = true := by
  obtain ⟨f, hf⟩ : ∃ f : Figure, f.chars = (coerceText (some (.number n))).toList := by
    cases n with
    | whole i => exact exists_figure_ofInt i
    | real x =>
        rw [coerceText, coerceReal]
        split
        · exact exists_figure_ofInt _
        · exact RealStyle.exists_figure_write plainStyle x
  rw [← hf]
  exact f.exists_digit

namespace Mode

/-! ## Names -/

/-- One of the two names, in any case of letters. -/
def NamesProduction (s : String) : Prop :=
  SameButForCase s "prod" ∨ SameButForCase s "production"

instance : DecidablePred NamesProduction := fun _ =>
  inferInstanceAs (Decidable (_ ∨ _))

theorem isNative_of_mem_short : ∀ c ∈ "prod".toList, IsNative c :=
  List.all_iff_forall_prop.mp (by decide)

theorem isNative_of_mem_long : ∀ c ∈ "production".toList, IsNative c :=
  List.all_iff_forall_prop.mp (by decide)

theorem lowers_iff {s : String} {cs : List Char} (h : Lowers s.toList cs) :
    cs = "prod".toList ∨ cs = "production".toList ↔ NamesProduction s :=
  or_congr (h.eq_iff_sameButForCase isNative_of_mem_short)
    (h.eq_iff_sameButForCase isNative_of_mem_long)

theorem isProductionText_iff {s : String} : isProductionText s = true ↔ NamesProduction s := by
  rw [← lowers_iff (lowers_lowercase s), isProductionText, Bool.or_eq_true, beq_iff_eq, beq_iff_eq,
    String.toList_inj, String.toList_inj]

theorem ofText_eq_production_iff {s : String} : ofText s = .production ↔ NamesProduction s := by
  rw [← isProductionText_iff, ofText]
  split <;> simp_all

theorem ofValue_eq_production_iff {v : Option Value} :
    ofValue v = .production ↔ isProductionValue v = true := by
  rw [ofValue]
  split <;> simp_all

theorem not_sameButForCase_of_digit {s t : String} {c : Char} (hmem : c ∈ s.toList)
    (hdigit : Decimal.isDigit c = true) (ht : ∀ d ∈ t.toList, IsNative d) :
    ¬ SameButForCase s t := by
  intro hsame
  have hle : c.toNat ≤ 0x39 := (Decimal.toNat_bounds (Decimal.isDigit_iff.mp hdigit)).2
  have hlower : c.toLower ∈ t.toList.map Char.toLower := by
    rw [← hsame]
    exact List.mem_map_of_mem hmem
  obtain ⟨d, hd, heq⟩ := List.mem_map.mp hlower
  rw [toLower_of_isNative (ht d hd), toLower_of_not_capital (by omega)] at heq
  have hletter : 0x61 ≤ d.toNat := (ht d hd).1
  rw [heq] at hletter
  omega

theorem not_namesProduction_of_digit {s : String} {c : Char} (hmem : c ∈ s.toList)
    (hdigit : Decimal.isDigit c = true) : ¬ NamesProduction s := by
  rintro (hsame | hsame)
  · exact not_sameButForCase_of_digit hmem hdigit isNative_of_mem_short hsame
  · exact not_sameButForCase_of_digit hmem hdigit isNative_of_mem_long hsame

/-- Whatever is no text is development. -/
theorem isProductionValue_eq_false {v : Option Value} (h : ∀ s, v ≠ some (.text s)) :
    isProductionValue v = false := by
  rw [isProductionValue, ← Bool.not_eq_true, isProductionText_iff]
  match v with
  | some (.text s) => exact absurd rfl (h s)
  | some (.number n) =>
      obtain ⟨c, hmem, hdigit⟩ := exists_digit_of_number n
      exact not_namesProduction_of_digit hmem hdigit
  | some (.bool true) => exact (by decide : ¬ NamesProduction "true")
  | some (.bool false) => exact (by decide : ¬ NamesProduction "false")
  | some .null | some (.array _) | some (.object _) | none =>
      exact (by decide : ¬ NamesProduction "")

end Mode

/-- Production is asked for by one of its names in ASCII letters of any case, as
a text or as a value that is a text, and by nothing else. -/
theorem production_has_two_names :
    (∀ s : String, Mode.isProductionText s = true ↔ Mode.NamesProduction s)
      ∧ (∀ (s : String) (cs : List Char), Lowers s.toList cs →
          (cs = "prod".toList ∨ cs = "production".toList ↔ Mode.NamesProduction s))
      ∧ (∀ s : String, (Mode.ofText s = .production ↔ Mode.NamesProduction s)
          ∧ (Mode.ofValue (some (.text s)) = .production ↔ Mode.NamesProduction s)
          ∧ (Mode.isProductionValue (some (.text s)) = true ↔ Mode.NamesProduction s))
      ∧ ∀ v : Option Value, (∀ s, v ≠ some (.text s)) →
          Mode.isProductionValue v = false ∧ Mode.ofValue v = .development := by
  refine ⟨fun s => Mode.isProductionText_iff, fun s cs h => Mode.lowers_iff h,
    fun s => ⟨Mode.ofText_eq_production_iff, ?_, Mode.isProductionText_iff⟩, fun v hv => ?_⟩
  · rw [Mode.ofValue_eq_production_iff]
    exact Mode.isProductionText_iff
  · have hfalse := Mode.isProductionValue_eq_false hv
    refine ⟨hfalse, ?_⟩
    rw [Mode.ofValue, hfalse]
    rfl

/-- A name in capitals, the long one with a dotted capital I, and a sigma at the
end of a word. -/
theorem production_of_oddSpellings :
    Mode.ofText "PrOd" = .production
      ∧ Mode.ofText "PRODUCTİON" = .development
      ∧ ¬ Mode.NamesProduction "prodΣ"
      ∧ Mode.ofValue (some (.number (.whole 1))) = .development := by
  obtain ⟨-, hlowers, htexts, hvalues⟩ := production_has_two_names
  have hnumber : ∀ s, some (Value.number (.whole 1)) ≠ some (.text s) := by
    intro s heq
    nomatch Option.some.inj heq
  refine ⟨(htexts "PrOd").1.mpr (by decide), ?_, ?_, (hvalues _ hnumber).2⟩
  · cases hmode : Mode.ofText "PRODUCTİON" with
    | development => rfl
    | production => exact absurd ((htexts _).1.mp hmode) (by decide)
  · have hword : Lowers "prodΣ".toList ['p', 'r', 'o', 'd', 'ς'] :=
      .cons 'p' (.cons 'r' (.cons 'o' (.cons 'd' (.finalSigma .nil))))
    rw [← hlowers _ _ hword]
    decide

end EventSeal
