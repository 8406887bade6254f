import EventSeal.Proofs.Text.Faults
import EventSeal.Proofs.Text.Trimming
import EventSeal.Role

/-!
# Ranks given as texts

A rank is read from the core of a text: the core has to be an integer of 32 bits,
with a sign or without one, and the rank is what it is worth
(`ofText_eq_ok_iff`). Any other core has a fault, and that is what is reported
(`ofText_eq_error_iff`). The largest rank is the superuser's, so an integer that
is one too large must be refused and not wrap around or stop at the limit.

A rank that is written is an integer of 32 bits without a blank in it. So it is
read back, whatever blanks are put around it (`ofText_around_text`).
-/

namespace EventSeal.Role

open Decimal (SpellsInt HasFault)
open Text (IsCore isBlank)

variable {s : String} {core : List Char}

theorem ofText_eq_ok_iff (h : IsCore core s.toList) {r : Role} :
    ofText s = .ok r ↔ SpellsInt core r.rank.toInt := by
  rw [ofText, h.trimChars_eq, Decimal.map_eq_ok_iff, ← Decimal.readInt32_eq_ok_iff]
  constructor
  · rintro ⟨n, hread, rfl⟩
    exact hread
  · exact fun hread => ⟨r.rank, hread, rfl⟩

theorem ofText_eq_error_iff (h : IsCore core s.toList) {e : Decimal.IntegerFault} :
    ofText s = .error e ↔ HasFault 2147483648 2147483647 core e := by
  rw [ofText, h.trimChars_eq, Decimal.map_eq_error_iff, Decimal.readInt32,
    Decimal.map_eq_error_iff, Decimal.readSigned_eq_error_iff]

theorem ofText_around_text {before after : String} (hbefore : ∀ c ∈ before.toList, isBlank c = true)
    (hafter : ∀ c ∈ after.toList, isBlank c = true) (r : Role) :
    ofText (before ++ r.text ++ after) = .ok r := by
  have hspells := Decimal.spellsInt_intChars r.rank.toInt
  have hchars : (before ++ r.text ++ after).toList
      = before.toList ++ Decimal.intChars r.rank.toInt ++ after.toList := by
    simp [text, Decimal.ofInt]
  have hcore : IsCore (Decimal.intChars r.rank.toInt) (before ++ r.text ++ after).toList := by
    rw [hchars]
    exact Text.isCore_of_solid hbefore hspells.solid hafter
  exact (ofText_eq_ok_iff hcore).mpr hspells

/-- Every text has a core. What the core is worth is the rank that is read, what
is wrong with it is the fault that is reported, and a written rank is read back. -/
theorem ranks_are_read_whole :
    (∀ s : String, ∃ core, IsCore core s.toList)
      ∧ (∀ (s : String) (core : List Char), IsCore core s.toList →
          (∀ r, ofText s = .ok r ↔ SpellsInt core r.rank.toInt)
            ∧ ∀ e, ofText s = .error e ↔ HasFault 2147483648 2147483647 core e)
      ∧ ∀ (r : Role) (before after : String), (∀ c ∈ before.toList, isBlank c = true) →
          (∀ c ∈ after.toList, isBlank c = true) → ofText (before ++ r.text ++ after) = .ok r :=
  ⟨fun s => ⟨_, Text.isCore_trimChars s.toList⟩,
    fun _ _ h => ⟨fun _ => ofText_eq_ok_iff h, fun _ => ofText_eq_error_iff h⟩,
    fun r _ _ hbefore hafter => ofText_around_text hbefore hafter r⟩

/-- The least rank with zeros in front, one more than the largest with something
behind it, the digits of the largest but for the last, one less than the least,
a sign alone, and nothing but blanks. -/
theorem ranks_at_the_limits :
    ofText "\u2003-02147483648\n" = .ok ⟨-2147483648⟩
      ∧ ofText "2147483648x" = .error .aboveRange
      ∧ ofText "+214748364x" = .error .invalidDigit
      ∧ ofText "-2147483649" = .error .belowRange
      ∧ ofText "\u00a0" = .error .empty
      ∧ ofText ("\u2028" ++ superuser.text ++ "\r\n") = .ok superuser := by
  obtain ⟨-, hcores, hwritten⟩ := ranks_are_read_whole
  have hread {s : String} {core : List Char} (h : Text.trimChars s.toList = core) :=
    hcores s core (Text.isCore_iff.mpr h)
  refine ⟨?_, ?_, ?_, ?_, ?_, ?_⟩
  · have hspells : SpellsInt "-02147483648".toList (-(2147483648 : Nat)) :=
      .minus (Decimal.value?_eq_some_iff.mp (by decide))
    exact ((hread (by decide)).1 _).mpr hspells
  · have hdigits : Decimal.Spells "2147483648".toList 2147483648 :=
      Decimal.value?_eq_some_iff.mp (by decide)
    exact ((hread rfl).2 _).mpr (.aboveRange ⟨_, Or.inl rfl, _, hdigits, by decide⟩)
  · have hcore : Text.trimChars "+214748364x".toList = '+' :: "214748364x".toList := by decide
    refine ((hread hcore).2 _).mpr (.invalidDigit (by decide) ?_ ?_ fun i hi => ?_)
    · rw [Decimal.tooLarge_plus_iff, Decimal.exceeds_iff]
      decide
    · exact Decimal.not_tooSmall (by decide)
    · exact absurd (hi.mem 'x' (by decide)) (by decide)
  · have hdigits : Decimal.Spells "2147483649".toList 2147483649 :=
      Decimal.value?_eq_some_iff.mp (by decide)
    exact ((hread rfl).2 _).mpr (.belowRange ⟨_, rfl, _, hdigits, by decide⟩)
  · exact ((hread (by decide)).2 _).mpr (.empty rfl)
  · exact hwritten superuser _ _ (List.all_eq_true.mp (by decide)) (List.all_eq_true.mp (by decide))

end EventSeal.Role
