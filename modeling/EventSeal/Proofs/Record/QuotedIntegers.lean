import EventSeal.Proofs.Record.Fields
import EventSeal.Proofs.Record.Trimming
import EventSeal.Proofs.Text.Integers

/-!
# Integers given as texts

An integer field of loose members may be a number or a text. Of a text the
blanks around it are taken off, and if what is left is an integer of 64 bits,
perhaps with a fraction of zeros, it counts as that; every other text counts as
zero (`readLooseInt64_eq_of_holdsInteger`, `readLooseInt64_eq_zero`).

The text that a whole number is written as is read as that number, and the
numbers above the signed range are zero either way
(`coerceInt64_text_ofInt`). So a record does not show whether its integers
were given as numbers or as texts (`Layout.Separable.ofMembers_of_quoted`).
-/

namespace EventSeal

open Json

/-! ## Blanks around an integer -/

namespace Decimal

theorem SpellsLoosely.solid {cs : List Char} {i : Int} (h : SpellsLoosely cs i) :
    ∀ c ∈ cs, Text.isBlank c = false := by
  cases h with
  | whole h => exact h.solid
  | zeroFraction h k =>
      refine List.forall_mem_append.mpr ⟨h.solid, List.forall_mem_cons.mpr ⟨rfl, ?_⟩⟩
      intro c hc
      rw [List.eq_of_mem_replicate hc]
      rfl

theorem SpellsLoosely.unique {cs : List Char} {i j : Int} (hi : SpellsLoosely cs i)
    (hj : SpellsLoosely cs j) : i = j :=
  (spellsInt_dropZeroFraction_iff.mpr hi).unique (spellsInt_dropZeroFraction_iff.mpr hj)

end Decimal

namespace Json

open Decimal (SpellsLoosely)

/-- An integer between blanks, perhaps with a fraction of zeros. -/
def HoldsInteger (s : String) (i : Int) : Prop :=
  ∃ before cs after, s.toList = before ++ cs ++ after ∧ (∀ c ∈ before, Text.isBlank c = true)
    ∧ (∀ c ∈ after, Text.isBlank c = true) ∧ SpellsLoosely cs i

theorem holdsInteger_iff {s : String} {i : Int} :
    HoldsInteger s i ↔ SpellsLoosely (Text.trimChars s.toList) i := by
  constructor
  · rintro ⟨before, cs, after, hs, hbefore, hafter, hspells⟩
    rw [hs, (Text.isCore_of_solid hbefore hspells.solid hafter).trimChars_eq]
    exact hspells
  · intro hspells
    obtain ⟨before, after, hs, hbefore, hafter⟩ := Text.exists_around_trimChars s.toList
    exact ⟨before, _, after, hs, hbefore, hafter, hspells⟩

/-! ## Reading texts as integers -/

theorem readLooseInt64_eq_of_holdsInteger {s : String} {n : Int64} (h : HoldsInteger s n.toInt) :
    readLooseInt64 s = n := by
  have hread := Decimal.readInt64_eq_ok_iff.mpr
    (spellsInt_dropZeroFraction_iff.mpr (holdsInteger_iff.mp h))
  rw [readLooseInt64, hread]

theorem readLooseInt64_eq_zero {s : String} (h : ∀ n : Int64, ¬ HoldsInteger s n.toInt) :
    readLooseInt64 s = 0 := by
  rw [readLooseInt64]
  split
  · next n hread =>
    have hspells := spellsInt_dropZeroFraction_iff.mp
      (Decimal.readInt64_eq_ok_iff.mp hread)
    exact absurd (holdsInteger_iff.mpr hspells) (h n)
  · rfl

theorem holdsInteger_ofInt (i : Int) : HoldsInteger (Decimal.ofInt i) i :=
  ⟨[], Decimal.intChars i, [], by simp [Decimal.ofInt], nofun, nofun,
    .whole (Decimal.spellsInt_intChars i)⟩

/-- A text is an integer in one way, whatever stands around it. -/
theorem HoldsInteger.unique {s : String} {i j : Int} (hi : HoldsInteger s i)
    (hj : HoldsInteger s j) : i = j :=
  (holdsInteger_iff.mp hi).unique (holdsInteger_iff.mp hj)

/-! ## Numbers and their texts -/

theorem toInt_coerceInt64 {i : Int} (hi : IsWord i) (hle : i ≤ 9223372036854775807) :
    (coerceInt64 (some (.number (.whole i)))).toInt = i := by
  rw [coerceInt64, int64OfInt?, if_pos ⟨hi.1, hle⟩, Option.getD_some]
  exact Int64.toInt_ofInt_of_le hi.1 (by omega)

theorem coerceInt64_of_lt {i : Int} (hlt : 9223372036854775807 < i) :
    coerceInt64 (some (.number (.whole i))) = 0 := by
  rw [coerceInt64, int64OfInt?, if_neg fun h => absurd h.2 (by omega), Option.getD_none]

theorem coerceInt64_text_ofInt {i : Int} (hi : IsWord i) :
    coerceInt64 (some (.text (Decimal.ofInt i))) = coerceInt64 (some (.number (.whole i))) := by
  by_cases hle : i ≤ 9223372036854775807
  · have hholds :
        HoldsInteger (Decimal.ofInt i) (coerceInt64 (some (.number (.whole i)))).toInt := by
      rw [toInt_coerceInt64 hi hle]
      exact holdsInteger_ofInt i
    exact readLooseInt64_eq_of_holdsInteger hholds
  · rw [coerceInt64_of_lt (by omega)]
    refine readLooseInt64_eq_zero fun n hn => ?_
    have hlt := n.toInt_lt
    have heq := hn.unique (holdsInteger_ofInt i)
    omega

end Json

/-! ## Records -/

theorem Kind.coerce_text_ofInt {k : Kind} (hk : k = .integer) {i : Int} (hi : IsWord i) :
    k.coerce (some (.text (Decimal.ofInt i))) = k.coerce (some (.number (.whole i))) := by
  subst hk
  exact coerceInt64_text_ofInt hi

namespace Layout

variable {R : Type} {l : Layout R}

/-- Some whole numbers of `m` that stand in integer fields are texts in `m'`. -/
def Quoted (l : Layout R) (m m' : Members) : Prop :=
  ∀ c ∈ l.columns, m'.get? c.name = m.get? c.name
    ∨ c.kind = .integer ∧ ∃ i, IsWord i ∧ m.get? c.name = some (.number (.whole i))
        ∧ m'.get? c.name = some (.text (Decimal.ofInt i))

theorem Separable.ofMembers_of_quoted (h : l.Separable) {m m' : Members} (hm : l.Quoted m m') :
    l.ofMembers m' = l.ofMembers m := by
  refine h.ext_get fun c hc => ?_
  rw [h.get_ofMembers hc, h.get_ofMembers hc]
  rcases hm c hc with hsame | ⟨hkind, i, hi, hnumber, htext⟩
  · rw [hsame]
  · rw [hnumber, htext, Kind.coerce_text_ofInt hkind hi]

end Layout

/-- What a text counts as where an integer belongs, what a number counts as,
and that a record is the same whichever of the two its integers are given as. -/
theorem integers_load_from_numbers_and_texts :
    (∀ (s : String) (n : Int64), HoldsInteger s n.toInt → coerceInt64 (some (.text s)) = n)
      ∧ (∀ s : String, (∀ n : Int64, ¬ HoldsInteger s n.toInt) → coerceInt64 (some (.text s)) = 0)
      ∧ (∀ i : Int, IsWord i →
          coerceInt64 (some (.number (.whole i)))
              = coerceInt64 (some (.text (coerceText (some (.number (.whole i))))))
            ∧ (i ≤ 9223372036854775807 → (coerceInt64 (some (.number (.whole i)))).toInt = i)
            ∧ (9223372036854775807 < i → coerceInt64 (some (.number (.whole i))) = 0))
      ∧ (∀ m m' : Members, Event.layout.Quoted m m' → Event.ofMembers m' = Event.ofMembers m)
      ∧ (∀ m m' : Members, Entity.layout.Quoted m m' → Entity.ofMembers m' = Entity.ofMembers m)
      ∧ ∀ m m' : Members, Version.layout.Quoted m m' →
          Version.ofMembers m' = Version.ofMembers m := by
  refine ⟨fun s n => readLooseInt64_eq_of_holdsInteger, fun s => readLooseInt64_eq_zero,
    fun i hi => ?_, fun m m' hm => ?_, fun m m' hm => ?_, fun m m' hm => ?_⟩
  · exact ⟨(coerceInt64_text_ofInt hi).symm, toInt_coerceInt64 hi, coerceInt64_of_lt⟩
  · exact Event.separable_layout.ofMembers_of_quoted hm
  · exact Entity.separable_layout.ofMembers_of_quoted hm
  · exact Version.separable_layout.ofMembers_of_quoted hm

/-! A sign, zeros in front, a fraction of zeros and a no-break space; a text with
two points; the number that is one too large; and a time in both forms. -/

def paddedSeven : String :=
  " +007.00\u00a0"

def twoPoints : String :=
  "1.0.0"

def timeAsNumber : Members :=
  [("createdAt", .number (.whole (-5)))]

def timeAsText : Members :=
  [("createdAt", .text "-5")]

theorem quoted_time {R : Type} {l : Layout R}
    (h : ∀ c ∈ l.columns, c.name = "createdAt" → c.kind = .integer) :
    l.Quoted timeAsNumber timeAsText := by
  intro c hc
  by_cases hname : c.name = "createdAt"
  · refine Or.inr ⟨h c hc hname, -5, by decide, ?_, ?_⟩ <;> rw [hname] <;> rfl
  · refine Or.inl ?_
    rw [timeAsText, timeAsNumber, Members.get?_cons, Members.get?_cons, if_neg hname, if_neg hname]

theorem integers_load_at_the_limits :
    coerceInt64 (some (.text paddedSeven)) = 7
      ∧ coerceInt64 (some (.text twoPoints)) = 0
      ∧ coerceInt64 (some (.text "9223372036854775808")) = 0
      ∧ Event.ofMembers timeAsText = Event.ofMembers timeAsNumber
      ∧ Entity.ofMembers timeAsText = Entity.ofMembers timeAsNumber
      ∧ Version.ofMembers timeAsText = Version.ofMembers timeAsNumber := by
  obtain ⟨hholds, hzero, hnumber, hevent, hentity, hversion⟩ :=
    integers_load_from_numbers_and_texts
  refine ⟨hholds _ 7 ?_, hzero _ fun n hn => ?_, ?_, hevent _ _ ?_, hentity _ _ ?_,
    hversion _ _ ?_⟩
  · have hdigits : Decimal.Spells ['0', '0', '7'] 7 := Decimal.value?_eq_some_iff.mp rfl
    exact ⟨[' '], _, ['\u00a0'], rfl, List.forall_mem_singleton.mpr rfl,
      List.forall_mem_singleton.mpr rfl, .zeroFraction (.plus hdigits) 1⟩
  · have hspells := spellsInt_dropZeroFraction_iff.mpr (holdsInteger_iff.mp hn)
    exact hspells.point_not_mem (by decide)
  · have hnext := hnumber 9223372036854775808 (by decide)
    exact hnext.1.symm.trans (hnext.2.2 (by decide))
  · exact quoted_time (by decide)
  · exact quoted_time (by decide)
  · exact quoted_time (by decide)

end EventSeal
