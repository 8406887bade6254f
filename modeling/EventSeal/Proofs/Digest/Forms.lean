import EventSeal.Proofs.Event.Sealing
import Mathlib.Computability.RegularExpressions

/-!
# The form of a signature

Two things say what a signature looks like: the test that a text has to pass
to be taken for one, and the digest that is written out when one is made.
Both are compared here with the pattern `[0-9a-f]{40}`, taken for a whole
text as a regular expression (`pattern`).

The pattern stands for the texts of forty characters out of sixteen
(`matches'_pattern_iff`). They are what is parsed, unchanged, and all else is
refused (`parse_of_matches'`, `parse_of_not_matches'`). They are also what
comes of a digest of twenty octets, two characters for each
(`matches'_pattern_compute`). An event that verifies has a computed
signature, so it has the form, and a seal that has not, an empty one or one
in capitals, never verifies.
-/

namespace EventSeal

namespace Signature

/-! ## The pattern -/

def hexDigits : List Char :=
  "0123456789abcdef".toList

/-- Any one of the characters. -/
def oneOf (cs : List Char) : RegularExpression Char :=
  (cs.map RegularExpression.char).sum

/-- `[0-9a-f]{40}`, from the first character to the last. -/
def pattern : RegularExpression Char :=
  oneOf hexDigits ^ 40

/-- The digits are in ASCII, and none of the letters is a capital. -/
theorem plain_of_mem_hexDigits {c : Char} (h : c ∈ hexDigits) :
    c.toNat < 128 ∧ ¬ ('A' ≤ c ∧ c ≤ 'F') := by
  have hall : (hexDigits.all fun c => c.toNat < 128 ∧ ¬ ('A' ≤ c ∧ c ≤ 'F')) = true := by decide
  exact of_decide_eq_true (List.all_eq_true.mp hall c h)

theorem mem_matches'_oneOf {cs w : List Char} :
    w ∈ (oneOf cs).matches' ↔ ∃ c ∈ cs, w = [c] := by
  unfold oneOf
  induction cs with
  | nil =>
      refine iff_of_false (Language.notMem_zero w) ?_
      simp
  | cons c cs ih =>
      rw [List.map_cons, List.sum_cons, RegularExpression.matches'_add, Language.mem_add, ih,
        List.exists_mem_cons_iff]
      exact Iff.rfl

/-- As many characters as the power says, each of the right kind. -/
theorem mem_matches'_pow {cs w : List Char} {n : Nat} :
    w ∈ (oneOf cs ^ n).matches' ↔ w.length = n ∧ ∀ c ∈ w, c ∈ cs := by
  rw [RegularExpression.matches'_pow]
  induction n generalizing w with
  | zero =>
      rw [pow_zero, Language.mem_one, List.length_eq_zero_iff]
      constructor
      · rintro rfl
        simp
      · exact And.left
  | succ n ih =>
      rw [pow_succ', Language.mem_mul]
      constructor
      · rintro ⟨first, hfirst, rest, hrest, rfl⟩
        obtain ⟨c, hc, rfl⟩ := mem_matches'_oneOf.mp hfirst
        obtain ⟨hlength, hall⟩ := ih.mp hrest
        refine ⟨by simp [hlength], ?_⟩
        rw [List.singleton_append, List.forall_mem_cons]
        exact ⟨hc, hall⟩
      · rintro ⟨hlength, hall⟩
        cases w with
        | nil => nomatch hlength
        | cons c w =>
            obtain ⟨hc, hw⟩ := List.forall_mem_cons.mp hall
            exact ⟨[c], mem_matches'_oneOf.mpr ⟨c, hc, rfl⟩, w,
              ih.mpr ⟨Nat.succ_inj.mp hlength, hw⟩, rfl⟩

theorem matches'_pattern_iff {s : String} :
    s.toList ∈ pattern.matches' ↔ s.length = 40 ∧ ∀ c ∈ s.toList, c ∈ hexDigits := by
  rw [← String.length_toList]
  exact mem_matches'_pow

/-! ## The test -/

theorem isHexDigit_iff {c : Char} : Text.isHexDigit c = true ↔ c ∈ hexDigits := by
  constructor
  · intro h
    have hall : ∀ n : Fin 128,
        Text.isHexDigit (Char.ofNat n) = true → Char.ofNat n ∈ hexDigits := by
      decide +kernel
    have hlt : c.toNat < 128 := by
      simp only [Text.isHexDigit, Bool.or_eq_true, Bool.and_eq_true, decide_eq_true_eq] at h
      rcases h with ⟨-, h⟩ | ⟨-, h⟩
      · have hle : c.toNat ≤ 57 := h
        omega
      · have hle : c.toNat ≤ 102 := h
        omega
    have hc : Char.ofNat c.toNat = c := Char.ofNat_toNat c
    exact hc ▸ hall ⟨c.toNat, hlt⟩ (hc.symm ▸ h)
  · intro h
    have hall : hexDigits.all Text.isHexDigit = true := by decide
    exact List.all_eq_true.mp hall c h

theorem wellFormed_iff {s : String} : wellFormed s = true ↔ s.toList ∈ pattern.matches' := by
  rw [matches'_pattern_iff, wellFormed, Bool.and_eq_true, beq_iff_eq, List.all_eq_true,
    String.length_toList]
  simp only [isHexDigit_iff]

theorem parse_of_matches' {s : String} (h : s.toList ∈ pattern.matches') :
    parse s = .ok ⟨s⟩ := by
  unfold parse
  rw [parse?_eq_some_iff.mpr ⟨wellFormed_iff.mpr h, rfl⟩]

theorem parse_of_not_matches' {s : String} (h : s.toList ∉ pattern.matches') :
    parse s = .error ⟨s⟩ := by
  have hnone : parse? s = none := by
    rw [parse?, if_neg fun hwell => h (wellFormed_iff.mp hwell)]
  unfold parse
  rw [hnone]

/-- One character that is no digit, and the text is refused. -/
theorem parse_of_foreign {s : String} {c : Char} (hc : c ∈ s.toList) (hforeign : c ∉ hexDigits) :
    parse s = .error ⟨s⟩ :=
  parse_of_not_matches' fun h => hforeign ((matches'_pattern_iff.mp h).2 c hc)

theorem matches'_pattern_compute (a : DigestAlgorithm) (message : List UInt8) :
    (compute a message).text.toList ∈ pattern.matches' :=
  wellFormed_iff.mp (wellFormed_compute a message)

end Signature

namespace Event

open Signature (pattern hexDigits)

variable {e : Event}

/-- An event that verifies has a seal of the form. -/
theorem matches'_pattern_of_verifies (h : e.verifies = true) :
    e.sign.toList ∈ pattern.matches' := by
  rw [verifies_iff.mp h]
  exact Signature.matches'_pattern_compute _ _

theorem signature_of_verifies (h : e.verifies = true) : e.signature = .ok ⟨e.sign⟩ := by
  unfold signature
  rw [Signature.parse_of_matches' (matches'_pattern_of_verifies h)]

theorem verifies_eq_false_of_foreign {c : Char} (hc : c ∈ e.sign.toList)
    (hforeign : c ∉ hexDigits) : e.verifies = false := by
  rw [← Bool.not_eq_true]
  intro h
  exact hforeign ((Signature.matches'_pattern_iff.mp (matches'_pattern_of_verifies h)).2 c hc)

theorem verifies_eq_false_of_empty (h : e.sign = "") : e.verifies = false := by
  unfold verifies
  rw [if_pos h]

/-- A text is parsed as a signature, and kept as it is, exactly if the
pattern fits the whole of it; a line feed after it or a character beyond
ASCII within it is enough for refusing it. What is computed is parsed. So an
event that verifies is signed and its seal is parsed, and no event verifies
whose seal is empty or has a capital in it. -/
theorem seals_fit_pattern :
    (∀ s : String, s.toList ∈ pattern.matches' ↔ s.length = 40 ∧ ∀ c ∈ s.toList, c ∈ hexDigits)
      ∧ (∀ s : String, s.toList ∈ pattern.matches' → Signature.parse s = .ok ⟨s⟩)
      ∧ (∀ s : String, s.toList ∉ pattern.matches' → Signature.parse s = .error ⟨s⟩)
      ∧ (∀ s : String, Signature.parse (s ++ "\n") = .error ⟨s ++ "\n"⟩)
      ∧ (∀ (s : String) (c : Char), c ∈ s.toList → 128 ≤ c.toNat →
          Signature.parse s = .error ⟨s⟩)
      ∧ (∀ (a : DigestAlgorithm) (message : List UInt8),
          Signature.parse (Signature.compute a message).text = .ok (Signature.compute a message))
      ∧ (∀ e : Event, e.verifies = true → e.isUnsigned = false ∧ e.signature = .ok ⟨e.sign⟩)
      ∧ (∀ e : Event, e.sign = "" → e.verifies = false)
      ∧ ∀ (e : Event) (c : Char), c ∈ e.sign.toList → 'A' ≤ c ∧ c ≤ 'F' → e.verifies = false := by
  refine ⟨fun s => Signature.matches'_pattern_iff, fun s => Signature.parse_of_matches',
    fun s => Signature.parse_of_not_matches', fun s => ?_, fun s c hc hlarge => ?_,
    fun a message => ?_, fun e h => ⟨?_, signature_of_verifies h⟩,
    fun e => verifies_eq_false_of_empty, fun e c hc hcapital => ?_⟩
  · exact Signature.parse_of_foreign (c := '\n') (by simp) (by decide)
  · exact Signature.parse_of_foreign hc fun hmem =>
      absurd (Signature.plain_of_mem_hexDigits hmem).1 (Nat.not_lt.mpr hlarge)
  · exact Signature.parse_of_matches' (Signature.matches'_pattern_compute a message)
  · unfold isUnsigned
    rw [beq_eq_false_iff_ne]
    intro hempty
    rw [verifies_eq_false_of_empty hempty] at h
    nomatch h
  · exact verifies_eq_false_of_foreign hc fun hmem =>
      (Signature.plain_of_mem_hexDigits hmem).2 hcapital

/-- The signature of the blank event. -/
def lowerSign : String :=
  "b6589fc6ab0dc82cf12099d1c2d40ab994e8410c"

/-- The same digits in capitals. -/
def capitalSign : String :=
  "B6589FC6AB0DC82CF12099D1C2D40AB994E8410C"

/-- The blank event verifies with its signature as it was computed and not
with the capitals, and the text is refused with a line feed after it. -/
theorem lowerSign_fits_pattern :
    { blank with sign := lowerSign : Event }.verifies = true
      ∧ { blank with sign := lowerSign : Event }.signature = .ok ⟨lowerSign⟩
      ∧ { blank with sign := capitalSign : Event }.verifies = false
      ∧ blank.verifies = false
      ∧ Signature.parse lowerSign = .ok ⟨lowerSign⟩
      ∧ Signature.parse capitalSign = .error ⟨capitalSign⟩
      ∧ Signature.parse (lowerSign ++ "\n") = .error ⟨lowerSign ++ "\n"⟩
      ∧ Signature.parse "\u0663" = .error ⟨"\u0663"⟩ := by
  obtain ⟨hpattern, haccepts, hrefuses, hfeed, hforeign, -, hsigned, hempty, hcapital⟩ :=
    seals_fit_pattern
  have hverifies : { blank with sign := lowerSign : Event }.verifies = true := by decide +kernel
  refine ⟨hverifies, (hsigned _ hverifies).2, ?_, hempty _ rfl, ?_, ?_, hfeed _, ?_⟩
  · exact hcapital _ 'B' (by decide) ⟨by decide, by decide⟩
  · exact haccepts _ (Signature.wellFormed_iff.mp (by decide))
  · refine hrefuses _ fun h => ?_
    have hdigit := ((hpattern _).mp h).2 'B' (by decide)
    exact absurd hdigit (by decide)
  · exact hforeign _ '\u0663' (by decide) (by decide)

end Event

end EventSeal
