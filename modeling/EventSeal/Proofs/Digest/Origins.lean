import EventSeal.Proofs.Digest.Forms
import EventSeal.Proofs.Json.Occurrences
import EventSeal.Wire

/-!
# Where signatures come from

A signature is computed from a message, parsed from a text or read from a
wire record. What comes of the first two has the form of one. The third asks
for a JSON string and for nothing more (`ofBytes_eq_ok_iff`), so every text
there is can be had as a signature (`ofBytes_compact_value`). Of those that
were read, exactly the ones that happen to have the form are parsed again
(`shape_by_origin`).
-/

namespace EventSeal

open Json

/-- A tree is read as a text by either reader or by none. -/
theorem Json.Tree.value_eq_text_iff {room : Nat} {t : Tree} {s : String} :
    t.value room = .ok (.text s) ↔ t.text = .ok s := by
  refine ⟨fun h => ?_, value_of_text room⟩
  cases t with
  | string text =>
      cases text with
      | some s' => exact congrArg Except.ok (Value.text.inj (Except.ok.inj h))
      | none => cases h
  | number n =>
      rw [value] at h
      split at h <;> cases h
  | array items cut =>
      cases room with
      | zero => cases h
      | succ room =>
          obtain ⟨vs, -, h⟩ := bind_eq_ok_iff.mp h
          obtain ⟨-, -, h⟩ := bind_eq_ok_iff.mp h
          cases h
  | object members cut =>
      cases room with
      | zero => cases h
      | succ room =>
          obtain ⟨ms, -, h⟩ := bind_eq_ok_iff.mp h
          obtain ⟨-, -, h⟩ := bind_eq_ok_iff.mp h
          cases h
  | null => cases h
  | bool b => cases h
  | gap g => cases h

namespace Signature

/-! ## Reading -/

/-- Every JSON string is read as a signature, and nothing else is. -/
theorem ofBytes_eq_ok_iff {bs : List UInt8} {sig : Signature} :
    ofBytes bs = .ok sig ↔ Value.ofBytes bs = .ok (.text sig.text) := by
  rw [Value.ofBytes, Document.read_eq_ok_iff, Tree.value_eq_text_iff, ← Document.read_eq_ok_iff,
    ofBytes, bind_eq_ok_iff]
  constructor
  · rintro ⟨s, hs, hsig⟩
    obtain rfl := Except.ok.inj hsig
    exact hs
  · exact fun h => ⟨sig.text, h, rfl⟩

/-- A signature of any text comes back from its wire form. -/
theorem ofBytes_compact_value (sig : Signature) :
    ofBytes (Text.bytes sig.value.compact) = .ok sig :=
  ofBytes_eq_ok_iff.mpr (Value.ofText_compact (v := sig.value) rfl trivial)

/-! ## The form -/

theorem parse_eq_ok_iff {s : String} {sig : Signature} :
    parse s = .ok sig ↔ s.toList ∈ pattern.matches' ∧ sig.text = s := by
  by_cases h : s.toList ∈ pattern.matches'
  · rw [parse_of_matches' h, Except.ok.injEq, and_iff_right h]
    exact ⟨fun heq => heq ▸ rfl, fun heq => heq ▸ rfl⟩
  · rw [parse_of_not_matches' h]
    exact iff_of_false nofun fun hmatches => h hmatches.1

/-- Where a signature comes from. -/
inductive Origin
  | computed (a : DigestAlgorithm) (message : List UInt8)
  | parsed (s : String)
  | read (bs : List UInt8)

namespace Origin

def Gives : Origin → Signature → Prop
  | computed a message, sig => sig = compute a message
  | parsed s, sig => parse s = .ok sig
  | read bs, sig => ofBytes bs = .ok sig

/-- What was read was a string of forty lower case hexadecimal digits. Of the
other origins nothing is asked. -/
def Sound : Origin → Prop
  | computed _ _ | parsed _ => True
  | read bs => ∃ s : String, Value.ofBytes bs = .ok (.text s)
      ∧ s.length = 40 ∧ ∀ c ∈ s.toList, c ∈ hexDigits

end Origin

theorem matches'_pattern_iff_sound {o : Origin} {sig : Signature} (h : o.Gives sig) :
    sig.text.toList ∈ pattern.matches' ↔ o.Sound := by
  cases o with
  | computed a message =>
      obtain rfl : sig = compute a message := h
      exact iff_of_true (matches'_pattern_compute a message) trivial
  | parsed s =>
      obtain ⟨hmatches, rfl⟩ := parse_eq_ok_iff.mp h
      exact iff_of_true hmatches trivial
  | read bs =>
      have htext := ofBytes_eq_ok_iff.mp h
      rw [matches'_pattern_iff]
      constructor
      · exact fun hform => ⟨sig.text, htext, hform⟩
      · rintro ⟨s, hs, hform⟩
        obtain rfl := Value.text.inj (Except.ok.inj (hs.symm.trans htext))
        exact hform

/-- A signature is parsed again, as it is, if it was computed or parsed, and if
it was read exactly if the string that was read has the form of one. Otherwise
its text comes back in the error. -/
theorem shape_by_origin (o : Origin) (sig : Signature) (h : o.Gives sig) :
    (parse sig.text = .ok sig ↔ o.Sound) ∧ (¬ o.Sound → parse sig.text = .error ⟨sig.text⟩) := by
  rw [← matches'_pattern_iff_sound h]
  refine ⟨?_, parse_of_not_matches'⟩
  rw [parse_eq_ok_iff, and_iff_left rfl]

theorem lowerSign_parsed_again :
    parse Event.lowerSign = .ok ⟨Event.lowerSign⟩
      ∧ parse (compute .sha1 []).text = .ok (compute .sha1 [])
      ∧ ofBytes (Text.bytes (quote Event.lowerSign)) = .ok ⟨Event.lowerSign⟩ := by
  have hread : ofBytes (Text.bytes (quote Event.lowerSign)) = .ok ⟨Event.lowerSign⟩ :=
    ofBytes_compact_value ⟨Event.lowerSign⟩
  have hmatches : Event.lowerSign.toList ∈ pattern.matches' := wellFormed_iff.mp (by decide)
  refine ⟨?_, (shape_by_origin (.computed .sha1 []) _ rfl).1.mpr trivial, hread⟩
  exact (shape_by_origin (.read _) _ hread).1.mpr
    ⟨Event.lowerSign, ofBytes_eq_ok_iff.mp hread, matches'_pattern_iff.mp hmatches⟩

/-- A signature in capitals is read as it stands, and it cannot be parsed. -/
theorem capitalSign_not_parsed_again :
    ofBytes (Text.bytes "\"B6589FC6AB0DC82CF12099D1C2D40AB994E8410C\"") = .ok ⟨Event.capitalSign⟩
      ∧ parse Event.capitalSign = .error ⟨Event.capitalSign⟩
      ∧ ¬ ∀ (o : Origin) (sig : Signature), o.Gives sig → ∃ sig', parse sig.text = .ok sig' := by
  have hread : ofBytes (Text.bytes "\"B6589FC6AB0DC82CF12099D1C2D40AB994E8410C\"")
      = .ok ⟨Event.capitalSign⟩ := ofBytes_compact_value ⟨Event.capitalSign⟩
  have hrefused : parse Event.capitalSign = .error ⟨Event.capitalSign⟩ := by decide
  refine ⟨hread, hrefused, fun hall => ?_⟩
  obtain ⟨sig', h⟩ := hall (.read _) _ hread
  rw [hrefused] at h
  nomatch h

end Signature

end EventSeal
