import EventSeal.Event.Seal

/-!
# Seals hold as long as the body

A seal is the signature of the body, so verification is a comparison of
texts: an event verifies exactly when its seal is the signature of its
present body (`verifies_iff`). The empty text needs no place of its own in
that statement, because no signature is empty (`text_ne_empty`).
-/

namespace EventSeal

theorem Signature.text_ne_empty (a : DigestAlgorithm) (message : List UInt8) :
    (Signature.compute a message).text ≠ "" := by
  intro h
  have hwell := Signature.wellFormed_compute a message
  rw [h] at hwell
  exact absurd hwell (by decide)

namespace Event

/-- The ten fields as they are signed, one after the other. -/
def Body.signedTexts (b : Body) : List String :=
  [b.id, b.project, b.version, b.context, b.entity, b.event, b.source, b.params, b.accessToken,
    Decimal.ofInt b.createdAt.toInt]

theorem Body.text_signature (b : Body) :
    b.signature.text = Text.hex (Sha1.digest (b.signedTexts.flatMap Text.bytes)) := by
  have hbytes : b.canonicalBytes = b.signedTexts.flatMap Text.bytes := by
    simp only [canonicalBytes, canonicalText, Text.bytes_append, signedTexts, List.flatMap_cons,
      List.flatMap_nil, List.append_nil, List.append_assoc]
  rw [Body.signature, hbytes]
  rfl

theorem Body.verifies_iff {b : Body} {claimed : String} :
    b.verifies claimed = true ↔ claimed = b.signature.text := by
  rw [Body.verifies, Signature.matchesText]
  constructor
  · intro h
    split at h
    · exact absurd h Bool.false_ne_true
    · exact (beq_iff_eq.mp h).symm
  · intro h
    have hne : claimed ≠ "" := h ▸ Signature.text_ne_empty _ _
    rw [if_neg hne, h]
    exact beq_self_eq_true _

theorem verifies_iff {e : Event} : e.verifies = true ↔ e.sign = e.toBody.signature.text := by
  rw [verifies, ← Body.verifies_iff]
  constructor
  · intro h
    split at h
    · exact absurd h Bool.false_ne_true
    · exact h
  · intro h
    have hne : e.sign ≠ "" := Body.verifies_iff.mp h ▸ Signature.text_ne_empty _ _
    rw [if_neg hne]
    exact h

/-! ## Sealed events -/

theorem verifies_signed (e : Event) : e.signed.verifies = true :=
  verifies_iff.mpr rfl

theorem isUnsigned_signed (e : Event) : e.signed.isUnsigned = false :=
  beq_eq_false_iff_ne.mpr (Signature.text_ne_empty _ _)

end Event

end EventSeal
