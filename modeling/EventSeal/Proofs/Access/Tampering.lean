import EventSeal.Gate
import EventSeal.Proofs.Event.Canonical

/-!
# Tampering with a sealed event

A seal covers the digest of the canonical text, and that text does not fix
the body. So there are two ways for a changed event to keep its seal: the
change leaves the canonical text as it was, or the texts differ and SHA-1
sends both to one digest (`Collides`).

The first way needs text that moves between fields. At least two fields
change then, and some text changes its number of octets
(`exists_two_of_canonicalBytes_eq`, `exists_length_ne_of_canonicalBytes_eq`).
A change of one field, or one that keeps the lengths of the texts, is left
with the second way: the seal of the event fails, and with it the gate,
exactly if the two texts do not collide (`tampering_breaks_seal`).

Nothing is assumed about SHA-1. A collision stands in the statement as the
case in which a changed event is admitted.
-/

namespace EventSeal

namespace Event.Body

variable {a b : Body}

/-! ## Bodies with one canonical text -/

theorem exists_two_of_canonicalBytes_eq (hne : a ≠ b) (h : a.canonicalBytes = b.canonicalBytes) :
    ∃ f g, f ≠ g ∧ ¬ a.Agrees b f ∧ ¬ a.Agrees b g := by
  obtain ⟨f, hf⟩ : ∃ f, ¬ a.Agrees b f := by
    by_contra hall
    push Not at hall
    exact hne (ext_agrees hall)
  by_contra htwo
  push Not at htwo
  have hothers : ∀ g, g ≠ f → a.Agrees b g := fun g hg => htwo f g (Ne.symm hg) hf
  exact hne (eq_of_agrees_elsewhere hothers h)

theorem exists_length_ne_of_canonicalBytes_eq (hne : a ≠ b)
    (h : a.canonicalBytes = b.canonicalBytes) :
    ∃ p, (Text.bytes (a.get p)).length ≠ (Text.bytes (b.get p)).length := by
  by_contra hall
  push Not at hall
  exact hne (eq_of_sameLengths hall h)

/-- A change that moves no text from field to field: it is made in one field,
or it keeps the number of octets of every text. -/
def Confined (a b : Body) : Prop :=
  (∃ f, ∀ g, g ≠ f → a.Agrees b g) ∨ a.SameLengths b

theorem Confined.eq (hab : a.Confined b) (h : a.canonicalBytes = b.canonicalBytes) : a = b := by
  rcases hab with ⟨f, hf⟩ | hlen
  · exact eq_of_agrees_elsewhere hf h
  · exact eq_of_sameLengths hlen h

/-! ## Signatures -/

theorem signature_text_eq_iff : a.signature.text = b.signature.text ↔
    Sha1.digest a.canonicalBytes = Sha1.digest b.canonicalBytes := by
  constructor
  · intro h
    exact Text.hex_injective h
  · intro h
    exact congrArg Text.hex h

/-- The canonical texts are different inputs with one SHA-1 digest. -/
def Collides (a b : Body) : Prop :=
  a.canonicalBytes ≠ b.canonicalBytes
    ∧ Sha1.digest a.canonicalBytes = Sha1.digest b.canonicalBytes

theorem Confined.signature_text_eq_iff_collides (hab : a.Confined b) (hne : a ≠ b) :
    a.signature.text = b.signature.text ↔ a.Collides b := by
  rw [signature_text_eq_iff, Collides]
  exact (and_iff_right fun h => hne (hab.eq h)).symm

end Event.Body

/-! ## What becomes of a changed event -/

theorem Gate.check_eq_badSignature_iff {role : Role} {required : Tier} {event : Event}
    {entity : Entity} {version : Version} :
    Gate.check role required event entity version = .error .badSignature ↔
      event.verifies = false := by
  have hverifies : event.verifies = event.toBody.verifies event.sign := by
    rw [Bool.eq_iff_iff, Event.verifies_iff, Event.Body.verifies_iff]
  rw [hverifies, Gate.check]
  split
  · next h => exact iff_of_true rfl h
  · next h =>
    refine iff_of_false ?_ h
    -- no later test gives that reason
    repeat' split
    all_goals nofun

namespace Event

variable {e e' : Event}

theorem verifies_iff_collides (hsign : e'.sign = e.signed.sign) (hne : e.toBody ≠ e'.toBody)
    (hconf : e.toBody.Confined e'.toBody) :
    e'.verifies = true ↔ e.toBody.Collides e'.toBody := by
  rw [verifies_iff, hsign, ← hconf.signature_text_eq_iff_collides hne]
  rfl

/-- Different bodies with one canonical text differ in two fields and in the
length of a text. So an event that was sealed and then changed in one
field, or in any fields with the texts as long as before, is refused for
its seal unless the old canonical text and the new one collide. -/
theorem tampering_breaks_seal :
    (∀ a b : Body, a ≠ b → a.canonicalBytes = b.canonicalBytes →
        (∃ f g, f ≠ g ∧ ¬ a.Agrees b f ∧ ¬ a.Agrees b g)
          ∧ ∃ p, (Text.bytes (a.get p)).length ≠ (Text.bytes (b.get p)).length)
      ∧ ∀ e e' : Event, e'.sign = e.signed.sign → e.toBody ≠ e'.toBody →
          e.toBody.Confined e'.toBody →
          (e'.verifies = false ↔ ¬ e.toBody.Collides e'.toBody)
            ∧ ∀ (role : Role) (required : Tier) (entity : Entity) (version : Version),
                Gate.check role required e' entity version = .error .badSignature ↔
                  ¬ e.toBody.Collides e'.toBody := by
  refine ⟨fun a b hne h => ?_, fun e e' hsign hne hconf => ?_⟩
  · exact ⟨Body.exists_two_of_canonicalBytes_eq hne h,
      Body.exists_length_ne_of_canonicalBytes_eq hne h⟩
  · have hbroken : e'.verifies = false ↔ ¬ e.toBody.Collides e'.toBody := by
      rw [← verifies_iff_collides hsign hne hconf, Bool.not_eq_true]
    refine ⟨hbroken, fun role required entity version => ?_⟩
    rw [Gate.check_eq_badSignature_iff, hbroken]

/-- The first octet of the project is the last one of the id. -/
def shiftedBody : Body :=
  { Body.blank with id := "a", project := "b" }

def unshiftedBody : Body :=
  { Body.blank with id := "ab" }

def soundEvent : Event :=
  ({ Body.blank with id := "x", params := "p" } : Body).withSign ""

/-- The sound event under its seal, with a longer text in one field. -/
def extendedEvent : Event :=
  ({ soundEvent.toBody with params := "pp" } : Body).withSign soundEvent.signed.sign

/-- The sound event under its seal, with other texts of the same lengths and
another time. -/
def replacedEvent : Event :=
  ({ Body.blank with id := "y", params := "q", createdAt := -12 } : Body).withSign
    soundEvent.signed.sign

theorem tampering_with_soundEvent :
    (∃ p, (Text.bytes (shiftedBody.get p)).length ≠ (Text.bytes (unshiftedBody.get p)).length)
      ∧ (∃ f g, f ≠ g ∧ ¬ shiftedBody.Agrees unshiftedBody f
          ∧ ¬ shiftedBody.Agrees unshiftedBody g)
      ∧ extendedEvent.verifies = false
      ∧ Gate.check .superuser .normal replacedEvent Entity.blank Version.blank
          = .error .badSignature := by
  have hshifted := tampering_breaks_seal.1 shiftedBody unshiftedBody (by decide) (by decide)
  have hextended := tampering_breaks_seal.2 soundEvent extendedEvent rfl (by decide) <| by
    refine Or.inl ⟨.part .params, fun g hg => ?_⟩
    cases g with
    | createdAt => rfl
    | part p =>
        cases p with
        | params => exact absurd rfl hg
        | _ => rfl
  have hreplaced := tampering_breaks_seal.2 soundEvent replacedEvent rfl (by decide) <| by
    refine Or.inr fun p => ?_
    cases p <;> rfl
  refine ⟨hshifted.2, hshifted.1, hextended.1.mpr fun hcollides => ?_,
    (hreplaced.2 _ _ _ _).mpr fun hcollides => ?_⟩
  · have hdigests : Sha1.digest soundEvent.canonicalBytes
        ≠ Sha1.digest extendedEvent.canonicalBytes := by decide +kernel
    exact hdigests hcollides.2
  · have hdigests : Sha1.digest soundEvent.canonicalBytes
        ≠ Sha1.digest replacedEvent.canonicalBytes := by decide +kernel
    exact hdigests hcollides.2

end Event

end EventSeal
