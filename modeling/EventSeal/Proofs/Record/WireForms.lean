import EventSeal.Event.Envelope
import EventSeal.Proofs.Record.Rewriting
import EventSeal.Version

/-!
# Events and versions survive their wire form

The fields of an event and of a version are texts, integers and flags, so
both kinds of record come back from their compact text as they were. An
event read from its text also keeps that text as its wire form, which is
therefore the octets it would be written as.

It follows that the compact text says all there is to say about an event:
equal texts, equal events (`compact_injective`).
-/

namespace EventSeal

open Json

namespace Event

theorem lawful_layout : layout.Lawful where
  nodup_names := by decide
  foldl_set e := by
    -- taken apart first: otherwise every field is computed through all the updates
    obtain ⟨⟨⟩, _⟩ := e
    rfl

theorem kind_ne_rules_of_mem_layout : ∀ c ∈ layout.columns, c.kind ≠ .rules := by
  decide

theorem ofBytes_compact (e : Event) : ofBytes (Text.bytes e.compact) = .ok e :=
  Layout.ofBytes_compact lawful_layout kind_ne_rules_of_mem_layout e

theorem isIntegral_members (e : Event) : (Value.object (layout.members e)).isIntegral = true :=
  Layout.isIntegral_members fun c hc =>
    Kind.isIntegral_write_of_ne_rules (kind_ne_rules_of_mem_layout c hc) _

theorem compact_injective {d e : Event} (h : d.compact = e.compact) : d = e := by
  have hd := ofBytes_compact d
  rw [h, ofBytes_compact e] at hd
  exact (Except.ok.inj hd).symm

end Event

theorem Envelope.ofBytes_compact (e : Event) :
    Envelope.ofBytes (Text.bytes e.compact) = .ok ⟨e, some (Text.bytes e.compact)⟩ := by
  rw [Envelope.ofBytes, Event.ofBytes_compact]
  rfl

namespace Version

theorem lawful_layout : layout.Lawful where
  nodup_names := by decide
  foldl_set _ := rfl

theorem kind_ne_rules_of_mem_layout : ∀ c ∈ layout.columns, c.kind ≠ .rules := by
  decide

theorem ofText_compact (v : Version) : ofText v.compact = .ok v :=
  Layout.ofBytes_compact lawful_layout kind_ne_rules_of_mem_layout v

end Version

/-- Strict reading undoes writing, for events with their wire form and for
versions, and the text of an event determines it. -/
theorem strict_reading_undoes_writing :
    (∀ v : Envelope, ∃ w : Envelope,
        Envelope.ofBytes (Text.bytes v.event.compact) = .ok w ∧ w.event = v.event
          ∧ w.wireForm = Text.bytes v.event.compact ∧ w.event.compact = v.event.compact)
      ∧ (∀ v w : Envelope, v.event = w.event ↔ v.event.compact = w.event.compact)
      ∧ ∀ v : Version, ∃ w : Version,
          Version.ofText v.compact = .ok w ∧ w = v ∧ w.compact = v.compact := by
  refine ⟨fun v => ?_, fun v w => ?_, fun v => ?_⟩
  · exact ⟨_, Envelope.ofBytes_compact v.event, rfl, rfl, rfl⟩
  · exact ⟨fun h => by rw [h], Event.compact_injective⟩
  · exact ⟨v, Version.ofText_compact v, rfl, rfl⟩

end EventSeal
