import EventSeal.Event.Builder

/-!
# Envelopes

An event together with its wire form: the octets it came as, verbatim, or
else its first written form. The wire form is kept once it is known and
does not follow later changes of the fields. It is no part of the event:
two envelopes with equal events are the same event, and a copy starts
without it.
-/

namespace EventSeal

open Json

structure Envelope where
  event : Event
  /-- the wire form, once it is known -/
  wire : Option (List UInt8)
deriving DecidableEq

namespace Envelope

def ofEvent (e : Event) : Envelope :=
  ⟨e, none⟩

def ofBytes (bs : List UInt8) : Except Fault Envelope := do
  let e ← Event.ofBytes bs
  return ⟨e, some bs⟩

def ofMembers (m : Members) : Envelope :=
  ofEvent (Event.ofMembers m)

def wireForm (v : Envelope) : List UInt8 :=
  v.wire.getD (Text.bytes v.event.compact)

/-- The envelope once its wire form has been asked for. -/
def settled (v : Envelope) : Envelope :=
  { v with wire := some v.wireForm }

def copy (v : Envelope) : Envelope :=
  ofEvent v.event

def modify (f : Event → Event) (v : Envelope) : Envelope :=
  { v with event := f v.event }

@[simp] theorem wireForm_settled (v : Envelope) : v.settled.wireForm = v.wireForm := rfl

@[simp] theorem event_settled (v : Envelope) : v.settled.event = v.event := rfl

end Envelope

end EventSeal
