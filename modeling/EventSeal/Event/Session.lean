import EventSeal.Event.Envelope

/-!
# Sessions

A run of operations on events in named slots. A slot without an event
reads as an absent event. An operation that fails leaves every slot as it
is.
-/

namespace EventSeal

open Json

/-- A change of one field. -/
inductive Event.Assignment
  | part (p : Event.Part) (s : String)
  | createdAt (n : Int64)
  | sign (s : String)

def Event.assign (e : Event) : Event.Assignment → Event
  | .part p s => e.setPart p s
  | .createdAt n => { e with createdAt := n }
  | .sign s => { e with sign := s }

/-- The slots and what they hold. -/
def Session := String → Option Envelope

namespace Session

def empty : Session := fun _ => none

def get (s : Session) (slot : String) : Option Envelope := s slot

def put (s : Session) (slot : String) (v : Option Envelope) : Session :=
  fun t => if t = slot then v else s t

theorem get_put (s : Session) (slot t : String) (v : Option Envelope) :
    (s.put slot v).get t = if t = slot then v else s.get t := rfl

def event (s : Session) (slot : String) : Option Event :=
  (s.get slot).map (·.event)

inductive Step
  | load (slot : String) (bytes : List UInt8)
  | loadMembers (slot : String) (m : Members)
  | build (slot : String) (settings : List Event.Setting) (signed : Bool)
  | assign (slot : String) (a : Event.Assignment)
  | sign (slot : String)
  | drop (slot : String)
  | copy (slot target : String)
  | verify (slot : String)
  | signature (slot : String)
  | compute (slot : String)
  | write (slot : String)
  | wire (slot : String)
  | equal (slot other : String)
  | view (slot : String)

inductive Reply
  | done
  /-- there is no event to answer for -/
  | absent
  | unreadable (fault : Fault)
  | flag (b : Bool)
  | text (s : String)
  | octets (bs : List UInt8)
  | signature (s : Except Event.InvalidSignature Signature)
  | view (e : Option Event)

def step (s : Session) : Step → Session × Reply
  | .load slot bs =>
      match Envelope.ofBytes bs with
      | .ok v => (s.put slot (some v), .done)
      | .error f => (s, .unreadable f)
  | .loadMembers slot m => (s.put slot (some (.ofMembers m)), .done)
  | .build slot settings signed =>
      let e := if signed then Event.buildSigned settings else Event.build settings
      (s.put slot (some (.ofEvent e)), .done)
  | .assign slot a =>
      match s.get slot with
      | some v => (s.put slot (some (v.modify (·.assign a))), .done)
      | none => (s, .absent)
  | .sign slot => (s.put slot ((s.get slot).map (·.modify Event.signed)), .done)
  | .drop slot => (s.put slot none, .done)
  | .copy slot target => (s.put target ((s.get slot).map Envelope.copy), .done)
  | .verify slot => (s, .flag (OptionalEvent.verifies (s.event slot)))
  | .signature slot =>
      (s, match s.event slot with
        | some e => .signature e.signature
        | none => .absent)
  | .compute slot =>
      (s, match s.event slot with
        | some e => .text e.toBody.signature.text
        | none => .absent)
  | .write slot =>
      (s, match s.event slot with
        | some e => .text e.compact
        | none => .absent)
  | .wire slot =>
      (s.put slot ((s.get slot).map Envelope.settled),
        .octets (((s.get slot).map Envelope.wireForm).getD []))
  | .equal slot other => (s, .flag (s.event slot == s.event other))
  | .view slot => (s, .view (s.event slot))

/-- The replies in order, and the slots at the end. -/
def run (s : Session) : List Step → Session × List Reply
  | [] => (s, [])
  | t :: ts =>
      let p := s.step t
      let q := run p.1 ts
      (q.1, p.2 :: q.2)

end Session

end EventSeal
