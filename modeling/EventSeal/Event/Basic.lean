import EventSeal.Labels
import EventSeal.Record.Layout

/-!
# Events

What happened, where, and who says so. The body of an event is what its
signature covers: nine texts and a time. The signature itself is a text
beside the body, empty until the event is signed.

The nine texts are reached by name (`Body.get`, `Body.set`), so that what
holds for each of them is said once.
-/

namespace EventSeal

open Json

structure Event.Body where
  id : String
  project : String
  version : String
  context : String
  entity : String
  event : String
  source : String
  params : String
  accessToken : String
  /-- milliseconds since the epoch -/
  createdAt : Int64
deriving DecidableEq

structure Event extends Event.Body where
  sign : String
deriving DecidableEq

namespace Event

/-- The texts of a body, in the order in which they are signed and written. -/
inductive Part
  | id
  | project
  | version
  | context
  | entity
  | event
  | source
  | params
  | accessToken
deriving DecidableEq

namespace Part

def all : List Part :=
  [id, project, version, context, entity, event, source, params, accessToken]

theorem mem_all (p : Part) : p ∈ all := by
  cases p <;> decide

def name : Part → String
  | id => "id"
  | project => "project"
  | version => "version"
  | context => "context"
  | entity => "entity"
  | event => "event"
  | source => "source"
  | params => "params"
  | accessToken => "accessToken"

end Part

namespace Body

def blank : Body :=
  ⟨"", "", "", "", "", "", "", "", "", 0⟩

def get (b : Body) : Part → String
  | .id => b.id
  | .project => b.project
  | .version => b.version
  | .context => b.context
  | .entity => b.entity
  | .event => b.event
  | .source => b.source
  | .params => b.params
  | .accessToken => b.accessToken

def set (b : Body) (p : Part) (s : String) : Body :=
  match p with
  | .id => { b with id := s }
  | .project => { b with project := s }
  | .version => { b with version := s }
  | .context => { b with context := s }
  | .entity => { b with entity := s }
  | .event => { b with event := s }
  | .source => { b with source := s }
  | .params => { b with params := s }
  | .accessToken => { b with accessToken := s }

theorem get_set (b : Body) (p q : Part) (s : String) :
    (b.set p s).get q = if q = p then s else b.get q := by
  cases p <;> cases q <;> rfl

@[simp] theorem createdAt_set (b : Body) (p : Part) (s : String) :
    (b.set p s).createdAt = b.createdAt := by
  cases p <;> rfl

/-- A body is its nine texts and its time. -/
theorem ext_get {a b : Body} (h : ∀ p, a.get p = b.get p)
    (ht : a.createdAt = b.createdAt) : a = b := by
  obtain ⟨⟩ := a
  obtain ⟨⟩ := b
  have h₁ := h .id
  have h₂ := h .project
  have h₃ := h .version
  have h₄ := h .context
  have h₅ := h .entity
  have h₆ := h .event
  have h₇ := h .source
  have h₈ := h .params
  have h₉ := h .accessToken
  simp_all [get]

def coordinates (b : Body) : Coordinates :=
  ⟨b.project, b.context, b.entity, b.event, b.version⟩

end Body

def blank : Event :=
  { Body.blank with sign := "" }

def setPart (e : Event) (p : Part) (s : String) : Event :=
  { e with toBody := e.toBody.set p s }

/-! ## On the wire -/

def partColumn (p : Part) : Column Event where
  name := p.name
  kind := .text
  get e := e.toBody.get p
  set s e := e.setPart p s

def createdAtColumn : Column Event where
  name := "createdAt"
  kind := .integer
  get e := e.createdAt
  set n e := { e with createdAt := n }

def signColumn : Column Event where
  name := "sign"
  kind := .text
  get e := e.sign
  set s e := { e with sign := s }

def layout : Layout Event where
  blank := blank
  columns := Part.all.map partColumn ++ [createdAtColumn, signColumn]

def ofBytes (bs : List UInt8) : Except Fault Event :=
  layout.ofBytes bs

def ofText (s : String) : Except Fault Event :=
  ofBytes (Text.bytes s)

def ofMembers (m : Members) : Event :=
  layout.ofMembers m

def compact (e : Event) : String :=
  layout.compact e

end Event

end EventSeal
