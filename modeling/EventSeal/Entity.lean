import EventSeal.Labels
import EventSeal.Record.Layout

/-!
# Entities

The record of what events act on. An entity is deleted softly: the time of
deletion is noted, and an entity without one is live. A deletion at time
zero is none.
-/

namespace EventSeal

open Json

structure Entity where
  id : Int64
  contextId : Int64
  name : String
  code : String
  description : String
  rules : Rules
  /-- milliseconds since the epoch, zero while live -/
  deletedAt : Int64
  deletedBy : String
  createdAt : Int64
  updatedAt : Int64
  createdBy : String
deriving DecidableEq

namespace Entity

def blank : Entity :=
  ⟨0, 0, "", "", "", .blank, 0, "", 0, 0, ""⟩

def isDeleted (e : Entity) : Bool :=
  e.deletedAt != 0

/-- Where the entity is stored within a context. -/
def tableName (e : Entity) (context : String) : String :=
  EventSeal.tableName context e.code

/-! ## Changes -/

inductive Edit
  | delete (actor : String) (time : Int64)
  | restore (time : Int64)
  | recode (code : String)
deriving DecidableEq

def edit (e : Entity) : Edit → Entity
  | .delete actor time => { e with deletedAt := time, deletedBy := actor, updatedAt := time }
  | .restore time => { e with deletedAt := 0, deletedBy := "", updatedAt := time }
  | .recode code => { e with code := code }

def editAll (e : Entity) (edits : List Edit) : Entity :=
  edits.foldl edit e

/-! ## On the wire -/

def layout : Layout Entity where
  blank := blank
  columns := [
    ⟨"id", .integer, Entity.id, fun n e => { e with id := n }⟩,
    ⟨"contextId", .integer, contextId, fun n e => { e with contextId := n }⟩,
    ⟨"name", .text, name, fun s e => { e with name := s }⟩,
    ⟨"code", .text, code, fun s e => { e with code := s }⟩,
    ⟨"description", .text, description, fun s e => { e with description := s }⟩,
    ⟨"rules", .rules, rules, fun r e => { e with rules := r }⟩,
    ⟨"deletedAt", .integer, deletedAt, fun n e => { e with deletedAt := n }⟩,
    ⟨"deletedBy", .text, deletedBy, fun s e => { e with deletedBy := s }⟩,
    ⟨"createdAt", .integer, createdAt, fun n e => { e with createdAt := n }⟩,
    ⟨"updatedAt", .integer, updatedAt, fun n e => { e with updatedAt := n }⟩,
    ⟨"createdBy", .text, createdBy, fun s e => { e with createdBy := s }⟩]

def ofBytes (bs : List UInt8) : Except Fault Entity :=
  layout.ofBytes bs

def ofText (s : String) : Except Fault Entity :=
  ofBytes (Text.bytes s)

def ofMembers (m : Members) : Entity :=
  layout.ofMembers m

def compact (e : Entity) : String :=
  layout.compact e

end Entity

end EventSeal
