import EventSeal.Json.Coercion
import EventSeal.Json.Printer

/-!
# Business rules

The rules attached to an entity. Three of their members are known and
hold texts; the others are carried through as they are. On the wire the
two kinds stand side by side in one object, so reading has to tell them
apart by key and writing puts them together again.

A known member that occurs twice is a fault, found when its key comes up
the second time. Another member that occurs twice keeps its last value.
-/

namespace EventSeal

open Json

structure Rules where
  id : String
  name : String
  context : String
  /-- the other members -/
  extra : Members
deriving DecidableEq

namespace Rules

def blank : Rules :=
  ⟨"", "", "", []⟩

def isKnown (key : String) : Bool :=
  key == "id" || key == "name" || key == "context"

def setKnown (r : Rules) (key s : String) : Rules :=
  if key = "id" then { r with id := s }
  else if key = "name" then { r with name := s }
  else { r with context := s }

def putExtra (r : Rules) (key : String) (v : Value) : Rules :=
  { r with extra := r.extra.put key v }

/-! ## Reading -/

/-- Reads on with the members before entered into `r`, of which `seen`
were known. -/
def readMembers (room : Nat) (seen : List String) (r : Rules) :
    List (Option String × Tree) → Except Fault Rules
  | [] => .ok r
  | (key, t) :: ms => do
      let k ← Tree.keyText key
      if isKnown k then
        if k ∈ seen then .error .mistyped
        else
          let s ← t.text
          readMembers room (k :: seen) (r.setKnown k s) ms
      else
        let v ← t.value room
        readMembers room seen (r.putExtra k v) ms

/-- Reads rules where so many more containers may be opened. -/
def read (room : Nat) : Tree → Except Fault Rules
  | .object ms cut =>
      match room with
      | 0 => .error .malformed
      | k + 1 => do
          let r ← readMembers k [] blank ms
          closing Gap.fault cut
          return r
  | t => .error t.mistype

def ofMembers (m : Members) : Rules where
  id := coerceText (m.get? "id")
  name := coerceText (m.get? "name")
  context := coerceText (m.get? "context")
  extra := m.filter fun p => !isKnown p.1

def ofBytes (bs : List UInt8) : Except Fault Rules :=
  (Document.ofBytes bs).read (read Tree.nestingLimit)

/-! ## Writing -/

def members (r : Rules) : List (String × Value) :=
  [("id", .text r.id), ("name", .text r.name), ("context", .text r.context)] ++ r.extra

def compact (r : Rules) : String :=
  (Value.object r.members).compact

end Rules

end EventSeal
