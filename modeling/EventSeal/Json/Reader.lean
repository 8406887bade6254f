import EventSeal.Json.Tree
import EventSeal.Json.Value

/-!
# Reading trees

Readers go through a tree from left to right and stop at the first
problem. There are three kinds of problem: the text ended where more was
needed, the text is malformed, or it is JSON so far but of the wrong type
or range for its place.

A value that nobody reads is only checked for being JSON (`skip`). It may
nest to any depth, hold a string that denotes no text or a number beyond
every range. A value that is read as such (`value`) may not, and the
containers open at one time are limited.

Where a scalar of some type is wanted and a scalar of another type
stands, the latter is read to its end first; a container is the wrong type
from its first octet on.
-/

namespace EventSeal.Json

inductive Fault
  | ended
  | malformed
  | mistyped
deriving DecidableEq

namespace Gap

/-- In place of a value, or of a mark, that is wanted. -/
def fault : Gap → Fault
  | .ended | .inWord | .inNumber => .ended
  | .inString unpaired => if unpaired then .malformed else .ended
  | .stray => .malformed

/-- In place of a value that is skipped. Strings are not asked for a
text there, and a numeral has to be whole. -/
def skippedFault : Gap → Fault
  | .ended | .inWord | .inString _ => .ended
  | .inNumber | .stray => .malformed

end Gap

/-- The end of a container that may be cut off. -/
def closing (fault : Gap → Fault) : Option Gap → Except Fault Unit
  | none => .ok ()
  | some g => .error (fault g)

namespace Tree

/-! ## Skipping -/

mutual

def skip : Tree → Except Fault Unit
  | .null | .bool _ | .number _ | .string _ => .ok ()
  | .array items cut => do skipItems items; closing Gap.skippedFault cut
  | .object members cut => do skipMembers members; closing Gap.skippedFault cut
  | .gap g => .error g.skippedFault

def skipItems : List Tree → Except Fault Unit
  | [] => .ok ()
  | t :: ts => do t.skip; skipItems ts

def skipMembers : List (Option String × Tree) → Except Fault Unit
  | [] => .ok ()
  | (_, t) :: ms => do t.skip; skipMembers ms

end

/-! ## Values -/

/-- How many containers may be open at one time. -/
def nestingLimit : Nat := 127

/-- A key that is looked at. -/
def keyText : Option String → Except Fault String
  | some k => .ok k
  | none => .error .malformed

mutual

/-- Reads any value, with room for so many open containers. -/
def value (room : Nat) : Tree → Except Fault Value
  | .null => .ok .null
  | .bool b => .ok (.bool b)
  | .number n =>
      match n.number? with
      | some x => .ok (.number x)
      | none => .error .malformed
  | .string (some s) => .ok (.text s)
  | .string none => .error .malformed
  | .array items cut =>
      match room with
      | 0 => .error .malformed
      | k + 1 => do
          let vs ← valueItems k items
          closing Gap.fault cut
          return .array vs
  | .object members cut =>
      match room with
      | 0 => .error .malformed
      | k + 1 => do
          let ms ← valueMembers k [] members
          closing Gap.fault cut
          return .object ms
  | .gap g => .error g.fault

def valueItems (room : Nat) : List Tree → Except Fault (List Value)
  | [] => .ok []
  | t :: ts => do
      let v ← t.value room
      let vs ← valueItems room ts
      return v :: vs

/-- Enters the members into `m`. -/
def valueMembers (room : Nat) (m : Members) : List (Option String × Tree) → Except Fault Members
  | [] => .ok m
  | (key, t) :: ms => do
      let k ← keyText key
      let v ← t.value room
      valueMembers room (m.put k v) ms

end

/-! ## Scalars -/

/-- The problem with a value where another type is wanted. -/
def mistype : Tree → Fault
  | .null | .bool _ | .array _ _ | .object _ _ => .mistyped
  | .number n => if n.number?.isSome then .mistyped else .malformed
  | .string text => if text.isSome then .mistyped else .malformed
  | .gap g => g.fault

def text : Tree → Except Fault String
  | .string (some s) => .ok s
  | t => .error t.mistype

def flag : Tree → Except Fault Bool
  | .bool b => .ok b
  | t => .error t.mistype

def int64 : Tree → Except Fault Int64
  | .number n =>
      match n.int64? with
      | some i => .ok i
      | none => .error (mistype (.number n))
  | t => .error t.mistype

def int32 : Tree → Except Fault Int32
  | .number n =>
      match n.int32? with
      | some i => .ok i
      | none => .error (mistype (.number n))
  | t => .error t.mistype

end Tree

/-! ## Whole texts -/

namespace Document

/-- Reads the root and accepts nothing after it. -/
def read (reader : Tree → Except Fault α) (d : Document) : Except Fault α := do
  let a ← reader d.root
  if d.trailing then .error .malformed else .ok a

end Document

/-- Reads a text that is one JSON value. -/
def Value.ofBytes (bs : List UInt8) : Except Fault Value :=
  (Document.ofBytes bs).read (Tree.value Tree.nestingLimit)

def Value.ofText (s : String) : Except Fault Value :=
  Value.ofBytes (Text.bytes s)

end EventSeal.Json
