import EventSeal.Record.Rules

/-!
# Record layouts

Events, entities and versions are records of named fields, and each field
holds a text, an integer, a flag or rules. A layout lists the fields of a
record in order, with the name each has on the wire. Reading, lenient
loading and writing are then one definition each, for all records.

Read strictly, a record is an object or an array. In an object a field may
be absent and has its zero value then, a known key may not repeat, and the
values of unknown keys are skipped. In an array the fields stand in order,
and those at the end may be absent.
-/

namespace EventSeal

open Json

/-- What a field holds. -/
inductive Kind
  | text
  | integer
  | flag
  | rules
deriving DecidableEq

namespace Kind

abbrev Content : Kind → Type
  | .text => String
  | .integer => Int64
  | .flag => Bool
  | .rules => Rules

/-- Reads a field where so many more containers may be opened. -/
def read (room : Nat) : (k : Kind) → Tree → Except Fault k.Content
  | .text, t => t.text
  | .integer, t => t.int64
  | .flag, t => t.flag
  | .rules, t => Rules.read room t

def coerce : (k : Kind) → Option Value → k.Content
  | .text, v => coerceText v
  | .integer, v => coerceInt64 v
  | .flag, v => coerceFlag v
  | .rules, v => Rules.ofMembers (coerceMembers v)

def write : (k : Kind) → k.Content → Value
  | .text, s => .text s
  | .integer, n => .number (.ofInt64 n)
  | .flag, b => .bool b
  | .rules, r => .object r.members

end Kind

/-- A field of `R`: its name on the wire and its place in the record. -/
structure Column (R : Type) where
  name : String
  kind : Kind
  get : R → kind.Content
  set : kind.Content → R → R

structure Layout (R : Type) where
  /-- the record of zero values -/
  blank : R
  columns : List (Column R)

namespace Layout

variable {R : Type}

def column? (cols : List (Column R)) (key : String) : Option (Column R) :=
  cols.find? (·.name == key)

/-! ## Strict reading -/

/-- Reads on with the members before entered into `r`; `seen` are the
names of those that were fields. -/
def readMembers (cols : List (Column R)) (room : Nat) (seen : List String) (r : R) :
    List (Option String × Tree) → Except Fault R
  | [] => .ok r
  | (key, t) :: ms => do
      let k ← Tree.keyText key
      match column? cols k with
      | none =>
          t.skip
          readMembers cols room seen r ms
      | some c =>
          if k ∈ seen then .error .mistyped
          else
            let x ← c.kind.read room t
            readMembers cols room (k :: seen) (c.set x r) ms

/-- Reads the items in the order of the columns that are left. -/
def readItems (room : Nat) (r : R) : List (Column R) → List Tree → Except Fault R
  | _, [] => .ok r
  | [], _ :: _ => .error .malformed
  | c :: cols, t :: ts => do
      let x ← c.kind.read room t
      readItems room (c.set x r) cols ts

def read (l : Layout R) (room : Nat) : Tree → Except Fault R
  | .object ms cut =>
      match room with
      | 0 => .error .malformed
      | k + 1 => do
          let r ← readMembers l.columns k [] l.blank ms
          closing Gap.fault cut
          return r
  | .array ts cut =>
      match room with
      | 0 => .error .malformed
      | k + 1 => do
          let r ← readItems k l.blank l.columns ts
          closing Gap.fault cut
          return r
  | t => .error t.mistype

def ofBytes (l : Layout R) (bs : List UInt8) : Except Fault R :=
  (Document.ofBytes bs).read (l.read Tree.nestingLimit)

/-! ## Lenient loading -/

def ofMembers (l : Layout R) (m : Members) : R :=
  l.columns.foldl (fun r c => c.set (c.kind.coerce (m.get? c.name)) r) l.blank

/-! ## Writing -/

/-- The fields in order, under their names. -/
def members (l : Layout R) (r : R) : List (String × Value) :=
  l.columns.map fun c => (c.name, c.kind.write (c.get r))

def compact (l : Layout R) (r : R) : String :=
  (Value.object (l.members r)).compact

/-- The record as a value, the fields sorted by name. -/
def value (l : Layout R) (r : R) : Value :=
  .object (Members.ofList (l.members r))

end Layout

end EventSeal
