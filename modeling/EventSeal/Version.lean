import EventSeal.Record.Layout
import EventSeal.Text.Quoted
import EventSeal.Text.Split

/-!
# Versions

A deployed version of a project. Its label is its three numbers with
points between them, and events name the version they were made for by
that label. Matching is exact; reading a label back (`readLabel`) is more
generous about leading zeros and knows no negative numbers.
-/

namespace EventSeal

open Json

structure Version where
  id : Int64
  project : String
  locked : Bool
  online : Bool
  major : Int64
  minor : Int64
  patch : Int64
  note : String
  createdAt : Int64
  updatedAt : Int64
  createdBy : String
deriving DecidableEq

namespace Version

def blank : Version :=
  ⟨0, "", false, false, 0, 0, 0, "", 0, 0, ""⟩

/-! ## Labels -/

/-- The numbers a version is known by. -/
structure Numbers where
  major : Int64
  minor : Int64
  patch : Int64
deriving DecidableEq

namespace Numbers

def label (n : Numbers) : String :=
  Decimal.ofInt n.major.toInt ++ "." ++ Decimal.ofInt n.minor.toInt ++ "."
    ++ Decimal.ofInt n.patch.toInt

/-- By the first number that differs. -/
def compare (m n : Numbers) : Ordering :=
  (Ord.compare m.major.toInt n.major.toInt).then
    ((Ord.compare m.minor.toInt n.minor.toInt).then (Ord.compare m.patch.toInt n.patch.toInt))

end Numbers

def numbers (v : Version) : Numbers :=
  ⟨v.major, v.minor, v.patch⟩

def label (v : Version) : String :=
  v.numbers.label

def matchesLabel (v : Version) (label : String) : Bool :=
  v.label == label

def compare (v w : Version) : Ordering :=
  v.numbers.compare w.numbers

/-- A text that is no label. -/
structure InvalidLabel where
  label : String
deriving DecidableEq

def InvalidLabel.message (e : InvalidLabel) : String :=
  "invalid version label: " ++ Text.quoted e.label

/-- A part of a label: digits only, worth at most the largest integer. -/
def readPart? (cs : List Char) : Option Int64 :=
  match Decimal.value? cs with
  | some n => int64OfInt? n
  | none => none

/-- Exactly three parts. -/
def readLabel (s : String) : Except InvalidLabel Numbers :=
  match (Text.splitOn '.' s.toList).map readPart? with
  | [some a, some b, some c] => .ok ⟨a, b, c⟩
  | _ => .error ⟨s⟩

/-! ## Bumping -/

inductive Component
  | major
  | minor
  | patch
deriving DecidableEq

/-- The label of a version that has no next one. -/
structure Overflow where
  label : String
deriving DecidableEq

def Overflow.message (e : Overflow) : String :=
  "version " ++ e.label ++ " cannot be bumped further"

def next? (n : Int64) : Option Int64 :=
  int64OfInt? (n.toInt + 1)

/-- One component goes up by one and those below it to zero. -/
def Numbers.bump? (n : Numbers) : Component → Option Numbers
  | .major => (next? n.major).map fun k => ⟨k, 0, 0⟩
  | .minor => (next? n.minor).map fun k => ⟨n.major, k, 0⟩
  | .patch => (next? n.patch).map fun k => ⟨n.major, n.minor, k⟩

/-- A draft of the next version. It belongs to the same project and is
blank otherwise. -/
def bump (v : Version) (c : Component) : Except Overflow Version :=
  match v.numbers.bump? c with
  | some n =>
      .ok { blank with
        project := v.project
        major := n.major
        minor := n.minor
        patch := n.patch }
  | none => .error ⟨v.label⟩

/-- Where no next version exists the present one stays. -/
def bumpOrStay (v : Version) (c : Component) : Version :=
  match v.bump c with
  | .ok w => w
  | .error _ => v

def bumpAll (v : Version) (cs : List Component) : Version :=
  cs.foldl bumpOrStay v

/-! ## On the wire -/

def layout : Layout Version where
  blank := blank
  columns := [
    ⟨"id", .integer, Version.id, fun n v => { v with id := n }⟩,
    ⟨"project", .text, project, fun s v => { v with project := s }⟩,
    ⟨"locked", .flag, locked, fun b v => { v with locked := b }⟩,
    ⟨"online", .flag, online, fun b v => { v with online := b }⟩,
    ⟨"major", .integer, major, fun n v => { v with major := n }⟩,
    ⟨"minor", .integer, minor, fun n v => { v with minor := n }⟩,
    ⟨"patch", .integer, patch, fun n v => { v with patch := n }⟩,
    ⟨"note", .text, note, fun s v => { v with note := s }⟩,
    ⟨"createdAt", .integer, createdAt, fun n v => { v with createdAt := n }⟩,
    ⟨"updatedAt", .integer, updatedAt, fun n v => { v with updatedAt := n }⟩,
    ⟨"createdBy", .text, createdBy, fun s v => { v with createdBy := s }⟩]

def ofBytes (bs : List UInt8) : Except Fault Version :=
  layout.ofBytes bs

def ofText (s : String) : Except Fault Version :=
  ofBytes (Text.bytes s)

def ofMembers (m : Members) : Version :=
  layout.ofMembers m

def compact (v : Version) : String :=
  layout.compact v

end Version

end EventSeal
