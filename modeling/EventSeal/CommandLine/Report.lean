import EventSeal.Event.Seal
import EventSeal.Json.Printer
import EventSeal.Text.Split

/-!
# Verification reports

A file of events has one event a line. The report has a row for every line
that is not blank, with the line's own number, so that a row depends on
its line and on nothing else in the file.
-/

namespace EventSeal

open Json

inductive Verdict
  | ok
  | unsigned
  | tampered
  /-- no event at all -/
  | malformed
deriving DecidableEq

namespace Verdict

def name : Verdict → String
  | ok => "ok"
  | unsigned => "unsigned"
  | tampered => "tampered"
  | malformed => "malformed"

def ofEvent (e : Event) : Verdict :=
  if e.isUnsigned then .unsigned
  else if e.verifies then .ok
  else .tampered

end Verdict

namespace Report

structure Row where
  line : Nat
  id : String
  event : String
  verdict : Verdict
deriving DecidableEq

/-- The row of a line from which the blanks around it have been taken. -/
def rowOfText (line : Nat) (s : String) : Row :=
  match Event.ofText s with
  | .ok e => ⟨line, e.id, e.coordinates.uniqueName, .ofEvent e⟩
  | .error _ => ⟨line, "", "", .malformed⟩

def rowOfLine? (line : Nat) (cs : List Char) : Option Row :=
  let trimmed := Text.trimChars cs
  if trimmed = [] then none else some (rowOfText line (String.ofList trimmed))

/-- The rows of lines numbered from `first` on. -/
def rowsOfLines (first : Nat) : List (List Char) → List Row
  | [] => []
  | cs :: rest => (rowOfLine? first cs).toList ++ rowsOfLines (first + 1) rest

def rows (text : String) : List Row :=
  rowsOfLines 1 (Text.splitOn '\n' text.toList)

/-- How many rows are not all right. -/
def failures (rs : List Row) : Nat :=
  rs.countP (·.verdict != .ok)

/-! ## Table -/

/-- Fills up with spaces to `width` characters. -/
def pad (width : Nat) (cs : List Char) : List Char :=
  cs ++ List.replicate (width - cs.length) ' '

/-- At most `width` characters, the last three of them dots where something is left out. -/
def truncate (width : Nat) (cs : List Char) : List Char :=
  if cs.length ≤ width then cs else cs.take (width - 3) ++ ['.', '.', '.']

/-- A text for a cell; an empty one shows as a question mark. -/
def cell (width : Nat) (s : String) : List Char :=
  pad width (truncate width (if s = "" then ['?'] else s.toList))

def rowChars (r : Row) : List Char :=
  pad 6 (Decimal.natChars r.line) ++ [' '] ++ cell 24 r.id ++ [' '] ++ cell 48 r.event ++ [' ']
    ++ r.verdict.name.toList

def headerChars : List Char :=
  pad 6 "LINE".toList ++ [' '] ++ pad 24 "ID".toList ++ [' '] ++ pad 48 "EVENT".toList ++ [' ']
    ++ "VERDICT".toList

def line (cs : List Char) : String :=
  String.ofList (cs ++ ['\n'])

def table (rs : List Row) : String :=
  line headerChars ++ line (List.replicate 90 '-') ++ String.join (rs.map fun r => line (rowChars r))

/-! ## JSON -/

def rowValue (r : Row) : Value :=
  .object (Members.ofList [
    ("line", .number (.whole r.line)),
    ("id", .text r.id),
    ("event", .text r.event),
    ("verdict", .text r.verdict.name)])

def json (rs : List Row) : String :=
  (Value.array (rs.map rowValue)).pretty ++ "\n"

end Report

end EventSeal
