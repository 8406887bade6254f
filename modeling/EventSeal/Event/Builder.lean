import EventSeal.Event.Seal
import EventSeal.Json.Printer

/-!
# Building events

An event made field by field: a list of settings, applied in order to the
event of zero values. Parameters can be given as a JSON value, whose
compact text is then the parameter text.
-/

namespace EventSeal.Event

open Json

inductive Setting
  | part (p : Part) (s : String)
  | createdAt (n : Int64)
  | paramsValue (v : Value)

def Setting.apply (e : Event) : Setting → Event
  | .part p s => e.setPart p s
  | .createdAt n => { e with createdAt := n }
  | .paramsValue v => e.setPart .params v.compact

def build (ss : List Setting) : Event :=
  ss.foldl Setting.apply blank

def buildSigned (ss : List Setting) : Event :=
  (build ss).signed

/-! ## Parameters that have to be written first

Parameters can also be given as anything else that has a JSON form. Writing it
may fail, and then nothing is built. -/

/-- Parameters that could not be written. -/
structure Unwritable where
  cause : String
deriving DecidableEq

def Unwritable.message (e : Unwritable) : String :=
  "serialization failed: " ++ e.cause

/-- A setting, or parameters with what came of writing them. -/
inductive Call
  | set (s : Setting)
  | params (written : Except String String)

def Call.setting : Call → Except Unwritable Setting
  | .set s => .ok s
  | .params (.ok text) => .ok (.part .params text)
  | .params (.error cause) => .error ⟨cause⟩

def call (e : Event) (c : Call) : Except Unwritable Event := do
  let s ← c.setting
  return s.apply e

def buildCalls (cs : List Call) : Except Unwritable Event :=
  cs.foldlM call blank

end EventSeal.Event
