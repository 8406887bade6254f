import EventSeal.Calendar
import EventSeal.CommandLine.Arguments
import EventSeal.CommandLine.Report
import EventSeal.Event.Builder
import EventSeal.Text.Quoted
import EventSeal.Wire

/-!
# Running commands

What a command prints, and whether and how it fails. A command sees the
world as given: standard input, the files, the clock. It may print
something and fail all the same: a strict verification gives its report
first.

The message about an event that cannot be read ends with the words
"deserialization failed". What the program adds after them, the cause as the
reader of JSON words it and the line and column, is not part of `message`.
-/

namespace EventSeal.CommandLine

open Json

/-! ## The world -/

inductive FileFault
  | missing
  /-- with the system's own words -/
  | other (message : String)
deriving DecidableEq

def FileFault.message : FileFault → String
  | .missing => "No such file or directory (os error 2)"
  | .other message => message

structure World where
  stdin : List UInt8
  file : String → Except FileFault (List UInt8)
  /-- milliseconds since the epoch -/
  clock : Int64

/-! ## Failures -/

inductive Failure
  /-- standard input is not text -/
  | stdinNotText
  | unreadableFile (path : String) (fault : FileFault)
  | fileNotText (path : String)
  | invalidEvent (fault : Fault)
  | invalidRank (rank : String) (fault : Decimal.IntegerFault)
  | failedVerification (failed total : Nat)
deriving DecidableEq

namespace Failure

def notText : String := "stream did not contain valid UTF-8"

def message : Failure → String
  | stdinNotText => notText
  | unreadableFile path fault => "Failed to read file " ++ path ++ ": " ++ fault.message
  | fileNotText path => "Failed to read file " ++ path ++ ": " ++ notText
  | invalidEvent _ => "Invalid event: deserialization failed"
  | invalidRank rank fault => "Invalid rank " ++ Text.quoted rank ++ ": " ++ fault.message
  | failedVerification failed total =>
      Decimal.ofNat failed ++ " of " ++ Decimal.ofNat total ++ " events failed verification"

end Failure

/-- What was printed, and the failure after it if there is one. -/
structure Outcome where
  output : String
  failure : Option Failure
deriving DecidableEq

def Outcome.ofExcept : Except Failure String → Outcome
  | .ok s => ⟨s, none⟩
  | .error f => ⟨"", some f⟩

def Outcome.exitCode (o : Outcome) : Nat :=
  if o.failure.isSome then 1 else 0

/-! ## Input -/

def readInput (w : World) : Option String → Except Failure String
  | none =>
      match Text.ofBytes? w.stdin with
      | some s => .ok s
      | none => .error .stdinNotText
  | some path =>
      match w.file path with
      | .error fault => .error (.unreadableFile path fault)
      | .ok bs =>
          match Text.ofBytes? bs with
          | some s => .ok s
          | none => .error (.fileNotText path)

/-- An event, with blanks around it or not. -/
def eventOfText (s : String) : Except Failure Event :=
  match Event.ofText (Text.trim s) with
  | .ok e => .ok e
  | .error f => .error (.invalidEvent f)

def readEvent (w : World) (input : Option String) : Except Failure Event := do
  let s ← readInput w input
  eventOfText s

/-! ## Signing -/

/-- Gives an event that has no time the time of the clock. -/
def stamped (clock : Int64) (e : Event) : Event :=
  if e.createdAt = 0 then { e with createdAt := clock } else e

def signedOutput (w : World) (stamp pretty : Bool) (e : Event) : String :=
  let s := (if stamp then stamped w.clock e else e).signed
  (if pretty then (Event.layout.value s).pretty else s.compact) ++ "\n"

/-! ## Verifying -/

def verifyText (strict json : Bool) (s : String) : Outcome :=
  let rs := Report.rows s
  let failed := Report.failures rs
  { output := if json then Report.json rs else Report.table rs
    failure := if strict ∧ 0 < failed then some (.failedVerification failed rs.length) else none }

/-! ## Describing -/

def labelLine (l : Label) (c : Coordinates) : String :=
  Report.line (Report.pad 20 l.name.toList ++ [' '] ++ (l.text c).toList)

def labelMembers (ls : List Label) (c : Coordinates) : Members :=
  Members.ofList (ls.map fun l => (l.name, .text (l.text c)))

def labelsOutput (json : Bool) (e : Event) : String :=
  if json then (Value.object (labelMembers Label.all e.coordinates)).pretty ++ "\n"
  else String.join (Label.all.map fun l => labelLine l e.coordinates)

def canonicalOutput (e : Event) : String :=
  e.toBody.canonicalText ++ "\n" ++ e.toBody.signature.text ++ "\n"

def redacted : String := "<redacted>"

/-- In production a token is shown only as being there. -/
def shownToken (m : Mode) (e : Event) : String :=
  if m.isProduction ∧ e.accessToken ≠ "" then redacted else e.accessToken

def utcValue (millis : Int64) : Value :=
  match Calendar.momentOfMillis? millis.toInt with
  | some m => .text (Calendar.rfc3339 m)
  | none => .null

def summary (m : Mode) (e : Event) : Value :=
  .object (Members.ofList [
    ("id", .text e.id),
    ("mode", .text m.name),
    ("createdAt", .number (.ofInt64 e.createdAt)),
    ("createdAtUtc", utcValue e.createdAt),
    ("accessToken", .text (shownToken m e)),
    ("sign", .text e.sign),
    ("verdict", .text (Verdict.ofEvent e).name),
    ("labels", .object
      (labelMembers [.fullName, .uniqueName, .entityUrl, .tableName] e.coordinates))])

def inspectOutput (m : Mode) (e : Event) : String :=
  (summary m e).pretty ++ "\n"

/-! ## Roles and modes -/

def truth (b : Bool) : List Char :=
  if b then "true".toList else "false".toList

def roleTable (r : Role) : String :=
  "rank  " ++ r.text ++ "\n" ++ "tier  " ++ r.tier.name ++ "\n"
    ++ String.join (Tier.all.map fun t =>
      Report.line ([' ', ' '] ++ Report.pad 10 t.name.toList ++ [' '] ++ truth (r.satisfies t)))

def roleValue (r : Role) : Value :=
  .object (Members.ofList [
    ("rank", r.value),
    ("tier", r.tier.value),
    ("satisfies", .object
      (Members.ofList (Tier.all.map fun t => (t.name, .bool (r.satisfies t)))))])

def roleOutput (json : Bool) (r : Role) : String :=
  if json then (roleValue r).pretty ++ "\n" else roleTable r

def readRole (rank : String) : Except Failure Role :=
  match Role.ofText rank with
  | .ok r => .ok r
  | .error fault => .error (.invalidRank rank fault)

/-! ## Commands -/

def run (w : World) (i : Invocation) : Outcome :=
  match i.command with
  | .sign input stamp pretty => .ofExcept ((readEvent w input).map (signedOutput w stamp pretty))
  | .verify input strict json =>
      match readInput w input with
      | .ok s => verifyText strict json s
      | .error f => ⟨"", some f⟩
  | .labels input json => .ofExcept ((readEvent w input).map (labelsOutput json))
  | .canonicalize input => .ofExcept ((readEvent w input).map canonicalOutput)
  | .inspect input => .ofExcept ((readEvent w input).map (inspectOutput i.settings.mode))
  | .role rank json => .ofExcept ((readRole rank).map (roleOutput json))
  | .mode value =>
      ⟨(match value with
        | some s => Mode.ofText s
        | none => i.settings.mode).name ++ "\n", none⟩

end EventSeal.CommandLine
