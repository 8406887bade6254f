import EventSeal.Proofs.CommandLine.Printed
import EventSeal.Proofs.Event.Sealing
import EventSeal.Proofs.Json.Lines
import EventSeal.Proofs.Record.WireForms
import EventSeal.Proofs.Text.Octets
import Mathlib.Data.List.Basic

/-!
# What was signed verifies, line by line

A compact event is one line: the writer escapes every character below
U+0020, and it leaves other separators of lines and other blanks raw, but
only between quotes. The braces around it keep the trimming of lines away
from what stands between them. So a text made of written events, each with
the newline that ends it, has one row for every event, numbered from one
(`rows_written`), and the row of an event that was signed says `ok`.

Main statement: whatever any number of signings print, one output after the
other, a strict verification reports as all right, row by row. The rows are
given as data, and as what is read of the report.
-/

namespace EventSeal

open Json

/-! ## Reports of written events -/

namespace Report

/-- The row of an event that is written on a line. -/
def rowOfEvent (line : Nat) (e : Event) : Row :=
  ⟨line, e.id, e.coordinates.uniqueName, .ofEvent e⟩

theorem rowOfText_of_ofText {line : Nat} {s : String} {e : Event} (h : Event.ofText s = .ok e) :
    rowOfText line s = rowOfEvent line e := by
  rw [rowOfText, h]
  rfl

/-- The characters of the line that an event is written on. -/
def lineOfEvent (e : Event) : List Char :=
  e.compact.toList

theorem newline_not_mem_lineOfEvent (e : Event) : '\n' ∉ lineOfEvent e :=
  (Value.isLine_compact (Event.isIntegral_members e)).newline_not_mem

theorem exists_lineOfEvent (e : Event) : ∃ cs, lineOfEvent e = '\x7b' :: cs ++ ['\x7d'] :=
  Value.exists_compact_object (Event.layout.members e)

theorem trimChars_lineOfEvent (e : Event) : Text.trimChars (lineOfEvent e) = lineOfEvent e := by
  obtain ⟨cs, hcs⟩ := exists_lineOfEvent e
  rw [hcs]
  exact Text.trimChars_framed (by decide) (by decide) cs

theorem lineOfEvent_ne_nil (e : Event) : lineOfEvent e ≠ [] := by
  obtain ⟨cs, hcs⟩ := exists_lineOfEvent e
  rw [hcs]
  exact List.cons_ne_nil _ _

theorem rowOfLine?_lineOfEvent (line : Nat) (e : Event) :
    rowOfLine? line (lineOfEvent e) = some (rowOfEvent line e) := by
  have hread : Event.ofText (String.ofList (lineOfEvent e)) = .ok e := by
    rw [lineOfEvent, String.ofList_toList]
    exact Event.ofBytes_compact e
  rw [rowOfLine?, trimChars_lineOfEvent, if_neg (lineOfEvent_ne_nil e), rowOfText_of_ofText hread]

theorem rowsOfLines_append (xs ys : List (List Char)) : ∀ first : Nat,
    rowsOfLines first (xs ++ ys) = rowsOfLines first xs ++ rowsOfLines (first + xs.length) ys := by
  induction xs with
  | nil => intro first; rfl
  | cons x xs ih =>
      intro first
      rw [List.cons_append, rowsOfLines, rowsOfLines, ih, List.append_assoc, List.length_cons,
        Nat.add_assoc, Nat.add_comm 1]

theorem rowsOfLines_map_lineOfEvent (es : List Event) : ∀ first : Nat,
    rowsOfLines first (es.map lineOfEvent) = es.mapIdx fun k e => rowOfEvent (first + k) e := by
  induction es with
  | nil => intro first; rfl
  | cons e es ih =>
      intro first
      rw [List.map_cons, rowsOfLines, rowOfLine?_lineOfEvent, ih, List.mapIdx_cons]
      have hnumbers : (fun k e => rowOfEvent (first + 1 + k) e)
          = fun k e => rowOfEvent (first + (k + 1)) e := by
        funext k e
        rw [Nat.add_assoc, Nat.add_comm 1]
      rw [hnumbers]
      rfl

/-- Events that are written each on its line, in the order of the lines. -/
theorem rows_written (es : List Event) :
    rows (String.join (es.map fun e => e.compact ++ "\n"))
      = es.mapIdx fun k e => rowOfEvent (1 + k) e := by
  have hchars : (String.join (es.map fun e => e.compact ++ "\n")).toList
      = (es.map lineOfEvent).flatMap (· ++ ['\n']) := by
    rw [String.toList_join, List.flatMap_map, List.flatMap_map]
    refine List.flatMap_congr fun e _ => ?_
    rw [String.toList_append]
    rfl
  have hlines : ∀ l ∈ es.map lineOfEvent, '\n' ∉ l := by
    intro l hl
    obtain ⟨e, _, rfl⟩ := List.mem_map.mp hl
    exact newline_not_mem_lineOfEvent e
  -- the newline after the last event leaves an empty line, which has no row
  rw [rows, hchars, Text.splitOn_flatMap_concat hlines, rowsOfLines_append,
    rowsOfLines_map_lineOfEvent]
  exact List.append_nil _

theorem failures_eq_zero {rs : List Row} (h : ∀ r ∈ rs, r.verdict = .ok) : failures rs = 0 := by
  rw [failures, List.countP_eq_zero]
  intro r hr hbad
  rw [h r hr] at hbad
  exact absurd hbad (by decide)

end Report

theorem Verdict.ofEvent_signed (e : Event) : Verdict.ofEvent e.signed = .ok := by
  rw [Verdict.ofEvent, Event.isUnsigned_signed, if_neg Bool.false_ne_true,
    if_pos (Event.verifies_signed e)]

namespace CommandLine

/-! ## Input -/

/-- The octets that a command is given to read. -/
def World.octets (w : World) : Option String → Except FileFault (List UInt8)
  | none => .ok w.stdin
  | some path => w.file path

theorem readInput_of_octets {w : World} {input : Option String} {s : String}
    (h : w.octets input = .ok (Text.bytes s)) : readInput w input = .ok s := by
  cases input with
  | none =>
      have hs : w.stdin = Text.bytes s := Except.ok.inj h
      rw [readInput, hs, Text.ofBytes?_bytes]
  | some path =>
      have hs : w.file path = .ok (Text.bytes s) := h
      simp only [readInput, hs, Text.ofBytes?_bytes]

theorem verify_of_octets {w : World} {input : Option String} {s : String}
    (h : w.octets input = .ok (Text.bytes s)) (settings : Settings) (strict json : Bool) :
    run w ⟨settings, .verify input strict json⟩ = verifyText strict json s := by
  simp only [run, readInput_of_octets h]

/-- Every event is read from its compact text. -/
theorem readEvent_of_octets {w : World} {input : Option String} {e : Event}
    (h : w.octets input = .ok (Text.bytes e.compact)) : readEvent w input = .ok e := by
  have htrim : Text.trim e.compact = e.compact := by
    rw [Text.trim]
    exact (congrArg String.ofList (Report.trimChars_lineOfEvent e)).trans (String.ofList_toList)
  have hread : Event.ofText e.compact = .ok e := Event.ofBytes_compact e
  rw [readEvent, readInput_of_octets h, ok_bind, eventOfText, htrim, hread]

/-! ## Signings -/

/-- A call of the command that signs, in the world that it finds. -/
structure Signing where
  world : World
  settings : Settings
  input : Option String
  stamp : Bool

namespace Signing

def outcome (r : Signing) : Outcome :=
  run r.world ⟨r.settings, .sign r.input r.stamp false⟩

/-- The event that is read; blank if none is. -/
def event (r : Signing) : Event :=
  match readEvent r.world r.input with
  | .ok e => e
  | .error _ => .blank

def signedEvent (r : Signing) : Event :=
  (if r.stamp then stamped r.world.clock r.event else r.event).signed

theorem outcome_eq (r : Signing) :
    r.outcome = .ofExcept ((readEvent r.world r.input).map (signedOutput r.world r.stamp false)) :=
  rfl

theorem exitCode_outcome_iff {r : Signing} :
    r.outcome.exitCode = 0 ↔ readEvent r.world r.input = .ok r.event := by
  rw [outcome_eq, event]
  cases readEvent r.world r.input with
  | ok e => exact ⟨fun _ => rfl, fun _ => rfl⟩
  | error f =>
      constructor
      · intro h
        exact absurd h (by decide : ¬ 1 = 0)
      · intro h
        nomatch h

theorem output_outcome {r : Signing} (h : r.outcome.exitCode = 0) :
    r.outcome.output = r.signedEvent.compact ++ "\n" := by
  rw [outcome_eq, exitCode_outcome_iff.mp h]
  rfl

/-- Apart from its signature, a signed event may have got another time. -/
theorem exists_signedEvent (r : Signing) :
    ∃ t, r.signedEvent = ({ r.event with createdAt := t } : Event).signed := by
  rw [signedEvent]
  split
  · rw [stamped]
    split
    · exact ⟨r.world.clock, rfl⟩
    · exact ⟨r.event.createdAt, rfl⟩
  · exact ⟨r.event.createdAt, rfl⟩

/-- A row shows nothing that stamping and signing change. -/
theorem rowOfEvent_signedEvent (line : Nat) (r : Signing) :
    Report.rowOfEvent line r.signedEvent
      = ⟨line, r.event.id, r.event.coordinates.uniqueName, .ok⟩ := by
  obtain ⟨t, ht⟩ := exists_signedEvent r
  rw [ht, Report.rowOfEvent, Verdict.ofEvent_signed]
  rfl

end Signing

theorem map_output {rs : List Signing} (h : ∀ r ∈ rs, r.outcome.exitCode = 0) :
    (rs.map fun r => r.outcome.output)
      = (rs.map Signing.signedEvent).map fun e => e.compact ++ "\n" := by
  rw [List.map_map]
  exact List.map_congr_left fun r hr => Signing.output_outcome (h r hr)

/-- What signings print, one output after the other, has their rows. -/
theorem rows_output {rs : List Signing} (h : ∀ r ∈ rs, r.outcome.exitCode = 0) :
    Report.rows (String.join (rs.map fun r => r.outcome.output))
      = rs.mapIdx fun k r => ⟨k + 1, r.event.id, r.event.coordinates.uniqueName, .ok⟩ := by
  rw [map_output h, Report.rows_written, List.mapIdx_eq_iff]
  intro k
  rw [List.getElem?_mapIdx, List.getElem?_map, Option.map_map]
  refine congrArg (Option.map · rs[k]?) ?_
  funext r
  rw [Nat.add_comm k 1]
  exact (Signing.rowOfEvent_signedEvent (1 + k) r).symm

/-- Rows that are all right do not make a strict verification fail. -/
theorem run_strict_of_ok {w : World} {input : Option String} {s : String}
    (h : w.octets input = .ok (Text.bytes s)) (hok : ∀ row ∈ Report.rows s, row.verdict = .ok)
    (settings : Settings) :
    run w ⟨settings, .verify input true true⟩ = ⟨Report.json (Report.rows s), none⟩ := by
  rw [verify_of_octets h, verifyText, Report.failures_eq_zero hok]
  rfl

/-- Signed outputs, one after the other, verify row by row: they have these
rows, the command succeeds, and what it prints is read as these rows. -/
theorem strict_report_of_signed_outputs (rs : List Signing)
    (haccepted : ∀ r ∈ rs, r.outcome.exitCode = 0) (w : World) (settings : Settings)
    (input : Option String)
    (hinput : w.octets input = .ok (rs.flatMap fun r => Text.bytes r.outcome.output)) :
    (∀ r ∈ rs, readEvent r.world r.input = .ok r.event)
      ∧ ∃ rows : List Report.Row,
          rows = (rs.mapIdx fun k r =>
            ⟨k + 1, r.event.id, r.event.coordinates.uniqueName, .ok⟩)
          ∧ Report.rows (String.join (rs.map fun r => r.outcome.output)) = rows
          ∧ run w ⟨settings, .verify input true true⟩ = ⟨Report.json rows, none⟩
          ∧ (run w ⟨settings, .verify input true true⟩).exitCode = 0
          ∧ (rs.length < 2 ^ 64 →
              Value.ofBytes (Text.bytes (run w ⟨settings, .verify input true true⟩).output)
                = .ok (.array (rows.map Report.rowValue)))
          ∧ ∀ row ∈ rows, Report.rowValue row
              = .object [("event", .text row.event), ("id", .text row.id),
                  ("line", .number (.whole row.line)), ("verdict", .text "ok")] := by
  obtain ⟨rows, hrows⟩ : ∃ rows : List Report.Row, rows = rs.mapIdx fun k r =>
      ⟨k + 1, r.event.id, r.event.coordinates.uniqueName, .ok⟩ := ⟨_, rfl⟩
  have hrow : ∀ row ∈ rows, row.line ≤ rs.length ∧ row.verdict = .ok := by
    intro row hrow
    obtain ⟨k, hk, rfl⟩ := List.mem_mapIdx.mp (hrows ▸ hrow)
    exact ⟨hk, rfl⟩
  have htext : Report.rows (String.join (rs.map fun r => r.outcome.output)) = rows :=
    (rows_output haccepted).trans hrows.symm
  have hjoin : w.octets input
      = .ok (Text.bytes (String.join (rs.map fun r => r.outcome.output))) := by
    rw [hinput, Text.bytes_join, List.flatMap_map]
  have hrun : run w ⟨settings, .verify input true true⟩ = ⟨Report.json rows, none⟩ := by
    rw [run_strict_of_ok hjoin (fun row h => (hrow row (htext ▸ h)).2), htext]
  refine ⟨fun r hr => Signing.exitCode_outcome_iff.mp (haccepted r hr), rows, hrows, htext, hrun,
    ?_, fun hlength => ?_, fun row h => ?_⟩
  · rw [hrun]
    rfl
  · rw [hrun]
    exact Report.ofBytes_json fun row h => Nat.lt_of_le_of_lt (hrow row h).1 hlength
  · rw [Report.rowValue_eq, (hrow row h).2]
    rfl

/-- An event whose texts hold quotes, breaks of lines and blanks. -/
def crookedEvent : Event :=
  { Event.blank with
    id := " \"1\\\" "
    project := "a\r\nb"
    context := "\u2028\u2029"
    event := "\u0085\u00a0\x00"
    params := "\x7b\"k\":\n\x7d" }

/-- One signing that reads its input and one that stamps what is in a file. -/
def crookedSignings : List Signing :=
  [⟨⟨Text.bytes crookedEvent.compact, fun _ => .error .missing, 7⟩,
      ⟨.production, "info", .pretty⟩, none, false⟩,
    ⟨⟨[], fun _ => .ok (Text.bytes crookedEvent.compact), -1⟩,
      ⟨.production, "info", .pretty⟩, some "event.json", true⟩]

def crookedWorld : World :=
  ⟨crookedSignings.flatMap fun r => Text.bytes r.outcome.output, fun _ => .error .missing, 0⟩

def crookedRows : List Report.Row :=
  [⟨1, crookedEvent.id, crookedEvent.coordinates.uniqueName, .ok⟩,
    ⟨2, crookedEvent.id, crookedEvent.coordinates.uniqueName, .ok⟩]

theorem strict_report_of_crooked_signings :
    (∀ r ∈ crookedSignings, r.outcome.exitCode = 0)
      ∧ crookedWorld.octets none
          = .ok (crookedSignings.flatMap fun r => Text.bytes r.outcome.output)
      ∧ Report.rows (String.join (crookedSignings.map fun r => r.outcome.output)) = crookedRows
      ∧ run crookedWorld ⟨⟨.production, "info", .pretty⟩, .verify none true true⟩
          = ⟨Report.json crookedRows, none⟩
      ∧ Value.ofBytes (Text.bytes
            (run crookedWorld ⟨⟨.production, "info", .pretty⟩, .verify none true true⟩).output)
          = .ok (.array ([1, 2].map fun k => .object [
              ("event", .text crookedEvent.coordinates.uniqueName), ("id", .text crookedEvent.id),
              ("line", .number (.whole k)), ("verdict", .text "ok")])) := by
  have hread : ∀ r ∈ crookedSignings, readEvent r.world r.input = .ok crookedEvent := by
    intro r hr
    refine readEvent_of_octets ?_
    rcases List.mem_pair.mp hr with rfl | rfl <;> rfl
  have hevent : ∀ r ∈ crookedSignings, r.event = crookedEvent := by
    intro r hr
    rw [Signing.event, hread r hr]
  have haccepted : ∀ r ∈ crookedSignings, r.outcome.exitCode = 0 := by
    intro r hr
    rw [Signing.exitCode_outcome_iff, hevent r hr]
    exact hread r hr
  have hinput : crookedWorld.octets none
      = .ok (crookedSignings.flatMap fun r => Text.bytes r.outcome.output) := by
    rw [World.octets, crookedWorld]
  have hcrooked : (crookedSignings.mapIdx fun k r =>
        (⟨k + 1, r.event.id, r.event.coordinates.uniqueName, .ok⟩ : Report.Row))
      = crookedSignings.mapIdx fun k _ =>
        ⟨k + 1, crookedEvent.id, crookedEvent.coordinates.uniqueName, .ok⟩ := by
    rw [List.mapIdx_eq_mapIdx_iff]
    intro k hk
    rw [hevent _ (List.getElem_mem hk)]
  obtain ⟨-, rows, rfl, hrows, hrun, -, hjson, -⟩ := strict_report_of_signed_outputs
    crookedSignings haccepted crookedWorld ⟨.production, "info", .pretty⟩ none hinput
  rw [hcrooked] at hrows hrun hjson
  exact ⟨haccepted, hinput, hrows, hrun, hjson (by decide)⟩

end CommandLine

end EventSeal
