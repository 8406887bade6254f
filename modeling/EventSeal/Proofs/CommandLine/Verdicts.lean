import EventSeal.Proofs.Access.Tampering
import EventSeal.Proofs.CommandLine.SignedLines
import Mathlib.Data.List.TakeWhile

/-!
# One verdict on every path

Whether the seal of an event holds is asked in several places: of the event,
of an event that may be absent, of a body with a claimed signature, of a
computed signature and by the gate. Some of them look for an empty seal
first and some do not. They agree because no signature is empty, so each is
the comparison of the seal with the signature of the body.

The two commands that give a verdict take one text in two ways: one as a
line among lines, the other as a whole. For a text without a line feed the
first has a single row, and both read what is left of the text when the
blanks around it are gone (`rows_of_solid_line`, `inspect_of_octets`). So
the one has no verdict exactly if the other calls the text malformed, and
otherwise both have the verdict of the same event. It is what both print: the
member of that name in what they write as JSON, and the end of a table.
-/

namespace EventSeal

open Json

/-! ## Paths to the seal -/

theorem Signature.matchesText_iff {s : Signature} {claimed : String} :
    s.matchesText claimed = true ↔ claimed = s.text := by
  rw [matchesText, beq_iff_eq, eq_comm]

namespace Event

variable (e : Event)

theorem verifies_body : e.toBody.verifies e.sign = e.verifies := by
  rw [Bool.eq_iff_iff, Body.verifies_iff, verifies_iff]

theorem matchesText_signature : e.toBody.signature.matchesText e.sign = e.verifies := by
  rw [Bool.eq_iff_iff, Signature.matchesText_iff, verifies_iff]

theorem check_ne_badSignature_iff (role : Role) (required : Tier) (entity : Entity)
    (version : Version) :
    Gate.check role required e entity version ≠ .error .badSignature ↔ e.verifies = true := by
  rw [ne_eq, Gate.check_eq_badSignature_iff, Bool.not_eq_false]

theorem sign_ne_empty_of_verifies (h : e.verifies = true) : e.sign ≠ "" := by
  rw [verifies_iff.mp h]
  exact Signature.text_ne_empty _ _

end Event

/-! ## Verdicts -/

namespace Verdict

variable {e : Event}

/-- What each verdict on an event says. -/
theorem ofEvent_iff (v : Verdict) : ofEvent e = v ↔
    match v with
    | unsigned => e.sign = ""
    | ok => e.verifies = true
    | tampered => e.sign ≠ "" ∧ e.verifies = false
    | malformed => False := by
  rw [ofEvent, Event.isUnsigned]
  by_cases hsign : e.sign = ""
  · have hverifies : e.verifies = false :=
      Bool.eq_false_iff.mpr fun h => e.sign_ne_empty_of_verifies h hsign
    cases v <;> simp [hsign, hverifies]
  · cases hverifies : e.verifies <;> cases v <;> simp [hsign]

theorem ofEvent_ne_malformed : ofEvent e ≠ malformed :=
  fun h => (ofEvent_iff malformed).mp h

end Verdict

/-! ## Texts of one line -/

/-- What is trimmed away is blank. -/
theorem Text.trimChars_eq_nil_iff {cs : List Char} :
    trimChars cs = [] ↔ ∀ c ∈ cs, isBlank c = true := by
  rw [trimChars, trimEnd, List.reverse_eq_nil_iff, List.dropWhile_eq_nil_iff]
  constructor
  · intro h
    have hstart : trimStart cs = [] := by
      by_contra hne
      have hsolid : isBlank ((trimStart cs).head hne) = false :=
        List.head_dropWhile_not isBlank hne
      rw [h _ (List.mem_reverse.mpr (List.head_mem hne))] at hsolid
      cases hsolid
    exact List.dropWhile_eq_nil_iff.mp hstart
  · intro h c hc
    exact h c ((List.dropWhile_sublist isBlank).mem (List.mem_reverse.mp hc))

/-- A text that is not blank and has no line feed. -/
structure Text.IsSolidLine (s : String) : Prop where
  solid : ∃ c ∈ s.toList, isBlank c = false
  newline_not_mem : '\n' ∉ s.toList

theorem Report.line_rowOfText (n : Nat) (s : String) : (rowOfText n s).line = n := by
  rw [rowOfText]
  split <;> rfl

theorem Report.rows_of_solid_line {s : String} (h : Text.IsSolidLine s) :
    rows s = [rowOfText 1 (Text.trim s)] := by
  have hne : Text.trimChars s.toList ≠ [] := by
    obtain ⟨c, hc, hsolid⟩ := h.solid
    intro hnil
    rw [Text.trimChars_eq_nil_iff.mp hnil c hc] at hsolid
    cases hsolid
  rw [rows, Text.splitOn_of_not_mem h.newline_not_mem, rowsOfLines, rowOfLine?, if_neg hne]
  rfl

namespace CommandLine

/-! ## The two commands -/

variable {w : World} {input : Option String} {s : String}

theorem inspect_of_octets (h : w.octets input = .ok (Text.bytes s)) (settings : Settings) :
    run w ⟨settings, .inspect input⟩
      = .ofExcept ((eventOfText s).map (inspectOutput settings.mode)) := by
  have hread : readEvent w input = eventOfText s := by
    rw [readEvent, readInput_of_octets h, ok_bind]
  simp only [run, hread]

/-- All ways of asking for the seal of an event have one answer. A line is
malformed for the command that reports on lines exactly if the command that
describes an event fails on it, and otherwise both show the same verdict: one
in either form of its report, the other in what it prints. -/
theorem one_verdict_on_every_path :
    (∀ e : Event,
        OptionalEvent.verifies (some e) = e.verifies
          ∧ e.toBody.verifies e.sign = e.verifies
          ∧ e.toBody.signature.matchesText e.sign = e.verifies
          ∧ ∀ (role : Role) (required : Tier) (entity : Entity) (version : Version),
              Gate.check role required e entity version ≠ .error .badSignature ↔
                e.verifies = true)
      ∧ ∀ s : String, Text.IsSolidLine s →
          ∀ (w w' : World) (settings settings' : Settings) (input input' : Option String),
            w.octets input = .ok (Text.bytes s) → w'.octets input' = .ok (Text.bytes s) →
              ∃ row : Report.Row, row.line = 1 ∧ Report.rows s = [row]
                ∧ (∀ strict json : Bool, (run w ⟨settings, .verify input strict json⟩).output
                    = if json then Report.json [row] else Report.table [row])
                ∧ (∀ strict : Bool, ∃ told : Members,
                    Value.ofBytes (Text.bytes (run w ⟨settings, .verify input strict true⟩).output)
                        = .ok (.array [.object told])
                      ∧ .object told = Report.rowValue row
                      ∧ told.get? "verdict" = some (.text row.verdict.name))
                ∧ (∀ strict : Bool, ∃ l : List Char,
                    (run w ⟨settings, .verify input strict false⟩).output.toList
                        = [Report.headerChars, List.replicate 90 '-', l].flatMap (· ++ ['\n'])
                      ∧ ' ' :: row.verdict.name.toList <:+ l)
                ∧ ((run w' ⟨settings', .inspect input'⟩).failure.isSome = true ↔
                    row.verdict = .malformed)
                ∧ (row.verdict ≠ .malformed →
                    ∃ (e : Event) (ms : Members), Event.ofText (Text.trim s) = .ok e
                      ∧ run w' ⟨settings', .inspect input'⟩
                          = ⟨(Value.object ms).pretty ++ "\n", none⟩
                      ∧ Value.ofBytes (Text.bytes (run w' ⟨settings', .inspect input'⟩).output)
                          = .ok (.object ms)
                      ∧ ms.get? "verdict" = some (.text row.verdict.name)
                      ∧ (row.verdict = .unsigned ↔ e.sign = "")
                      ∧ (row.verdict = .ok ↔ e.verifies = true)
                      ∧ (row.verdict = .tampered ↔ e.sign ≠ "" ∧ e.verifies = false)) := by
  refine ⟨fun e => ?_, fun s hs w w' settings settings' input input' hw hw' => ?_⟩
  · exact ⟨rfl, e.verifies_body, e.matchesText_signature, e.check_ne_badSignature_iff⟩
  · have hrows := Report.rows_of_solid_line hs
    have hline := Report.line_rowOfText 1 (Text.trim s)
    have houtput : ∀ strict json : Bool, (run w ⟨settings, .verify input strict json⟩).output
        = if json then Report.json [Report.rowOfText 1 (Text.trim s)]
          else Report.table [Report.rowOfText 1 (Text.trim s)] := by
      intro strict json
      rw [verify_of_octets hw, verifyText, hrows]
    refine ⟨Report.rowOfText 1 (Text.trim s), hline, hrows, houtput, fun strict => ?_,
      fun strict => ?_, ?_⟩
    · rw [houtput strict true]
      exact Report.exists_members_json_singleton (by rw [hline]; decide)
    · rw [houtput strict false]
      exact Report.exists_line_table_singleton _
    -- both read what is left of the text without the blanks around it
    · rw [inspect_of_octets hw', eventOfText, Report.rowOfText]
      cases hread : Event.ofText (Text.trim s) with
      | error f => exact ⟨iff_of_true rfl rfl, fun h => absurd rfl h⟩
      | ok e =>
          obtain ⟨ms, hms, hverdict⟩ := exists_members_summary settings'.mode e
          refine ⟨iff_of_false Bool.false_ne_true Verdict.ofEvent_ne_malformed, fun _ => ?_⟩
          refine ⟨e, ms, rfl, ?_, ?_, hverdict, Verdict.ofEvent_iff .unsigned,
            Verdict.ofEvent_iff .ok, Verdict.ofEvent_iff .tampered⟩
          · rw [← hms]
            rfl
          · rw [← hms]
            exact ofBytes_inspectOutput settings'.mode e

/-- An event under a seal of the wrong length, with blanks around it of
which only some are blanks for a reader of JSON. -/
def paddedText : String :=
  "\u00a0\t\x7b\"id\":\"a\",\"sign\":\"00\"\x7d\u2028\r"

def paddedEvent : Event :=
  { Event.blank with id := "a", sign := "00" }

def paddedWorld : World :=
  ⟨Text.bytes paddedText, fun _ => .ok (Text.bytes paddedText), 0⟩

def paddedRow : Report.Row :=
  ⟨1, "a", "..->@", .tampered⟩

theorem tampered_paddedText :
    Text.IsSolidLine paddedText ∧ paddedWorld.octets none = .ok (Text.bytes paddedText)
      ∧ paddedWorld.octets (some "event.json") = .ok (Text.bytes paddedText)
      ∧ Report.rows paddedText = [paddedRow]
      ∧ (run paddedWorld ⟨⟨.production, "info", .pretty⟩, .verify none true true⟩).output
          = Report.json [paddedRow]
      ∧ Value.ofBytes (Text.bytes
            (run paddedWorld ⟨⟨.production, "info", .pretty⟩, .verify none true true⟩).output)
          = .ok (.array [Report.rowValue paddedRow])
      ∧ (∃ l : List Char,
          (run paddedWorld
              ⟨⟨.production, "info", .pretty⟩, .verify none false false⟩).output.toList
            = [Report.headerChars, List.replicate 90 '-', l].flatMap (· ++ ['\n'])
          ∧ " tampered".toList <:+ l)
      ∧ ∃ ms : Members,
          run paddedWorld ⟨⟨.development, "info", .pretty⟩, .inspect (some "event.json")⟩
            = ⟨(Value.object ms).pretty ++ "\n", none⟩
          ∧ Value.ofBytes (Text.bytes (run paddedWorld
              ⟨⟨.development, "info", .pretty⟩, .inspect (some "event.json")⟩).output)
            = .ok (.object ms)
          ∧ ms.get? "verdict" = some (.text "tampered") := by
  have hsolid : Text.IsSolidLine paddedText := ⟨⟨'a', by decide, by decide⟩, by decide⟩
  have hread : Event.ofText (Text.trim paddedText) = .ok paddedEvent := rfl
  have hunsealed : paddedEvent.verifies = false := by
    rw [Bool.eq_false_iff, ne_eq, Event.verifies_iff]
    intro heq
    have hwell := Signature.wellFormed_compute .sha1 paddedEvent.toBody.canonicalBytes
    rw [show (Signature.compute .sha1 paddedEvent.toBody.canonicalBytes).text = "00" from heq.symm]
      at hwell
    exact absurd hwell (by decide)
  obtain ⟨row, -, hrows, hverify, hjson, htable, hfails, hverdict⟩ := one_verdict_on_every_path.2
    paddedText hsolid paddedWorld paddedWorld ⟨.production, "info", .pretty⟩
    ⟨.development, "info", .pretty⟩ none (some "event.json") rfl rfl
  have hne : row.verdict ≠ .malformed := by
    rw [ne_eq, ← hfails, inspect_of_octets (s := paddedText) rfl, eventOfText, hread]
    exact Bool.false_ne_true
  obtain ⟨e, ms, he, hrun, hshown, hget, -, -, htampered⟩ := hverdict hne
  obtain rfl := Except.ok.inj (hread.symm.trans he)
  have htampered : row.verdict = .tampered := htampered.mpr ⟨by decide, hunsealed⟩
  have hown : Report.rowOfEvent 1 paddedEvent = row := by
    have hrow := (Report.rows_of_solid_line hsolid).symm.trans hrows
    rw [Report.rowOfText_of_ofText hread] at hrow
    exact (List.cons.inj hrow).1
  obtain rfl : paddedRow = row := by
    have hname : paddedEvent.coordinates.uniqueName = "..->@" := rfl
    have hverdict : Verdict.ofEvent paddedEvent = .tampered := by
      rw [← htampered, ← hown, Report.rowOfEvent]
    rw [← hown, Report.rowOfEvent, hname, hverdict]
    rfl
  obtain ⟨told, htold, hvalue, -⟩ := hjson true
  refine ⟨hsolid, rfl, rfl, hrows, hverify true true, ?_, htable false, ms, hrun, hshown, hget⟩
  rw [htold, hvalue]

end CommandLine

end EventSeal
