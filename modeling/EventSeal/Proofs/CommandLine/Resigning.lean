import EventSeal.Proofs.CommandLine.SignedLines
import EventSeal.Proofs.Record.Sorting
import EventSeal.Proofs.Record.Trimming

/-!
# Signing what was signed

The command that signs prints an event in one of two forms, and from either
the same event is read again (`ofText_written`). A signed event is its own
signed event, because a signature does not cover the signature before it
(`signed_signed`), and a stamp is given only where there is none. So signing
what was printed prints the same, whatever the form and whatever the clock
says (`Signing.run_sign`).

The canonical text does not depend on the signature either. So it is the
same before and after, and what is printed below it is both its digest and
the signature that the event has got (`Signing.run_canonicalize`).
-/

namespace EventSeal

open Json

theorem Text.bytes_lineFeed : bytes "\n" = octets (Space.chars [.lineFeed]) := rfl

namespace Event

theorem signed_signed (e : Event) : e.signed.signed = e.signed := rfl

/-- An event in one of the forms in which it is printed. -/
def written (pretty : Bool) (e : Event) : String :=
  if pretty then (layout.value e).pretty else e.compact

theorem written_true (e : Event) : e.written true = (layout.value e).pretty :=
  if_pos rfl

theorem written_false (e : Event) : e.written false = e.compact :=
  if_neg Bool.false_ne_true

/-- An event is read from what is printed of it. -/
theorem ofText_written (pretty : Bool) (e : Event) : ofText (e.written pretty ++ "\n") = .ok e := by
  rw [ofText, ofBytes, Text.bytes_append]
  cases pretty with
  | true =>
      rw [written_true, Text.bytes_lineFeed]
      exact separable_layout.ofBytes_pretty kind_ne_rules_of_mem_layout e [.lineFeed]
  | false =>
      have hspace : Lexeme.AllSpace (Text.bytes "\n") := by decide
      have hread : layout.ofBytes (Text.bytes e.compact) = .ok e := ofBytes_compact e
      rw [written_false, Layout.ofBytes_append hread, if_pos hspace]

/-- The pretty form is that of the value that is read of the compact form. -/
theorem exists_value_of_written (e : Event) :
    ∃ v : Value, Value.ofBytes (Text.bytes (e.written false ++ "\n")) = .ok v
      ∧ e.written true = v.pretty := by
  refine ⟨layout.value e, ?_, written_true e⟩
  rw [written_false, Text.bytes_append, Text.bytes_lineFeed]
  exact Layout.valueOf_compact kind_ne_rules_of_mem_layout e [.lineFeed]

end Event

namespace CommandLine

variable {w : World} {input : Option String}

theorem stamped_of_ne {clock : Int64} {e : Event} (h : e.createdAt ≠ 0) : stamped clock e = e :=
  if_neg h

theorem readEvent_of_ofText {s : String} {e : Event} (hw : w.octets input = .ok (Text.bytes s))
    (hs : Event.ofText s = .ok e) : readEvent w input = .ok e := by
  have hread : Event.ofText (Text.trim s) = .ok e := Layout.ofBytes_trim hs
  rw [readEvent, readInput_of_octets hw, ok_bind, eventOfText, hread]

theorem readEvent_congr {w' : World} {input' : Option String} {s : String}
    (hw : w.octets input = .ok (Text.bytes s)) (hw' : w'.octets input' = .ok (Text.bytes s)) :
    readEvent w input = readEvent w' input' := by
  rw [readEvent, readEvent, readInput_of_octets hw, readInput_of_octets hw']

theorem run_canonicalize {e : Event} (h : readEvent w input = .ok e) (settings : Settings) :
    run w ⟨settings, .canonicalize input⟩ = ⟨canonicalOutput e, none⟩ := by
  simp only [run, h]
  rfl

namespace Signing

variable {r : Signing}

/-- The same call, asked for one of the two forms. -/
def outcomeIn (r : Signing) (pretty : Bool) : Outcome :=
  run r.world ⟨r.settings, .sign r.input r.stamp pretty⟩

theorem outcomeIn_eq (h : r.outcome.exitCode = 0) (pretty : Bool) :
    r.outcomeIn pretty = ⟨r.signedEvent.written pretty ++ "\n", none⟩ := by
  simp only [outcomeIn, run, exitCode_outcome_iff.mp h]
  rfl

theorem signed_signedEvent (r : Signing) : r.signedEvent.signed = r.signedEvent := by
  obtain ⟨t, ht⟩ := exists_signedEvent r
  rw [ht, Event.signed_signed]

/-- What is printed is read as the signed event. -/
theorem readEvent_output (h : r.outcome.exitCode = 0) {pretty : Bool}
    (hw : w.octets input = .ok (Text.bytes (r.outcomeIn pretty).output)) :
    readEvent w input = .ok r.signedEvent := by
  rw [outcomeIn_eq h] at hw
  exact readEvent_of_ofText hw (Event.ofText_written pretty r.signedEvent)

theorem run_sign (h : r.outcome.exitCode = 0) (hread : readEvent w input = .ok r.signedEvent)
    {stamp : Bool} (hstamp : stamp = true → r.signedEvent.createdAt ≠ 0) (settings : Settings)
    (pretty : Bool) :
    run w ⟨settings, .sign input stamp pretty⟩ = r.outcomeIn pretty := by
  have hkept : (if stamp then stamped w.clock r.signedEvent else r.signedEvent)
      = r.signedEvent := by
    cases stamp with
    | true => exact stamped_of_ne (hstamp rfl)
    | false => rfl
  rw [outcomeIn_eq h]
  simp only [run, hread, Except.map, signedOutput, hkept, signed_signedEvent]
  rfl

/-- Without a stamp only the seal is new. -/
theorem canonicalOutput_signedEvent (h : r.stamp = false) :
    canonicalOutput r.signedEvent = canonicalOutput r.event := by
  rw [signedEvent, h]
  rfl

end Signing

/-- What was signed is signed. Signing it again prints the same, in either
form and from either form, and with a stamp too if it has a time. Without a
stamp the canonical text is that of the event before, and the digest of that
text is the signature that was given. -/
theorem signing_is_stable (r : Signing) (t : String)
    (ht : r.world.octets r.input = .ok (Text.bytes t)) (haccepted : r.outcome.exitCode = 0) :
    (∀ (pretty : Bool) (w : World) (input : Option String),
        w.octets input = .ok (Text.bytes (r.outcomeIn pretty).output) →
          readEvent w input = .ok r.signedEvent
            ∧ ∀ (settings : Settings) (stamp pretty' : Bool),
                (stamp = true → r.signedEvent.createdAt ≠ 0) →
                  run w ⟨settings, .sign input stamp pretty'⟩ = r.outcomeIn pretty')
      ∧ (∃ v : Value, Value.ofBytes (Text.bytes (r.outcomeIn false).output) = .ok v
          ∧ (r.outcomeIn true).output = v.pretty ++ "\n")
      ∧ (r.stamp = false →
          ∃ text digest : String, digest = r.signedEvent.sign
            ∧ digest = Text.hex (Sha1.digest (Text.bytes text))
            ∧ ∀ s ∈ [t, (r.outcomeIn false).output, (r.outcomeIn true).output],
                ∀ (w : World) (input : Option String) (settings : Settings),
                  w.octets input = .ok (Text.bytes s) →
                    run w ⟨settings, .canonicalize input⟩
                      = ⟨text ++ "\n" ++ digest ++ "\n", none⟩) := by
  refine ⟨fun pretty w input hw => ?_, ?_, fun hstamp => ?_⟩
  · have hread := Signing.readEvent_output haccepted hw
    exact ⟨hread, fun settings stamp pretty' hkeeps =>
      Signing.run_sign haccepted hread hkeeps settings pretty'⟩
  · obtain ⟨v, hv, hpretty⟩ := r.signedEvent.exists_value_of_written
    refine ⟨v, ?_, ?_⟩
    · rw [Signing.outcomeIn_eq haccepted]
      exact hv
    · rw [Signing.outcomeIn_eq haccepted, hpretty]
  · refine ⟨r.signedEvent.toBody.canonicalText, r.signedEvent.sign, rfl, ?_, ?_⟩
    · rw [← Signing.signed_signedEvent r]
      rfl
    · intro s hs w input settings hw
      have hcanonical : run w ⟨settings, .canonicalize input⟩
          = ⟨canonicalOutput r.signedEvent, none⟩ := by
        rcases List.mem_cons.mp hs with rfl | hs
        · have hread := (readEvent_congr hw ht).trans (Signing.exitCode_outcome_iff.mp haccepted)
          rw [run_canonicalize hread, Signing.canonicalOutput_signedEvent hstamp]
        · rcases List.mem_pair.mp hs with rfl | rfl <;>
            exact run_canonicalize (Signing.readEvent_output haccepted hw) settings
      rw [hcanonical, canonicalOutput]
      have hsign : r.signedEvent.toBody.signature.text = r.signedEvent.sign := by
        rw [← Signing.signed_signedEvent r]
        rfl
      rw [hsign]

/-- An event with a time and under a seal that is none, with blanks around it
of which only some are blanks for a reader of JSON. -/
def staleText : String :=
  "\t\x7b\"sign\":\"00\", \"createdAt\":5, \"id\":\"a\"\x7d\u2028"

def staleSigning : Signing :=
  ⟨⟨Text.bytes staleText, fun _ => .error .missing, 7⟩, ⟨.development, "warn", .pretty⟩, none,
    false⟩

/-- A file with what signing it prints in the pretty form. -/
def staleWorld : World :=
  ⟨[], fun _ => .ok (Text.bytes (staleSigning.outcomeIn true).output), -1⟩

theorem staleSigning_is_stable :
    staleSigning.world.octets none = .ok (Text.bytes staleText)
      ∧ staleSigning.outcome.exitCode = 0
      ∧ staleWorld.octets (some "event.json")
          = .ok (Text.bytes (staleSigning.outcomeIn true).output)
      ∧ run staleWorld ⟨⟨.development, "warn", .pretty⟩, .sign (some "event.json") true false⟩
          = staleSigning.outcomeIn false
      ∧ run staleWorld ⟨⟨.development, "warn", .pretty⟩, .canonicalize (some "event.json")⟩
          = run staleSigning.world ⟨⟨.development, "warn", .pretty⟩, .canonicalize none⟩ := by
  have hread : readEvent staleSigning.world none
      = .ok { Event.blank with id := "a", createdAt := 5, sign := "00" } := rfl
  have hevent : staleSigning.event
      = { Event.blank with id := "a", createdAt := 5, sign := "00" } := by
    rw [Signing.event, show staleSigning.input = none from rfl, hread]
  have haccepted : staleSigning.outcome.exitCode = 0 := by
    rw [Signing.exitCode_outcome_iff, hevent]
    exact hread
  have htime : staleSigning.signedEvent.createdAt ≠ 0 := by
    rw [Signing.signedEvent, hevent]
    decide
  obtain ⟨hsign, -, hcanonical⟩ := signing_is_stable staleSigning staleText rfl haccepted
  obtain ⟨text, digest, -, -, hall⟩ := hcanonical rfl
  refine ⟨rfl, haccepted, rfl, ?_, ?_⟩
  · exact (hsign true staleWorld (some "event.json") rfl).2 _ true false fun _ => htime
  · have hsecond : (staleSigning.outcomeIn true).output
        ∈ [staleText, (staleSigning.outcomeIn false).output,
          (staleSigning.outcomeIn true).output] := by
      simp
    rw [hall _ hsecond staleWorld (some "event.json") _ rfl,
      hall staleText List.mem_cons_self staleSigning.world none _ rfl]

end CommandLine

end EventSeal
