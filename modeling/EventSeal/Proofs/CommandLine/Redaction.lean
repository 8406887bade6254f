import EventSeal.Proofs.CommandLine.Verdicts
import EventSeal.Proofs.Record.Trimming

/-!
# What a summary shows of the token

In production the command that describes an event does not show its access
token. More than that: what it prints is a function of the event without its
token and of the verdict (`summary_production`). So two events that differ in
nothing but their tokens look the same, as long as both have one and the
tokens do not make a difference to the verdict.

Production is not only what a caller has typed. The mode is spelled by an
option before or after the name of the command or by the environment
(`spelledMode?`), in any case of letters, and every command line that can be
read has the mode that its spelling stands for.
-/

namespace EventSeal

open Json

/-- The event without its token. -/
def Event.withoutToken (e : Event) : Event :=
  e.setPart .accessToken ""

namespace CommandLine

/-! ## Summaries -/

/-- The summary of an event with a token that is not shown. -/
def redactedSummary (e : Event) (v : Verdict) : Value :=
  .object (Members.ofList [
    ("id", .text e.id),
    ("mode", .text Mode.production.name),
    ("createdAt", .number (.ofInt64 e.createdAt)),
    ("createdAtUtc", utcValue e.createdAt),
    ("accessToken", .text redacted),
    ("sign", .text e.sign),
    ("verdict", .text v.name),
    ("labels", .object
      (labelMembers [.fullName, .uniqueName, .entityUrl, .tableName] e.coordinates))])

theorem shownToken_production {e : Event} (h : e.accessToken ≠ "") :
    shownToken .production e = redacted :=
  if_pos ⟨rfl, h⟩

theorem summary_production {e : Event} (h : e.accessToken ≠ "") :
    summary .production e = redactedSummary e.withoutToken (Verdict.ofEvent e) := by
  rw [summary, shownToken_production h]
  rfl

theorem inspect_production {w : World} {input : Option String} {s : String} {e : Event}
    (hw : w.octets input = .ok (Text.bytes s)) (hs : Event.ofText s = .ok e)
    (htoken : e.accessToken ≠ "") {settings : Settings} (hmode : settings.mode = .production) :
    run w ⟨settings, .inspect input⟩
      = ⟨(redactedSummary e.withoutToken (Verdict.ofEvent e)).pretty ++ "\n", none⟩ := by
  have hread : Event.ofText (Text.trim s) = .ok e := Layout.ofBytes_trim hs
  rw [inspect_of_octets hw, eventOfText, hread, hmode, ← summary_production htoken]
  rfl

/-! ## The spelling of the mode -/

/-- How a command line and its environment spell the mode. -/
def spelledMode? (env : Environment) (args : List String) : Option String := do
  let (outer, name, rest) ← readOuter outerShape .start args
  let shape ← shape? name
  let inner ← readLevel shape .start rest
  return (setting env outer inner "mode").getD "dev"

theorem mode_of_settings? {env : Environment} {outer inner : Given} {settings : Settings}
    (h : settings? env outer inner = some settings) :
    settings.mode = Mode.ofText ((setting env outer inner "mode").getD "dev") := by
  rw [settings?] at h
  split at h
  · obtain rfl := Option.some.inj h
    rfl
  · nomatch h

/-- Every command line that can be read has the mode that is spelled. -/
theorem exists_spelledMode {env : Environment} {args : List String} {i : Invocation}
    (h : Invocation.ofArguments? env args = some i) :
    ∃ v, spelledMode? env args = some v ∧ i.settings.mode = Mode.ofText v := by
  simp only [Invocation.ofArguments?, Option.bind_eq_bind, Option.bind_eq_some_iff] at h
  obtain ⟨⟨outer, name, rest⟩, houter, shape, hshape, inner, hinner, command, -, settings,
    hsettings, hi⟩ := h
  obtain rfl := Option.some.inj hi
  refine ⟨(setting env outer inner "mode").getD "dev", ?_, mode_of_settings? hsettings⟩
  simp only [spelledMode?, Option.bind_eq_bind, houter, hshape, hinner, Option.bind_some]
  rfl

theorem look_mode (v : String) : Look.of ("--mode=" ++ v) = .long "mode" (some v) := by
  have hchars : ("--mode=" ++ v).toList = '-' :: '-' :: (['m', 'o', 'd', 'e'] ++ '=' :: v.toList) :=
    String.toList_append
  rw [Look.of, hchars]
  simp [String.ofList_toList]

theorem add_mode {shape : Shape} (hflag : "mode" ∉ shape.flags) (hoption : "mode" ∈ shape.options)
    (v : String) :
    Progress.start.add? shape ("--mode=" ++ v) = some ⟨⟨[], [("mode", v)], []⟩, none, false⟩ := by
  rw [Progress.add?, look_mode]
  simp only [Progress.addLong?, if_neg hflag, if_pos hoption]
  rfl

theorem exists_inspect_of_levels {env : Environment} {args rest : List String}
    {outer inner : Given}
    (houter : readOuter outerShape .start args = some (outer, "inspect", rest))
    (hinner : readLevel ⟨[], settingNames, 1, false⟩ .start rest = some inner)
    (hword : inner.word? = none) (hformat : hasGoodFormat env outer = true)
    (hformat' : hasGoodFormat env inner = true) :
    ∃ i, Invocation.ofArguments? env args = some i ∧ i.command = .inspect none
      ∧ spelledMode? env args = some ((setting env outer inner "mode").getD "dev") := by
  obtain ⟨settings, hsettings⟩ : ∃ settings, settings? env outer inner = some settings := by
    rw [settings?, if_pos ⟨hformat, hformat'⟩]
    exact ⟨_, rfl⟩
  refine ⟨⟨settings, .inspect inner.word?⟩, ?_, congrArg Command.inspect hword, ?_⟩
  · simp only [Invocation.ofArguments?, Option.bind_eq_bind, houter, Option.bind_some, shape?,
      hinner, command?, hsettings]
    rfl
  · simp only [spelledMode?, Option.bind_eq_bind, houter, Option.bind_some, shape?, hinner]
    rfl

/-- An event is described in any mode that can be spelled: by the option
before the name of the command, after it, or by the environment. -/
theorem exists_inspect_in_mode {env : Environment} (hformat : hasGoodFormat env .none = true)
    (v : String) :
    (∀ args ∈ [["--mode=" ++ v, "inspect"], ["inspect", "--mode=" ++ v]],
        ∃ i, Invocation.ofArguments? env args = some i ∧ i.command = .inspect none
          ∧ spelledMode? env args = some v)
      ∧ (env "EVENTKIT_MODE" = some v →
        ∃ i, Invocation.ofArguments? env ["inspect"] = some i ∧ i.command = .inspect none
          ∧ spelledMode? env ["inspect"] = some v) := by
  have hgiven : hasGoodFormat env ⟨[], [("mode", v)], []⟩ = true := hformat
  refine ⟨fun args hargs => ?_, fun hmode => ?_⟩
  · rcases List.mem_pair.mp hargs with rfl | rfl
    · have houter : readOuter outerShape .start ["--mode=" ++ v, "inspect"]
          = some (⟨[], [("mode", v)], []⟩, "inspect", []) := by
        rw [readOuter, look_mode, add_mode (by decide) (by decide)]
        rfl
      exact exists_inspect_of_levels houter rfl rfl hgiven hformat
    · have hinner : readLevel ⟨[], settingNames, 1, false⟩ .start ["--mode=" ++ v]
          = some ⟨[], [("mode", v)], []⟩ := by
        rw [readLevel, add_mode (by decide) (by decide)]
        rfl
      exact exists_inspect_of_levels rfl hinner rfl hformat hgiven
  · have hset : (setting env .none .none "mode").getD "dev" = v := by
      rw [setting, show env (variableName "mode") = some v from hmode]
      rfl
    exact hset ▸ exists_inspect_of_levels rfl rfl rfl hformat hformat

/-! ## Two calls -/

/-- A call of the command that describes an event, in production and on a
text that is an event with a token. -/
structure Inspection where
  environment : Environment
  arguments : List String
  invocation : Invocation
  spelling : String
  world : World
  input : Option String
  text : String
  event : Event
  reads : Invocation.ofArguments? environment arguments = some invocation
  command : invocation.command = .inspect input
  spelled : spelledMode? environment arguments = some spelling
  production : Mode.ofText spelling = .production
  octets : world.octets input = .ok (Text.bytes text)
  parses : Event.ofText text = .ok event
  token : event.accessToken ≠ ""

namespace Inspection

def outcome (p : Inspection) : Outcome :=
  run p.world p.invocation

theorem mode_eq (p : Inspection) : p.invocation.settings.mode = .production := by
  obtain ⟨v, hv, hmode⟩ := exists_spelledMode p.reads
  obtain rfl := Option.some.inj (p.spelled.symm.trans hv)
  exact hmode.trans p.production

theorem outcome_eq (p : Inspection) :
    p.outcome = ⟨(redactedSummary p.event.withoutToken (Verdict.ofEvent p.event)).pretty ++ "\n",
      none⟩ := by
  have hinvocation : p.invocation = ⟨p.invocation.settings, .inspect p.input⟩ := by
    rw [← p.command]
  rw [outcome, hinvocation]
  exact inspect_production p.octets p.parses p.token p.mode_eq

end Inspection

/-- In production nothing of a token is revealed except that it is there and
what it does to the verdict. Production is whatever a spelling stands for
that the command line or the environment can give. -/
theorem inspect_reveals_no_token :
    (∀ p q : Inspection, p.event.withoutToken = q.event.withoutToken →
        Verdict.ofEvent p.event = Verdict.ofEvent q.event →
          p.outcome = q.outcome ∧ p.outcome.failure = none)
      ∧ (∀ (env : Environment) (args : List String) (i : Invocation),
          Invocation.ofArguments? env args = some i →
            ∃ v, spelledMode? env args = some v ∧ i.settings.mode = Mode.ofText v)
      ∧ ∀ (env : Environment) (v : String), hasGoodFormat env .none = true →
          (∀ args ∈ [["--mode=" ++ v, "inspect"], ["inspect", "--mode=" ++ v]],
              ∃ i, Invocation.ofArguments? env args = some i ∧ i.command = .inspect none
                ∧ spelledMode? env args = some v)
            ∧ (env "EVENTKIT_MODE" = some v →
              ∃ i, Invocation.ofArguments? env ["inspect"] = some i ∧ i.command = .inspect none
                ∧ spelledMode? env ["inspect"] = some v) := by
  refine ⟨fun p q hagree hverdict => ?_, fun env args i hi => exists_spelledMode hi,
    fun env v hformat => exists_inspect_in_mode hformat v⟩
  rw [p.outcome_eq, q.outcome_eq, hagree, hverdict]
  exact ⟨rfl, rfl⟩

/-- An event with a token on standard input, and production by an option. -/
def optionInspection : Inspection where
  environment _ := none
  arguments := ["--mode=PrOd", "inspect"]
  invocation := ⟨⟨.production, "warn", .pretty⟩, .inspect none⟩
  spelling := "PrOd"
  world := ⟨Text.bytes "\x7b\"id\":\"a\",\"accessToken\":\"tok\"\x7d", fun _ => .error .missing, 0⟩
  input := none
  text := "\x7b\"id\":\"a\",\"accessToken\":\"tok\"\x7d"
  event := { Event.blank with id := "a", accessToken := "tok" }
  reads := rfl
  command := rfl
  spelled := rfl
  production := by decide
  octets := rfl
  parses := rfl
  token := by decide

/-- Another token, written in another way in a file, and production by the
environment. -/
def fileInspection : Inspection where
  environment name := if name = "EVENTKIT_MODE" then some "PRODUCTION" else none
  arguments := ["inspect", "event.json"]
  invocation := ⟨⟨.production, "warn", .pretty⟩, .inspect (some "event.json")⟩
  spelling := "PRODUCTION"
  world := ⟨[], fun _ => .ok (Text.bytes
    "\n\x7b\"accessToken\":\"\\u0073ecret\", \"id\":\"a\"\x7d\r\n"), 7⟩
  input := some "event.json"
  text := "\n\x7b\"accessToken\":\"\\u0073ecret\", \"id\":\"a\"\x7d\r\n"
  event := { Event.blank with id := "a", accessToken := "secret" }
  reads := rfl
  command := rfl
  spelled := rfl
  production := by decide
  octets := rfl
  parses := rfl
  token := by decide

theorem outcome_optionInspection :
    optionInspection.event.withoutToken = fileInspection.event.withoutToken
      ∧ Verdict.ofEvent optionInspection.event = Verdict.ofEvent fileInspection.event
      ∧ optionInspection.outcome = fileInspection.outcome
      ∧ ∃ i, Invocation.ofArguments? optionInspection.environment ["inspect", "--mode=PrOd"]
            = some i
          ∧ i.settings.mode = .production := by
  have hoption : Verdict.ofEvent optionInspection.event = .unsigned := rfl
  have hfile : Verdict.ofEvent fileInspection.event = .unsigned := rfl
  have hverdict := hoption.trans hfile.symm
  obtain ⟨hcalls, hmodes, hspellings⟩ := inspect_reveals_no_token
  obtain ⟨hoptions, -⟩ := hspellings optionInspection.environment "PrOd" rfl
  obtain ⟨i, hi, -, hspelled⟩ := hoptions ["inspect", "--mode=PrOd"] (by decide)
  obtain ⟨v, hv, hmode⟩ := hmodes _ _ _ hi
  obtain rfl := Option.some.inj (hspelled.symm.trans hv)
  refine ⟨?_, hverdict, ?_, i, hi, ?_⟩
  · rfl
  · exact (hcalls optionInspection fileInspection rfl hverdict).1
  · exact hmode.trans (by decide)

end CommandLine

end EventSeal
