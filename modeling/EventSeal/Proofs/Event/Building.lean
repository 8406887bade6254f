import EventSeal.Event.Session
import EventSeal.Proofs.Event.Canonical
import EventSeal.Proofs.Record.WireForms

/-!
# Events made field by field

A setting overwrites one field. It does not look at what the field held, nor at
the other fields. So a run of settings leaves in each field the last value that
was given for it, and the zero value where none was (`read_build`). Of the whole
run a field sees only what was given for it, in the order in which it was given.
Runs that agree in that make the same event, in whatever way the settings for
different fields are interleaved (`build_eq_of_filter_eq`).

Signing comes after the last setting and touches none of the ten fields. An
event that is written, read back and then signed is therefore the same as one
that is signed at once (`exists_reread_signed`).

Calls that have parameters to write first build what their settings build
(`buildCalls_eq`), unless some of them cannot be written. Then nothing is built,
and the first of these is the fault (`buildCalls_eq_error_iff`).
-/

namespace EventSeal

open Json

namespace Event

/-! ## Fields and what is given for them -/

deriving instance DecidableEq for Body.Field

namespace Body

abbrev Field.Content : Field → Type
  | .part _ => String
  | .createdAt => Int64

/-- What a field holds that nothing was given for. -/
def Field.zero : (f : Field) → f.Content
  | .part _ => ""
  | .createdAt => 0

def read (b : Body) : (f : Field) → f.Content
  | .part p => b.get p
  | .createdAt => b.createdAt

theorem ext_read {a b : Body} (h : ∀ f, a.read f = b.read f) : a = b :=
  ext_get (fun p => h (.part p)) (h .createdAt)

theorem read_blank (f : Field) : blank.read f = f.zero := by
  cases f with
  | part p => cases p <;> rfl
  | createdAt => rfl

end Body

namespace Setting

/-- Parameters are one field, whether a text is given for them or a value. -/
def field : Setting → Body.Field
  | .part p _ => .part p
  | .createdAt _ => .createdAt
  | .paramsValue _ => .part .params

def value : (s : Setting) → s.field.Content
  | .part _ text => text
  | .createdAt n => n
  | .paramsValue v => v.compact

/-- What the setting gives for that field. -/
def given? (f : Body.Field) (s : Setting) : Option f.Content :=
  if h : s.field = f then some (h ▸ s.value) else none

theorem given?_field (s : Setting) : s.given? s.field = some s.value :=
  dif_pos rfl

theorem given?_of_ne {f : Body.Field} {s : Setting} (h : s.field ≠ f) : s.given? f = none :=
  dif_neg h

end Setting

/-- The values that a run gives for a field, in order. -/
def given (f : Body.Field) (ss : List Setting) : List f.Content :=
  ss.filterMap (·.given? f)

theorem given_filter (f : Body.Field) (ss : List Setting) :
    given f (ss.filter fun s => s.field = f) = given f ss := by
  rw [given, given, List.filterMap_filter]
  refine List.filterMap_congr fun s _ => ?_
  by_cases h : s.field = f
  · rw [if_pos (decide_eq_true h)]
  · rw [if_neg (by simpa using h), Setting.given?_of_ne h]

/-! ## One setting -/

theorem read_setPart_self (e : Event) (p : Part) (text : String) :
    (e.setPart p text).toBody.read (.part p) = text := by
  show (e.toBody.set p text).get p = text
  rw [Body.get_set, if_pos rfl]

theorem read_setPart_of_ne {p : Part} {f : Body.Field} (h : .part p ≠ f) (e : Event)
    (text : String) : (e.setPart p text).toBody.read f = e.toBody.read f := by
  cases f with
  | part q =>
      have hne : q ≠ p := fun heq => h (congrArg Body.Field.part heq.symm)
      show (e.toBody.set p text).get q = e.toBody.get q
      rw [Body.get_set, if_neg hne]
  | createdAt => exact Body.createdAt_set e.toBody p text

namespace Setting

theorem read_apply_field (e : Event) (s : Setting) :
    (s.apply e).toBody.read s.field = s.value := by
  cases s with
  | part p text => exact read_setPart_self e p text
  | createdAt n => rfl
  | paramsValue v => exact read_setPart_self e .params v.compact

theorem read_apply_of_ne {f : Body.Field} {s : Setting} (h : s.field ≠ f) (e : Event) :
    (s.apply e).toBody.read f = e.toBody.read f := by
  cases s with
  | part p text => exact read_setPart_of_ne h e text
  | createdAt n =>
      cases f with
      | part p => cases p <;> rfl
      | createdAt => exact absurd rfl h
  | paramsValue v => exact read_setPart_of_ne h e v.compact

theorem sign_apply (e : Event) (s : Setting) : (s.apply e).sign = e.sign := by
  cases s <;> rfl

end Setting

/-! ## Runs of settings -/

theorem build_concat (ss : List Setting) (s : Setting) : build (ss ++ [s]) = s.apply (build ss) :=
  List.foldl_concat _ _ _ _

theorem sign_build (ss : List Setting) : (build ss).sign = "" := by
  induction ss using List.reverseRecOn with
  | nil => rfl
  | append_singleton ss s ih => rw [build_concat, Setting.sign_apply, ih]

theorem read_build (ss : List Setting) (f : Body.Field) :
    (build ss).toBody.read f = (given f ss).getLast?.getD f.zero := by
  induction ss using List.reverseRecOn with
  | nil => exact Body.read_blank f
  | append_singleton ss s ih =>
      rw [build_concat, given, List.filterMap_append]
      by_cases h : s.field = f
      · subst h
        rw [Setting.read_apply_field]
        simp [Setting.given?_field]
      · rw [Setting.read_apply_of_ne h, ih]
        simp [Setting.given?_of_ne h, given]

/-- The order matters only among settings for one field. -/
theorem build_eq_of_filter_eq {ss ts : List Setting}
    (h : ∀ f, (ts.filter fun s => s.field = f) = ss.filter fun s => s.field = f) :
    build ts = build ss := by
  have hbody : (build ts).toBody = (build ss).toBody := by
    refine Body.ext_read fun f => ?_
    rw [read_build, read_build, ← given_filter f ts, h f, given_filter f ss]
  have heta : ∀ ss, build ss = (build ss).toBody.withSign "" := by
    intro ss
    rw [← sign_build ss]
    rfl
  rw [heta ts, hbody, ← heta ss]

theorem exists_reread_signed (e : Event) :
    ∃ v, Envelope.ofBytes (Text.bytes e.compact) = .ok v
      ∧ (v.modify Event.signed).event = e.signed :=
  ⟨_, Envelope.ofBytes_compact e, rfl⟩

/-! ## Calls that may fail -/

theorem foldlM_call (cs : List Call) (e : Event) :
    cs.foldlM call e = (cs.mapM Call.setting).map fun ss => ss.foldl Setting.apply e := by
  induction cs generalizing e with
  | nil => rfl
  | cons c cs ih =>
      rw [List.foldlM_cons, List.mapM_cons, call]
      cases c.setting with
      | error fault => rfl
      | ok s =>
          show cs.foldlM call (s.apply e) = _
          rw [ih]
          cases cs.mapM Call.setting <;> rfl

theorem buildCalls_eq (cs : List Call) : buildCalls cs = (cs.mapM Call.setting).map build :=
  foldlM_call cs blank

/-- What keeps the call from being a setting. -/
def Call.fault? : Call → Option Unwritable
  | .params (.error cause) => some ⟨cause⟩
  | _ => none

theorem foldlM_call_eq_error_iff {cs : List Call} {e : Event} {fault : Unwritable} :
    cs.foldlM call e = .error fault ↔ cs.findSome? Call.fault? = some fault := by
  induction cs generalizing e with
  | nil => exact ⟨nofun, nofun⟩
  | cons c cs ih =>
      rw [List.foldlM_cons, List.findSome?_cons]
      cases c with
      | set s => exact ih
      | params written =>
          cases written with
          | ok text => exact ih
          | error cause =>
              constructor
              · intro h
                exact congrArg some (Except.error.inj h)
              · intro h
                exact congrArg Except.error (Option.some.inj h)

/-- Nothing is built exactly if some parameters cannot be written, and the cause
is then that of the first of them. -/
theorem buildCalls_eq_error_iff {cs : List Call} {fault : Unwritable} :
    buildCalls cs = .error fault ↔ cs.findSome? Call.fault? = some fault :=
  foldlM_call_eq_error_iff

/-! ## What is built -/

/-- A run of settings builds the event that has in each field the last value
given for it, without a seal and without a wire form. The order of settings for
different fields makes no difference to it. Signed as it is built, the event has
the same body under the seal of that body, and it is the event that comes of
writing the unsigned one, reading it back and signing it then. Calls that have
parameters to write first build what their settings build, or nothing if one of
them fails. -/
theorem each_field_holds_its_last_setting (ss : List Setting) :
    (∀ f, (build ss).toBody.read f = (given f ss).getLast?.getD f.zero)
      ∧ (build ss).sign = ""
      ∧ (∀ (s : Session) (slot : String) (signed : Bool),
          (s.step (.build slot ss signed)).1.get slot
            = some ⟨if signed then buildSigned ss else build ss, none⟩)
      ∧ (∀ ts, (∀ f, (ts.filter fun s => s.field = f) = ss.filter fun s => s.field = f) →
          build ts = build ss)
      ∧ (buildSigned ss).toBody = (build ss).toBody
      ∧ (buildSigned ss).sign = (build ss).toBody.signature.text
      ∧ (buildSigned ss).verifies = true
      ∧ (∃ v, Envelope.ofBytes (Text.bytes (build ss).compact) = .ok v
          ∧ (v.modify Event.signed).event = buildSigned ss)
      ∧ ∀ cs : List Call, buildCalls cs = (cs.mapM Call.setting).map build := by
  refine ⟨read_build ss, sign_build ss, fun s slot signed => ?_, fun ts => build_eq_of_filter_eq,
    rfl, rfl, verifies_signed (build ss), exists_reread_signed (build ss), buildCalls_eq⟩
  rw [Session.step, Session.get_put, if_pos rfl]
  rfl

/-- Three fields, each given more than one value. -/
def overwriting : List Setting :=
  [.part .id "a", .paramsValue (.array [.null]), .createdAt 3, .part .id "b", .part .params "p",
    .createdAt (-7), .paramsValue (.text "q")]

/-- The same, field by field. -/
def regrouped : List Setting :=
  [.createdAt 3, .createdAt (-7), .paramsValue (.array [.null]), .part .params "p",
    .paramsValue (.text "q"), .part .id "a", .part .id "b"]

theorem fields_of_overwriting :
    (build overwriting).id = "b"
      ∧ (build overwriting).params = "\"q\""
      ∧ (build overwriting).createdAt = -7
      ∧ (build overwriting).source = ""
      ∧ build regrouped = build overwriting
      ∧ buildCalls [.set (.part .id "a"), .params (.error "key"), .params (.error "depth")]
          = .error ⟨"key"⟩
      ∧ buildCalls [.set (.part .params "p"), .params (.ok "[1]")]
          = .ok (build [.part .params "p", .part .params "[1]"]) := by
  obtain ⟨hread, -, -, horder, -, -, -, -, hcalls⟩ := each_field_holds_its_last_setting overwriting
  refine ⟨hread (.part .id), hread (.part .params), hread .createdAt, hread (.part .source),
    horder regrouped fun f => ?_, hcalls _, hcalls _⟩
  cases f with
  | part p => cases p <;> rfl
  | createdAt => rfl

end Event

end EventSeal
