import EventSeal.Event.Session
import EventSeal.Proofs.Record.WireForms

/-!
# The wire form over a session

A slot keeps the wire form of its event, and the event may be changed while
the wire form stays. What the octets are is settled at one of two moments:

- at a strict load, which brings them along;
- otherwise when they are first asked for, from the fields as they are then.

From that moment on they stay until the slot gets another event
(`Settled.step`), and before it nothing but the question itself can settle
them (`Fresh.step`). What a step can do to a slot is said once, in
`get_step_of_replaces` and `get_step_of_not_replaces`: it gives the slot
another event, or it settles the wire form, or it changes fields.

The wire form is also the only thing that such a question leaves behind.
Two sessions that differ at most in the wire forms of some slots (`Alike`)
answer everything else in the same way and stay alike, so questions for the
wire forms of these slots can be added to a run or left out of it.
-/

namespace EventSeal

theorem Envelope.ofBytes_eq_ok_iff {bs : List UInt8} {v : Envelope} :
    ofBytes bs = .ok v ↔ ∃ e, Event.ofBytes bs = .ok e ∧ v = ⟨e, some bs⟩ := by
  rw [ofBytes, Json.bind_eq_ok_iff]
  constructor
  · rintro ⟨e, he, hv⟩
    exact ⟨e, he, (Except.ok.inj hv).symm⟩
  · rintro ⟨e, he, rfl⟩
    exact ⟨e, he, rfl⟩

namespace Session

variable {s s' : Session} {t : Step} {ts us : List Step} {slot : String} {bytes : List UInt8}

/-! ## Runs -/

/-- The steps of a run, each with its reply. -/
def answers (s : Session) (ts : List Step) : List (Step × Reply) :=
  ts.zip (s.run ts).2

@[simp] theorem answers_cons (s : Session) (t : Step) (ts : List Step) :
    s.answers (t :: ts) = (t, (s.step t).2) :: (s.step t).1.answers ts := rfl

@[simp] theorem run_cons_fst (s : Session) (t : Step) (ts : List Step) :
    (s.run (t :: ts)).1 = ((s.step t).1.run ts).1 := rfl

theorem answers_append (s : Session) (ts us : List Step) :
    s.answers (ts ++ us) = s.answers ts ++ (s.run ts).1.answers us := by
  induction ts generalizing s with
  | nil => rfl
  | cons t ts ih =>
      rw [List.cons_append, answers_cons, answers_cons, ih, run_cons_fst, List.cons_append]

/-- No step goes without a reply. -/
theorem map_fst_answers (s : Session) (ts : List Step) : (s.answers ts).map Prod.fst = ts := by
  induction ts generalizing s with
  | nil => rfl
  | cons t ts ih => rw [answers_cons, List.map_cons, ih]

theorem length_answers (s : Session) (ts : List Step) : (s.answers ts).length = ts.length := by
  rw [← List.length_map Prod.fst, map_fst_answers]

theorem mem_of_mem_answers {r : Reply} (h : (t, r) ∈ s.answers ts) : t ∈ ts := by
  rw [← map_fst_answers s ts]
  exact List.mem_map_of_mem h

/-- A run in which every step keeps what holds of the session before it. -/
theorem run_invariant {Inv : Session → Prop} {ok : Step → Prop}
    (hstep : ∀ {s t}, Inv s → ok t → Inv (s.step t).1) (hs : Inv s) (hts : ∀ t ∈ ts, ok t) :
    Inv (s.run ts).1 := by
  induction ts generalizing s with
  | nil => exact hs
  | cons t ts ih =>
      obtain ⟨ht, hts⟩ := List.forall_mem_cons.mp hts
      exact ih (hstep hs ht) hts

/-! ## What a step does to a slot -/

/-- The step gives the slot another event, or none. A load that fails does
not. -/
def Step.Replaces (slot : String) : Step → Prop
  | .load other bs => other = slot ∧ ∃ e, Event.ofBytes bs = .ok e
  | .loadMembers other _ => other = slot
  | .build other _ _ => other = slot
  | .drop other => other = slot
  | .copy _ target => target = slot
  | _ => False

theorem step_load {bs : List UInt8} {e : Event} (h : Event.ofBytes bs = .ok e) :
    s.step (.load slot bs) = (s.put slot (some ⟨e, some bs⟩), .done) := by
  rw [step, Envelope.ofBytes_eq_ok_iff.mpr ⟨e, h, rfl⟩]

/-- Only a load brings a wire form along. -/
theorem get_step_of_replaces (h : t.Replaces slot) :
    (∃ bs e, t = .load slot bs ∧ Event.ofBytes bs = .ok e
        ∧ (s.step t).1.get slot = some ⟨e, some bs⟩)
      ∨ (∀ bs, t ≠ .load slot bs)
        ∧ ∃ o : Option Event, (s.step t).1.get slot = o.map Envelope.ofEvent := by
  cases t with
  | load other bs =>
      obtain ⟨rfl, e, he⟩ := h
      refine Or.inl ⟨bs, e, rfl, he, ?_⟩
      rw [step_load he, get_put, if_pos rfl]
  | loadMembers other m =>
      obtain rfl : other = slot := h
      refine Or.inr ⟨nofun, some (Event.ofMembers m), ?_⟩
      rw [step, get_put, if_pos rfl]
      rfl
  | build other settings signed =>
      obtain rfl : other = slot := h
      refine Or.inr ⟨nofun, some (if signed then Event.buildSigned settings
        else Event.build settings), ?_⟩
      rw [step, get_put, if_pos rfl]
      rfl
  | drop other =>
      obtain rfl : other = slot := h
      refine Or.inr ⟨nofun, none, ?_⟩
      rw [step, get_put, if_pos rfl]
      rfl
  | copy other target =>
      obtain rfl : target = slot := h
      refine Or.inr ⟨nofun, s.event other, ?_⟩
      rw [step, get_put, if_pos rfl, event, Option.map_map]
      rfl
  | _ => exact h.elim

theorem get_step_of_not_replaces (h : ¬ t.Replaces slot) :
    (t = .wire slot ∧ (s.step t).1.get slot = (s.get slot).map Envelope.settled)
      ∨ ∃ f, (s.step t).1.get slot = (s.get slot).map (·.modify f) := by
  -- a slot that the step leaves alone has its fields changed by the identity
  have hsame : ∀ {s' : Session}, s'.get slot = s.get slot →
      ∃ f, s'.get slot = (s.get slot).map (·.modify f) :=
    fun heq => ⟨id, heq.trans Option.map_id'.symm⟩
  have hother : ∀ {other : String} {v : Option Envelope}, other ≠ slot →
      ∃ f, (s.put other v).get slot = (s.get slot).map (·.modify f) := by
    intro other v hne
    exact hsame (by rw [get_put, if_neg (Ne.symm hne)])
  cases t with
  | load other bs =>
      refine Or.inr ?_
      rw [step]
      split
      · next v hv =>
        obtain ⟨e, he, -⟩ := Envelope.ofBytes_eq_ok_iff.mp hv
        exact hother fun heq => h ⟨heq, e, he⟩
      · exact hsame rfl
  | loadMembers other m => exact Or.inr (hother h)
  | build other settings signed => exact Or.inr (hother h)
  | drop other => exact Or.inr (hother h)
  | copy other target => exact Or.inr (hother h)
  | assign other a =>
      refine Or.inr ?_
      rw [step]
      split
      · next v hv =>
        by_cases hslot : other = slot
        · subst hslot
          exact ⟨(·.assign a), by rw [get_put, if_pos rfl, hv, Option.map_some]⟩
        · exact hother hslot
      · exact hsame rfl
  | sign other =>
      refine Or.inr ?_
      by_cases hslot : other = slot
      · subst hslot
        exact ⟨Event.signed, by rw [step, get_put, if_pos rfl]⟩
      · exact hother hslot
  | wire other =>
      by_cases hslot : other = slot
      · subst hslot
        exact Or.inl ⟨rfl, by rw [step, get_put, if_pos rfl]⟩
      · exact Or.inr (hother hslot)
  | _ => exact Or.inr (hsame rfl)

/-! ## Settled wire forms -/

/-- What the slot answers when it is asked for the wire form. -/
def wireForm (s : Session) (slot : String) : List UInt8 :=
  ((s.get slot).map Envelope.wireForm).getD []

theorem step_wire_snd (s : Session) (slot : String) :
    (s.step (.wire slot)).2 = .octets (s.wireForm slot) := rfl

/-- The wire form in the slot no longer depends on the fields. -/
def Settled (slot : String) (bytes : List UInt8) (s : Session) : Prop :=
  match s.get slot with
  | none => bytes = []
  | some v => v.wire = some bytes

theorem Settled.wireForm_eq (h : s.Settled slot bytes) : s.wireForm slot = bytes := by
  rw [Settled] at h
  rw [wireForm]
  split at h
  · next hget => rw [hget, h, Option.map_none, Option.getD_none]
  · next v hget => rw [hget, Option.map_some, Option.getD_some, Envelope.wireForm, h,
      Option.getD_some]

theorem Settled.step (h : s.Settled slot bytes) (ht : ¬ t.Replaces slot) :
    (s.step t).1.Settled slot bytes := by
  obtain ⟨g, hget, hkeep⟩ : ∃ g : Envelope → Envelope,
      (s.step t).1.get slot = (s.get slot).map g
        ∧ ∀ v, v.wire = some bytes → (g v).wire = some bytes := by
    obtain ⟨-, hget⟩ | ⟨f, hget⟩ := get_step_of_not_replaces (s := s) ht
    · refine ⟨_, hget, fun v hv => ?_⟩
      rw [Envelope.settled, Envelope.wireForm, hv, Option.getD_some]
    · exact ⟨_, hget, fun v hv => hv⟩
  rw [Settled] at h ⊢
  rw [hget]
  cases hv : s.get slot with
  | none =>
      rw [hv] at h
      exact h
  | some v =>
      rw [hv] at h
      exact hkeep v h

theorem settled_step_wire (s : Session) (slot : String) :
    (s.step (.wire slot)).1.Settled slot (s.wireForm slot) := by
  rw [Settled, Session.step, get_put, if_pos rfl, wireForm]
  cases s.get slot with
  | none => rfl
  | some v => rfl

theorem Settled.eq_octets (h : s.Settled slot bytes) (hts : ∀ t ∈ ts, ¬ t.Replaces slot)
    {r : Reply} (hr : (.wire slot, r) ∈ s.answers ts) : r = .octets bytes := by
  induction ts generalizing s with
  | nil => nomatch hr
  | cons t ts ih =>
      obtain ⟨ht, hts⟩ := List.forall_mem_cons.mp hts
      rcases List.mem_cons.mp hr with heq | hr
      · obtain ⟨rfl, rfl⟩ := Prod.mk.inj heq
        rw [step_wire_snd, h.wireForm_eq]
      · exact ih (h.step ht) hts hr

/-- Whatever the slot answers first, it goes on to answer. -/
theorem exists_octets (s : Session) (hts : ∀ t ∈ ts, ¬ t.Replaces slot) :
    ∃ bytes, ∀ r, (.wire slot, r) ∈ s.answers ts → r = .octets bytes := by
  by_cases hasked : .wire slot ∈ ts
  · obtain ⟨first, rest, rfl, hfirst⟩ := List.eq_append_cons_of_mem hasked
    refine ⟨(s.run first).1.wireForm slot, fun r hr => ?_⟩
    rw [answers_append, answers_cons] at hr
    rcases List.mem_append.mp hr with hr | hr
    · exact absurd (mem_of_mem_answers hr) hfirst
    · rcases List.mem_cons.mp hr with heq | hr
      · exact (Prod.mk.inj heq).2
      · refine (settled_step_wire _ slot).eq_octets (fun t ht => hts t ?_) hr
        exact List.mem_append_right _ (List.mem_cons_of_mem _ ht)
  · exact ⟨[], fun r hr => absurd (mem_of_mem_answers hr) hasked⟩

/-! ## Wire forms that are not known yet -/

/-- No wire form is known in the slot. -/
def Fresh (slot : String) (s : Session) : Prop :=
  (s.get slot).bind (·.wire) = none

theorem Fresh.step (h : s.Fresh slot) (ht : ¬ t.Replaces slot ∧ t ≠ .wire slot) :
    (s.step t).1.Fresh slot := by
  obtain ⟨rfl, -⟩ | ⟨f, hget⟩ := get_step_of_not_replaces (s := s) ht.1
  · exact absurd rfl ht.2
  · rw [Fresh, hget, Option.bind_map]
    exact h

theorem Fresh.wireForm_eq (h : s.Fresh slot) {e : Event} (he : s.event slot = some e) :
    s.wireForm slot = Text.bytes e.compact := by
  obtain ⟨v, hget, rfl⟩ := Option.map_eq_some_iff.mp he
  rw [Fresh, hget, Option.bind_some] at h
  rw [wireForm, hget, Option.map_some, Option.getD_some, Envelope.wireForm, h, Option.getD_none]

theorem fresh_step (h : t.Replaces slot) (hload : ∀ bs, t ≠ .load slot bs) :
    (s.step t).1.Fresh slot := by
  obtain ⟨bs, e, heq, -⟩ | ⟨-, o, hget⟩ := get_step_of_replaces (s := s) h
  · exact absurd heq (hload bs)
  · rw [Fresh, hget]
    cases o with
    | none => rfl
    | some e => rfl

/-- The reply to the first question is written from the fields as they are
then. -/
theorem Fresh.mem_answers (h : s.Fresh slot) {first rest : List Step} {e : Event}
    (hfirst : ∀ t ∈ first, ¬ t.Replaces slot ∧ t ≠ .wire slot)
    (he : (s.run first).1.event slot = some e) :
    (.wire slot, .octets (Text.bytes e.compact)) ∈ s.answers (first ++ .wire slot :: rest) := by
  have hfresh : (s.run first).1.Fresh slot := run_invariant Fresh.step h hfirst
  rw [answers_append, answers_cons, step_wire_snd, hfresh.wireForm_eq he]
  exact List.mem_append_right _ List.mem_cons_self

/-! ## Sessions that differ in wire forms -/

/-- The step asks for the wire form in one of those slots. -/
def Step.asksWireOf (slots : String → Bool) : Step → Bool
  | .wire slot => slots slot
  | _ => false

/-- The same events, and the same wire forms outside those slots. -/
def Alike (slots : String → Bool) (s s' : Session) : Prop :=
  ∀ slot, s.event slot = s'.event slot ∧ (slots slot = false → s.get slot = s'.get slot)

variable {slots : String → Bool}

theorem Alike.refl (s : Session) : Alike slots s s :=
  fun _ => ⟨rfl, fun _ => rfl⟩

theorem Alike.put (h : Alike slots s s') {v v' : Option Envelope}
    (hevent : v.map (·.event) = v'.map (·.event)) (hget : slots slot = false → v = v') :
    Alike slots (s.put slot v) (s'.put slot v') := by
  intro other
  rw [event, event, get_put, get_put]
  split
  · next heq =>
    subst heq
    exact ⟨hevent, hget⟩
  · exact h other

/-- A change of the fields. -/
theorem Alike.modify (h : Alike slots s s') (slot : String) (f : Event → Event) :
    Alike slots (s.put slot ((s.get slot).map (·.modify f)))
      (s'.put slot ((s'.get slot).map (·.modify f))) := by
  have hmap : ∀ s : Session, ((s.get slot).map (·.modify f)).map (·.event) = (s.event slot).map f := by
    intro s
    rw [event, Option.map_map, Option.map_map]
    rfl
  refine h.put ?_ fun hslot => by rw [(h slot).2 hslot]
  rw [hmap, hmap, (h slot).1]

theorem Alike.wire_step (h : Alike slots s s') (hslot : slots slot = true) :
    Alike slots (s.step (.wire slot)).1 s' := by
  intro other
  rw [Session.step, event, get_put]
  split
  · next heq =>
    subst heq
    refine ⟨?_, fun hother => absurd (hslot.symm.trans hother) nofun⟩
    rw [Option.map_map, ← (h other).1]
    rfl
  · exact h other

/-- The step has one answer, and it leaves the sessions alike. -/
theorem Alike.step (h : Alike slots s s') (ht : t.asksWireOf slots = false) :
    (s.step t).2 = (s'.step t).2 ∧ Alike slots (s.step t).1 (s'.step t).1 := by
  cases t with
  | load slot bs =>
      rw [Session.step, Session.step]
      split
      · exact ⟨rfl, h.put rfl fun _ => rfl⟩
      · exact ⟨rfl, h⟩
  | loadMembers slot m => exact ⟨rfl, h.put rfl fun _ => rfl⟩
  | build slot settings signed => exact ⟨rfl, h.put rfl fun _ => rfl⟩
  | drop slot => exact ⟨rfl, h.put rfl fun _ => rfl⟩
  | assign slot a =>
      have hmodify := h.modify slot (·.assign a)
      have hevent := (h slot).1
      rw [event, event] at hevent
      rw [Session.step, Session.step]
      cases hv : s.get slot with
      | none =>
          rw [hv] at hevent
          rw [Option.map_eq_none_iff.mp hevent.symm]
          exact ⟨rfl, h⟩
      | some v =>
          rw [hv] at hevent hmodify
          obtain ⟨v', hv', -⟩ := Option.map_eq_some_iff.mp hevent.symm
          rw [hv'] at hmodify ⊢
          exact ⟨rfl, hmodify⟩
  | sign slot => exact ⟨rfl, h.modify slot Event.signed⟩
  | copy slot target =>
      have hcopy : ∀ s : Session, (s.get slot).map Envelope.copy
          = (s.event slot).map Envelope.ofEvent := by
        intro s
        rw [event, Option.map_map]
        rfl
      rw [Session.step, Session.step, hcopy, hcopy, (h slot).1]
      exact ⟨rfl, h.put rfl fun _ => rfl⟩
  | wire slot =>
      have hget := (h slot).2 ht
      rw [Session.step, Session.step, hget]
      exact ⟨rfl, h.put rfl fun _ => rfl⟩
  | equal slot other =>
      rw [Session.step, Session.step, (h slot).1, (h other).1]
      exact ⟨rfl, h⟩
  | _ slot =>
      rw [Session.step, Session.step, (h slot).1]
      exact ⟨rfl, h⟩

/-- A run against the run without the questions. -/
theorem Alike.run (h : Alike slots s s') (ts : List Step) :
    (s.answers ts).filter (fun p => !p.1.asksWireOf slots)
        = s'.answers (ts.filter fun t => !t.asksWireOf slots)
      ∧ Alike slots (s.run ts).1 (s'.run (ts.filter fun t => !t.asksWireOf slots)).1 := by
  induction ts generalizing s s' with
  | nil => exact ⟨rfl, h⟩
  | cons t ts ih =>
      cases ht : t.asksWireOf slots with
      | true =>
          obtain ⟨slot, rfl, hslot⟩ : ∃ slot, t = .wire slot ∧ slots slot = true := by
            cases t with
            | wire slot => exact ⟨slot, rfl, ht⟩
            | _ => nomatch ht
          rw [answers_cons, List.filter_cons_of_neg (by simp [ht]),
            List.filter_cons_of_neg (by simp [ht])]
          exact ih (h.wire_step hslot)
      | false =>
          obtain ⟨hreply, hnext⟩ := h.step ht
          obtain ⟨hanswers, hend⟩ := ih hnext
          rw [answers_cons, List.filter_cons_of_pos (by simp [ht]),
            List.filter_cons_of_pos (by simp [ht]), answers_cons, hreply, hanswers]
          exact ⟨rfl, hend⟩

/-- Runs that differ in such questions only. -/
theorem answers_filter_eq (s : Session)
    (h : ts.filter (fun t => !t.asksWireOf slots) = us.filter fun t => !t.asksWireOf slots) :
    (s.answers ts).filter (fun p => !p.1.asksWireOf slots)
        = (s.answers us).filter (fun p => !p.1.asksWireOf slots)
      ∧ ∀ slot, (s.run ts).1.event slot = (s.run us).1.event slot := by
  have hs : Alike slots s s := Alike.refl s
  obtain ⟨hts, htsEnd⟩ := hs.run ts
  obtain ⟨hus, husEnd⟩ := hs.run us
  refine ⟨by rw [hts, hus, h], fun slot => ?_⟩
  rw [(htsEnd slot).1, (husEnd slot).1, h]

/-! ## The wire form between two replacements -/

/-- From one replacement of the event in a slot to the next, all questions
for the wire form are answered with the same octets: those of the load, or
else the compact text of the event at the first question. Both read back as
that event. Such questions show nowhere else, whatever slots they are about
and wherever in the run they are added or left out. -/
theorem wire_form_kept_between_replacements (s : Session) :
    (∀ slot t life, Step.Replaces slot t → (∀ u ∈ life, ¬ Step.Replaces slot u) →
        ∃ bytes, (∀ r, (.wire slot, r) ∈ (s.step t).1.answers life → r = .octets bytes)
          ∧ (∀ bs, t = .load slot bs → bytes = bs
              ∧ ∃ e, (s.step t).1.event slot = some e ∧ Event.ofBytes bytes = .ok e)
          ∧ ((∀ bs, t ≠ .load slot bs) → ∀ first rest e, life = first ++ .wire slot :: rest →
              .wire slot ∉ first → ((s.step t).1.run first).1.event slot = some e →
              bytes = Text.bytes e.compact ∧ Event.ofBytes bytes = .ok e))
      ∧ ∀ (slots : String → Bool) (before after after' : List Step),
          after.filter (fun t => !t.asksWireOf slots)
            = after'.filter (fun t => !t.asksWireOf slots) →
          (s.answers (before ++ after)).take before.length
              = (s.answers (before ++ after')).take before.length
            ∧ (s.answers (before ++ after)).filter (fun p => !p.1.asksWireOf slots)
              = (s.answers (before ++ after')).filter (fun p => !p.1.asksWireOf slots)
            ∧ ∀ slot, (s.run (before ++ after)).1.event slot
              = (s.run (before ++ after')).1.event slot := by
  refine ⟨fun slot t life ht hlife => ?_, fun slots before after after' h => ?_⟩
  · rcases get_step_of_replaces (s := s) ht with ⟨bs, e, rfl, he, hget⟩ | ⟨hload, -⟩
    · have hsettled : (s.step (.load slot bs)).1.Settled slot bs := by
        rw [Settled, hget]
      have hevent : (s.step (.load slot bs)).1.event slot = some e := by
        rw [event, hget, Option.map_some]
      refine ⟨bs, fun r hr => hsettled.eq_octets hlife hr, ?_, fun hload => absurd rfl (hload bs)⟩
      rintro _ ⟨⟩
      exact ⟨rfl, e, hevent, he⟩
    · obtain ⟨bytes, hbytes⟩ := exists_octets (s.step t).1 hlife
      refine ⟨bytes, hbytes, fun bs heq => absurd heq (hload bs), ?_⟩
      rintro - first rest e rfl hfirst he
      have hkept : ∀ u ∈ first, ¬ u.Replaces slot ∧ u ≠ .wire slot := by
        intro u hu
        refine ⟨hlife u (List.mem_append_left _ hu), ?_⟩
        rintro rfl
        exact hfirst hu
      have hreply := hbytes _ ((fresh_step ht hload).mem_answers hkept he)
      obtain rfl := Reply.octets.inj hreply
      exact ⟨rfl, Event.ofBytes_compact e⟩
  · have hfilter : (before ++ after).filter (fun t => !t.asksWireOf slots)
        = (before ++ after').filter fun t => !t.asksWireOf slots := by
      rw [List.filter_append, List.filter_append, h]
    obtain ⟨hanswers, hevents⟩ := answers_filter_eq s hfilter
    refine ⟨?_, hanswers, hevents⟩
    rw [answers_append, answers_append, List.take_left' (length_answers s before),
      List.take_left' (length_answers s before)]

/-- Not as it would be written: it has blanks, and most members are missing. -/
def spacedText : String :=
  " \x7b \"id\" : \"a\" \x7d "

/-- Changes of the event in a slot, with questions between them. -/
def editing : List Step :=
  [.assign "a" (.part .id "x"), .wire "a", .sign "a", .copy "a" "b", .assign "a" (.createdAt 7),
    .wire "a"]

/-- The slot with the event that was loaded. -/
def loaded : Session :=
  (empty.step (.load "a" (Text.bytes spacedText))).1

/-- The slot after the changes, copied onto itself. -/
def recopied : Session :=
  ((loaded.run editing).1.step (.copy "a" "a")).1

theorem not_replaces_of_mem_editing : ∀ u ∈ editing, ¬ u.Replaces "a" := by
  have hb : "b" ≠ "a" := by decide
  simp only [editing, List.forall_mem_cons, Step.Replaces, not_false_eq_true, true_and]
  exact ⟨hb, nofun⟩

theorem wire_form_of_spacedText :
    (∀ r, (.wire "a", r) ∈ loaded.answers editing → r = .octets (Text.bytes spacedText))
      ∧ (∃ e, e.id = "x" ∧ e.createdAt = 7 ∧ Event.ofBytes (Text.bytes e.compact) = .ok e
          ∧ ∀ r, (.wire "a", r) ∈ recopied.answers editing → r = .octets (Text.bytes e.compact))
      ∧ (empty.answers (.build "a" [] false :: editing)).filter
            (fun p => !p.1.asksWireOf fun _ => true)
          = (empty.answers (.build "a" [] false :: .wire "a" :: editing)).filter
            (fun p => !p.1.asksWireOf fun _ => true) := by
  have hevent : Event.ofBytes (Text.bytes spacedText) = .ok { Event.blank with id := "a" } := rfl
  obtain ⟨bytes, hbytes, hloaded, -⟩ := (wire_form_kept_between_replacements empty).1 "a"
    (.load "a" (Text.bytes spacedText)) editing ⟨rfl, _, hevent⟩ not_replaces_of_mem_editing
  obtain ⟨copied, hcopied, -, hwritten⟩ :=
    (wire_form_kept_between_replacements (loaded.run editing).1).1 "a" (.copy "a" "a") editing rfl
      not_replaces_of_mem_editing
  have hquestions := (wire_form_kept_between_replacements empty).2 (fun _ => true)
    [.build "a" [] false] editing (.wire "a" :: editing) rfl
  refine ⟨?_, ?_, hquestions.2.1⟩
  · obtain ⟨rfl, -⟩ := hloaded _ rfl
    exact hbytes
  · obtain ⟨rfl, hread⟩ := hwritten nofun [.assign "a" (.part .id "x")] _ _ rfl (by simp) rfl
    exact ⟨_, rfl, rfl, hread, hcopied⟩

end Session

end EventSeal
