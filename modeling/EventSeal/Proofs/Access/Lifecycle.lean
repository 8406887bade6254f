import EventSeal.Proofs.Access.Deployment

/-!
# Entities over time

An edit writes to one of two places of an entity: deleting and restoring to
its mark, the three fields that say whether, by whom and when, and recoding
to its code. An edit overwrites its place and does not look at it, so after
a run of edits each place is as the last edit with that target left it,
whatever came before, and as it was at the start if there was none
(`Target.Owns.editAll_eq`, `Target.Owns.exists_edit_of_isLast`).

A mark says that the entity is deleted if its time is not zero. So the last
deletion or restoration of a run decides whether the entity is deleted at
the end (`deletedAt_editAll_ne_zero_iff`), and a deletion at time zero makes
a deleted entity live again. The gate goes by that, and after it by the code
(`check_of_other_conditions`).
-/

namespace EventSeal

namespace Entity

/-- What says whether, by whom and when an entity was deleted or restored. -/
structure Mark where
  deletedAt : Int64
  deletedBy : String
  updatedAt : Int64
deriving DecidableEq

def mark (e : Entity) : Mark :=
  ⟨e.deletedAt, e.deletedBy, e.updatedAt⟩

/-! ## What an edit writes -/

inductive Target
  | mark
  | code
deriving DecidableEq

def Edit.target : Edit → Target
  | .delete _ _ => .mark
  | .restore _ => .mark
  | .recode _ => .code

/-- Edits with another target leave this part of an entity alone. -/
def Target.Owns {α : Type} (t : Target) (view : Entity → α) : Prop :=
  ∀ (e : Entity) (c : Edit), c.target ≠ t → view (e.edit c) = view e

theorem owns_mark : Target.mark.Owns mark := by
  intro e c hc
  cases c with
  | delete actor time => exact absurd rfl hc
  | restore time => exact absurd rfl hc
  | recode code => rfl

theorem owns_code : Target.code.Owns code := by
  intro e c hc
  cases c with
  | delete actor time => rfl
  | restore time => rfl
  | recode code => exact absurd rfl hc

/-! ## Runs of edits -/

theorem editAll_append (e : Entity) (cs ds : List Edit) :
    e.editAll (cs ++ ds) = (e.editAll cs).editAll ds := by
  unfold editAll
  exact List.foldl_append

/-- `c` is the last edit of the run that has the target. -/
structure IsLast (t : Target) (cs : List Edit) (c : Edit) : Prop where
  target_eq : c.target = t
  split : ∃ before after, cs = before ++ c :: after ∧ ∀ d ∈ after, d.target ≠ t

theorem forall_target_ne_or_exists_isLast (t : Target) (cs : List Edit) :
    (∀ c ∈ cs, c.target ≠ t) ∨ ∃ c, IsLast t cs c := by
  induction cs with
  | nil => exact Or.inl (by simp)
  | cons c cs ih =>
      rcases ih with hnone | ⟨d, htarget, before, after, rfl, hafter⟩
      · by_cases hc : c.target = t
        · exact Or.inr ⟨c, hc, [], cs, rfl, hnone⟩
        · exact Or.inl (List.forall_mem_cons.mpr ⟨hc, hnone⟩)
      · exact Or.inr ⟨d, htarget, c :: before, after, rfl, hafter⟩

section Views

variable {α : Type} {t : Target} {view : Entity → α} {cs : List Edit}

theorem Target.Owns.editAll_eq (h : t.Owns view) (hcs : ∀ c ∈ cs, c.target ≠ t) (e : Entity) :
    view (e.editAll cs) = view e := by
  induction cs generalizing e with
  | nil => rfl
  | cons c cs ih =>
      obtain ⟨hc, hcs⟩ := List.forall_mem_cons.mp hcs
      exact (ih hcs (e.edit c)).trans (h e c hc)

/-- After the last edit with the target nothing happens to its place. -/
theorem Target.Owns.exists_edit_of_isLast (h : t.Owns view) {c : Edit} (hlast : IsLast t cs c)
    (e : Entity) : ∃ d : Entity, view (e.editAll cs) = view (d.edit c) := by
  obtain ⟨-, before, after, rfl, hafter⟩ := hlast
  refine ⟨e.editAll before, ?_⟩
  rw [editAll_append]
  exact h.editAll_eq hafter ((e.editAll before).edit c)

end Views

section Runs

variable {e : Entity} {cs : List Edit}

theorem mark_editAll_of_delete {actor : String} {time : Int64}
    (h : IsLast .mark cs (.delete actor time)) :
    (e.editAll cs).mark = ⟨time, actor, time⟩ := by
  obtain ⟨d, hd⟩ := owns_mark.exists_edit_of_isLast h e
  exact hd

theorem mark_editAll_of_restore {time : Int64} (h : IsLast .mark cs (.restore time)) :
    (e.editAll cs).mark = ⟨0, "", time⟩ := by
  obtain ⟨d, hd⟩ := owns_mark.exists_edit_of_isLast h e
  exact hd

theorem code_editAll_of_recode {code : String} (h : IsLast .code cs (.recode code)) :
    (e.editAll cs).code = code := by
  obtain ⟨d, hd⟩ := owns_code.exists_edit_of_isLast h e
  exact hd

/-- An entity but for what edits write. -/
def plain (e : Entity) : Entity :=
  { e with code := "", deletedAt := 0, deletedBy := "", updatedAt := 0 }

theorem plain_editAll (e : Entity) (cs : List Edit) : (e.editAll cs).plain = e.plain := by
  induction cs generalizing e with
  | nil => rfl
  | cons c cs ih =>
      have hstep : (e.edit c).plain = e.plain := by
        cases c <;> rfl
      exact (ih (e.edit c)).trans hstep

/-- The run ends with the entity deleted: by a deletion at a time other than
zero after which nothing is deleted or restored, or from the start. -/
def EndsDeleted (e : Entity) (cs : List Edit) : Prop :=
  (∃ actor time, IsLast .mark cs (.delete actor time) ∧ time ≠ 0)
    ∨ (∀ c ∈ cs, c.target ≠ .mark) ∧ e.deletedAt ≠ 0

theorem deletedAt_editAll_ne_zero_iff : (e.editAll cs).deletedAt ≠ 0 ↔ EndsDeleted e cs := by
  constructor
  · intro hdeleted
    rcases forall_target_ne_or_exists_isLast .mark cs with hnone | ⟨c, hlast⟩
    · have hstart : (e.editAll cs).deletedAt = e.deletedAt :=
        congrArg Mark.deletedAt (owns_mark.editAll_eq hnone e)
      rw [hstart] at hdeleted
      exact Or.inr ⟨hnone, hdeleted⟩
    · cases c with
      | delete actor time =>
          have htime : (e.editAll cs).deletedAt = time :=
            congrArg Mark.deletedAt (mark_editAll_of_delete hlast)
          rw [htime] at hdeleted
          exact Or.inl ⟨actor, time, hlast, hdeleted⟩
      | restore time =>
          have hzero : (e.editAll cs).deletedAt = 0 :=
            congrArg Mark.deletedAt (mark_editAll_of_restore hlast)
          exact absurd hzero hdeleted
      | recode code => exact nomatch hlast.target_eq
  · rintro (⟨actor, time, hlast, htime⟩ | ⟨hnone, hstart⟩)
    · have hdeleted : (e.editAll cs).deletedAt = time :=
        congrArg Mark.deletedAt (mark_editAll_of_delete hlast)
      rw [hdeleted]
      exact htime
    · have hkept : (e.editAll cs).deletedAt = e.deletedAt :=
        congrArg Mark.deletedAt (owns_mark.editAll_eq hnone e)
      rw [hkept]
      exact hstart

end Runs

end Entity

/-! ## At the gate -/

namespace Gate

/-- Where the other conditions hold, the entity decides: first whether it is
live, then its code. -/
theorem check_of_other_conditions {q : Request}
    (h : ∀ c : Condition, c ≠ .live → c ≠ .meant → c.Holds q) :
    (q.check = .error (.entityDeleted q.entity.code) ↔ q.entity.deletedAt ≠ 0)
      ∧ (q.check = .error (.entityMismatch q.envelope.event.entity q.entity.code) ↔
          q.entity.deletedAt = 0 ∧ q.entity.code ≠ q.envelope.event.entity)
      ∧ (q.check = .ok () ↔
          q.entity.deletedAt = 0 ∧ q.entity.code = q.envelope.event.entity) := by
  by_cases hlive : Condition.live.Holds q
  · by_cases hmeant : Condition.meant.Holds q
    · have hadmitted : q.check = .ok () := by
        rw [Request.check_eq_ok_iff]
        intro c
        by_cases hc : c = .live
        · exact hc ▸ hlive
        · by_cases hc' : c = .meant
          · exact hc' ▸ hmeant
          · exact h c hc hc'
      have hzero : q.entity.deletedAt = 0 := hlive
      have hcode : q.entity.code = q.envelope.event.entity := hmeant
      simp [hadmitted, hzero, hcode]
    · have hrejected : q.check
          = .error (.entityMismatch q.envelope.event.entity q.entity.code) := by
        refine Request.check_eq_rejection (c := .meant) hmeant fun d hd => ?_
        cases d with
        | live => exact hlive
        | sealed | ranked => exact h _ nofun nofun
        | _ => exact absurd hd (by decide)
      have hzero : q.entity.deletedAt = 0 := hlive
      have hcode : q.entity.code ≠ q.envelope.event.entity := hmeant
      simp [hrejected, hzero, hcode]
  · have hrejected : q.check = .error (.entityDeleted q.entity.code) := by
      refine Request.check_eq_rejection (c := .live) hlive fun d hd => ?_
      cases d with
      | sealed | ranked => exact h _ nofun nofun
      | _ => exact absurd hd (by decide)
    have hdeleted : q.entity.deletedAt ≠ 0 := hlive
    simp [hrejected, hdeleted]

/-- After any run of edits the mark of an entity is that of the last deletion
or restoration, its code the last one given, and the rest as at the start.
Where nothing else speaks against a request, the gate refuses it for a
deleted entity exactly if the run ends with the entity deleted, then for
another code, and admits it if neither is so. -/
theorem edited_entity_answered (e : Entity) (cs : List Entity.Edit) :
    (∀ actor time, Entity.IsLast .mark cs (.delete actor time) →
        (e.editAll cs).mark = { deletedAt := time, deletedBy := actor, updatedAt := time })
      ∧ (∀ time, Entity.IsLast .mark cs (.restore time) →
          (e.editAll cs).mark = { deletedAt := 0, deletedBy := "", updatedAt := time })
      ∧ ((∀ c ∈ cs, c.target ≠ .mark) → (e.editAll cs).mark = e.mark)
      ∧ (∀ code, Entity.IsLast .code cs (.recode code) → (e.editAll cs).code = code)
      ∧ ((∀ c ∈ cs, c.target ≠ .code) → (e.editAll cs).code = e.code)
      ∧ (e.editAll cs).plain = e.plain
      ∧ ∀ q : Request, q.entity = e.editAll cs →
          (∀ c : Condition, c ≠ .live → c ≠ .meant → c.Holds q) →
            (q.check = .error (.entityDeleted q.entity.code) ↔ Entity.EndsDeleted e cs)
              ∧ (q.check = .error (.entityMismatch q.envelope.event.entity q.entity.code) ↔
                  ¬ Entity.EndsDeleted e cs ∧ q.entity.code ≠ q.envelope.event.entity)
              ∧ (q.check = .ok () ↔
                  ¬ Entity.EndsDeleted e cs ∧ q.entity.code = q.envelope.event.entity) := by
  refine ⟨fun _ _ => Entity.mark_editAll_of_delete, fun _ => Entity.mark_editAll_of_restore,
    fun hnone => Entity.owns_mark.editAll_eq hnone e, fun _ => Entity.code_editAll_of_recode,
    fun hnone => Entity.owns_code.editAll_eq hnone e, Entity.plain_editAll e cs, ?_⟩
  intro q hq hothers
  have hdeleted : q.entity.deletedAt ≠ 0 ↔ Entity.EndsDeleted e cs := by
    rw [hq]
    exact Entity.deletedAt_editAll_ne_zero_iff
  rw [← hdeleted, not_not]
  exact check_of_other_conditions hothers

/-- A normal caller, and an event for the avatar, which has been edited. -/
def editedRequest (cs : List Entity.Edit) : Request where
  role := .normal
  required := .normal
  envelope := .ofEvent { Event.blank with entity := "avatar", version := "0.0.0" : Event }.signed
  entity := { Entity.blank with code := "avatar" }.editAll cs
  version := { Version.blank with online := true }

theorem holds_editedRequest (cs : List Entity.Edit) (c : Condition) (hlive : c ≠ .live)
    (hmeant : c ≠ .meant) : c.Holds (editedRequest cs) := by
  cases c with
  | sealed => exact Event.Body.text_signature _
  | ranked =>
      have hnormal : Tier.normal.Contains Role.normal.rank.toInt := ⟨by decide, by decide⟩
      exact Or.inl hnormal
  | live => exact absurd rfl hlive
  | meant => exact absurd rfl hmeant
  | owned => rfl
  | labelled =>
      rw [← Condition.passes_iff]
      show ({ Version.blank with online := true } : Version).matchesLabel "0.0.0" = true
      rfl
  | online => rfl

/-- Deleted and recoded, the avatar is deleted whatever it is called. A
restoration or a deletion at time zero makes it live again, and then its
code decides. -/
theorem edited_avatar_answered :
    (editedRequest [.delete "ops" 5, .recode "badge"]).check = .error (.entityDeleted "badge")
      ∧ (editedRequest [.delete "ops" 5, .restore 7, .recode "badge"]).check
          = .error (.entityMismatch "avatar" "badge")
      ∧ (editedRequest [.recode "badge", .delete "ops" 5, .recode "avatar", .delete "me" 0]).check
          = .ok ()
      ∧ ({ Entity.blank with code := "avatar" }.editAll
            [.delete "ops" 5, .recode "badge"]).mark = ⟨5, "ops", 5⟩ := by
  have hdelete : Entity.IsLast .mark [.delete "ops" 5, .recode "badge"] (.delete "ops" 5) :=
    ⟨rfl, [], [.recode "badge"], rfl, by simp [Entity.Edit.target]⟩
  have hanswers := fun cs =>
    (edited_entity_answered { Entity.blank with code := "avatar" } cs).2.2.2.2.2.2
      (editedRequest cs) rfl (holds_editedRequest cs)
  refine ⟨?_, ?_, ?_, ?_⟩
  · exact (hanswers _).1.mpr (Or.inl ⟨"ops", 5, hdelete, by decide⟩)
  · refine (hanswers _).2.1.mpr ⟨?_, by decide⟩
    rw [← Entity.deletedAt_editAll_ne_zero_iff]
    decide
  · refine (hanswers _).2.2.mpr ⟨?_, rfl⟩
    rw [← Entity.deletedAt_editAll_ne_zero_iff]
    decide
  · exact (edited_entity_answered _ _).1 "ops" 5 hdelete

end Gate

end EventSeal
