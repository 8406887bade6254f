import EventSeal.Proofs.Access.Admission
import EventSeal.Proofs.Version.Numbers

/-!
# An event fits one version

An event names its project, its entity and the label of its version, and
an admitted request has the records of just these names (`Fits`). A label
determines the numbers of a version, so two requests with one event, if the
gate admits both, have versions with the same numbers, whoever asks and
whatever else the records hold.

A bumped version is another one: its label differs, and the project does
not. So an admitted event with the next version in place of its own passes
every test up to the label and is rejected there, although the draft of the
next version is not online either.
-/

namespace EventSeal.Gate

theorem Request.check_eq_ok_iff {q : Request} :
    q.check = .ok () ↔ ∀ c : Condition, c.Holds q := by
  rw [check_eq_firstRejection, firstRejection_eq_ok_iff]
  exact ⟨fun h c => h c c.mem_all, fun h c _ => h c⟩

theorem Request.check_eq_rejection {q : Request} {c : Condition} (hfails : ¬ c.Holds q)
    (hbefore : ∀ d : Condition, d.place < c.place → d.Holds q) :
    q.check = .error (c.rejection q) := by
  rw [check_eq_firstRejection, firstRejection_eq_error_iff Condition.pairwise_place]
  exact ⟨c, c.mem_all, hfails, fun d _ => hbefore d, rfl⟩

variable {role : Role} {required : Tier} {event : Event} {entity : Entity} {version : Version}

/-- The names that an event has for what it acts on are those of the
records that it comes with. -/
structure Fits (event : Event) (entity : Entity) (version : Version) : Prop where
  code : entity.code = event.entity
  project : version.project = event.project
  label : version.label = event.version

theorem fits_of_check (h : check role required event entity version = .ok ()) :
    Fits event entity version := by
  have hholds := (Request.check_eq_ok_iff
    (q := ⟨role, required, .ofEvent event, entity, version⟩)).mp h
  refine ⟨hholds .meant, hholds .owned, ?_⟩
  rw [version.label_eq_intercalate]
  exact (hholds .labelled).symm

/-- An admitted request with another version of the project in place of
its own fails at the label. -/
theorem check_of_label_ne (h : check role required event entity version = .ok ()) {other : Version}
    (hproject : other.project = version.project) (hlabel : other.label ≠ version.label) :
    check role required event entity other
      = .error (.versionMismatch event.version other.label) := by
  have hholds := (Request.check_eq_ok_iff
    (q := ⟨role, required, .ofEvent event, entity, version⟩)).mp h
  refine Request.check_eq_rejection (q := ⟨role, required, .ofEvent event, entity, other⟩)
    (c := .labelled) (fun heq => hlabel ?_) fun d hd => ?_
  · rw [(fits_of_check h).label, other.label_eq_intercalate]
    exact heq.symm
  · cases d with
    | sealed => exact hholds .sealed
    | ranked => exact hholds .ranked
    | live => exact hholds .live
    | meant => exact hholds .meant
    | owned => exact hproject.trans (hholds .owned)
    | labelled => exact absurd hd (Nat.lt_irrefl _)
    | online => exact absurd hd (by decide)

theorem Fits.numbers_eq {entity' : Entity} {version' : Version} (h : Fits event entity version)
    (h' : Fits event entity' version') : version.numbers = version'.numbers :=
  Version.Numbers.label_injective (h.label.trans h'.label.symm)

/-- All versions that an event is admitted with have the same numbers and
the same project, and all entities the same code. With the next version, of
whatever component, it is rejected for its label. -/
theorem admits_one_version (event : Event) :
    (∀ (role₁ role₂ : Role) (required₁ required₂ : Tier) (entity₁ entity₂ : Entity)
        (version₁ version₂ : Version),
        check role₁ required₁ event entity₁ version₁ = .ok () →
        check role₂ required₂ event entity₂ version₂ = .ok () →
          version₁.compare version₂ = .eq ∧ version₁.project = version₂.project
            ∧ entity₁.code = entity₂.code)
      ∧ ∀ (role : Role) (required : Tier) (entity : Entity) (version : Version),
          check role required event entity version = .ok () →
            ∀ (c : Version.Component) (next : Version), version.bump c = .ok next →
              check role required event entity next
                = .error (.versionMismatch event.version next.label) := by
  refine ⟨?_, ?_⟩
  · intro role₁ role₂ required₁ required₂ entity₁ entity₂ version₁ version₂ h₁ h₂
    have hfits₁ := fits_of_check h₁
    have hfits₂ := fits_of_check h₂
    refine ⟨?_, hfits₁.project.trans hfits₂.project.symm, hfits₁.code.trans hfits₂.code.symm⟩
    rw [Version.compare, hfits₁.numbers_eq hfits₂]
    exact Version.Numbers.compare_self _
  · intro role required entity version h c next hnext
    obtain ⟨hproject, hnumbers⟩ := Version.bump_eq_ok hnext
    exact check_of_label_ne h hproject (Version.Numbers.label_ne_of_bump? hnumbers)

/-- For a version with a negative number and one at the limit. -/
def edgeEvent : Event :=
  { Event.blank with
    project := "p", entity := "avatar", version := "-1.9223372036854775807.0" : Event }.signed

def edgeEntity : Entity :=
  { Entity.blank with code := "avatar" }

def edgeVersion : Version :=
  { Version.blank with
    project := "p", major := -1, minor := 9223372036854775807, online := true }

/-- The version again, locked and with a note. -/
def lockedEdgeVersion : Version :=
  { edgeVersion with id := 4, locked := true, note := "frozen" }

def nextEdgeVersion : Version :=
  { Version.blank with project := "p", major := -1, minor := 9223372036854775807, patch := 1 }

theorem admits_edgeVersion_only :
    check .normal .normal edgeEvent edgeEntity edgeVersion = .ok ()
      ∧ check .superuser .admin edgeEvent edgeEntity lockedEdgeVersion = .ok ()
      ∧ edgeVersion.compare lockedEdgeVersion = .eq
      ∧ edgeVersion.bump .patch = .ok nextEdgeVersion
      ∧ check .normal .normal edgeEvent edgeEntity nextEdgeVersion
          = .error (.versionMismatch "-1.9223372036854775807.0" "-1.9223372036854775807.1") := by
  have hsealed : edgeEvent.toBody.verifies edgeEvent.sign = true :=
    Event.Body.verifies_iff.mpr rfl
  have hlabel : edgeVersion.label = "-1.9223372036854775807.0" := by decide +kernel
  have hnextLabel : nextEdgeVersion.label = "-1.9223372036854775807.1" := by decide +kernel
  have hadmitted : check .normal .normal edgeEvent edgeEntity edgeVersion = .ok () := by
    simp only [check, hsealed, Version.matchesLabel, hlabel]
    rfl
  have hlocked : check .superuser .admin edgeEvent edgeEntity lockedEdgeVersion = .ok () := by
    have hsame : lockedEdgeVersion.label = edgeVersion.label := rfl
    simp only [check, hsealed, Version.matchesLabel, hsame, hlabel]
    rfl
  have hbump : edgeVersion.bump .patch = .ok nextEdgeVersion := rfl
  have hfirst := (admits_one_version edgeEvent).1 _ _ _ _ _ _ _ _ hadmitted hlocked
  have hsecond := (admits_one_version edgeEvent).2 _ _ _ _ hadmitted _ _ hbump
  rw [hnextLabel] at hsecond
  exact ⟨hadmitted, hlocked, hfirst.1, hbump, hsecond⟩

end EventSeal.Gate
