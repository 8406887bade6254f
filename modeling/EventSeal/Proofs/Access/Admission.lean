import EventSeal.Event.Envelope
import EventSeal.Gate
import EventSeal.Proofs.Access.Tiers
import EventSeal.Proofs.Event.Sealing

/-!
# What the gate admits

The gate is a chain of tests, and each test stands for a condition on the
request (`Condition.Holds`). The conditions are stated without the functions
that the gate calls: the seal as the digest of the ten fields, the tier as
a range of ranks, the label as three numbers with points between them.

The gate is the walk through the list of conditions that stops at the first
one not met (`check_eq_firstRejection`). It gets to the end exactly if all
seven hold (`firstRejection_eq_ok_iff`), and it stops where one fails after
others that hold (`firstRejection_eq_error_iff`). So requests that the
conditions cannot tell apart have one answer (`check_congr`).
-/

namespace EventSeal

theorem Version.label_eq_intercalate (v : Version) :
    v.label = ".".intercalate
      [Decimal.ofInt v.major.toInt, Decimal.ofInt v.minor.toInt, Decimal.ofInt v.patch.toInt] := by
  rw [String.intercalate_cons_cons, String.intercalate_cons_cons, String.intercalate_singleton]
  simp only [label, numbers, Numbers.label, String.append_assoc]

namespace Gate

/-- What the gate is asked. The event comes with its wire form, if that is
known, and the records come whole. -/
structure Request where
  role : Role
  required : Tier
  envelope : Envelope
  entity : Entity
  version : Version

def Request.check (q : Request) : Except Rejection Unit :=
  Gate.check q.role q.required q.envelope.event q.entity q.version

/-! ## Conditions -/

/-- In the order in which they are tested. -/
inductive Condition
  | sealed
  | ranked
  | live
  | meant
  | owned
  | labelled
  | online
deriving DecidableEq

namespace Condition

def all : List Condition :=
  [sealed, ranked, live, meant, owned, labelled, online]

theorem mem_all (c : Condition) : c ∈ all := by
  cases c <;> decide

def place : Condition → Nat
  | sealed => 0
  | ranked => 1
  | live => 2
  | meant => 3
  | owned => 4
  | labelled => 5
  | online => 6

theorem pairwise_place : all.Pairwise fun c d => c.place < d.place := by
  decide

def Holds (q : Request) : Condition → Prop
  | sealed => q.envelope.event.sign
      = Text.hex (Sha1.digest (q.envelope.event.signedTexts.flatMap Text.bytes))
  | ranked => q.required.Contains q.role.rank.toInt
      ∨ q.role.rank.toInt = 2147483647 ∧ Tier.normal.level ≤ q.required.level
  | live => q.entity.deletedAt = 0
  | meant => q.entity.code = q.envelope.event.entity
  | owned => q.version.project = q.envelope.event.project
  | labelled => q.envelope.event.version = ".".intercalate
      [Decimal.ofInt q.version.major.toInt, Decimal.ofInt q.version.minor.toInt,
        Decimal.ofInt q.version.patch.toInt]
  | online => q.version.online = true

/-- What a request is rejected for that does not meet the condition. -/
def rejection (q : Request) : Condition → Rejection
  | sealed => .badSignature
  | ranked => .forbidden q.role q.required
  | live => .entityDeleted q.entity.code
  | meant => .entityMismatch q.envelope.event.entity q.entity.code
  | owned => .projectMismatch q.envelope.event.project q.version.project
  | labelled => .versionMismatch q.envelope.event.version q.version.label
  | online => .versionOffline q.version.label

/-- The test that the gate makes. -/
def passes (q : Request) : Condition → Bool
  | sealed => q.envelope.event.toBody.verifies q.envelope.event.sign
  | ranked => q.role.satisfies q.required
  | live => !q.entity.isDeleted
  | meant => q.entity.code == q.envelope.event.entity
  | owned => q.version.project == q.envelope.event.project
  | labelled => q.version.matchesLabel q.envelope.event.version
  | online => q.version.online

theorem passes_iff {q : Request} {c : Condition} : c.passes q = true ↔ c.Holds q := by
  cases c with
  | sealed =>
      rw [passes, Event.Body.verifies_iff, Event.Body.text_signature]
      rfl
  | ranked =>
      rw [passes, Role.satisfies_iff]
      rfl
  | live =>
      rw [passes, Entity.isDeleted, bne, Bool.not_not, beq_iff_eq]
      rfl
  | meant =>
      rw [passes, beq_iff_eq]
      rfl
  | owned =>
      rw [passes, beq_iff_eq]
      rfl
  | labelled =>
      rw [passes, Version.matchesLabel, beq_iff_eq, Version.label_eq_intercalate, eq_comm]
      rfl
  | online => exact Iff.rfl

theorem passes_eq_false_iff {q : Request} {c : Condition} : c.passes q = false ↔ ¬ c.Holds q := by
  rw [← passes_iff, Bool.not_eq_true]

/-- The reason tells which condition it was. -/
theorem rejection_injective {q : Request} {c d : Condition}
    (h : c.rejection q = d.rejection q) : c = d := by
  cases c <;> cases d <;> first | rfl | nomatch h

end Condition

/-! ## The first condition that fails -/

/-- Tests the conditions of a list one after the other. -/
def firstRejection (q : Request) : List Condition → Except Rejection Unit
  | [] => .ok ()
  | c :: cs => if c.passes q = false then .error (c.rejection q) else firstRejection q cs

theorem check_eq_firstRejection (q : Request) : q.check = firstRejection q Condition.all := by
  simp only [Request.check, Gate.check, firstRejection, Condition.all, Condition.passes,
    Condition.rejection, Bool.not_eq_false', beq_eq_false_iff_ne]
  rfl

theorem firstRejection_eq_ok_iff {q : Request} {cs : List Condition} :
    firstRejection q cs = .ok () ↔ ∀ c ∈ cs, c.Holds q := by
  induction cs with
  | nil => exact iff_of_true rfl nofun
  | cons c cs ih =>
      rw [firstRejection, List.forall_mem_cons, ← ih]
      split
      · next h =>
        exact iff_of_false nofun fun hall => Condition.passes_eq_false_iff.mp h hall.1
      · next h =>
        rw [Bool.not_eq_false, Condition.passes_iff] at h
        exact (and_iff_right h).symm

theorem firstRejection_eq_error_iff {q : Request} {r : Rejection} {cs : List Condition}
    (hcs : cs.Pairwise fun c d => c.place < d.place) :
    firstRejection q cs = .error r ↔
      ∃ c ∈ cs, ¬ c.Holds q ∧ (∀ d ∈ cs, d.place < c.place → d.Holds q)
        ∧ r = c.rejection q := by
  induction cs with
  | nil =>
      refine iff_of_false nofun ?_
      rintro ⟨c, hc, -⟩
      nomatch hc
  | cons c cs ih =>
      obtain ⟨hfirst, hcs⟩ := List.pairwise_cons.mp hcs
      rw [firstRejection]
      split
      · next h =>
        rw [Condition.passes_eq_false_iff] at h
        constructor
        · intro heq
          refine ⟨c, List.mem_cons_self, h, fun d hd hlt => ?_, (Except.error.inj heq).symm⟩
          rcases List.mem_cons.mp hd with rfl | hd
          · exact absurd hlt (Nat.lt_irrefl _)
          · exact absurd hlt (Nat.lt_asymm (hfirst d hd))
        · rintro ⟨d, hd, -, hbefore, rfl⟩
          rcases List.mem_cons.mp hd with rfl | hd
          · rfl
          · exact absurd (hbefore c List.mem_cons_self (hfirst d hd)) h
      · next h =>
        rw [Bool.not_eq_false, Condition.passes_iff] at h
        rw [ih hcs]
        constructor
        · rintro ⟨d, hd, hfails, hbefore, hr⟩
          exact ⟨d, List.mem_cons_of_mem _ hd, hfails,
            List.forall_mem_cons.mpr ⟨fun _ => h, hbefore⟩, hr⟩
        · rintro ⟨d, hd, hfails, hbefore, hr⟩
          rcases List.mem_cons.mp hd with rfl | hd
          · exact absurd h hfails
          · exact ⟨d, hd, hfails, fun b hb => hbefore b (List.mem_cons_of_mem _ hb), hr⟩

/-- Requests that the conditions do not tell apart, nor their reasons. -/
theorem check_congr {q q' : Request} (hholds : ∀ c : Condition, c.Holds q ↔ c.Holds q')
    (hreasons : ∀ c : Condition, c.rejection q = c.rejection q') : q.check = q'.check := by
  have hpasses : ∀ c : Condition, c.passes q = c.passes q' := by
    intro c
    rw [Bool.eq_iff_iff, Condition.passes_iff, Condition.passes_iff]
    exact hholds c
  have hlists : ∀ cs, firstRejection q cs = firstRejection q' cs := by
    intro cs
    induction cs with
    | nil => rfl
    | cons c cs ih => rw [firstRejection, firstRejection, hpasses, hreasons, ih]
  rw [check_eq_firstRejection, check_eq_firstRejection, hlists]

/-- Two requests that are alike in what the conditions are about. Nothing
is asked of the wire form of the event, of the other fields of the entity
and of the version, or of when the entity was deleted if it was. -/
structure Request.Alike (q q' : Request) : Prop where
  role : q.role = q'.role
  required : q.required = q'.required
  event : q.envelope.event = q'.envelope.event
  deletedAt : q.entity.deletedAt = 0 ↔ q'.entity.deletedAt = 0
  code : q.entity.code = q'.entity.code
  project : q.version.project = q'.version.project
  numbers : q.version.numbers = q'.version.numbers
  online : q.version.online = q'.version.online

theorem Request.Alike.check_eq {q q' : Request} (h : q.Alike q') : q.check = q'.check := by
  have hlabel : q.version.label = q'.version.label := congrArg Version.Numbers.label h.numbers
  refine check_congr (fun c => ?_) fun c => ?_
  · rw [← Condition.passes_iff, ← Condition.passes_iff]
    cases c with
    | sealed => rw [Condition.passes, Condition.passes, h.event]
    | ranked => rw [Condition.passes, Condition.passes, h.role, h.required]
    | live =>
        rw [Condition.passes_iff, Condition.passes_iff]
        exact h.deletedAt
    | meant => rw [Condition.passes, Condition.passes, h.code, h.event]
    | owned => rw [Condition.passes, Condition.passes, h.project, h.event]
    | labelled =>
        rw [Condition.passes, Condition.passes, Version.matchesLabel, Version.matchesLabel, hlabel,
          h.event]
    | online => rw [Condition.passes, Condition.passes, h.online]
  · cases c with
    | sealed => rfl
    | ranked => rw [Condition.rejection, Condition.rejection, h.role, h.required]
    | live => rw [Condition.rejection, Condition.rejection, h.code]
    | meant => rw [Condition.rejection, Condition.rejection, h.code, h.event]
    | owned => rw [Condition.rejection, Condition.rejection, h.project, h.event]
    | labelled => rw [Condition.rejection, Condition.rejection, hlabel, h.event]
    | online => rw [Condition.rejection, Condition.rejection, hlabel]

/-- The gate admits what meets the seven conditions, rejects the rest for
the first that fails, and looks at nothing else. -/
theorem admits_iff_conditions (q : Request) :
    (q.check = .ok () ↔ ∀ c : Condition, c.Holds q)
      ∧ (∀ c : Condition, q.check = .error (c.rejection q) ↔
          ¬ c.Holds q ∧ ∀ d : Condition, d.place < c.place → d.Holds q)
      ∧ (∀ r, q.check = .error r → ∃ c : Condition, r = c.rejection q)
      ∧ ∀ q' : Request, q.Alike q' → q.check = q'.check := by
  have herror := fun r => firstRejection_eq_error_iff (q := q) (r := r) Condition.pairwise_place
  rw [check_eq_firstRejection]
  refine ⟨?_, fun c => ?_, fun r hr => ?_, fun q' h => ?_⟩
  · rw [firstRejection_eq_ok_iff]
    exact ⟨fun h c => h c c.mem_all, fun h c _ => h c⟩
  · rw [herror]
    constructor
    · rintro ⟨d, -, hfails, hbefore, hreason⟩
      obtain rfl := Condition.rejection_injective hreason
      exact ⟨hfails, fun b => hbefore b b.mem_all⟩
    · rintro ⟨hfails, hbefore⟩
      exact ⟨c, c.mem_all, hfails, fun d _ => hbefore d, rfl⟩
  · obtain ⟨c, -, -, -, hreason⟩ := (herror r).mp hr
    exact ⟨c, hreason⟩
  · rw [← check_eq_firstRejection]
    exact h.check_eq

/-- The superuser where an admin is asked for, and a label with a negative
number. -/
def plainRequest : Request where
  role := .superuser
  required := .admin
  envelope := .ofEvent
    { Event.blank with project := "p", entity := "avatar", version := "1.0.-3" : Event }.signed
  entity := { Entity.blank with code := "avatar" }
  version := { Version.blank with project := "p", major := 1, patch := -3, online := true }

/-- The same in all that matters, and different in much that does not. -/
def furnishedRequest : Request where
  role := .superuser
  required := .admin
  envelope := { plainRequest.envelope with wire := some [0x7b, 0x7d] }
  entity := { plainRequest.entity with
    name := "Avatar", deletedBy := "ops", updatedAt := 5,
    rules := { Rules.blank with id := "r" } }
  version := { plainRequest.version with id := 9, locked := true, note := "n" }

/-- The same, but for a deleted entity and a version that is not online. -/
def retiredRequest : Request where
  role := .superuser
  required := .admin
  envelope := plainRequest.envelope
  entity := { plainRequest.entity with deletedAt := 7 }
  version := { plainRequest.version with online := false }

theorem admits_plainRequest :
    plainRequest.Alike furnishedRequest ∧ plainRequest.check = .ok ()
      ∧ furnishedRequest.check = .ok ()
      ∧ retiredRequest.check = .error (.entityDeleted "avatar") := by
  have hsealed : Condition.sealed.Holds plainRequest :=
    Event.Body.text_signature _
  have hranked : Condition.ranked.Holds plainRequest := Or.inr ⟨rfl, by decide⟩
  have hlabelled : Condition.labelled.Holds plainRequest := by
    show "1.0.-3" = ".".intercalate ["1", "0", "-3"]
    decide
  have hplain : ∀ c : Condition, c.Holds plainRequest := by
    intro c
    cases c with
    | sealed => exact hsealed
    | ranked => exact hranked
    | live => rfl
    | meant => rfl
    | owned => rfl
    | labelled => exact hlabelled
    | online => rfl
  have halike : plainRequest.Alike furnishedRequest :=
    ⟨rfl, rfl, rfl, Iff.rfl, rfl, rfl, rfl, rfl⟩
  have hadmitted := (admits_iff_conditions plainRequest).1.mpr hplain
  refine ⟨halike, hadmitted, ?_, ?_⟩
  · rw [← (admits_iff_conditions plainRequest).2.2.2 furnishedRequest halike]
    exact hadmitted
  · refine ((admits_iff_conditions retiredRequest).2.1 .live).mpr ⟨?_, fun d hd => ?_⟩
    · show ¬ (7 : Int64) = 0
      decide
    · cases d with
      | sealed => exact hsealed
      | ranked => exact hranked
      | _ => exact absurd hd (by decide)

end Gate

end EventSeal
