import EventSeal.Proofs.Version.Labels

/-!
# Runs of bumps

A bump fails for one reason only, that the component it raises is at the
limit (`bump_eq_error_iff`), and then the run goes on from the version that
it has. Otherwise it gives a draft that is strictly above
(`compare_of_bump`).

So a run never comes down: each of its versions is the one before or above
it (`bumpAll_eq_or_compare`), and after a bump that succeeded every version
is above every version before (`compare_bumpAll_of_bump`). Equal labels
would have equal numbers, so no label comes back once it has been left.
What a run keeps is proved once, for any property that a successful bump
keeps (`bumpAll_invariant`).
-/

namespace EventSeal.Version

/-! ## One bump -/

namespace Numbers

variable {n m k : Numbers}

def get (n : Numbers) : Component → Int64
  | .major => n.major
  | .minor => n.minor
  | .patch => n.patch

theorem compare_eq_gt_iff : m.compare n = .gt ↔
    n.major.toInt < m.major.toInt ∨ m.major.toInt = n.major.toInt
      ∧ (n.minor.toInt < m.minor.toInt ∨ m.minor.toInt = n.minor.toInt
        ∧ n.patch.toInt < m.patch.toInt) := by
  simp only [compare, Ordering.then_eq_gt, compare_gt_iff_gt, compare_eq_iff_eq]

theorem compare_trans (hmn : m.compare n = .gt) (hnk : n.compare k = .gt) :
    m.compare k = .gt := by
  rw [compare_eq_gt_iff] at *
  omega

theorem next?_eq_none_iff {a : Int64} : next? a = none ↔ a = Int64.maxValue := by
  have hle := a.le_toInt
  have hlt := a.toInt_lt
  rw [← Int64.toInt_inj, next?, Json.int64OfInt?]
  have hmax : Int64.maxValue.toInt = 9223372036854775807 := rfl
  rw [hmax]
  split
  · simp
    omega
  · simp
    omega

theorem bump?_eq_none_iff {c : Component} : n.bump? c = none ↔ n.get c = Int64.maxValue := by
  cases c <;> simp [bump?, get, next?_eq_none_iff]

/-- The more significant the component, the higher its bump. -/
theorem compare_bump?_bump? {x y z : Numbers} (hx : n.bump? .major = some x)
    (hy : n.bump? .minor = some y) (hz : n.bump? .patch = some z) :
    x.compare y = .gt ∧ y.compare z = .gt := by
  obtain ⟨a, ha, rfl⟩ := Option.map_eq_some_iff.mp hx
  obtain ⟨b, hb, rfl⟩ := Option.map_eq_some_iff.mp hy
  obtain ⟨c, -, rfl⟩ := Option.map_eq_some_iff.mp hz
  constructor
  · simp [compare, compare_of_next? ha]
  · simp [compare, compare_of_next? hb]

theorem nonneg_of_next? {a b : Int64} (h : next? a = some b) (ha : 0 ≤ a) : 0 ≤ b := by
  have hnext := toInt_of_next? h
  rw [Int64.le_iff_toInt_le] at *
  have hzero : (0 : Int64).toInt = 0 := rfl
  omega

theorem Nonneg.bump? {c : Component} (hn : n.Nonneg) (h : n.bump? c = some m) : m.Nonneg := by
  have hzero : (0 : Int64) ≤ 0 := Int64.le_refl 0
  obtain ⟨hmajor, hminor, hpatch⟩ := hn
  cases c with
  | major =>
      obtain ⟨a, ha, rfl⟩ := Option.map_eq_some_iff.mp h
      exact ⟨nonneg_of_next? ha hmajor, hzero, hzero⟩
  | minor =>
      obtain ⟨a, ha, rfl⟩ := Option.map_eq_some_iff.mp h
      exact ⟨hmajor, nonneg_of_next? ha hminor, hzero⟩
  | patch =>
      obtain ⟨a, ha, rfl⟩ := Option.map_eq_some_iff.mp h
      exact ⟨hmajor, hminor, nonneg_of_next? ha hpatch⟩

end Numbers

variable {u v w : Version} {c : Component}

/-- A version of the project that nothing is said about but its numbers. -/
structure IsDraft (w : Version) (project : String) : Prop where
  project : w.project = project
  id : w.id = 0
  locked : w.locked = false
  online : w.online = false
  note : w.note = ""
  createdAt : w.createdAt = 0
  updatedAt : w.updatedAt = 0
  createdBy : w.createdBy = ""

theorem bump_eq_error_iff {o : Overflow} :
    v.bump c = .error o ↔ v.numbers.get c = Int64.maxValue ∧ o = ⟨v.label⟩ := by
  rw [← Numbers.bump?_eq_none_iff, bump]
  cases v.numbers.bump? c <;> simp [eq_comm]

theorem isDraft_of_bump (h : v.bump c = .ok w) : w.IsDraft v.project := by
  unfold bump at h
  split at h
  · obtain rfl := Except.ok.inj h
    exact ⟨rfl, rfl, rfl, rfl, rfl, rfl, rfl, rfl⟩
  · nomatch h

theorem compare_of_bump (h : v.bump c = .ok w) : w.compare v = .gt :=
  Numbers.compare_of_bump? (bump_eq_ok h).2

theorem compare_trans (huv : u.compare v = .gt) (hvw : v.compare w = .gt) : u.compare w = .gt :=
  Numbers.compare_trans huv hvw

/-! ## Runs -/

theorem bumpAll_append (v : Version) (cs ds : List Component) :
    v.bumpAll (cs ++ ds) = (v.bumpAll cs).bumpAll ds := by
  unfold bumpAll
  exact List.foldl_append

theorem bumpOrStay_of_ok (h : v.bump c = .ok w) : v.bumpOrStay c = w := by
  rw [bumpOrStay, h]

theorem bumpOrStay_of_error {o : Overflow} (h : v.bump c = .error o) : v.bumpOrStay c = v := by
  rw [bumpOrStay, h]

/-- What every successful bump keeps a run keeps. -/
theorem bumpAll_invariant {P : Version → Prop}
    (hstep : ∀ {v w : Version} {c : Component}, v.bump c = .ok w → P v → P w) (hv : P v)
    (cs : List Component) : P (v.bumpAll cs) := by
  induction cs generalizing v with
  | nil => exact hv
  | cons c cs ih =>
      have hnext : P (v.bumpOrStay c) := by
        cases hbump : v.bump c with
        | ok w =>
            rw [bumpOrStay_of_ok hbump]
            exact hstep hbump hv
        | error o =>
            rw [bumpOrStay_of_error hbump]
            exact hv
      exact ih hnext

theorem project_bumpAll (v : Version) (cs : List Component) :
    (v.bumpAll cs).project = v.project :=
  bumpAll_invariant (P := fun w => w.project = v.project)
    (fun hbump hproject => (bump_eq_ok hbump).1.trans hproject) rfl cs

theorem nonneg_bumpAll (h : v.numbers.Nonneg) (cs : List Component) :
    (v.bumpAll cs).numbers.Nonneg :=
  bumpAll_invariant (P := fun w => w.numbers.Nonneg)
    (fun hbump hnonneg => hnonneg.bump? (bump_eq_ok hbump).2) h cs

theorem bumpAll_eq_or_compare (v : Version) (cs : List Component) :
    v.bumpAll cs = v ∨ (v.bumpAll cs).compare v = .gt := by
  refine bumpAll_invariant (P := fun w => w = v ∨ w.compare v = .gt) ?_ (Or.inl rfl) cs
  rintro u w c hbump (rfl | hgt)
  · exact Or.inr (compare_of_bump hbump)
  · exact Or.inr (compare_trans (compare_of_bump hbump) hgt)

/-- After a bump that succeeded the run is above all it has been before. -/
theorem compare_bumpAll_of_bump {earlier cs : List Component} (hcs : earlier <+: cs)
    (h : (v.bumpAll cs).bump c = .ok w) (later : List Component) :
    (v.bumpAll (cs ++ c :: later)).compare (v.bumpAll earlier) = .gt := by
  obtain ⟨between, rfl⟩ := hcs
  rw [bumpAll_append] at h
  have hrun : v.bumpAll (earlier ++ between ++ c :: later) = w.bumpAll later := by
    rw [bumpAll_append, bumpAll_append]
    exact congrArg (bumpAll · later) (bumpOrStay_of_ok h)
  have hstart : w.compare (v.bumpAll earlier) = .gt := by
    rcases bumpAll_eq_or_compare (v.bumpAll earlier) between with heq | hgt
    · rw [heq] at h
      exact compare_of_bump h
    · exact compare_trans (compare_of_bump h) hgt
  rw [hrun]
  rcases bumpAll_eq_or_compare w later with heq | hgt
  · rw [heq]
    exact hstart
  · exact compare_trans hgt hstart

/-- Wherever a run of bumps has come to, the next bump fails exactly at the
limit and changes nothing then, and otherwise gives a draft above all the
versions before, so no label comes back. Of three bumps that succeed the one
of the more significant component is above. From numbers that are not
negative every label of the run is read back. -/
theorem bumps_never_return {cs : List Component} (hu : v.bumpAll cs = u) :
    (∀ c o, u.bump c = .error o ↔ u.numbers.get c = Int64.maxValue ∧ o = ⟨u.label⟩)
      ∧ (∀ c o, u.bump c = .error o → v.bumpAll (cs ++ [c]) = u)
      ∧ (∀ c w, u.bump c = .ok w →
          v.bumpAll (cs ++ [c]) = w ∧ w.compare u = .gt ∧ w.IsDraft v.project
            ∧ ∀ earlier, earlier <+: cs → ∀ later,
                (v.bumpAll (cs ++ c :: later)).label ≠ (v.bumpAll earlier).label)
      ∧ (∀ x y z, u.bump .major = .ok x → u.bump .minor = .ok y → u.bump .patch = .ok z →
          x.compare y = .gt ∧ y.compare z = .gt ∧ z.compare u = .gt)
      ∧ (v.numbers.Nonneg → readLabel u.label = .ok u.numbers) := by
  subst hu
  refine ⟨fun c o => bump_eq_error_iff, ?_, ?_, ?_, ?_⟩
  · intro c o hbump
    rw [bumpAll_append]
    exact bumpOrStay_of_error hbump
  · intro c w hbump
    refine ⟨?_, compare_of_bump hbump, ?_, ?_⟩
    · rw [bumpAll_append]
      exact bumpOrStay_of_ok hbump
    · exact project_bumpAll v cs ▸ isDraft_of_bump hbump
    · intro earlier hearlier later
      exact Numbers.label_ne_of_compare (compare_bumpAll_of_bump hearlier hbump later)
  · intro x y z hx hy hz
    obtain ⟨hxy, hyz⟩ := Numbers.compare_bump?_bump? (bump_eq_ok hx).2 (bump_eq_ok hy).2
      (bump_eq_ok hz).2
    exact ⟨hxy, hyz, compare_of_bump hz⟩
  · intro hnonneg
    exact readLabel_label (nonneg_bumpAll hnonneg cs)

/-- One short of the limit in its second number. -/
def crowdedVersion : Version :=
  { blank with project := "sys", minor := 9223372036854775806, online := true }

/-- Its next patch and the next minor version of that. -/
def fullVersion : Version :=
  { blank with project := "sys", minor := 9223372036854775807 }

/-- The run goes on past a bump that fails, and its last version has a label
that is new. -/
theorem bumps_of_crowdedVersion :
    crowdedVersion.bumpAll [.patch, .minor] = fullVersion
      ∧ fullVersion.bump .minor = .error ⟨"0.9223372036854775807.0"⟩
      ∧ crowdedVersion.bumpAll [.patch, .minor, .minor] = fullVersion
      ∧ (∀ later, (crowdedVersion.bumpAll ([.patch, .minor, .minor] ++ .patch :: later)).label
          ≠ crowdedVersion.label)
      ∧ readLabel "0.9223372036854775807.0" = .ok fullVersion.numbers
      ∧ ({ blank with project := "sys", major := 1 } : Version).compare fullVersion = .gt := by
  have hstart : crowdedVersion.bumpAll [] = crowdedVersion := rfl
  have hfull : crowdedVersion.bumpAll [.patch, .minor] = fullVersion := rfl
  have hlabel : fullVersion.label = "0.9223372036854775807.0" := rfl
  have hrun := bumps_never_return hfull
  have herror := (hrun.1 .minor ⟨fullVersion.label⟩).mpr ⟨rfl, rfl⟩
  have hstays := hrun.2.1 .minor _ herror
  have hpatch : fullVersion.bump .patch = .ok { fullVersion with patch := 1 } := rfl
  have hread := hrun.2.2.2.2 ⟨by decide, by decide, by decide⟩
  rw [hlabel] at herror hread
  refine ⟨hfull, herror, hstays, fun later => ?_, hread, ?_⟩
  · exact ((bumps_never_return hstays).2.2.1 _ _ hpatch).2.2.2 [] List.nil_prefix later
  · exact ((bumps_never_return hstart).2.2.2.1 _ _ _ rfl rfl rfl).1

end EventSeal.Version
