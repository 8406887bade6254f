import EventSeal.Role

/-!
# Tiers as ranges of ranks

The tiers cut the ranks into six ranges (`Tier.Contains`), written out here
as plain integers. Every rank is in one range and in no other, and that is
the tier it has (`Role.tier_eq_iff`). Being in a tier is not quite the same
as meeting it: the largest rank also meets the tiers from normal upward,
and no other rank meets a tier that it is not in (`Role.satisfies_iff`).

Tiers and ranks are ordered alike. A rank is in a tier or above it if it is not
below the floor of the tier (`Role.level_le_tier_iff`); only the lowest tier goes
on below its floor. From this one rule it follows that a higher rank is in no
lower tier and that a floor is the least rank of its tier.
-/

namespace EventSeal

namespace Tier

/-- The ranks that a tier takes in. -/
def Contains : Tier → Int → Prop
  | banned, n => n < -1
  | anonymous, n => n = -1
  | normal, n => 0 ≤ n ∧ n < 2000000000
  | developer, n => 2000000000 ≤ n ∧ n < 2147483000
  | admin, n => 2147483000 ≤ n ∧ n < 2147483647
  | superuser, n => n = 2147483647

theorem Contains.unique {t u : Tier} {n : Int} (ht : t.Contains n) (hu : u.Contains n) :
    t = u := by
  cases t <;> cases u <;> simp only [Contains] at ht hu <;> try rfl
  all_goals omega

end Tier

namespace Role

variable {r : Role}

/-! ## Comparisons with the reference points -/

theorem isSuperuser_iff : r.isSuperuser = true ↔ r.rank.toInt = 2147483647 := by
  rw [isSuperuser, beq_iff_eq, ← Int32.toInt_inj]
  rfl

theorem admin_le_iff : admin.rank ≤ r.rank ↔ 2147483000 ≤ r.rank.toInt := by
  rw [Int32.le_iff_toInt_le]
  rfl

theorem developer_le_iff : developer.rank ≤ r.rank ↔ 2000000000 ≤ r.rank.toInt := by
  rw [Int32.le_iff_toInt_le]
  rfl

theorem normal_le_iff : normal.rank ≤ r.rank ↔ 0 ≤ r.rank.toInt := by
  rw [Int32.le_iff_toInt_le]
  rfl

theorem eq_anonymous_iff : r.rank = anonymous.rank ↔ r.rank.toInt = -1 := by
  rw [← Int32.toInt_inj]
  rfl

theorem between_iff {low high : Role} : between low high r = true ↔
    low.rank.toInt ≤ r.rank.toInt ∧ r.rank.toInt < high.rank.toInt := by
  rw [between, Bool.and_eq_true, decide_eq_true_eq, decide_eq_true_eq, Int32.le_iff_toInt_le,
    Int32.lt_iff_toInt_lt]

/-! ## The tier of a rank -/

theorem contains_tier (r : Role) : r.tier.Contains r.rank.toInt := by
  have hle : r.rank.toInt ≤ 2147483647 := Int32.toInt_le r.rank
  simp only [tier, isSuperuser_iff, admin_le_iff, developer_le_iff, normal_le_iff,
    eq_anonymous_iff]
  split
  · next h => exact h
  · split
    · next h => exact ⟨h, by omega⟩
    · split
      · next h => exact ⟨h, by omega⟩
      · split
        · next h => exact ⟨h, by omega⟩
        · split
          · next h => exact h
          · show r.rank.toInt < -1
            omega

theorem tier_eq_iff {t : Tier} : r.tier = t ↔ t.Contains r.rank.toInt := by
  constructor
  · intro h
    rw [← h]
    exact contains_tier r
  · intro h
    exact (contains_tier r).unique h

/-! ## Meeting a tier -/

theorem satisfies_iff {t : Tier} : r.satisfies t = true ↔
    t.Contains r.rank.toInt
      ∨ r.rank.toInt = 2147483647 ∧ Tier.normal.level ≤ t.level := by
  cases t with
  | banned =>
      rw [satisfies, beq_iff_eq, tier_eq_iff]
      exact (or_iff_left fun h => absurd h.2 (by decide)).symm
  | anonymous =>
      rw [satisfies, beq_iff_eq, tier_eq_iff]
      exact (or_iff_left fun h => absurd h.2 (by decide)).symm
  | normal =>
      rw [satisfies, isUser, Bool.or_eq_true, isSuperuser_iff, between_iff, or_comm]
      exact or_congr Iff.rfl (and_iff_left (by decide)).symm
  | developer =>
      rw [satisfies, isDeveloper, Bool.or_eq_true, isSuperuser_iff, between_iff, or_comm]
      exact or_congr Iff.rfl (and_iff_left (by decide)).symm
  | admin =>
      rw [satisfies, isAdmin, Bool.or_eq_true, isSuperuser_iff, between_iff, or_comm]
      exact or_congr Iff.rfl (and_iff_left (by decide)).symm
  | superuser =>
      rw [satisfies, isSuperuser_iff]
      exact (or_iff_left_of_imp And.left).symm

/-- Of the tiers that a rank is not in, only the superuser meets any. -/
theorem satisfies_iff_eq_tier {t : Tier} : r.satisfies t = true ↔
    t = r.tier ∨ r.rank = Int32.maxValue ∧ (t = .normal ∨ t = .developer ∨ t = .admin) := by
  have hmax : r.rank = Int32.maxValue ↔ r.rank.toInt = 2147483647 := by
    rw [← Int32.toInt_inj]
    rfl
  rw [satisfies_iff, hmax, @eq_comm _ t, tier_eq_iff]
  constructor
  · rintro (hin | ⟨hrank, hlevel⟩)
    · exact Or.inl hin
    · cases t with
      | banned => exact absurd hlevel (by decide)
      | anonymous => exact absurd hlevel (by decide)
      | superuser => exact Or.inl hrank
      | normal => exact Or.inr ⟨hrank, Or.inl rfl⟩
      | developer => exact Or.inr ⟨hrank, Or.inr (Or.inl rfl)⟩
      | admin => exact Or.inr ⟨hrank, Or.inr (Or.inr rfl)⟩
  · rintro (hin | ⟨hrank, rfl | rfl | rfl⟩)
    · exact Or.inl hin
    · exact Or.inr ⟨hrank, by decide⟩
    · exact Or.inr ⟨hrank, by decide⟩
    · exact Or.inr ⟨hrank, by decide⟩

end Role

/-! ## How many tiers a rank meets -/

theorem Tier.mem_all (t : Tier) : t ∈ Tier.all := by
  cases t <;> decide

theorem Tier.nodup_all : Tier.all.Nodup := by
  decide

theorem Tier.filter_all_eq (t : Tier) : Tier.all.filter (· == t) = [t] := by
  cases t <;> rfl

namespace Role

variable {r s : Role}

theorem filter_satisfies_of_lt (h : r.rank < Int32.maxValue) :
    Tier.all.filter r.satisfies = [r.tier] := by
  have hne : r.rank ≠ Int32.maxValue := by
    intro heq
    rw [heq] at h
    exact absurd h (by decide)
  rw [← Tier.filter_all_eq]
  refine List.filter_congr fun t _ => Bool.eq_iff_iff.mpr ?_
  rw [satisfies_iff_eq_tier, beq_iff_eq]
  exact or_iff_left fun hmax => hne hmax.1

theorem filter_satisfies_of_eq (h : r.rank = Int32.maxValue) :
    Tier.all.filter r.satisfies = [.normal, .developer, .admin, .superuser] := by
  obtain ⟨rank⟩ := r
  obtain rfl : rank = Int32.maxValue := h
  decide

/-! ## Order -/

theorem contains_floor (t : Tier) : t.Contains t.floor.rank.toInt := by
  cases t <;> simp only [Tier.Contains] <;> decide

theorem tier_floor (t : Tier) : t.floor.tier = t :=
  tier_eq_iff.mpr (contains_floor t)

theorem level_le_iff_of_contains {t u : Tier} {n : Int} (hu : u.Contains n) :
    t.level ≤ u.level ↔ t = .banned ∨ t.floor.rank.toInt ≤ n := by
  cases t <;> cases u <;> simp only [Tier.Contains] at hu <;>
    simp [Tier.level, Tier.floor, banned, anonymous, normal, developer, admin, superuser] <;> omega

/-- A rank is in a tier or above it just if it is not below its floor. -/
theorem level_le_tier_iff {t : Tier} :
    t.level ≤ r.tier.level ↔ t = .banned ∨ t.floor.rank ≤ r.rank := by
  rw [Int32.le_iff_toInt_le]
  exact level_le_iff_of_contains (contains_tier r)

theorem tier_mono (h : r.rank ≤ s.rank) : r.tier.level ≤ s.tier.level := by
  rcases level_le_tier_iff.mp (Nat.le_refl r.tier.level) with hbanned | hfloor
  · exact level_le_tier_iff.mpr (Or.inl hbanned)
  · exact level_le_tier_iff.mpr (Or.inr (Int32.le_trans hfloor h))

theorem floor_le_of_tier_eq {t : Tier} (ht : t ≠ .banned) (h : r.tier = t) :
    t.floor.rank ≤ r.rank :=
  (level_le_tier_iff.mp (Nat.le_of_eq (congrArg Tier.level h.symm))).resolve_left ht

theorem floor_lt_floor {t u : Tier} (h : t.level < u.level) : t.floor.rank < u.floor.rank := by
  refine Int32.not_le.mp fun hle => ?_
  have hlevel := tier_mono hle
  rw [tier_floor, tier_floor] at hlevel
  omega

end Role

theorem Tier.isLE_compare_iff {t u : Tier} : (t.compare u).isLE = true ↔ t.level ≤ u.level :=
  Nat.isLE_compare

theorem Tier.compare_eq_lt_iff {t u : Tier} : t.compare u = .lt ↔ t.level < u.level :=
  Nat.compare_eq_lt

/-- A rank meets the tier it is in and no other, except for the superuser, who
meets three more. The tiers go up with the ranks, each from its floor on. -/
theorem tiers_partition_ranks :
    (∀ (r : Role) (t : Tier), r.satisfies t = true ↔
        t = r.tier ∨ r.rank = Int32.maxValue ∧ (t = .normal ∨ t = .developer ∨ t = .admin))
      ∧ (Tier.all.Nodup ∧ ∀ t, t ∈ Tier.all)
      ∧ (∀ r : Role, r.rank < Int32.maxValue → (Tier.all.filter r.satisfies).length = 1)
      ∧ (∀ r : Role, r.rank = Int32.maxValue → (Tier.all.filter r.satisfies).length = 4)
      ∧ (∀ r s : Role, r.rank ≤ s.rank → (r.tier.compare s.tier).isLE = true)
      ∧ (∀ t : Tier, t.floor.tier = t)
      ∧ (∀ t u : Tier, t.compare u = .lt → t.floor.rank < u.floor.rank)
      ∧ ∀ (t : Tier) (r : Role), t ≠ .banned → r.tier = t → t.floor.rank ≤ r.rank := by
  refine ⟨fun r t => Role.satisfies_iff_eq_tier, ⟨Tier.nodup_all, Tier.mem_all⟩, fun r hr => ?_,
    fun r hr => ?_, fun r s hrs => ?_, Role.tier_floor, fun t u htu => ?_,
    fun t r => Role.floor_le_of_tier_eq⟩
  · rw [Role.filter_satisfies_of_lt hr]
    rfl
  · rw [Role.filter_satisfies_of_eq hr]
    rfl
  · exact Tier.isLE_compare_iff.mpr (Role.tier_mono hrs)
  · exact Role.floor_lt_floor (Tier.compare_eq_lt_iff.mp htu)

/-- The two largest ranks, and the two around the floor of the developers. -/
theorem tiers_at_the_edges :
    (Tier.all.filter (Role.mk 2147483646).satisfies).length = 1
      ∧ (Tier.all.filter (Role.mk 2147483647).satisfies).length = 4
      ∧ ((Role.mk 1999999999).tier.compare (Role.mk 2000000000).tier).isLE = true
      ∧ Tier.developer.floor.rank < Tier.admin.floor.rank
      ∧ Tier.developer.floor.rank ≤ 2147482999 := by
  obtain ⟨-, -, hone, hfour, hmono, -, hstrict, hleast⟩ := tiers_partition_ranks
  exact ⟨hone _ (by decide), hfour _ rfl, hmono _ _ (by decide), hstrict _ _ rfl,
    hleast _ ⟨2147482999⟩ (by decide) (by decide)⟩

end EventSeal
