import EventSeal.Entity
import EventSeal.Proofs.Record.Flattening
import EventSeal.Proofs.Record.Rewriting

/-!
# Entities read back

All fields of an entity but its rules come back from the written text by
themselves. The rules stand two containers deep, the record and the rules
themselves, so of the limit of 127 their other members may use 125
(`ofText_compact`).

Changes to an entity leave its rules alone (`rules_editAll`), so what
holds of the rules of an entity as it was loaded still holds after any
number of changes. An entity that was read strictly can always be read
again. One that was loaded leniently may hold rules that nest too deep for
that: the text that the rules are given as has the whole limit to itself.
-/

namespace EventSeal.Entity

open Json

/-! ## Changes -/

@[simp] theorem rules_edit (e : Entity) (c : Edit) : (e.edit c).rules = e.rules := by
  cases c <;> rfl

@[simp] theorem rules_editAll (e : Entity) (cs : List Edit) :
    (e.editAll cs).rules = e.rules := by
  induction cs generalizing e with
  | nil => rfl
  | cons c cs ih => exact (ih (e.edit c)).trans (rules_edit e c)

/-! ## Reading what was written -/

theorem lawful_layout : layout.Lawful where
  nodup_names := by decide
  foldl_set _ := rfl

def rulesColumn : Column Entity :=
  ⟨"rules", .rules, rules, fun r e => { e with rules := r }⟩

/-- A field that is no container and that is apart from the rules. -/
structure IsScalar (c : Column Entity) : Prop where
  kind_ne_rules : c.kind ≠ .rules
  rules_set : ∀ x e, (c.set x e).rules = e.rules

theorem exists_columns : ∃ before after, layout.columns = before ++ rulesColumn :: after
    ∧ (∀ c ∈ before, IsScalar c) ∧ ∀ c ∈ after, IsScalar c := by
  refine ⟨layout.columns.take 5, layout.columns.drop 6, rfl, ?_, ?_⟩
  · intro c hc
    simp only [layout, List.take_succ_cons, List.take_zero, List.mem_cons, List.not_mem_nil,
      or_false] at hc
    rcases hc with rfl | rfl | rfl | rfl | rfl <;> exact ⟨nofun, fun _ _ => rfl⟩
  · intro c hc
    simp only [layout, List.drop_succ_cons, List.drop_zero, List.mem_cons, List.not_mem_nil,
      or_false] at hc
    rcases hc with rfl | rfl | rfl | rfl | rfl <;> exact ⟨nofun, fun _ _ => rfl⟩

/-- The rules are the one field that is no scalar. -/
theorem eq_rulesColumn_or_isScalar {c : Column Entity} (hc : c ∈ layout.columns) :
    c = rulesColumn ∨ IsScalar c := by
  obtain ⟨before, after, hcolumns, hbefore, hafter⟩ := exists_columns
  rw [hcolumns] at hc
  rcases List.mem_append.mp hc with hc | hc
  · exact Or.inr (hbefore c hc)
  · exact (List.mem_cons.mp hc).imp_right (hafter c)

/-- The containers that may be open within the rules of an entity. -/
def rulesLimit : Nat := Layout.innerLimit - 1

theorem read_rulesColumn {e : Entity} (h : e.rules.WellFormed)
    (hi : Value.isIntegralMembers e.rules.extra = true) :
    Rules.read Layout.innerLimit (Value.object e.rules.members).tree
      = if Value.nestingMembers e.rules.extra ≤ rulesLimit then .ok e.rules
        else .error .malformed :=
  Rules.read_tree_members h hi rulesLimit

theorem isIntegral_members {e : Entity} (hi : Value.isIntegralMembers e.rules.extra = true) :
    ∀ c ∈ layout.columns, (c.kind.write (c.get e)).isIntegral = true := by
  intro c hc
  rcases eq_rulesColumn_or_isScalar hc with rfl | hc
  · exact hi
  · exact Kind.isIntegral_write_of_ne_rules hc.kind_ne_rules _

theorem ofText_compact {e : Entity} (h : e.rules.WellFormed)
    (hi : Value.isIntegralMembers e.rules.extra = true) :
    ofText e.compact
      = if Value.nestingMembers e.rules.extra ≤ rulesLimit then .ok e
        else .error .malformed := by
  have hscalar : ∀ c, IsScalar c →
      c.kind.read Layout.innerLimit (c.kind.write (c.get e)).tree = .ok (c.get e) := by
    intro c hc
    exact Kind.read_write_of_ne_rules hc.kind_ne_rules _ _
  have hrules := read_rulesColumn h hi
  rw [ofText, ofBytes, compact, Layout.ofBytes_written lawful_layout (isIntegral_members hi)]
  split
  · next hfit =>
    rw [if_pos hfit] at hrules
    have hall : ∀ c ∈ layout.columns,
        c.kind.read Layout.innerLimit (c.kind.write (c.get e)).tree = .ok (c.get e) := by
      intro c hc
      rcases eq_rulesColumn_or_isScalar hc with rfl | hc
      · exact hrules
      · exact hscalar c hc
    rw [Layout.foldlM_reread hall, lawful_layout.foldl_set]
  · next hfit =>
    rw [if_neg hfit] at hrules
    obtain ⟨before, after, hcolumns, hbefore, -⟩ := exists_columns
    rw [hcolumns]
    exact Layout.foldlM_reread_error (c := rulesColumn) (fun c hc => hscalar c (hbefore c hc))
      hrules _

/-! ## Loading -/

theorem fits_rules_of_ofBytes {bs : List UInt8} {e : Entity} (h : ofBytes bs = .ok e) :
    Rules.Fits rulesLimit e.rules := by
  refine Layout.invariant_ofBytes (P := fun e => Rules.Fits rulesLimit e.rules)
    (Rules.fits_blank _) (fun c hc t x a hx ha => ?_) h
  rcases eq_rulesColumn_or_isScalar hc with rfl | hc
  · exact Rules.fits_of_read hx
  · rw [hc.rules_set]
    exact ha

theorem wellFormed_rules_ofMembers {m : Members} (h : (Value.object m).IsOrdered) :
    (ofMembers m).rules.WellFormed := by
  have hrules : (ofMembers m).rules = Rules.ofMembers (coerceMembers (m.get? "rules")) := rfl
  rw [hrules]
  refine Rules.wellFormed_ofMembers (Rules.isOrdered_coerceMembers fun w hw => ?_)
  exact Value.isOrderedMembers_iff.mp h.2 _ (Members.mem_of_get? hw)

/-- The two ways of getting an entity: out of its text, or out of loose
members, which are in order as those of any object are. -/
inductive Loaded : Entity → Prop
  | strictly {bs : List UInt8} {e : Entity} (h : ofBytes bs = .ok e) : Loaded e
  | leniently {m : Members} (h : (Value.object m).IsOrdered) : Loaded (ofMembers m)

theorem Loaded.wellFormed_rules {e : Entity} (h : e.Loaded) : e.rules.WellFormed := by
  cases h with
  | strictly h => exact (fits_rules_of_ofBytes h).toWellFormed
  | leniently h => exact wellFormed_rules_ofMembers h

/-- What can be said of a loaded entity after any changes: the other
members of its rules have no known key, so no key is written twice, and
the entity comes back from its text exactly if they nest 125 containers
deep or less, as they do in an entity that was itself read from a text. -/
theorem loaded_edited_reread {e f : Entity} (h : e.Loaded) (cs : List Edit)
    (hf : e.editAll cs = f) :
    (∀ p ∈ f.rules.extra, p.1 ≠ "id" ∧ p.1 ≠ "name" ∧ p.1 ≠ "context")
      ∧ (layout.members f).lookup "rules" = some (.object f.rules.members)
      ∧ (f.rules.members.map Prod.fst).Nodup
      ∧ (Value.isIntegralMembers f.rules.extra = true →
          ((∀ p ∈ f.rules.extra, p.2.nesting ≤ 125) → ofText f.compact = .ok f)
            ∧ ((∃ p ∈ f.rules.extra, 125 < p.2.nesting) →
                ofText f.compact = .error .malformed))
      ∧ ((∃ bs, ofBytes bs = .ok e) → ∀ p ∈ f.rules.extra, p.2.nesting ≤ 125) := by
  have hrules : f.rules = e.rules := by rw [← hf, rules_editAll]
  have hwell : f.rules.WellFormed := hrules ▸ h.wellFormed_rules
  have hlimit : rulesLimit = 125 := rfl
  refine ⟨?_, rfl, hwell.nodup_members, fun hi => ⟨?_, ?_⟩, ?_⟩
  · intro p hp
    exact Rules.isKnown_eq_false_iff.mp (hwell.isKnown_eq_false p hp)
  · intro hshallow
    rw [ofText_compact hwell hi, hlimit, if_pos (Value.nestingMembers_le_iff.mpr hshallow)]
  · rintro ⟨p, hp, hdeep⟩
    rw [ofText_compact hwell hi, hlimit, if_neg fun hle =>
      Nat.not_le_of_gt hdeep (Value.nestingMembers_le_iff.mp hle p hp)]
  · rintro ⟨bs, hbs⟩ p hp
    rw [hrules] at hp
    exact ((fits_rules_of_ofBytes hbs).fits p hp).2

/-! ## At the limit -/

/-- Arrays within arrays. -/
def arrays : Nat → Value
  | 0 => .null
  | n + 1 => .array [arrays n]

theorem nesting_arrays (n : Nat) : (arrays n).nesting = n := by
  induction n with
  | zero => rfl
  | succ n ih =>
      rw [arrays, Value.nesting, Value.nestingItems, Value.nestingItems, ih, Nat.max_zero]

theorem isIntegral_arrays (n : Nat) : (arrays n).isIntegral = true := by
  induction n with
  | zero => rfl
  | succ n ih =>
      rw [arrays, Value.isIntegral, Value.isIntegralItems, ih]
      rfl

theorem isOrdered_arrays (n : Nat) : (arrays n).IsOrdered := by
  induction n with
  | zero => trivial
  | succ n ih => exact ⟨ih, trivial⟩

/-- An entity whose rules are given as a text. -/
def ofRuleText (n : Nat) : Entity :=
  ofMembers [("rules", .text (Value.object [("body", arrays n)]).compact)]

theorem loaded_ofRuleText (n : Nat) : (ofRuleText n).Loaded :=
  .leniently ⟨List.pairwise_singleton _ _, trivial, trivial⟩

theorem extra_rules_ofRuleText {n : Nat} (h : n ≤ 126) :
    (ofRuleText n).rules.extra = [("body", arrays n)] := by
  have hi : (Value.object [("body", arrays n)]).isIntegral = true := by
    rw [Value.isIntegral, Value.isIntegralMembers, isIntegral_arrays]
    rfl
  have hread := Value.ofText_compact hi ⟨List.pairwise_singleton _ _, isOrdered_arrays n, trivial⟩
  have hfit : (Value.object [("body", arrays n)]).nesting ≤ Tree.nestingLimit := by
    rw [Value.nesting, Value.nestingMembers, Value.nestingMembers, nesting_arrays, Nat.max_zero]
    exact Nat.succ_le_succ h
  rw [if_pos hfit] at hread
  have hrules : (ofRuleText n).rules = Rules.ofMembers [("body", arrays n)] := by
    show Rules.ofMembers (coerceMembers (some (.text _))) = _
    rw [coerceMembers, hread]
  rw [hrules]
  rfl

/-- Deleted and renamed, an entity with rules 125 containers deep comes
back and one with rules 126 deep does not, though both were loaded. What
came back can be read, changed and read again. -/
theorem ofRuleText_edited_reread :
    (ofRuleText 125).Loaded ∧ (ofRuleText 126).Loaded
      ∧ ofText ((ofRuleText 125).editAll [.delete "ops" 5, .recode "x"]).compact
          = .ok ((ofRuleText 125).editAll [.delete "ops" 5, .recode "x"])
      ∧ ofText ((ofRuleText 126).editAll [.delete "ops" 5, .recode "x"]).compact
          = .error .malformed
      ∧ ofText (((ofRuleText 125).editAll [.delete "ops" 5, .recode "x"]).editAll
            [.restore 7]).compact
          = .ok (((ofRuleText 125).editAll [.delete "ops" 5, .recode "x"]).editAll
            [.restore 7]) := by
  have hextra : ∀ n ≤ 126, ∀ cs,
      ((ofRuleText n).editAll cs).rules.extra = [("body", arrays n)] := by
    intro n hn cs
    rw [rules_editAll, extra_rules_ofRuleText hn]
  have hi : ∀ n ≤ 126, ∀ cs,
      Value.isIntegralMembers ((ofRuleText n).editAll cs).rules.extra = true := by
    intro n hn cs
    rw [hextra n hn cs, Value.isIntegralMembers, isIntegral_arrays]
    rfl
  have hshallow : ∀ cs, ∀ p ∈ ((ofRuleText 125).editAll cs).rules.extra, p.2.nesting ≤ 125 := by
    intro cs p hp
    rw [hextra 125 (by decide) cs] at hp
    obtain rfl := List.mem_singleton.mp hp
    exact Nat.le_of_eq (nesting_arrays 125)
  have hdeep : ∀ cs, ∃ p ∈ ((ofRuleText 126).editAll cs).rules.extra, 125 < p.2.nesting := by
    intro cs
    rw [hextra 126 (by decide) cs]
    refine ⟨_, List.mem_singleton_self _, ?_⟩
    rw [nesting_arrays]
    decide
  have hchanged := loaded_edited_reread (loaded_ofRuleText 125) [.delete "ops" 5, .recode "x"] rfl
  have hback := (hchanged.2.2.2.1 (hi 125 (by decide) _)).1 (hshallow _)
  have hlost := loaded_edited_reread (loaded_ofRuleText 126) [.delete "ops" 5, .recode "x"] rfl
  have hagain := loaded_edited_reread (.strictly hback) [.restore 7] rfl
  refine ⟨loaded_ofRuleText 125, loaded_ofRuleText 126, hback, ?_, ?_⟩
  · exact (hlost.2.2.2.1 (hi 126 (by decide) _)).2 (hdeep _)
  · refine (hagain.2.2.2.1 ?_).1 (hagain.2.2.2.2 ⟨_, hback⟩)
    rw [rules_editAll]
    exact hi 125 (by decide) _

end EventSeal.Entity
