import EventSeal.Event.Builder
import EventSeal.Proofs.Json.Depths
import EventSeal.Proofs.Record.Fields

/-!
# Objects given as texts

Two places hold JSON in a text. An event keeps its parameters as one, and the
rules of an entity may be given as one. Either way the text is the compact form
of a value, and it stands for that value as long as the value can be read again:
its numbers are integers and it nests within the limit
(`params_paramsValue`, `coerceMembers_compact`). Below the limit it does not
matter whether rules are given as an object or as its text. Beyond it the object
can still be given as it is, while its text is no object to the reader and
leaves the rules blank (`coerceMembers_compact_of_deep`).

Only the rules depend on it. The other fields of the entity are looked up under
other names (`Entity.ofMembers_put_rules`).
-/

namespace EventSeal

open Json

/-- The limit of nesting is met by the object itself, not only by what is in it. -/
theorem Json.coerceMembers_compact {m : Members} (hi : (Value.object m).isIntegral = true)
    (ho : (Value.object m).IsOrdered) (hn : (Value.object m).nesting ≤ Tree.nestingLimit) :
    coerceMembers (some (.text (Value.object m).compact)) = m := by
  rw [coerceMembers, Value.ofText_compact hi ho, if_pos hn]

theorem Json.coerceMembers_compact_of_deep {m : Members}
    (hn : Tree.nestingLimit < (Value.object m).nesting) :
    coerceMembers (some (.text (Value.object m).compact)) = [] := by
  rw [coerceMembers]
  split
  · next m' hread => exact absurd hread (Value.ofText_compact_ne_ok hn _)
  · rfl

namespace Event

theorem params_paramsValue {v : Value} (hi : v.isIntegral = true) (ho : v.IsOrdered)
    (hn : v.nesting ≤ Tree.nestingLimit) (e : Event) :
    Value.ofText ((Setting.paramsValue v).apply e).params = .ok v := by
  have hparams : ((Setting.paramsValue v).apply e).params = v.compact := rfl
  rw [hparams, Value.ofText_compact hi ho, if_pos hn]

end Event

namespace Entity

/-- What is given as rules makes the rules and nothing else. -/
theorem ofMembers_put_rules (m : Members) (v : Value) :
    ofMembers (m.put "rules" v)
      = { ofMembers m with rules := Rules.ofMembers (coerceMembers (some v)) } :=
  separable_layout.ofMembers_put (c := rulesColumn) (by simp [layout, rulesColumn]) m v

end Entity

/-- Parameters are read back from the text they are kept as, and rules given as
a text are those given as the object. Of an object beyond the limit the text
gives no rules at all, and changes nothing else. -/
theorem texts_stand_for_values :
    (∀ v : Value, v.isIntegral = true → v.IsOrdered → v.nesting ≤ 127 → ∀ e : Event,
        Value.ofText ((Event.Setting.paramsValue v).apply e).params = .ok v)
      ∧ (∀ m : Members, (Value.object m).isIntegral = true → (Value.object m).IsOrdered →
          (Value.object m).nesting ≤ 127 → ∀ loose : Members,
            Entity.ofMembers (loose.put "rules" (.text (Value.object m).compact))
              = Entity.ofMembers (loose.put "rules" (.object m)))
      ∧ ∀ m : Members, 127 < (Value.object m).nesting → ∀ loose : Members,
          Entity.ofMembers (loose.put "rules" (.text (Value.object m).compact))
            = { Entity.ofMembers loose with rules := .blank } := by
  refine ⟨fun v hi ho hn e => ?_, fun m hi ho hn loose => ?_, fun m hn loose => ?_⟩
  · exact Event.params_paramsValue hi ho hn e
  · rw [Entity.ofMembers_put_rules, Entity.ofMembers_put_rules, coerceMembers_compact hi ho hn]
    rfl
  · rw [Entity.ofMembers_put_rules, coerceMembers_compact_of_deep hn]
    rfl

/-- Rules with characters that are escaped, the greatest number, and arrays in
one another. -/
def nestedRules (depth : Nat) : Members :=
  [("body", Entity.arrays depth), ("id", .text "\"\t\x01"),
    ("most", .number (.whole 18446744073709551615))]

def looseEntity : Members :=
  [("code", .text "c"), ("rules", .null)]

theorem nestedRules_at_the_limit :
    Value.ofText ((Event.Setting.paramsValue (.object (nestedRules 126))).apply .blank).params
        = .ok (.object (nestedRules 126))
      ∧ Entity.ofMembers
            (looseEntity.put "rules" (.text (Value.object (nestedRules 126)).compact))
          = Entity.ofMembers (looseEntity.put "rules" (.object (nestedRules 126)))
      ∧ Entity.ofMembers
            (looseEntity.put "rules" (.text (Value.object (nestedRules 127)).compact))
          = { Entity.blank with code := "c" } := by
  have hnesting : ∀ n, (Value.object (nestedRules n)).nesting = n + 1 := by
    intro n
    simp [nestedRules, Value.nesting, Value.nestingMembers, Entity.nesting_arrays]
  have hi : (Value.object (nestedRules 126)).isIntegral = true := by
    simp [nestedRules, Value.isIntegral, Value.isIntegralMembers, Entity.isIntegral_arrays, IsWord]
  have ho : (Value.object (nestedRules 126)).IsOrdered := by
    have hkeys : ((nestedRules 126).map Prod.fst).Pairwise (· < ·) := by
      show ["body", "id", "most"].Pairwise (· < ·)
      decide
    exact ⟨List.pairwise_map.mp hkeys, Entity.isOrdered_arrays 126, trivial, trivial, trivial⟩
  have hn : (Value.object (nestedRules 126)).nesting ≤ 127 := Nat.le_of_eq (hnesting 126)
  refine ⟨texts_stand_for_values.1 _ hi ho hn _, texts_stand_for_values.2.1 _ hi ho hn _, ?_⟩
  have hdeep : 127 < (Value.object (nestedRules 127)).nesting := by
    rw [hnesting]
    decide
  exact texts_stand_for_values.2.2 _ hdeep looseEntity

end EventSeal
