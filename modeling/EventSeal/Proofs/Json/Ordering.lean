import EventSeal.Json.Value
import Mathlib.Data.String.Basic

/-!
# Members in order

The members of an object are kept sorted by key, every key once. The
type of values does not say so; `IsOrdered` does, for the object itself
and for all objects in it. Entering a member keeps the order
(`IsSorted.put`), and a member whose key is above all others comes last
(`put_of_forall_lt`). So entering the members of an ordered object one
after the other gives them back as they stand.
-/

namespace EventSeal.Json

namespace Members

/-- Sorted by key, every key once. -/
def IsSorted (m : Members) : Prop :=
  m.Pairwise fun p q => p.1 < q.1

theorem mem_put {m : Members} {key : String} {v : Value} {p : String × Value}
    (h : p ∈ put key v m) : p = (key, v) ∨ p ∈ m := by
  induction m with
  | nil => exact Or.inl (List.mem_singleton.mp h)
  | cons q rest ih =>
      obtain ⟨k, w⟩ := q
      rw [put] at h
      split at h
      · next heq =>
        subst heq
        rcases List.mem_cons.mp h with rfl | hrest
        · exact Or.inl rfl
        · exact Or.inr (List.mem_cons_of_mem _ hrest)
      · split at h
        · exact List.mem_cons.mp h
        · rcases List.mem_cons.mp h with rfl | hput
          · exact Or.inr List.mem_cons_self
          · exact (ih hput).imp_right (List.mem_cons_of_mem _)

theorem put_of_forall_lt {m : Members} {key : String} (h : ∀ p ∈ m, p.1 < key) (v : Value) :
    put key v m = m ++ [(key, v)] := by
  induction m with
  | nil => rfl
  | cons q rest ih =>
      obtain ⟨k, w⟩ := q
      have hk : k < key := h (k, w) List.mem_cons_self
      rw [put, if_neg (ne_of_gt hk), if_neg (lt_asymm hk),
        ih fun p hp => h p (List.mem_cons_of_mem _ hp)]
      rfl

theorem put_of_forall_gt {m : Members} {key : String} (h : ∀ p ∈ m, key < p.1) (v : Value) :
    put key v m = (key, v) :: m := by
  cases m with
  | nil => rfl
  | cons p rest =>
      obtain ⟨k, w⟩ := p
      have hk : key < k := h (k, w) List.mem_cons_self
      rw [put, if_neg (ne_of_lt hk), if_pos hk]

theorem IsSorted.put {m : Members} (h : m.IsSorted) (key : String) (v : Value) :
    (Members.put key v m).IsSorted := by
  induction m with
  | nil => exact List.pairwise_singleton _ _
  | cons q rest ih =>
      obtain ⟨k, w⟩ := q
      obtain ⟨hfirst, hrest⟩ := List.pairwise_cons.mp h
      rw [Members.put]
      split
      · exact List.pairwise_cons.mpr ⟨hfirst, hrest⟩
      · next hne =>
        split
        · next hlt =>
          refine List.pairwise_cons.mpr ⟨fun p hp => ?_, h⟩
          rcases List.mem_cons.mp hp with rfl | hp
          · exact hlt
          · exact lt_trans hlt (hfirst p hp)
        · next hnlt =>
          have hgt : k < key := lt_of_le_of_ne (not_lt.mp hnlt) (Ne.symm hne)
          refine List.pairwise_cons.mpr ⟨fun p hp => ?_, ih hrest⟩
          rcases mem_put hp with rfl | hp
          · exact hgt
          · exact hfirst p hp

theorem mem_of_get? {m : Members} {key : String} {v : Value} (h : m.get? key = some v) :
    (key, v) ∈ m := by
  induction m with
  | nil => nomatch h
  | cons p rest ih =>
      obtain ⟨k, w⟩ := p
      rw [get?_cons] at h
      split at h
      · next heq =>
        obtain rfl := Option.some.inj h
        rw [heq]
        exact List.mem_cons_self
      · exact List.mem_cons_of_mem _ (ih h)

theorem IsSorted.nodup_keys {m : Members} (h : m.IsSorted) : (m.map Prod.fst).Nodup :=
  List.pairwise_map.mpr (h.imp fun hlt => ne_of_lt hlt)

/-! ## Filtering -/

section

variable {f : String → Bool} {key : String}

theorem get?_filter (f : String → Bool) (m : Members) (key : String) :
    get? (m.filter fun p => f p.1) key = if f key then m.get? key else none := by
  induction m with
  | nil => simp
  | cons p rest ih =>
      obtain ⟨k, v⟩ := p
      rw [List.filter_cons, get?_cons]
      by_cases hk : key = k
      · subst hk
        by_cases hf : f key <;> simp [hf, get?_cons, ih]
      · by_cases hf : f k <;> simp [hf, get?_cons, ih, hk]

/-- A member that is filtered out may as well not be entered. -/
theorem filter_put_of_false (hf : f key = false) (m : Members) (v : Value) :
    (put key v m).filter (fun p => f p.1) = m.filter fun p => f p.1 := by
  induction m with
  | nil => simp [put, hf]
  | cons p rest ih =>
      obtain ⟨k, w⟩ := p
      rw [put]
      split
      · next heq =>
        subst heq
        simp [hf]
      · split
        · simp [List.filter_cons, hf]
        · rw [List.filter_cons, List.filter_cons, ih]

/-- Entering and filtering commute, in members that are in order. Elsewhere
the place of the new member could depend on one that is filtered out. -/
theorem IsSorted.filter_put {m : Members} (h : m.IsSorted) (hf : f key = true) (v : Value) :
    (Members.put key v m).filter (fun p => f p.1)
      = Members.put key v (m.filter fun p => f p.1) := by
  induction m with
  | nil => simp [Members.put, hf]
  | cons p rest ih =>
      obtain ⟨k, w⟩ := p
      obtain ⟨hfirst, hrest⟩ := List.pairwise_cons.mp h
      rw [Members.put]
      split
      · next heq =>
        subst heq
        simp [hf, Members.put]
      · next hne =>
        split
        · next hlt =>
          have habove : ∀ q ∈ ((k, w) :: rest).filter fun p => f p.1, key < q.1 := by
            intro q hq
            rcases List.mem_cons.mp (List.mem_filter.mp hq).1 with rfl | hq
            · exact hlt
            · exact lt_trans hlt (hfirst q hq)
          rw [put_of_forall_gt habove]
          exact List.filter_cons_of_pos hf
        · next hnlt =>
          simp only [List.filter_cons, ih hrest]
          split
          · rw [Members.put, if_neg hne, if_neg hnlt]
          · rfl

end

end Members

namespace Value

mutual

/-- Every object in the value is sorted by key, every key once. -/
def IsOrdered : Value → Prop
  | .null | .bool _ | .number _ | .text _ => True
  | .array items => IsOrderedItems items
  | .object members => Members.IsSorted members ∧ IsOrderedMembers members

def IsOrderedItems : List Value → Prop
  | [] => True
  | v :: vs => v.IsOrdered ∧ IsOrderedItems vs

def IsOrderedMembers : List (String × Value) → Prop
  | [] => True
  | (_, v) :: ms => v.IsOrdered ∧ IsOrderedMembers ms

end

theorem isOrderedItems_iff {vs : List Value} : IsOrderedItems vs ↔ ∀ v ∈ vs, v.IsOrdered := by
  induction vs with
  | nil => exact iff_of_true trivial nofun
  | cons v vs ih => rw [IsOrderedItems, ih, List.forall_mem_cons]

theorem isOrderedMembers_iff {ms : List (String × Value)} :
    IsOrderedMembers ms ↔ ∀ p ∈ ms, p.2.IsOrdered := by
  induction ms with
  | nil => exact iff_of_true trivial nofun
  | cons p ms ih => rw [IsOrderedMembers, ih, List.forall_mem_cons]

theorem nestingItems_le_iff {vs : List Value} {n : Nat} :
    nestingItems vs ≤ n ↔ ∀ v ∈ vs, v.nesting ≤ n := by
  induction vs with
  | nil => exact iff_of_true (Nat.zero_le n) nofun
  | cons v vs ih => rw [nestingItems, max_le_iff, ih, List.forall_mem_cons]

theorem nestingMembers_le_iff {ms : List (String × Value)} {n : Nat} :
    nestingMembers ms ≤ n ↔ ∀ p ∈ ms, p.2.nesting ≤ n := by
  induction ms with
  | nil => exact iff_of_true (Nat.zero_le n) nofun
  | cons p ms ih => rw [nestingMembers, max_le_iff, ih, List.forall_mem_cons]

end Value

end EventSeal.Json
