import EventSeal.Json.Reader
import EventSeal.Proofs.Json.Ordering
import EventSeal.Proofs.Json.Writing

/-!
# Reading values back

What is read of the tree of a value is the value again, exactly if the
containers that are open at its deepest place fit into the room there is
(`value_tree`). Where they do not, the fault is that of malformed text.

Conversely, a value that has been read nests no deeper than the room it
was read in, and its objects are in order, however the text had them
(`fits_of_value`). So a value that was read once can be read again.
-/

namespace EventSeal.Json

/-! ## Steps of a reader -/

section

variable {ε α β : Type}

@[simp] theorem ok_bind (a : α) (f : α → Except ε β) : (Except.ok a >>= f) = f a := rfl

@[simp] theorem error_bind (e : ε) (f : α → Except ε β) :
    ((Except.error e : Except ε α) >>= f) = .error e := rfl

/-- A reader that has got to its end has passed through all its steps. -/
theorem bind_eq_ok_iff {x : Except ε α} {f : α → Except ε β} {b : β} :
    (x >>= f) = .ok b ↔ ∃ a, x = .ok a ∧ f a = .ok b := by
  cases x with
  | ok a => simp
  | error e => simp

end

namespace Tree

open Value

/-! ## What a tree of a value reads as -/

mutual

theorem value_tree (room : Nat) : ∀ {v : Value}, v.isIntegral = true → v.IsOrdered →
    v.tree.value room = if v.nesting ≤ room then .ok v else .error .malformed
  | .null, _, _ => rfl
  | .bool _, _, _ => rfl
  | .number (.whole n), h, _ => by
      rw [isIntegral, decide_eq_true_eq] at h
      simp [tree, value, Numeral.number?_ofInt h, nesting]
  | .number (.real _), h, _ => nomatch h
  | .text _, _, _ => rfl
  | .array items, h, ho => by
      rw [isIntegral] at h
      rw [IsOrdered] at ho
      cases room with
      | zero => rfl
      | succ k =>
          rw [tree, value, valueItems_treeItems k h ho, nesting]
          by_cases hfit : nestingItems items ≤ k
          · rw [if_pos hfit, if_pos (Nat.succ_le_succ hfit)]
            rfl
          · rw [if_neg hfit, if_neg fun hle => hfit (Nat.le_of_succ_le_succ hle)]
            rfl
  | .object members, h, ho => by
      rw [isIntegral] at h
      rw [IsOrdered] at ho
      cases room with
      | zero => rfl
      | succ k =>
          rw [tree, value, valueMembers_treeMembers k h ho.2 (m := []) ho.1, nesting]
          by_cases hfit : nestingMembers members ≤ k
          · rw [if_pos hfit, if_pos (Nat.succ_le_succ hfit)]
            rfl
          · rw [if_neg hfit, if_neg fun hle => hfit (Nat.le_of_succ_le_succ hle)]
            rfl

theorem valueItems_treeItems (room : Nat) : ∀ {vs : List Value},
    isIntegralItems vs = true → IsOrderedItems vs →
      valueItems room (treeItems vs)
        = if nestingItems vs ≤ room then .ok vs else .error .malformed
  | [], _, _ => rfl
  | v :: vs, h, ho => by
      rw [isIntegralItems, Bool.and_eq_true] at h
      rw [treeItems, valueItems, value_tree room h.1 ho.1, nestingItems]
      by_cases hv : v.nesting ≤ room
      · rw [if_pos hv, ok_bind, valueItems_treeItems room h.2 ho.2]
        by_cases hvs : nestingItems vs ≤ room
        · rw [if_pos hvs, if_pos (max_le hv hvs)]
          rfl
        · rw [if_neg hvs, if_neg fun hle => hvs (max_le_iff.mp hle).2]
          rfl
      · rw [if_neg hv, if_neg fun hle => hv (max_le_iff.mp hle).1]
        rfl

/-- The members before have been entered already; those to come have
greater keys, so each is put at the end. -/
theorem valueMembers_treeMembers (room : Nat) : ∀ {m ms : List (String × Value)},
    isIntegralMembers ms = true → IsOrderedMembers ms → Members.IsSorted (m ++ ms) →
      valueMembers room m (treeMembers ms)
        = if nestingMembers ms ≤ room then .ok (m ++ ms) else .error .malformed
  | m, [], _, _, _ => by
      rw [List.append_nil]
      rfl
  | m, (k, v) :: ms, h, ho, hs => by
      rw [isIntegralMembers, Bool.and_eq_true] at h
      have hlast : ∀ p ∈ m, p.1 < k := fun p hp =>
        (List.pairwise_append.mp hs).2.2 p hp (k, v) List.mem_cons_self
      have hs' : Members.IsSorted ((m ++ [(k, v)]) ++ ms) := by
        rwa [List.append_assoc, List.singleton_append]
      rw [treeMembers, valueMembers, keyText, ok_bind, value_tree room h.1 ho.1, nestingMembers]
      by_cases hv : v.nesting ≤ room
      · rw [if_pos hv, ok_bind, Members.put_of_forall_lt hlast,
          valueMembers_treeMembers room h.2 ho.2 hs']
        by_cases hms : nestingMembers ms ≤ room
        · rw [if_pos hms, if_pos (max_le hv hms), List.append_assoc, List.singleton_append]
        · rw [if_neg hms, if_neg fun hle => hms (max_le_iff.mp hle).2]
      · rw [if_neg hv, if_neg fun hle => hv (max_le_iff.mp hle).1]
        rfl

end

/-! ## What has been read -/

/-- What reading gives of a value: its objects in order, and no more open
containers at one time than there was room for. -/
def Fits (room : Nat) (v : Value) : Prop :=
  v.IsOrdered ∧ v.nesting ≤ room

theorem fits_object {room : Nat} {m : Members} (hs : m.IsSorted)
    (h : ∀ p ∈ m, Fits room p.2) : Fits (room + 1) (.object m) := by
  refine ⟨⟨hs, isOrderedMembers_iff.mpr fun p hp => (h p hp).1⟩, ?_⟩
  rw [nesting]
  exact Nat.succ_le_succ (nestingMembers_le_iff.mpr fun p hp => (h p hp).2)

mutual

theorem fits_of_value : ∀ {room : Nat} {t : Tree} {v : Value},
    t.value room = .ok v → Fits room v
  | room, .null, v, h => by
      obtain rfl := Except.ok.inj h
      exact ⟨trivial, Nat.zero_le room⟩
  | room, .bool b, v, h => by
      obtain rfl := Except.ok.inj h
      exact ⟨trivial, Nat.zero_le room⟩
  | room, .number n, v, h => by
      rw [value] at h
      split at h
      · obtain rfl := Except.ok.inj h
        exact ⟨trivial, Nat.zero_le room⟩
      · nomatch h
  | room, .string (some s), v, h => by
      obtain rfl := Except.ok.inj h
      exact ⟨trivial, Nat.zero_le room⟩
  | room, .string none, v, h => nomatch h
  | 0, .array items cut, v, h => nomatch h
  | room + 1, .array items cut, v, h => by
      rw [value, bind_eq_ok_iff] at h
      obtain ⟨vs, hvs, h⟩ := h
      obtain ⟨-, -, h⟩ := bind_eq_ok_iff.mp h
      obtain rfl := Except.ok.inj h
      obtain ⟨hordered, hnesting⟩ := fits_of_valueItems hvs
      exact ⟨hordered, Nat.succ_le_succ hnesting⟩
  | 0, .object members cut, v, h => nomatch h
  | room + 1, .object members cut, v, h => by
      rw [value, bind_eq_ok_iff] at h
      obtain ⟨ms, hms, h⟩ := h
      obtain ⟨-, -, h⟩ := bind_eq_ok_iff.mp h
      obtain rfl := Except.ok.inj h
      obtain ⟨hsorted, hfits⟩ := fits_of_valueMembers .nil nofun hms
      exact fits_object hsorted hfits
  | room, .gap g, v, h => nomatch h

theorem fits_of_valueItems : ∀ {room : Nat} {ts : List Tree} {vs : List Value},
    valueItems room ts = .ok vs → IsOrderedItems vs ∧ nestingItems vs ≤ room
  | room, [], vs, h => by
      obtain rfl := Except.ok.inj h
      exact ⟨trivial, Nat.zero_le room⟩
  | room, t :: ts, vs, h => by
      rw [valueItems, bind_eq_ok_iff] at h
      obtain ⟨v, hv, h⟩ := h
      obtain ⟨ws, hws, h⟩ := bind_eq_ok_iff.mp h
      obtain rfl := Except.ok.inj h
      obtain ⟨hvo, hvn⟩ := fits_of_value hv
      obtain ⟨hwo, hwn⟩ := fits_of_valueItems hws
      exact ⟨⟨hvo, hwo⟩, max_le hvn hwn⟩

/-- Entering a member keeps the order, also where its key is there already. -/
theorem fits_of_valueMembers : ∀ {room : Nat} {ms : List (Option String × Tree)}
    {m m' : Members}, m.IsSorted → (∀ p ∈ m, Fits room p.2) →
      valueMembers room m ms = .ok m' → m'.IsSorted ∧ ∀ p ∈ m', Fits room p.2
  | room, [], m, m', hs, hm, h => by
      obtain rfl := Except.ok.inj h
      exact ⟨hs, hm⟩
  | room, (key, t) :: ms, m, m', hs, hm, h => by
      rw [valueMembers, bind_eq_ok_iff] at h
      obtain ⟨k, -, h⟩ := h
      obtain ⟨v, hv, h⟩ := bind_eq_ok_iff.mp h
      have hfits := fits_of_value hv
      refine fits_of_valueMembers (hs.put k v) (fun p hp => ?_) h
      rcases Members.mem_put hp with rfl | hp
      · exact hfits
      · exact hm p hp

end

end Tree

/-! ## Whole texts -/

/-- A reader that has read a whole text has read its root. -/
theorem Document.read_eq_ok_iff {α : Type} {reader : Tree → Except Fault α} {d : Document}
    {a : α} : d.read reader = .ok a ↔ reader d.root = .ok a ∧ d.trailing = false := by
  rw [Document.read, bind_eq_ok_iff]
  constructor
  · rintro ⟨b, hb, h⟩
    split at h
    · nomatch h
    · next htrailing =>
      obtain rfl := Except.ok.inj h
      exact ⟨hb, Bool.eq_false_iff.mpr htrailing⟩
  · rintro ⟨ha, htrailing⟩
    exact ⟨a, ha, by rw [htrailing]; rfl⟩

/-- The compact form of a value, read as a whole text. -/
theorem Value.ofText_compact {v : Value} (h : v.isIntegral = true) (ho : v.IsOrdered) :
    Value.ofText v.compact
      = if v.nesting ≤ Tree.nestingLimit then .ok v else .error .malformed := by
  rw [Value.ofText, Value.ofBytes, Document.ofBytes_compact h, Document.read,
    Tree.value_tree _ h ho]
  split <;> rfl

theorem Value.fits_of_ofText {s : String} {v : Value} (h : Value.ofText s = .ok v) :
    Tree.Fits Tree.nestingLimit v := by
  rw [Value.ofText, Value.ofBytes, Document.read_eq_ok_iff] at h
  exact Tree.fits_of_value h.1

end EventSeal.Json
