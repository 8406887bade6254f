import EventSeal.Proofs.Json.Nesting
import EventSeal.Proofs.Json.Occurrences

/-!
# Only whole trees are accepted

Skipping is the most lenient way of reading: it accepts every whole tree,
and no other (`skip_eq_ok_iff`). The other readers accept less, each for
reasons of its own, but none of them accepts a tree with a gap: they read
all of it, and come to the gap in the end unless they stop before.
-/

namespace EventSeal.Json

/-- One reader after another that gives nothing. -/
theorem then_eq_ok_iff {ε β : Type} {x : Except ε Unit} {y : Except ε β} {b : β} :
    (x >>= fun _ => y) = .ok b ↔ x = .ok () ∧ y = .ok b := by
  cases x <;> simp

namespace Tree

/-! ## Skipping -/

theorem closing_eq_ok_iff {fault : Gap → Fault} {cut : Option Gap} :
    closing fault cut = .ok () ↔ cut = none := by
  cases cut with
  | none => exact iff_of_true rfl rfl
  | some g => exact iff_of_false nofun nofun

mutual

theorem skip_eq_ok_iff : ∀ {t : Tree}, t.skip = .ok () ↔ t.isWhole = true
  | .null => iff_of_true rfl rfl
  | .bool _ => iff_of_true rfl rfl
  | .number _ => iff_of_true rfl rfl
  | .string _ => iff_of_true rfl rfl
  | .array items cut => by
      rw [skip, then_eq_ok_iff, skipItems_eq_ok_iff, closing_eq_ok_iff, isWhole,
        Bool.and_eq_true, Option.isNone_iff_eq_none, and_comm]
  | .object members cut => by
      rw [skip, then_eq_ok_iff, skipMembers_eq_ok_iff, closing_eq_ok_iff, isWhole,
        Bool.and_eq_true, Option.isNone_iff_eq_none, and_comm]
  | .gap _ => iff_of_false nofun nofun

theorem skipItems_eq_ok_iff : ∀ {ts : List Tree}, skipItems ts = .ok () ↔ isWholeItems ts = true
  | [] => iff_of_true rfl rfl
  | t :: ts => by
      rw [skipItems, then_eq_ok_iff, skip_eq_ok_iff, skipItems_eq_ok_iff, isWholeItems,
        Bool.and_eq_true]

theorem skipMembers_eq_ok_iff : ∀ {ms : List (Option String × Tree)},
    skipMembers ms = .ok () ↔ isWholeMembers ms = true
  | [] => iff_of_true rfl rfl
  | (_, t) :: ms => by
      rw [skipMembers, then_eq_ok_iff, skip_eq_ok_iff, skipMembers_eq_ok_iff, isWholeMembers,
        Bool.and_eq_true]

end

theorem isWholeItems_iff {ts : List Tree} :
    isWholeItems ts = true ↔ ∀ t ∈ ts, t.isWhole = true := by
  induction ts with
  | nil => exact iff_of_true rfl nofun
  | cons t ts ih => rw [isWholeItems, Bool.and_eq_true, ih, List.forall_mem_cons]

theorem isWholeMembers_iff {ms : List (Option String × Tree)} :
    isWholeMembers ms = true ↔ ∀ p ∈ ms, p.2.isWhole = true := by
  induction ms with
  | nil => exact iff_of_true rfl nofun
  | cons p ms ih => rw [isWholeMembers, Bool.and_eq_true, ih, List.forall_mem_cons]

/-! ## Values -/

mutual

theorem isWhole_of_value : ∀ {room : Nat} {t : Tree} {v : Value},
    t.value room = .ok v → t.isWhole = true
  | _, .null, _, _ => rfl
  | _, .bool _, _, _ => rfl
  | _, .number _, _, _ => rfl
  | _, .string _, _, _ => rfl
  | 0, .array _ _, _, h => nomatch h
  | room + 1, .array items cut, v, h => by
      rw [value, bind_eq_ok_iff] at h
      obtain ⟨vs, hitems, h⟩ := h
      obtain ⟨hcut, -⟩ := then_eq_ok_iff.mp h
      rw [isWhole, isWhole_of_valueItems hitems, closing_eq_ok_iff.mp hcut]
      rfl
  | 0, .object _ _, _, h => nomatch h
  | room + 1, .object members cut, v, h => by
      rw [value, bind_eq_ok_iff] at h
      obtain ⟨ms, hmembers, h⟩ := h
      obtain ⟨hcut, -⟩ := then_eq_ok_iff.mp h
      rw [isWhole, isWhole_of_valueMembers hmembers, closing_eq_ok_iff.mp hcut]
      rfl
  | _, .gap _, _, h => nomatch h

theorem isWhole_of_valueItems : ∀ {room : Nat} {ts : List Tree} {vs : List Value},
    valueItems room ts = .ok vs → isWholeItems ts = true
  | _, [], _, _ => rfl
  | room, t :: ts, vs, h => by
      rw [valueItems, bind_eq_ok_iff] at h
      obtain ⟨v, hv, h⟩ := h
      obtain ⟨ws, hws, -⟩ := bind_eq_ok_iff.mp h
      rw [isWholeItems, isWhole_of_value hv, isWhole_of_valueItems hws]
      rfl

theorem isWhole_of_valueMembers : ∀ {room : Nat} {ms : List (Option String × Tree)}
    {m m' : Members}, valueMembers room m ms = .ok m' → isWholeMembers ms = true
  | _, [], _, _, _ => rfl
  | room, (key, t) :: ms, m, m', h => by
      rw [valueMembers, bind_eq_ok_iff] at h
      obtain ⟨k, -, h⟩ := h
      obtain ⟨v, hv, h⟩ := bind_eq_ok_iff.mp h
      rw [isWholeMembers, isWhole_of_value hv, isWhole_of_valueMembers h]
      rfl

end

theorem isWhole_of_text {t : Tree} {s : String} (h : t.text = .ok s) : t.isWhole = true := by
  obtain rfl := text_eq_ok_iff.mp h
  rfl

theorem isWhole_of_flag {t : Tree} {b : Bool} (h : t.flag = .ok b) : t.isWhole = true := by
  obtain rfl := flag_eq_ok_iff.mp h
  rfl

theorem isWhole_of_int64 {t : Tree} {i : Int64} (h : t.int64 = .ok i) : t.isWhole = true := by
  obtain ⟨n, rfl, -⟩ := int64_eq_ok_iff.mp h
  rfl

end Tree

end EventSeal.Json
