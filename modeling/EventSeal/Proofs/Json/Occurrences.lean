import EventSeal.Json.Coercion
import EventSeal.Proofs.Json.Nesting

/-!
# One text, read by type and as a value

A place in a text can be read as the type that a field asks for or as any
value. A scalar that the first reading accepts the second accepts too, and
the value it gives is that scalar (`value_of_text`, `value_of_flag`,
`value_of_int64`). The integers are the interesting case: the literal is
looked at twice, for a word of 64 bits with a sign and for one with or
without.

A key may occur more than once in an object. The value of the object holds
what the last of its members says (`get?_of_value`).
-/

namespace EventSeal.Json

theorem int64OfInt?_eq_some_iff {n : Int} {i : Int64} : int64OfInt? n = some i ↔ n = i.toInt := by
  constructor
  · intro h
    rw [int64OfInt?] at h
    split at h
    · next hrange =>
      obtain rfl := Option.some.inj h
      exact (Int64.toInt_ofInt_of_le hrange.1 (Int.lt_add_one_of_le hrange.2)).symm
    · cases h
  · rintro rfl
    exact int64OfInt?_toInt i

namespace Numeral

theorem int64?_eq_some_iff {n : Numeral} {i : Int64} :
    n.int64? = some i ↔ n.isInteger = true ∧ n.integer = i.toInt := by
  rw [int64?]
  split
  · next h => rw [int64OfInt?_eq_some_iff, and_iff_right h]
  · next h => exact iff_of_false (by simp) fun hi => h hi.1

theorem number?_of_int64? {n : Numeral} {i : Int64} (h : n.int64? = some i) :
    n.number? = some (.ofInt64 i) := by
  obtain ⟨hinteger, hn⟩ := int64?_eq_some_iff.mp h
  rw [number?, if_pos ⟨hinteger, hn ▸ Number.isWord_toInt i⟩, hn]
  rfl

end Numeral

namespace Tree

/-! ## Scalars -/

theorem text_eq_ok_iff {t : Tree} {s : String} : t.text = .ok s ↔ t = .string (some s) := by
  constructor
  · intro h
    cases t with
    | string text =>
        cases text with
        | some s' => rw [Except.ok.inj h]
        | none => nomatch h
    | _ => nomatch h
  · rintro rfl
    rfl

theorem flag_eq_ok_iff {t : Tree} {b : Bool} : t.flag = .ok b ↔ t = .bool b := by
  constructor
  · intro h
    cases t with
    | bool b' => rw [Except.ok.inj h]
    | _ => nomatch h
  · rintro rfl
    rfl

theorem int64_eq_ok_iff {t : Tree} {i : Int64} :
    t.int64 = .ok i ↔ ∃ n, t = .number n ∧ n.int64? = some i := by
  constructor
  · intro h
    cases t with
    | number n =>
        rw [int64] at h
        split at h
        · next j hn => exact ⟨n, rfl, by rw [hn, Except.ok.inj h]⟩
        · nomatch h
    | _ => nomatch h
  · rintro ⟨n, rfl, hn⟩
    rw [int64, hn]

variable {t : Tree} (room : Nat)

theorem value_of_text {s : String} (h : t.text = .ok s) : t.value room = .ok (.text s) := by
  obtain rfl := text_eq_ok_iff.mp h
  rfl

theorem value_of_flag {b : Bool} (h : t.flag = .ok b) : t.value room = .ok (.bool b) := by
  obtain rfl := flag_eq_ok_iff.mp h
  rfl

theorem value_of_int64 {i : Int64} (h : t.int64 = .ok i) :
    t.value room = .ok (.number (.ofInt64 i)) := by
  obtain ⟨n, rfl, hn⟩ := int64_eq_ok_iff.mp h
  rw [value, Numeral.number?_of_int64? hn]

/-! ## The last member under a key -/

/-- The last of the members that have the key. -/
def last? (key : String) (ms : List (Option String × Tree)) : Option Tree :=
  (ms.reverse.find? fun p => p.1 == some key).map Prod.snd

theorem last?_cons (key : String) (p : Option String × Tree) (ms : List (Option String × Tree)) :
    last? key (p :: ms) = (last? key ms).or (if p.1 = some key then some p.2 else none) := by
  rw [last?, last?, List.reverse_cons, List.find?_append, List.find?_singleton]
  by_cases hp : p.1 = some key <;> cases ms.reverse.find? fun p => p.1 == some key <;> simp [hp]

theorem mem_of_last? {key : String} {t : Tree} {ms : List (Option String × Tree)}
    (h : last? key ms = some t) : (some key, t) ∈ ms := by
  obtain ⟨⟨k, u⟩, hfound, rfl⟩ := Option.map_eq_some_iff.mp h
  have hkey := List.find?_some hfound
  obtain rfl : k = some key := beq_iff_eq.mp hkey
  exact List.mem_reverse.mp (List.mem_of_find?_eq_some hfound)

/-- Of the members of an object the last one counts under every key, and
of the members entered before only what has no such member. -/
theorem get?_of_valueMembers {room : Nat} (key : String) :
    ∀ {ms : List (Option String × Tree)} {m m' : Members}, valueMembers room m ms = .ok m' →
      (last? key ms = none ∧ m'.get? key = m.get? key)
        ∨ ∃ t v, last? key ms = some t ∧ t.value room = .ok v ∧ m'.get? key = some v
  | [], m, m', h => by
      obtain rfl := Except.ok.inj h
      exact Or.inl ⟨rfl, rfl⟩
  | (k, t) :: ms, m, m', h => by
      rw [valueMembers, bind_eq_ok_iff] at h
      obtain ⟨k', hk, h⟩ := h
      obtain ⟨v, hv, h⟩ := bind_eq_ok_iff.mp h
      obtain rfl : k = some k' := by
        cases k with
        | some j => rw [Except.ok.inj hk]
        | none => nomatch hk
      rw [last?_cons]
      rcases get?_of_valueMembers key h with ⟨hlast, hget⟩ | ⟨u, w, hlast, hu, hget⟩
      · rw [hlast, hget, Members.get?_put]
        by_cases hkey : k' = key
        · subst hkey
          exact Or.inr ⟨t, v, by simp, hv, if_pos rfl⟩
        · exact Or.inl ⟨by simp [hkey], if_neg (Ne.symm hkey)⟩
      · exact Or.inr ⟨u, w, by rw [hlast]; rfl, hu, hget⟩

/-- What stands in a tree under a key, the last time that the key occurs. -/
def lastMember? (key : String) : Tree → Option Tree
  | .object members _ => last? key members
  | _ => none

/-- What stands under a path of keys. -/
def lastAt? : List String → Tree → Option Tree
  | [], t => some t
  | key :: keys, t => (t.lastMember? key).bind (lastAt? keys)

/-- The value of a tree is an object only if the tree is one. -/
theorem exists_members_of_value {room : Nat} {t : Tree} {m : Members}
    (h : t.value room = .ok (.object m)) :
    ∃ ms cut room', t = .object ms cut ∧ room = room' + 1 ∧ valueMembers room' [] ms = .ok m := by
  cases t with
  | object ms cut =>
      cases room with
      | zero => cases h
      | succ room =>
          rw [value, bind_eq_ok_iff] at h
          obtain ⟨m', hm, h⟩ := h
          obtain ⟨-, -, h⟩ := bind_eq_ok_iff.mp h
          obtain rfl := Value.object.inj (Except.ok.inj h)
          exact ⟨ms, cut, room, rfl, rfl, hm⟩
  | array ts cut =>
      cases room with
      | zero => cases h
      | succ room =>
          rw [value, bind_eq_ok_iff] at h
          obtain ⟨vs, -, h⟩ := h
          obtain ⟨-, -, h⟩ := bind_eq_ok_iff.mp h
          cases h
  | number n =>
      rw [value] at h
      split at h <;> cases h
  | string s => cases s <;> cases h
  | _ => cases h

theorem get?_of_value {room : Nat} {t : Tree} {m : Members}
    (h : t.value (room + 1) = .ok (.object m)) (key : String) :
    (t.lastMember? key = none ∧ m.get? key = none)
      ∨ ∃ u v, t.lastMember? key = some u ∧ u.value room = .ok v ∧ m.get? key = some v := by
  obtain ⟨ms, cut, room', rfl, hroom, hm⟩ := exists_members_of_value h
  obtain rfl := Nat.succ.inj hroom
  exact get?_of_valueMembers key hm

end Tree

end EventSeal.Json
