import EventSeal.Proofs.Json.Nesting
import EventSeal.Record.Layout

/-!
# Records read back

A record is written member by member in the order of its columns, and
read member by member in the order of the text. So reading what was
written goes through the columns once and sets each to what its own value
reads as (`readMembers_written`); the look-up by name and the check for
repetitions find nothing, because the names differ. Whether the record
comes back is then a question about each field alone.

Texts, integers and flags always come back (`read_write_of_ne_rules`).
A record of such fields comes back as it was (`ofBytes_compact`).

Records also come from texts that nobody wrote here, with fields absent, in
another order or as an array. Of those `invariant_read` says what it can: a
property that every field keeps holds of the record.
-/

namespace EventSeal

open Json

/-! ## Fields -/

namespace Kind

theorem read_write_of_ne_rules {k : Kind} (h : k ≠ .rules) (room : Nat) (x : k.Content) :
    k.read room (k.write x).tree = .ok x := by
  cases k with
  | text => rfl
  | integer =>
      show Tree.int64 (.number (.ofInt x.toInt)) = .ok x
      rw [Tree.int64, Numeral.int64?_ofInt]
  | flag => rfl
  | rules => exact absurd rfl h

theorem isIntegral_write_of_ne_rules {k : Kind} (h : k ≠ .rules) (x : k.Content) :
    (k.write x).isIntegral = true := by
  cases k with
  | text => rfl
  | integer => exact decide_eq_true (Number.isWord_toInt x)
  | flag => rfl
  | rules => exact absurd rfl h

end Kind

namespace Layout

variable {R : Type}

/-- The names differ, and a record is what its fields hold. -/
structure Lawful (l : Layout R) : Prop where
  nodup_names : (l.columns.map (·.name)).Nodup
  foldl_set : ∀ r, l.columns.foldl (fun a c => c.set (c.get r) a) l.blank = r

theorem column?_of_mem {cols : List (Column R)} (h : (cols.map (·.name)).Nodup)
    {c : Column R} (hc : c ∈ cols) : column? cols c.name = some c := by
  induction cols with
  | nil => nomatch hc
  | cons d cols ih =>
      rw [List.map_cons, List.nodup_cons] at h
      rw [column?, List.find?_cons]
      rcases List.mem_cons.mp hc with rfl | hc
      · rw [beq_self_eq_true]
      · have hne : (d.name == c.name) = false := by
          refine beq_eq_false_iff_ne.mpr fun heq => h.1 ?_
          rw [heq]
          exact List.mem_map_of_mem hc
        rw [hne]
        exact ih h.2 hc

/-! ## Column by column -/

/-- Sets a column to what its written form in `r` reads as. -/
def reread (room : Nat) (r a : R) (c : Column R) : Except Fault R := do
  let x ← c.kind.read room (c.kind.write (c.get r)).tree
  return c.set x a

theorem readMembers_written {all : List (Column R)} (hall : (all.map (·.name)).Nodup)
    (room : Nat) (r : R) : ∀ {cols : List (Column R)} {seen : List String} {a : R},
      (∀ c ∈ cols, c ∈ all) → (cols.map (·.name)).Nodup → (∀ c ∈ cols, c.name ∉ seen) →
      readMembers all room seen a
          (Value.treeMembers (cols.map fun c => (c.name, c.kind.write (c.get r))))
        = cols.foldlM (reread room r) a
  | [], _, _, _, _, _ => rfl
  | c :: cols, seen, a, hmem, hnodup, hseen => by
      rw [List.map_cons, List.nodup_cons] at hnodup
      have hfound := column?_of_mem hall (hmem c List.mem_cons_self)
      have hnew : c.name ∉ seen := hseen c List.mem_cons_self
      have hrest : ∀ x, readMembers all room (c.name :: seen) (c.set x a)
            (Value.treeMembers (cols.map fun c => (c.name, c.kind.write (c.get r))))
          = cols.foldlM (reread room r) (c.set x a) := by
        intro x
        refine readMembers_written hall room r
          (fun d hd => hmem d (List.mem_cons_of_mem _ hd)) hnodup.2 fun d hd => ?_
        rw [List.mem_cons, not_or]
        refine ⟨fun heq => hnodup.1 ?_, hseen d (List.mem_cons_of_mem _ hd)⟩
        rw [← heq]
        exact List.mem_map_of_mem hd
      rw [List.map_cons, Value.treeMembers, readMembers, Tree.keyText, ok_bind, hfound,
        List.foldlM_cons, reread]
      simp only [if_neg hnew, hrest]
      cases c.kind.read room (c.kind.write (c.get r)).tree <;> rfl

theorem read_tree {l : Layout R} (h : l.Lawful) (room : Nat) (r : R) :
    l.read (room + 1) (Value.object (l.members r)).tree
      = l.columns.foldlM (reread room r) l.blank := by
  rw [Value.tree, read, members,
    readMembers_written h.nodup_names room r (fun _ hc => hc) h.nodup_names
      fun _ _ => List.not_mem_nil]
  cases l.columns.foldlM (reread room r) l.blank <;> rfl

/-- Columns that come back set the record to what it was. -/
theorem foldlM_reread {room : Nat} {r : R} : ∀ {cols : List (Column R)} {a : R},
    (∀ c ∈ cols, c.kind.read room (c.kind.write (c.get r)).tree = .ok (c.get r)) →
      cols.foldlM (reread room r) a = .ok (cols.foldl (fun a c => c.set (c.get r) a) a)
  | [], _, _ => rfl
  | c :: cols, a, h => by
      rw [List.foldlM_cons, reread, h c List.mem_cons_self]
      exact foldlM_reread fun d hd => h d (List.mem_cons_of_mem _ hd)

/-- The first column that does not come back decides. -/
theorem foldlM_reread_error {room : Nat} {r : R} {c : Column R} {f : Fault}
    {before after : List (Column R)}
    (hbefore : ∀ d ∈ before, d.kind.read room (d.kind.write (d.get r)).tree = .ok (d.get r))
    (hc : c.kind.read room (c.kind.write (c.get r)).tree = .error f) (a : R) :
    (before ++ c :: after).foldlM (reread room r) a = .error f := by
  rw [List.foldlM_append, foldlM_reread hbefore, ok_bind, List.foldlM_cons, reread, hc]
  rfl

/-! ## Whole records -/

/-- The containers that may be open within a record that is a whole text. -/
def innerLimit : Nat := Tree.nestingLimit - 1

theorem isIntegral_members {l : Layout R} {r : R}
    (hr : ∀ c ∈ l.columns, (c.kind.write (c.get r)).isIntegral = true) :
    (Value.object (l.members r)).isIntegral = true := by
  rw [Value.isIntegral, Value.isIntegralMembers_iff, members]
  intro p hp
  obtain ⟨c, hc, rfl⟩ := List.mem_map.mp hp
  exact hr c hc

theorem ofBytes_written {l : Layout R} (h : l.Lawful) {r : R}
    (hr : ∀ c ∈ l.columns, (c.kind.write (c.get r)).isIntegral = true) :
    l.ofBytes (Text.bytes (l.compact r)) = l.columns.foldlM (reread innerLimit r) l.blank := by
  rw [ofBytes, compact, Document.ofBytes_compact (isIntegral_members hr), Document.read]
  show (l.read (innerLimit + 1) (Value.object (l.members r)).tree >>= fun a => .ok a) = _
  rw [read_tree h]
  cases l.columns.foldlM (reread innerLimit r) l.blank <;> rfl

theorem ofBytes_compact {l : Layout R} (h : l.Lawful)
    (hplain : ∀ c ∈ l.columns, c.kind ≠ .rules) (r : R) :
    l.ofBytes (Text.bytes (l.compact r)) = .ok r := by
  rw [ofBytes_written h fun c hc => Kind.isIntegral_write_of_ne_rules (hplain c hc) _,
    foldlM_reread fun c hc => Kind.read_write_of_ne_rules (hplain c hc) _ _, h.foldl_set]

theorem readMembers_of_read {l : Layout R} {room : Nat} {ms : List (Option String × Tree)}
    {cut : Option Gap} {r : R} (h : l.read (room + 1) (.object ms cut) = .ok r) :
    readMembers l.columns room [] l.blank ms = .ok r := by
  rw [read, bind_eq_ok_iff] at h
  obtain ⟨r', hr', h⟩ := h
  obtain ⟨-, -, h⟩ := bind_eq_ok_iff.mp h
  obtain rfl := Except.ok.inj h
  exact hr'

/-! ## Invariants of reading

A property that the blank record has and every field that is read keeps,
in whatever order the fields come. -/

section

variable {P : R → Prop} {room : Nat}

theorem invariant_readMembers {cols : List (Column R)}
    (hset : ∀ c ∈ cols, ∀ t x a, c.kind.read room t = .ok x → P a → P (c.set x a)) :
    ∀ {ms : List (Option String × Tree)} {seen : List String} {a r : R}, P a →
      readMembers cols room seen a ms = .ok r → P r
  | [], _, a, r, ha, h => by
      obtain rfl := Except.ok.inj h
      exact ha
  | (key, t) :: ms, seen, a, r, ha, h => by
      rw [readMembers, bind_eq_ok_iff] at h
      obtain ⟨k, -, h⟩ := h
      split at h
      · obtain ⟨-, -, h⟩ := bind_eq_ok_iff.mp h
        exact invariant_readMembers hset ha h
      · next c hc =>
        split at h
        · nomatch h
        · obtain ⟨x, hx, h⟩ := bind_eq_ok_iff.mp h
          exact invariant_readMembers hset
            (hset c (List.mem_of_find?_eq_some hc) t x a hx ha) h

theorem invariant_readItems : ∀ {cols : List (Column R)} {ts : List Tree} {a r : R},
    (∀ c ∈ cols, ∀ t x a, c.kind.read room t = .ok x → P a → P (c.set x a)) → P a →
      readItems room a cols ts = .ok r → P r
  | _, [], a, r, _, ha, h => by
      rw [readItems] at h
      obtain rfl := Except.ok.inj h
      exact ha
  | [], _ :: _, a, r, _, ha, h => nomatch h
  | c :: cols, t :: ts, a, r, hset, ha, h => by
      rw [readItems, bind_eq_ok_iff] at h
      obtain ⟨x, hx, h⟩ := h
      exact invariant_readItems (fun d hd => hset d (List.mem_cons_of_mem _ hd))
        (hset c List.mem_cons_self t x a hx ha) h

theorem invariant_read {l : Layout R} (hblank : P l.blank)
    (hset : ∀ c ∈ l.columns, ∀ t x a, c.kind.read room t = .ok x → P a → P (c.set x a))
    {t : Tree} {r : R} (h : l.read (room + 1) t = .ok r) : P r := by
  cases t with
  | object ms cut => exact invariant_readMembers hset hblank (readMembers_of_read h)
  | array ts cut =>
      rw [read, bind_eq_ok_iff] at h
      obtain ⟨s, hs, h⟩ := h
      obtain ⟨-, -, h⟩ := bind_eq_ok_iff.mp h
      obtain rfl := Except.ok.inj h
      exact invariant_readItems hset hblank hs
  | _ => cases h

theorem invariant_ofBytes {l : Layout R} (hblank : P l.blank)
    (hset : ∀ c ∈ l.columns, ∀ t x a, c.kind.read innerLimit t = .ok x → P a → P (c.set x a))
    {bs : List UInt8} {r : R} (h : l.ofBytes bs = .ok r) : P r := by
  rw [ofBytes, Document.read_eq_ok_iff] at h
  exact invariant_read hblank hset h.1

end

end Layout

end EventSeal
