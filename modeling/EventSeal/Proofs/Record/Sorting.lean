import EventSeal.Proofs.Json.Indenting
import EventSeal.Proofs.Record.Shapes

/-!
# Records in the pretty form

The pretty form of a record has its members sorted by name. Sorting keeps
every member of a record, because the names differ (`Members.perm_ofList`),
and a strict reader does not look at the order of members
(`Separable.readMembers_perm`). So a record comes back from its pretty form
as it comes back from the compact one (`Separable.ofBytes_pretty`), and it is
all the same whether the pretty form is made of the record or of its compact
form, read as any JSON value is (`valueOf_compact`).
-/

namespace EventSeal

open Json

/-! ## Sorted members -/

namespace Json.Members

theorem perm_put {m : Members} {key : String} (h : key ∉ m.map Prod.fst) (v : Value) :
    (put key v m).Perm ((key, v) :: m) := by
  induction m with
  | nil => exact .refl _
  | cons p rest ih =>
      obtain ⟨k, w⟩ := p
      rw [List.map_cons, List.mem_cons, not_or] at h
      rw [put, if_neg h.1]
      split
      · exact .refl _
      · exact ((ih h.2).cons (k, w)).trans (.swap _ _ _)

/-- Entering members with names of their own loses none. -/
theorem perm_foldl_put : ∀ {ms : List (String × Value)} {m : Members},
    ((m ++ ms).map Prod.fst).Nodup →
      (ms.foldl (fun m p => put p.1 p.2 m) m).Perm (m ++ ms)
  | [], m, _ => by
      rw [List.append_nil]
      exact .refl _
  | p :: ms, m, h => by
      have hperm : (put p.1 p.2 m ++ ms).Perm (m ++ p :: ms) := by
        have hp : p.1 ∉ m.map Prod.fst := by
          rw [List.map_append, List.nodup_append] at h
          exact fun hmem => h.2.2 _ hmem _ List.mem_cons_self rfl
        exact ((perm_put hp p.2).append_right ms).trans List.perm_middle.symm
      exact (perm_foldl_put ((hperm.map Prod.fst).nodup_iff.mpr h)).trans hperm

theorem perm_ofList {ms : List (String × Value)} (h : (ms.map Prod.fst).Nodup) :
    (ofList ms).Perm ms :=
  perm_foldl_put h

/-- No member comes from elsewhere, whether or not the names differ. -/
theorem mem_of_mem_ofList {ms : List (String × Value)} {p : String × Value}
    (h : p ∈ ofList ms) : p ∈ ms := by
  have hfold : ∀ {ms : List (String × Value)} {m : Members},
      p ∈ ms.foldl (fun m q => put q.1 q.2 m) m → p ∈ m ∨ p ∈ ms := by
    intro ms
    induction ms with
    | nil => exact fun h => Or.inl h
    | cons q ms ih =>
        intro m h
        rcases ih h with h | h
        · rcases mem_put h with rfl | h
          · exact Or.inr List.mem_cons_self
          · exact Or.inl h
        · exact Or.inr (List.mem_cons_of_mem _ h)
  rcases hfold h with h | h
  · nomatch h
  · exact h

theorem isSorted_ofList (ms : List (String × Value)) : IsSorted (ofList ms) := by
  have hfold : ∀ {ms : List (String × Value)} {m : Members}, m.IsSorted →
      IsSorted (ms.foldl (fun m p => put p.1 p.2 m) m) := by
    intro ms
    induction ms with
    | nil => exact fun hm => hm
    | cons p ms ih => exact fun hm => ih (hm.put p.1 p.2)
  exact hfold .nil

end Json.Members

/-- Members are entered in the order in which they were written. -/
theorem Json.Tree.valueMembers_treeMembers_eq {room : Nat} {ms : List (String × Value)}
    (h : ∀ p ∈ ms, p.2.tree.value room = .ok p.2) : ∀ m : Members,
    valueMembers room m (Value.treeMembers ms) = .ok (ms.foldl (fun m p => m.put p.1 p.2) m) := by
  induction ms with
  | nil => exact fun m => rfl
  | cons p ms ih =>
      intro m
      obtain ⟨hp, hms⟩ := List.forall_mem_cons.mp h
      rw [Value.treeMembers, valueMembers, keyText, ok_bind, hp, ok_bind, ih hms]
      rfl

/-- The trees of members under their keys. -/
theorem Json.Value.treeMembers_eq_named (ms : List (String × Value)) :
    treeMembers ms = Tree.named (ms.map fun p => (p.1, p.2.tree)) := by
  induction ms with
  | nil => rfl
  | cons p ms ih =>
      rw [treeMembers, ih]
      rfl

/-- What a plain field writes is read as it was. -/
theorem Kind.value_write_of_ne_rules {k : Kind} (h : k ≠ .rules) (room : Nat) (x : k.Content) :
    (k.write x).tree.value room = .ok (k.write x) := by
  have hintegral := isIntegral_write_of_ne_rules h x
  cases k with
  | text => rfl
  | integer => exact Tree.value_tree room (v := .number (.ofInt64 x)) hintegral trivial
  | flag => rfl
  | rules => exact absurd rfl h

namespace Layout

variable {R : Type} {l : Layout R}

/-- Members may come in any order. -/
theorem Separable.readMembers_perm (h : l.Separable) {room : Nat} {ms ms' : List (String × Tree)}
    (hperm : ms.Perm ms') (hwhole : ∀ p ∈ ms, p.2.isWhole = true) {r : R} :
    readMembers l.columns room [] l.blank (Tree.named ms) = .ok r ↔
      readMembers l.columns room [] l.blank (Tree.named ms') = .ok r := by
  have hwhole' : ∀ p ∈ ms', p.2.isWhole = true := fun p hp => hwhole p (hperm.mem_iff.mpr hp)
  rw [h.readMembers_eq_ok_iff hwhole, h.readMembers_eq_ok_iff hwhole']
  exact forall₂_congr fun c _ => settles_perm ((hperm.filter _).map _)

theorem Lawful.nodup_members (h : l.Lawful) (r : R) :
    ((l.members r).map Prod.fst).Nodup := by
  rw [members, List.map_map]
  exact h.nodup_names

theorem isIntegral_value (h : l.Lawful) {r : R}
    (hr : ∀ c ∈ l.columns, (c.kind.write (c.get r)).isIntegral = true) :
    (l.value r).isIntegral = true := by
  have hmembers := isIntegral_members hr
  rw [Value.isIntegral, Value.isIntegralMembers_iff] at hmembers
  rw [value, Value.isIntegral, Value.isIntegralMembers_iff]
  exact fun p hp => hmembers p ((Members.perm_ofList (h.nodup_members r)).mem_iff.mp hp)

/-- The value that is read of the compact form has the fields sorted by name. -/
theorem valueOf_compact (hplain : ∀ c ∈ l.columns, c.kind ≠ .rules) (r : R) (after : Space) :
    Value.ofBytes (Text.bytes (l.compact r) ++ octets after.chars) = .ok (l.value r) := by
  have hintegral : (Value.object (l.members r)).isIntegral = true :=
    isIntegral_members fun c hc => Kind.isIntegral_write_of_ne_rules (hplain c hc) _
  have hfields : ∀ p ∈ l.members r, p.2.tree.value innerLimit = .ok p.2 := by
    intro p hp
    obtain ⟨c, hc, rfl⟩ := List.mem_map.mp hp
    exact Kind.value_write_of_ne_rules (hplain c hc) _ _
  have hvalue : (Value.object (l.members r)).tree.value Tree.nestingLimit = .ok (l.value r) := by
    rw [show Tree.nestingLimit = innerLimit + 1 from rfl, Value.tree, Tree.value,
      Tree.valueMembers_treeMembers_eq hfields]
    rfl
  rw [Value.ofBytes, compact, Document.ofBytes_compact_space hintegral, Document.read, hvalue]
  rfl

/-- A record of plain fields comes back from its pretty form. -/
theorem Separable.ofBytes_pretty (h : l.Separable) (hplain : ∀ c ∈ l.columns, c.kind ≠ .rules)
    (r : R) (after : Space) :
    l.ofBytes (Text.bytes (l.value r).pretty ++ octets after.chars) = .ok r := by
  have hintegral : ∀ c ∈ l.columns, (c.kind.write (c.get r)).isIntegral = true := fun c hc =>
    Kind.isIntegral_write_of_ne_rules (hplain c hc) _
  have hmembers := isIntegral_members hintegral
  have hordered : readMembers l.columns innerLimit [] l.blank (Value.treeMembers (l.members r))
      = .ok r := by
    rw [members, readMembers_written h.nodup_names innerLimit r (fun _ hc => hc) h.nodup_names
        fun _ _ => List.not_mem_nil,
      foldlM_reread fun c hc => Kind.read_write_of_ne_rules (hplain c hc) _ _, h.foldl_set]
  have hwhole : ∀ p ∈ (l.members r).map (fun p => (p.1, p.2.tree)), p.2.isWhole = true := by
    intro p hp
    obtain ⟨q, hq, rfl⟩ := List.mem_map.mp hp
    rw [Value.isIntegral, Value.isIntegralMembers_iff] at hmembers
    exact Value.isWhole_tree (hmembers q hq)
  have hperm := (Members.perm_ofList (h.nodup_members r)).symm.map fun p => (p.1, p.2.tree)
  rw [Value.treeMembers_eq_named, h.readMembers_perm hperm hwhole] at hordered
  rw [ofBytes, Document.ofBytes_pretty (isIntegral_value h.toLawful hintegral), Document.read,
    value, Value.tree, Value.treeMembers_eq_named]
  show (readMembers l.columns innerLimit [] l.blank _ >>= fun r => .ok r) >>= _ = _
  rw [hordered]
  rfl

end Layout

end EventSeal
