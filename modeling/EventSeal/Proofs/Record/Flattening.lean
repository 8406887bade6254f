import EventSeal.Proofs.Json.Nesting
import EventSeal.Record.Rules

/-!
# Known and other members of rules

Known and other members of rules are written into one object and told
apart by their keys when it is read. That loses nothing as long as no
other member has a known key and the other members are in order, as the
members of any object are (`WellFormed`). Both ways of getting rules, the
strict and the lenient one, give well-formed ones.

What decides whether rules come back is the nesting of the other members
alone (`read_tree_members`). Rules that were read fit by themselves
(`fits_of_read`). Lenient loading takes values that fit nowhere: an object
may nest to any depth, and one that is given as a text has been read with
room for a whole text, of which a record takes two containers away.
-/

namespace EventSeal.Rules

open Json

/-! ## Well-formed rules -/

structure WellFormed (r : Rules) : Prop where
  isKnown_eq_false : ∀ p ∈ r.extra, isKnown p.1 = false
  isOrdered : (Value.object r.extra).IsOrdered

theorem isKnown_eq_false_iff {key : String} :
    isKnown key = false ↔ key ≠ "id" ∧ key ≠ "name" ∧ key ≠ "context" := by
  simp only [isKnown, Bool.or_eq_false_iff, beq_eq_false_iff_ne, and_assoc]

/-- Well-formed rules are written with every key once. -/
theorem WellFormed.nodup_members {r : Rules} (h : r.WellFormed) :
    (r.members.map Prod.fst).Nodup := by
  have hdisjoint : ∀ a ∈ ["id", "name", "context"], ∀ b ∈ r.extra.map Prod.fst, a ≠ b := by
    intro a ha b hb heq
    obtain ⟨p, hp, rfl⟩ := List.mem_map.mp hb
    obtain ⟨hid, hname, hcontext⟩ := isKnown_eq_false_iff.mp (h.isKnown_eq_false p hp)
    simp only [List.mem_cons, List.not_mem_nil, or_false] at ha
    rcases ha with rfl | rfl | rfl
    · exact hid heq.symm
    · exact hname heq.symm
    · exact hcontext heq.symm
  have hknown : ["id", "name", "context"].Nodup := by decide
  rw [members, List.map_append]
  exact List.nodup_append.mpr ⟨hknown, h.isOrdered.1.nodup_keys, hdisjoint⟩

/-! ## Reading what was written -/

/-- Members with other keys are entered as those of any object are. -/
theorem readMembers_treeMembers (room : Nat) (seen : List String) :
    ∀ {ms : List (String × Value)} {r : Rules}, (∀ p ∈ ms, isKnown p.1 = false) →
      readMembers room seen r (Value.treeMembers ms)
        = (Tree.valueMembers room r.extra (Value.treeMembers ms)).map
            fun m => { r with extra := m }
  | [], r, _ => rfl
  | (k, v) :: ms, r, h => by
      have hk : isKnown k = false := h (k, v) List.mem_cons_self
      rw [Value.treeMembers, readMembers, Tree.valueMembers, Tree.keyText, ok_bind, ok_bind,
        if_neg (Bool.eq_false_iff.mp hk)]
      cases v.tree.value room with
      | error f => rfl
      | ok w =>
          rw [ok_bind, ok_bind]
          exact readMembers_treeMembers room seen fun p hp => h p (List.mem_cons_of_mem _ hp)

theorem read_tree_members {r : Rules} (h : r.WellFormed)
    (hi : Value.isIntegralMembers r.extra = true) (room : Nat) :
    read (room + 1) (Value.object r.members).tree
      = if Value.nestingMembers r.extra ≤ room then .ok r else .error .malformed := by
  have hextra : readMembers room ["context", "name", "id"] { r with extra := [] }
        (Value.treeMembers r.extra)
      = if Value.nestingMembers r.extra ≤ room then .ok r else .error .malformed := by
    rw [readMembers_treeMembers room _ h.isKnown_eq_false,
      Tree.valueMembers_treeMembers room (m := []) hi h.isOrdered.2 h.isOrdered.1]
    split <;> rfl
  have hknown : readMembers room [] blank (Value.treeMembers r.members)
      = readMembers room ["context", "name", "id"] { r with extra := [] }
          (Value.treeMembers r.extra) := rfl
  rw [Value.tree, read, hknown, hextra]
  split <;> rfl

/-! ## What has been read -/

/-- What reading gives: well-formed rules that fit into the room there was. -/
structure Fits (room : Nat) (r : Rules) : Prop extends r.WellFormed where
  fits : ∀ p ∈ r.extra, Tree.Fits room p.2

theorem fits_blank (room : Nat) : Fits room blank where
  isKnown_eq_false := nofun
  isOrdered := ⟨.nil, trivial⟩
  fits := nofun

theorem Fits.setKnown {room : Nat} {r : Rules} (h : Fits room r) (key s : String) :
    Fits room (r.setKnown key s) := by
  have hextra : (r.setKnown key s).extra = r.extra := by
    rw [Rules.setKnown]
    split
    · rfl
    · split <;> rfl
  refine ⟨⟨?_, ?_⟩, ?_⟩ <;> rw [hextra]
  · exact h.isKnown_eq_false
  · exact h.isOrdered
  · exact h.fits

theorem Fits.putExtra {room : Nat} {r : Rules} (h : Fits room r) {key : String} {v : Value}
    (hkey : isKnown key = false) (hv : Tree.Fits room v) : Fits room (r.putExtra key v) := by
  have hmem : ∀ p ∈ (r.putExtra key v).extra, isKnown p.1 = false ∧ Tree.Fits room p.2 := by
    intro p hp
    rcases Members.mem_put hp with rfl | hp
    · exact ⟨hkey, hv⟩
    · exact ⟨h.isKnown_eq_false p hp, h.fits p hp⟩
  refine ⟨⟨fun p hp => (hmem p hp).1, h.isOrdered.1.put key v, ?_⟩, fun p hp => (hmem p hp).2⟩
  exact Value.isOrderedMembers_iff.mpr fun p hp => (hmem p hp).2.1

theorem fits_of_readMembers {room : Nat} : ∀ {ms : List (Option String × Tree)}
    {seen : List String} {r r' : Rules}, Fits room r →
      readMembers room seen r ms = .ok r' → Fits room r'
  | [], _, r, r', hr, h => by
      obtain rfl := Except.ok.inj h
      exact hr
  | (key, t) :: ms, seen, r, r', hr, h => by
      rw [readMembers, bind_eq_ok_iff] at h
      obtain ⟨k, -, h⟩ := h
      split at h
      · split at h
        · nomatch h
        · obtain ⟨s, -, h⟩ := bind_eq_ok_iff.mp h
          exact fits_of_readMembers (hr.setKnown k s) h
      · next hk =>
        obtain ⟨v, hv, h⟩ := bind_eq_ok_iff.mp h
        exact fits_of_readMembers
          (hr.putExtra (Bool.eq_false_iff.mpr hk) (Tree.fits_of_value hv)) h

theorem readMembers_of_read {room : Nat} {ms : List (Option String × Tree)} {cut : Option Gap}
    {r : Rules} (h : read (room + 1) (.object ms cut) = .ok r) :
    readMembers room [] blank ms = .ok r := by
  rw [read, bind_eq_ok_iff] at h
  obtain ⟨r', hr', h⟩ := h
  obtain ⟨-, -, h⟩ := bind_eq_ok_iff.mp h
  obtain rfl := Except.ok.inj h
  exact hr'

theorem fits_of_read {room : Nat} {t : Tree} {r : Rules} (h : read (room + 1) t = .ok r) :
    Fits room r := by
  cases t with
  | object ms cut => exact fits_of_readMembers (fits_blank room) (readMembers_of_read h)
  | _ => cases h

/-! ## Lenient loading -/

/-- Members out of an ordered value, or out of a text, are in order. -/
theorem isOrdered_coerceMembers : ∀ {v : Option Value}, (∀ w, v = some w → w.IsOrdered) →
    (Value.object (coerceMembers v)).IsOrdered
  | some (.object m), h => h (.object m) rfl
  | some (.text s), _ => by
      rw [coerceMembers]
      split
      · next hread => exact (Value.fits_of_ofText hread).1
      · exact ⟨.nil, trivial⟩
  | some .null, _ | some (.bool _), _ | some (.number _), _ | some (.array _), _ | none, _ =>
      ⟨.nil, trivial⟩

theorem wellFormed_ofMembers {m : Members} (h : (Value.object m).IsOrdered) :
    (ofMembers m).WellFormed where
  isKnown_eq_false p hp := by
    have hp := (List.mem_filter.mp hp).2
    rwa [Bool.not_eq_true'] at hp
  isOrdered := by
    refine ⟨h.1.filter _, Value.isOrderedMembers_iff.mpr fun p hp => ?_⟩
    exact Value.isOrderedMembers_iff.mp h.2 p (List.mem_filter.mp hp).1

end EventSeal.Rules
