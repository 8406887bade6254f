import EventSeal.Proofs.Record.Entities
import EventSeal.Proofs.Record.WireForms

/-!
# The fields of a record

The columns of a layout do not interfere: what is set in one is read there
and nowhere else (`Separable`). Together with the law that a record is what
its fields hold, this turns questions about records into questions about
one field at a time (`ext_get`).

Loose members are looked up by name, so a record that is loaded from them
follows them member by member. Entering a member under the name of a field
sets that field (`ofMembers_put`), and entering one under another name
changes nothing (`ofMembers_put_of_ne`). Neither says anything about what
was there before; a member that is entered twice sets the field twice.
-/

namespace EventSeal

open Json

namespace Layout

variable {R : Type} {l : Layout R}

/-- What is set in a field is read there and nowhere else, and a blank
record holds what is made of nothing. -/
structure Separable (l : Layout R) : Prop extends l.Lawful where
  get_set : ∀ c ∈ l.columns, ∀ x r, c.get (c.set x r) = x
  get_set_of_ne : ∀ c ∈ l.columns, ∀ d ∈ l.columns, c.name ≠ d.name →
    ∀ x r, d.get (c.set x r) = d.get r
  get_blank : ∀ c ∈ l.columns, c.get l.blank = c.kind.coerce none

theorem Lawful.ext_get (h : l.Lawful) {r r' : R} (hget : ∀ c ∈ l.columns, c.get r = c.get r') :
    r = r' := by
  have hfold : l.columns.foldl (fun a c => c.set (c.get r) a) l.blank
      = l.columns.foldl (fun a c => c.set (c.get r') a) l.blank :=
    List.foldl_ext _ _ _ fun a c hc => by rw [hget c hc]
  rw [← h.foldl_set r, hfold, h.foldl_set r']

theorem Lawful.eq_of_name_eq (h : l.Lawful) {c d : Column R} (hc : c ∈ l.columns)
    (hd : d ∈ l.columns) (hname : c.name = d.name) : c = d := by
  have hfound := column?_of_mem h.nodup_names hc
  rw [hname, column?_of_mem h.nodup_names hd] at hfound
  exact (Option.some.inj hfound).symm

/-! ## Setting fields one after the other -/

section

variable (x : (c : Column R) → c.kind.Content)

theorem Separable.get_foldl_of_ne (h : l.Separable) {d : Column R} (hd : d ∈ l.columns) :
    ∀ {cols : List (Column R)} {r : R}, (∀ c ∈ cols, c ∈ l.columns) →
      (∀ c ∈ cols, c.name ≠ d.name) → d.get (cols.foldl (fun a c => c.set (x c) a) r) = d.get r
  | [], _, _, _ => rfl
  | c :: cols, r, hcols, hne => by
      rw [List.forall_mem_cons] at hcols hne
      rw [List.foldl_cons, h.get_foldl_of_ne hd hcols.2 hne.2]
      exact h.get_set_of_ne c hcols.1 d hd hne.1 (x c) r

theorem Separable.get_foldl (h : l.Separable) {d : Column R} :
    ∀ {cols : List (Column R)} {r : R}, (∀ c ∈ cols, c ∈ l.columns) →
      (cols.map (·.name)).Nodup → d ∈ cols →
        d.get (cols.foldl (fun a c => c.set (x c) a) r) = x d
  | [], _, _, _, hd => nomatch hd
  | c :: cols, r, hcols, hnodup, hd => by
      rw [List.forall_mem_cons] at hcols
      rw [List.map_cons, List.nodup_cons] at hnodup
      rw [List.foldl_cons]
      rcases List.mem_cons.mp hd with rfl | hd
      · have hlater : ∀ c ∈ cols, c.name ≠ d.name := by
          intro c hc heq
          exact hnodup.1 (heq ▸ List.mem_map_of_mem hc)
        rw [h.get_foldl_of_ne x hcols.1 hcols.2 hlater]
        exact h.get_set d hcols.1 (x d) r
      · exact h.get_foldl hcols.2 hnodup.2 hd

end

/-! ## Lenient loading, member by member -/

theorem Separable.get_ofMembers (h : l.Separable) {c : Column R} (hc : c ∈ l.columns)
    (m : Members) : c.get (l.ofMembers m) = c.kind.coerce (m.get? c.name) :=
  h.get_foldl (fun c => c.kind.coerce (m.get? c.name)) (fun _ hd => hd) h.nodup_names hc

theorem Separable.ofMembers_nil (h : l.Separable) : l.ofMembers [] = l.blank := by
  refine h.ext_get fun c hc => ?_
  rw [h.get_ofMembers hc, h.get_blank c hc, Members.get?_nil]

theorem Separable.ofMembers_put (h : l.Separable) {c : Column R} (hc : c ∈ l.columns)
    (m : Members) (v : Value) :
    l.ofMembers (m.put c.name v) = c.set (c.kind.coerce (some v)) (l.ofMembers m) := by
  refine h.ext_get fun d hd => ?_
  rw [h.get_ofMembers hd, Members.get?_put]
  by_cases hname : d.name = c.name
  · obtain rfl := h.eq_of_name_eq hd hc hname
    rw [if_pos rfl, h.get_set d hd]
  · rw [if_neg hname, h.get_set_of_ne c hc d hd (Ne.symm hname), h.get_ofMembers hd]

theorem Separable.ofMembers_put_of_ne (h : l.Separable) {key : String}
    (hkey : ∀ c ∈ l.columns, c.name ≠ key) (m : Members) (v : Value) :
    l.ofMembers (m.put key v) = l.ofMembers m := by
  refine h.ext_get fun c hc => ?_
  rw [h.get_ofMembers hc, h.get_ofMembers hc, Members.get?_put, if_neg (hkey c hc)]

theorem column?_eq_some {cols : List (Column R)} {key : String} {c : Column R}
    (h : column? cols key = some c) : c ∈ cols ∧ c.name = key := by
  have hname := List.find?_some h
  exact ⟨List.mem_of_find?_eq_some h, beq_iff_eq.mp hname⟩

theorem ne_of_column?_eq_none {cols : List (Column R)} {key : String}
    (h : column? cols key = none) : ∀ c ∈ cols, c.name ≠ key := by
  intro c hc heq
  exact List.find?_eq_none.mp h c hc (beq_iff_eq.mpr heq)

end Layout

/-! ## The three records -/

namespace Event

theorem mem_columns_iff {c : Column Event} :
    c ∈ layout.columns ↔ (∃ p, c = partColumn p) ∨ c = createdAtColumn ∨ c = signColumn := by
  rw [layout, List.mem_append, List.mem_map, List.mem_pair]
  refine or_congr_left ⟨?_, ?_⟩
  · rintro ⟨p, -, rfl⟩
    exact ⟨p, rfl⟩
  · rintro ⟨p, rfl⟩
    exact ⟨p, p.mem_all, rfl⟩

theorem separable_layout : layout.Separable where
  toLawful := lawful_layout
  get_set c hc x e := by
    rcases mem_columns_iff.mp hc with ⟨p, rfl⟩ | rfl | rfl
    · exact (Body.get_set e.toBody p p x).trans (if_pos rfl)
    · rfl
    · rfl
  get_set_of_ne c hc d hd hne x e := by
    rcases mem_columns_iff.mp hc with ⟨p, rfl⟩ | rfl | rfl
    · rcases mem_columns_iff.mp hd with ⟨q, rfl⟩ | rfl | rfl
      · have hpq : q ≠ p := fun heq => hne (by rw [heq])
        exact (Body.get_set e.toBody p q x).trans (if_neg hpq)
      · exact Body.createdAt_set e.toBody p x
      · rfl
    · rcases mem_columns_iff.mp hd with ⟨q, rfl⟩ | rfl | rfl
      · cases q <;> rfl
      · exact absurd rfl hne
      · rfl
    · rcases mem_columns_iff.mp hd with ⟨q, rfl⟩ | rfl | rfl
      · cases q <;> rfl
      · rfl
      · exact absurd rfl hne
  get_blank c hc := by
    rcases mem_columns_iff.mp hc with ⟨p, rfl⟩ | rfl | rfl
    · cases p <;> rfl
    · rfl
    · rfl

end Event

theorem Entity.separable_layout : Entity.layout.Separable where
  toLawful := Entity.lawful_layout
  get_set c hc x e := by
    simp only [Entity.layout, List.mem_cons, List.not_mem_nil, or_false] at hc
    rcases hc with rfl | rfl | rfl | rfl | rfl | rfl | rfl | rfl | rfl | rfl | rfl <;> rfl
  get_set_of_ne c hc d hd hne x e := by
    simp only [Entity.layout, List.mem_cons, List.not_mem_nil, or_false] at hc hd
    rcases hc with rfl | rfl | rfl | rfl | rfl | rfl | rfl | rfl | rfl | rfl | rfl <;>
      rcases hd with rfl | rfl | rfl | rfl | rfl | rfl | rfl | rfl | rfl | rfl | rfl <;>
      first | rfl | exact absurd rfl hne
  get_blank c hc := by
    simp only [Entity.layout, List.mem_cons, List.not_mem_nil, or_false] at hc
    rcases hc with rfl | rfl | rfl | rfl | rfl | rfl | rfl | rfl | rfl | rfl | rfl <;> rfl

theorem Version.separable_layout : Version.layout.Separable where
  toLawful := Version.lawful_layout
  get_set c hc x v := by
    simp only [Version.layout, List.mem_cons, List.not_mem_nil, or_false] at hc
    rcases hc with rfl | rfl | rfl | rfl | rfl | rfl | rfl | rfl | rfl | rfl | rfl <;> rfl
  get_set_of_ne c hc d hd hne x v := by
    simp only [Version.layout, List.mem_cons, List.not_mem_nil, or_false] at hc hd
    rcases hc with rfl | rfl | rfl | rfl | rfl | rfl | rfl | rfl | rfl | rfl | rfl <;>
      rcases hd with rfl | rfl | rfl | rfl | rfl | rfl | rfl | rfl | rfl | rfl | rfl <;>
      first | rfl | exact absurd rfl hne
  get_blank c hc := by
    simp only [Version.layout, List.mem_cons, List.not_mem_nil, or_false] at hc
    rcases hc with rfl | rfl | rfl | rfl | rfl | rfl | rfl | rfl | rfl | rfl | rfl <;> rfl

end EventSeal
