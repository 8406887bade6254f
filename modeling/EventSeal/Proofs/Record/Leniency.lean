import EventSeal.Proofs.Json.Occurrences
import EventSeal.Proofs.Record.Fields

/-!
# Strict and lenient loading agree

A text that holds an object can be loaded in two ways: read strictly as a
record, or read as a value whose members are then loaded leniently. Where
the strict way succeeds, both give the same record
(`Layout.ofMembers_of_ofBytes`).

Both ways go through the members in the order of the text, the strict one
with a record under way and the other one with the members entered so far.
The invariant is that the record is what those members load as. One step
keeps it, because loading follows the entering of a member: a field is set
as it is read, and a member that is no field changes nothing. So nothing
has to be known about the members before, and the check for repeated
fields plays no part.

For the rules of an entity the argument is the same one level down, except
that members which are no field are kept there, sorted by key. Their order
is why that step asks for members in order (`Rules.ofMembers_put_extra`).
-/

namespace EventSeal

open Json

/-! ## Rules -/

namespace Rules

theorem isKnown_iff {key : String} :
    isKnown key = true ↔ key = "id" ∨ key = "name" ∨ key = "context" := by
  simp only [isKnown, Bool.or_eq_true, beq_iff_eq, or_assoc]

theorem ofMembers_put_known {key : String} (hkey : isKnown key = true) (m : Members)
    (s : String) : ofMembers (m.put key (.text s)) = (ofMembers m).setKnown key s := by
  have hextra : (m.put key (.text s)).filter (fun p => !isKnown p.1)
      = m.filter fun p => !isKnown p.1 :=
    Members.filter_put_of_false (f := fun k => !isKnown k) (by rw [hkey]; rfl) m _
  rw [ofMembers, hextra]
  rcases isKnown_iff.mp hkey with rfl | rfl | rfl <;>
    simp [setKnown, ofMembers, Members.get?_put, coerceText]

theorem ofMembers_put_extra {key : String} (hkey : isKnown key = false) {m : Members}
    (hm : m.IsSorted) (v : Value) : ofMembers (m.put key v) = (ofMembers m).putExtra key v := by
  have hextra : (m.put key v).filter (fun p => !isKnown p.1)
      = Members.put key v (m.filter fun p => !isKnown p.1) :=
    hm.filter_put (f := fun k => !isKnown k) (by rw [hkey]; rfl) v
  obtain ⟨hid, hname, hcontext⟩ := isKnown_eq_false_iff.mp hkey
  rw [ofMembers, hextra]
  simp [putExtra, ofMembers, Members.get?_put, Ne.symm hid, Ne.symm hname, Ne.symm hcontext]

theorem ofMembers_of_readMembers {room : Nat} : ∀ {ms : List (Option String × Tree)}
    {seen : List String} {m m' : Members} {r : Rules}, m.IsSorted →
      readMembers room seen (ofMembers m) ms = .ok r → Tree.valueMembers room m ms = .ok m' →
        ofMembers m' = r
  | [], _, m, m', r, _, hr, hv => by
      obtain rfl := Except.ok.inj hv
      exact Except.ok.inj hr
  | (key, t) :: ms, seen, m, m', r, hm, hr, hv => by
      rw [readMembers, bind_eq_ok_iff] at hr
      rw [Tree.valueMembers, bind_eq_ok_iff] at hv
      obtain ⟨k, hk, hr⟩ := hr
      obtain ⟨k', hk', hv⟩ := hv
      obtain rfl : k = k' := Except.ok.inj (hk.symm.trans hk')
      obtain ⟨v, htv, hv⟩ := bind_eq_ok_iff.mp hv
      split at hr
      · next hknown =>
        split at hr
        · cases hr
        · obtain ⟨s, hts, hr⟩ := bind_eq_ok_iff.mp hr
          obtain rfl := Except.ok.inj (htv.symm.trans (Tree.value_of_text room hts))
          rw [← ofMembers_put_known hknown] at hr
          exact ofMembers_of_readMembers (hm.put k _) hr hv
      · next hknown =>
        obtain ⟨w, htw, hr⟩ := bind_eq_ok_iff.mp hr
        obtain rfl := Except.ok.inj (htv.symm.trans htw)
        rw [← ofMembers_put_extra (Bool.eq_false_iff.mpr hknown) hm] at hr
        exact ofMembers_of_readMembers (hm.put k _) hr hv

/-- Rules are read of an object, and of its members. -/
theorem ofMembers_of_read {room : Nat} {t : Tree} {r : Rules} {v : Value}
    (hr : read room t = .ok r) (hv : t.value room = .ok v) :
    ∃ m, v = .object m ∧ ofMembers m = r := by
  cases t with
  | object ms cut =>
      cases room with
      | zero => nomatch hr
      | succ room =>
          rw [Tree.value, bind_eq_ok_iff] at hv
          obtain ⟨m, hm, hv⟩ := hv
          obtain ⟨-, -, hv⟩ := bind_eq_ok_iff.mp hv
          obtain rfl := Except.ok.inj hv
          exact ⟨m, rfl, ofMembers_of_readMembers (m := []) .nil (readMembers_of_read hr) hm⟩
  | _ => nomatch hr

end Rules

/-! ## Fields -/

theorem Kind.coerce_of_read {k : Kind} {room : Nat} {t : Tree} {x : k.Content} {v : Value}
    (hx : k.read room t = .ok x) (hv : t.value room = .ok v) : k.coerce (some v) = x := by
  cases k with
  | text =>
      obtain rfl := Except.ok.inj (hv.symm.trans (Tree.value_of_text room hx))
      rfl
  | integer =>
      obtain rfl := Except.ok.inj (hv.symm.trans (Tree.value_of_int64 room hx))
      show (int64OfInt? x.toInt).getD 0 = x
      rw [int64OfInt?_toInt, Option.getD_some]
  | flag =>
      obtain rfl := Except.ok.inj (hv.symm.trans (Tree.value_of_flag room hx))
      rfl
  | rules =>
      obtain ⟨m, rfl, hm⟩ := Rules.ofMembers_of_read hx hv
      exact hm

/-! ## Records -/

namespace Layout

variable {R : Type} {l : Layout R}

theorem Separable.ofMembers_of_readMembers (h : l.Separable) {room : Nat} :
    ∀ {ms : List (Option String × Tree)} {seen : List String} {m m' : Members} {r : R},
      readMembers l.columns room seen (l.ofMembers m) ms = .ok r →
        Tree.valueMembers room m ms = .ok m' → l.ofMembers m' = r
  | [], _, m, m', r, hr, hv => by
      obtain rfl := Except.ok.inj hv
      exact Except.ok.inj hr
  | (key, t) :: ms, seen, m, m', r, hr, hv => by
      rw [readMembers, bind_eq_ok_iff] at hr
      rw [Tree.valueMembers, bind_eq_ok_iff] at hv
      obtain ⟨k, hk, hr⟩ := hr
      obtain ⟨k', hk', hv⟩ := hv
      obtain rfl : k = k' := Except.ok.inj (hk.symm.trans hk')
      obtain ⟨v, htv, hv⟩ := bind_eq_ok_iff.mp hv
      split at hr
      · next hother =>
        obtain ⟨-, -, hr⟩ := bind_eq_ok_iff.mp hr
        rw [← h.ofMembers_put_of_ne (ne_of_column?_eq_none hother) m v] at hr
        exact h.ofMembers_of_readMembers hr hv
      · next c hfound =>
        obtain ⟨hc, rfl⟩ := column?_eq_some hfound
        split at hr
        · cases hr
        · obtain ⟨x, hx, hr⟩ := bind_eq_ok_iff.mp hr
          have hput := h.ofMembers_put hc m v
          rw [Kind.coerce_of_read hx htv] at hput
          rw [← hput] at hr
          exact h.ofMembers_of_readMembers hr hv

theorem Separable.ofMembers_of_read (h : l.Separable) {room : Nat} {t : Tree} {m : Members}
    {r : R} (hv : t.value room = .ok (.object m)) (hr : l.read room t = .ok r) :
    l.ofMembers m = r := by
  obtain ⟨ms, cut, room', rfl, rfl, hm⟩ := Tree.exists_members_of_value hv
  have hread := readMembers_of_read hr
  rw [← h.ofMembers_nil] at hread
  exact h.ofMembers_of_readMembers hread hm

end Layout

theorem Layout.Separable.ofMembers_of_ofBytes {R : Type} {l : Layout R} (h : l.Separable)
    {bs : List UInt8} {m : Members} {r : R} (hv : Value.ofBytes bs = .ok (.object m))
    (hr : l.ofBytes bs = .ok r) : l.ofMembers m = r :=
  h.ofMembers_of_read (Document.read_eq_ok_iff.mp hv).1 (Document.read_eq_ok_iff.mp hr).1

/-! ## Members that occur more than once -/

/-- Every member under the name of a field has been read as that field. -/
theorem Layout.exists_read_of_readMembers {R : Type} {cols : List (Column R)} {room : Nat}
    {key : String} {c : Column R} (hc : column? cols key = some c) {t : Tree} :
    ∀ {ms : List (Option String × Tree)} {seen : List String} {r r' : R},
      readMembers cols room seen r ms = .ok r' → (some key, t) ∈ ms →
        ∃ x, c.kind.read room t = .ok x
  | [], _, _, _, _, ht => nomatch ht
  | (k, u) :: ms, seen, r, r', h, ht => by
      rw [readMembers, bind_eq_ok_iff] at h
      obtain ⟨k', hk, h⟩ := h
      rcases List.mem_cons.mp ht with heq | ht
      · obtain ⟨rfl, rfl⟩ := Prod.mk.inj heq
        obtain rfl := Except.ok.inj hk
        simp only [hc] at h
        split at h
        · cases h
        · obtain ⟨x, hx, -⟩ := bind_eq_ok_iff.mp h
          exact ⟨x, hx⟩
      · split at h
        · obtain ⟨-, -, h⟩ := bind_eq_ok_iff.mp h
          exact exists_read_of_readMembers hc h ht
        · split at h
          · cases h
          · obtain ⟨x, -, h⟩ := bind_eq_ok_iff.mp h
            exact exists_read_of_readMembers hc h ht

theorem Layout.exists_read_of_lastMember? {R : Type} {l : Layout R} {room : Nat} {key : String}
    {c : Column R} (hc : column? l.columns key = some c) {t u : Tree} {r : R}
    (hr : l.read (room + 1) t = .ok r) (hu : t.lastMember? key = some u) :
    ∃ x, c.kind.read room u = .ok x := by
  cases t with
  | object ms cut =>
      exact exists_read_of_readMembers hc (readMembers_of_read hr) (Tree.mem_of_last? hu)
  | _ => nomatch hu

namespace Entity

/-- Of the other members of the rules, the last one under a key counts. -/
theorem get?_extra_of_ofText {s : String} {m : Members} {e : Entity}
    (hv : Value.ofText s = .ok (.object m)) (he : ofText s = .ok e) {key : String}
    (hkey : Rules.isKnown key = false) :
    e.rules.extra.get? key
      = ((Document.ofBytes (Text.bytes s)).root.lastAt? ["rules", key]).bind fun t =>
          (t.value rulesLimit).toOption := by
  have hroot : (Document.ofBytes (Text.bytes s)).root.value (Layout.innerLimit + 1)
      = .ok (.object m) := (Document.read_eq_ok_iff.mp hv).1
  have hread : layout.read (Layout.innerLimit + 1) (Document.ofBytes (Text.bytes s)).root = .ok e :=
    (Document.read_eq_ok_iff.mp he).1
  have hextra : e.rules.extra.get? key = (coerceMembers (m.get? "rules")).get? key := by
    rw [← separable_layout.ofMembers_of_read hroot hread]
    refine (Members.get?_filter (fun k => !Rules.isKnown k) _ key).trans ?_
    rw [hkey]
    rfl
  rw [hextra, Tree.lastAt?]
  rcases Tree.get?_of_value hroot "rules" with ⟨hlast, hget⟩ | ⟨t, v, hlast, ht, hget⟩
  · rw [hlast, hget]
    rfl
  · obtain ⟨r, hr⟩ := Layout.exists_read_of_lastMember? (c := rulesColumn) rfl hread hlast
    have hrules : Rules.read Layout.innerLimit t = .ok r := hr
    obtain ⟨rm, rfl, -⟩ := Rules.ofMembers_of_read hrules ht
    have hinner : t.value (rulesLimit + 1) = .ok (.object rm) := ht
    rw [hlast, hget, Option.bind_some, Tree.lastAt?, coerceMembers]
    rcases Tree.get?_of_value hinner key with ⟨hlast', hget'⟩ | ⟨u, w, hlast', hu, hget'⟩
    · rw [hlast', hget']
      rfl
    · rw [hlast', hget', Option.bind_some, Tree.lastAt?, Option.bind_some, hu]
      rfl

end Entity

/-! ## Events, entities and versions -/

/-- Members that are loaded leniently make the record that the strict
reading of their text makes, if it makes one. So the seal of an event holds
after the one exactly if it holds after the other, and what an entity keeps
of its rules is, under every key, what the last member says. -/
theorem lenient_loading_of_strict {s : String} {m : Members}
    (h : Value.ofText s = .ok (.object m)) :
    (∀ e, Event.ofText s = .ok e →
        Event.ofMembers m = e ∧ (Event.ofMembers m).verifies = e.verifies)
      ∧ (∀ e, Entity.ofText s = .ok e →
          Entity.ofMembers m = e
            ∧ ∀ key, Rules.isKnown key = false →
                e.rules.extra.get? key
                  = ((Document.ofBytes (Text.bytes s)).root.lastAt? ["rules", key]).bind fun t =>
                      (t.value Entity.rulesLimit).toOption)
      ∧ ∀ v, Version.ofText s = .ok v → Version.ofMembers m = v := by
  refine ⟨fun e he => ?_, fun e he => ⟨?_, fun key hkey => ?_⟩, fun v hv => ?_⟩
  · have heq : Event.ofMembers m = e := Event.separable_layout.ofMembers_of_ofBytes h he
    exact ⟨heq, by rw [heq]⟩
  · exact Entity.separable_layout.ofMembers_of_ofBytes h he
  · exact Entity.get?_extra_of_ofText h he hkey
  · exact Version.separable_layout.ofMembers_of_ofBytes h hv

/-- Keys that are escaped, unknown or repeated, the least integer, and
fields that only some of the records have. -/
def crowdedText : String :=
  "\x7b\"\\u0063reatedAt\":-9223372036854775808,\"zz\":1e3,\"zz\":[],"
    ++ "\"rules\":\x7b\"b\":1,\"id\":\"r\",\"b\":[2]\x7d,\"online\":true\x7d"

def crowdedMembers : Members :=
  [("createdAt", .number (.whole (-9223372036854775808))), ("online", .bool true),
    ("rules", .object [("b", .array [.number (.whole 2)]), ("id", .text "r")]), ("zz", .array [])]

def crowdedEvent : Event :=
  { Event.blank with createdAt := -9223372036854775808 }

def crowdedEntity : Entity :=
  { Entity.blank with
    createdAt := -9223372036854775808
    rules := ⟨"r", "", "", [("b", .array [.number (.whole 2)])]⟩ }

def crowdedVersion : Version :=
  { Version.blank with createdAt := -9223372036854775808, online := true }

theorem lenient_loading_of_crowdedText :
    Value.ofText crowdedText = .ok (.object crowdedMembers)
      ∧ (Event.ofText crowdedText = .ok crowdedEvent
          ∧ Event.ofMembers crowdedMembers = crowdedEvent)
      ∧ (Entity.ofText crowdedText = .ok crowdedEntity
          ∧ Entity.ofMembers crowdedMembers = crowdedEntity)
      ∧ Version.ofText crowdedText = .ok crowdedVersion
          ∧ Version.ofMembers crowdedMembers = crowdedVersion := by
  have hvalue : Value.ofText crowdedText = .ok (.object crowdedMembers) := rfl
  have hevent : Event.ofText crowdedText = .ok crowdedEvent := rfl
  have hentity : Entity.ofText crowdedText = .ok crowdedEntity := rfl
  have hversion : Version.ofText crowdedText = .ok crowdedVersion := rfl
  have hlenient := lenient_loading_of_strict hvalue
  refine ⟨hvalue, ⟨hevent, ?_⟩, ⟨hentity, ?_⟩, hversion, ?_⟩
  · exact (hlenient.1 _ hevent).1
  · exact (hlenient.2.1 _ hentity).1
  · exact hlenient.2.2 _ hversion

end EventSeal
