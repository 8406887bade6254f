import EventSeal.Entity
import EventSeal.Event.Basic
import EventSeal.Proofs.Json.Truncation
import EventSeal.Proofs.Json.Wholeness
import EventSeal.Version

/-!
# Where the text of a record ends

A record is read from a text that is it, the white space around it apart,
and nothing else. If the text is cut short by more than white space, it is
always noticed, and as what it is: the text ended too early. Only a numeral
may look complete, or wrong, when it is cut. If the text is gone on with by
more than white space, it is malformed. So no text that is a record begins
with another that is one (`framed`).

It is the same for every layout, because it is the same for the readers of
the fields (`Kind.allows_read`). Where a container is read part by part
(`enter`, `place`), the part at the cut is a field, a skipped value or
another value, and of those it is known.
-/

namespace EventSeal

open Json

variable {c : Lexeme.Cut}

/-- What each step asks of the part it takes, all parts come up to. -/
theorem forall_of_foldlM {β σ : Type} {step : σ → β → Except Fault σ} {P : β → Prop}
    (hstep : ∀ r r' x, step r x = .ok r' → P x) :
    ∀ {parts : List β} {r r' : σ}, parts.foldlM step r = .ok r' → ∀ x ∈ parts, P x
  | [], _, _, _ => nofun
  | x :: parts, r, r', h => by
      rw [List.foldlM_cons] at h
      obtain ⟨r'', hx, h⟩ := bind_eq_ok_iff.mp h
      exact List.forall_mem_cons.mpr ⟨hstep r r'' x hx, forall_of_foldlM hstep h⟩

theorem stop_bind_pure {α β : Type} (x : Except Fault α) (f : α → β) :
    stop (x >>= fun a => pure (f a)) = stop x := by
  cases x <;> rfl

/-! ## Members -/

/-- What is known of a step that takes a member, if it takes it: the key
denotes a text, the tree is whole, and a stump of it can be told. -/
structure TakesMembers {σ : Type} (step : σ → Option String × Tree → Except Fault σ) : Prop where
  key : ∀ {r r' k t}, step r (k, t) = .ok r' → ∃ key, Tree.keyText k = .ok key
  isWhole : ∀ {r r' k t}, step r (k, t) = .ok r' → t.isWhole = true
  allows : ∀ {r r' k t c t'}, step r (k, t) = .ok r' → Tree.Stump c t t' →
    c.Allows (stop (step r (k, t')))

section

variable {α σ : Type} {read : List (Option String × Tree) → Option Gap → Except Fault α}
  {step : σ → Option String × Tree → Except Fault σ} {s : σ}

theorem TakesMembers.isWhole_object (hstep : TakesMembers step)
    (h : GoesThrough read step s Gap.fault) {ms : List (Option String × Tree)} {cut : Option Gap}
    {a : α} (hok : read ms cut = .ok a) : (Tree.object ms cut).isWhole = true := by
  obtain ⟨r, hfold, rfl⟩ := h.foldlM_of_ok hok
  exact Tree.isWholeMembers_iff.mpr
    (forall_of_foldlM (fun _ _ _ hp => hstep.isWhole hp) hfold)

/-- A stump of an object that is read is nothing, or an object that breaks
off. -/
theorem TakesMembers.allows_object (hstep : TakesMembers step)
    (h : GoesThrough read step s Gap.fault) {ms : List (Option String × Tree)} {a : α}
    (hok : read ms none = .ok a) {t' : Tree} (ht : Tree.Stump c (.object ms none) t') :
    t' = .gap .ended
      ∨ ∃ ms' g, t' = .object ms' (some g) ∧ c.Allows (stop (read ms' (some g))) := by
  cases ht with
  | absent => exact Or.inl rfl
  | object before after => exact Or.inr ⟨_, _, rfl, Or.inl (h.stop_between hok _)⟩
  | key before after hk t =>
      obtain ⟨_, _, hmember⟩ := h.exists_step hok
      obtain ⟨key, hkey⟩ := hstep.key hmember
      refine Or.inr ⟨_, _, rfl, Or.inl ?_⟩
      rw [h.stop_between hok]
      exact Tree.fault_inString hk hkey
  | member before after k ht =>
      exact Or.inr ⟨_, _, rfl, h.allows_part rfl hok fun _ _ hm => hstep.allows hm ht⟩

end

/-! ## Rules -/

namespace Rules

variable {room : Nat}

/-- Takes one member, with the known keys of those before. -/
def enter (room : Nat) (st : List String × Rules) (p : Option String × Tree) :
    Except Fault (List String × Rules) := do
  let k ← Tree.keyText p.1
  if isKnown k then
    if k ∈ st.1 then .error .mistyped
    else
      let s ← p.2.text
      return (k :: st.1, st.2.setKnown k s)
  else
    let v ← p.2.value room
    return (st.1, st.2.putExtra k v)

theorem outcome_readMembers (room : Nat) (ms : List (Option String × Tree)) (seen : List String)
    (r : Rules) :
    outcome (readMembers room seen r ms) = outcome (ms.foldlM (enter room) (seen, r)) := by
  induction ms generalizing seen r with
  | nil => rfl
  | cons p ms ih =>
      obtain ⟨key, t⟩ := p
      rw [readMembers, List.foldlM_cons, enter]
      cases Tree.keyText key with
      | error f => rfl
      | ok k =>
          simp only [ok_bind]
          split
          · split
            · rfl
            · cases t.text with
              | ok s => exact ih _ _
              | error f => rfl
          · cases t.value room with
            | ok v => exact ih _ _
            | error f => rfl

theorem goesThrough_read (room : Nat) :
    GoesThrough (fun ms cut => read (room + 1) (.object ms cut)) (enter room) ([], blank)
      Gap.fault :=
  .of_outcome (fun ms => outcome_readMembers room ms [] blank) Gap.fault fun r => r

theorem takesMembers_enter (room : Nat) : TakesMembers (enter room) where
  key h := by
    obtain ⟨key, hkey, -⟩ := bind_eq_ok_iff.mp h
    exact ⟨key, hkey⟩
  isWhole h := by
    obtain ⟨key, -, h⟩ := bind_eq_ok_iff.mp h
    split_ifs at h
    · obtain ⟨s, hs, -⟩ := bind_eq_ok_iff.mp h
      exact Tree.isWhole_of_text hs
    · obtain ⟨v, hv, -⟩ := bind_eq_ok_iff.mp h
      exact Tree.isWhole_of_value hv
  allows h ht := by
    obtain ⟨key, hkey, h⟩ := bind_eq_ok_iff.mp h
    dsimp only [enter]
    rw [hkey, ok_bind]
    split_ifs at h ⊢
    · obtain ⟨s, hs, -⟩ := bind_eq_ok_iff.mp h
      rw [stop_bind_pure]
      exact Tree.allows_text ht hs
    · obtain ⟨v, hv, -⟩ := bind_eq_ok_iff.mp h
      rw [stop_bind_pure]
      exact Tree.allows_value ht hv

theorem exists_members_of_read {t : Tree} {r : Rules} (h : read room t = .ok r) :
    ∃ ms cut room', t = .object ms cut ∧ room = room' + 1 := by
  cases t with
  | object ms cut =>
      cases room with
      | zero => nomatch h
      | succ room => exact ⟨ms, cut, room, rfl, rfl⟩
  | _ => nomatch h

theorem isWhole_of_read {t : Tree} {r : Rules} (h : read room t = .ok r) : t.isWhole = true := by
  obtain ⟨ms, cut, room, rfl, rfl⟩ := exists_members_of_read h
  exact (takesMembers_enter room).isWhole_object (goesThrough_read room) h

theorem allows_read {t t' : Tree} (ht : Tree.Stump c t t') {r : Rules}
    (h : read room t = .ok r) : c.Allows (stop (read room t')) := by
  obtain ⟨ms, cut, room, rfl, rfl⟩ := exists_members_of_read h
  obtain ⟨-, -, rfl⟩ := (goesThrough_read room).foldlM_of_ok h
  rcases (takesMembers_enter room).allows_object (goesThrough_read room) h ht with
    rfl | ⟨ms', g, rfl, hallows⟩
  · exact Or.inl rfl
  · exact hallows

end Rules

/-! ## Fields -/

namespace Kind

variable {room : Nat} {k : Kind} {t t' : Tree} {x : k.Content}

theorem isWhole_of_read (h : k.read room t = .ok x) : t.isWhole = true := by
  cases k with
  | text => exact Tree.isWhole_of_text h
  | integer => exact Tree.isWhole_of_int64 h
  | flag => exact Tree.isWhole_of_flag h
  | rules => exact Rules.isWhole_of_read h

theorem allows_read (ht : Tree.Stump c t t') (h : k.read room t = .ok x) :
    c.Allows (stop (k.read room t')) := by
  cases k with
  | text => exact Tree.allows_text ht h
  | integer => exact Tree.allows_int64 ht h
  | flag => exact Tree.allows_flag ht h
  | rules => exact Rules.allows_read ht h

end Kind

/-! ## Records -/

namespace Layout

variable {R : Type} {l : Layout R} {room : Nat}

/-- Takes one member, with the names of the fields before. -/
def enter (cols : List (Column R)) (room : Nat) (st : List String × R)
    (p : Option String × Tree) : Except Fault (List String × R) := do
  let k ← Tree.keyText p.1
  match column? cols k with
  | none =>
      p.2.skip
      return st
  | some c =>
      if k ∈ st.1 then .error .mistyped
      else
        let x ← c.kind.read room p.2
        return (k :: st.1, c.set x st.2)

theorem outcome_readMembers (cols : List (Column R)) (room : Nat)
    (ms : List (Option String × Tree)) (seen : List String) (r : R) :
    outcome (readMembers cols room seen r ms)
      = outcome (ms.foldlM (enter cols room) (seen, r)) := by
  induction ms generalizing seen r with
  | nil => rfl
  | cons p ms ih =>
      obtain ⟨key, t⟩ := p
      rw [readMembers, List.foldlM_cons, enter]
      cases Tree.keyText key with
      | error f => rfl
      | ok k =>
          simp only [ok_bind]
          cases column? cols k with
          | none =>
              dsimp only
              cases t.skip with
              | ok u => exact ih _ _
              | error f => rfl
          | some d =>
              dsimp only
              split
              · rfl
              · cases d.kind.read room t with
                | ok x => exact ih _ _
                | error f => rfl

theorem goesThrough_read_object (l : Layout R) (room : Nat) :
    GoesThrough (fun ms cut => l.read (room + 1) (.object ms cut)) (enter l.columns room)
      ([], l.blank) Gap.fault :=
  .of_outcome (fun ms => outcome_readMembers l.columns room ms [] l.blank) Gap.fault fun r => r

theorem takesMembers_enter (cols : List (Column R)) (room : Nat) :
    TakesMembers (enter cols room) where
  key h := by
    obtain ⟨key, hkey, -⟩ := bind_eq_ok_iff.mp h
    exact ⟨key, hkey⟩
  isWhole h := by
    obtain ⟨key, -, h⟩ := bind_eq_ok_iff.mp h
    split at h
    · exact Tree.skip_eq_ok_iff.mp (then_eq_ok_iff.mp h).1
    · split_ifs at h
      obtain ⟨x, hx, -⟩ := bind_eq_ok_iff.mp h
      exact Kind.isWhole_of_read hx
  allows h ht := by
    obtain ⟨key, hkey, h⟩ := bind_eq_ok_iff.mp h
    dsimp only [enter]
    rw [hkey, ok_bind]
    dsimp only at h
    cases hcolumn : column? cols key with
    | none =>
        rw [hcolumn] at h
        rw [stop_bind_pure]
        exact Tree.allows_skip ht (then_eq_ok_iff.mp h).1
    | some d =>
        rw [hcolumn] at h
        dsimp only at h ⊢
        split_ifs at h ⊢
        obtain ⟨x, hx, -⟩ := bind_eq_ok_iff.mp h
        rw [stop_bind_pure]
        exact Kind.allows_read ht hx

/-- Takes one item, with the columns that are left. -/
def place (room : Nat) (st : List (Column R) × R) (t : Tree) :
    Except Fault (List (Column R) × R) :=
  match st.1 with
  | [] => .error .malformed
  | c :: cols => do
      let x ← c.kind.read room t
      return (cols, c.set x st.2)

theorem outcome_readItems (room : Nat) (ts : List Tree) (cols : List (Column R)) (r : R) :
    outcome (readItems room r cols ts) = outcome (ts.foldlM (place room) (cols, r)) := by
  induction ts generalizing cols r with
  | nil => cases cols <;> rfl
  | cons t ts ih =>
      cases cols with
      | nil => rfl
      | cons d cols =>
          rw [readItems, List.foldlM_cons, place]
          dsimp only
          cases d.kind.read room t with
          | ok x => exact ih _ _
          | error f => rfl

theorem goesThrough_read_array (l : Layout R) (room : Nat) :
    GoesThrough (fun ts cut => l.read (room + 1) (.array ts cut)) (place room)
      (l.columns, l.blank) Gap.fault :=
  .of_outcome (fun ts => outcome_readItems room ts l.columns l.blank) Gap.fault fun r => r

theorem place_eq_ok {st st' : List (Column R) × R} {t : Tree} (h : place room st t = .ok st') :
    ∃ d cols x, st.1 = d :: cols ∧ d.kind.read room t = .ok x := by
  obtain ⟨cols, r⟩ := st
  cases cols with
  | nil => nomatch h
  | cons d cols =>
      obtain ⟨x, hx, -⟩ := bind_eq_ok_iff.mp h
      exact ⟨d, cols, x, rfl, hx⟩

theorem allows_place {st st' : List (Column R) × R} {t t' : Tree} (ht : Tree.Stump c t t')
    (h : place room st t = .ok st') : c.Allows (stop (place room st t')) := by
  obtain ⟨d, cols, x, hcols, hx⟩ := place_eq_ok h
  rw [place, hcols]
  dsimp only
  rw [stop_bind_pure]
  exact Kind.allows_read ht hx

theorem isWhole_of_read {t : Tree} {r : R} (h : l.read room t = .ok r) : t.isWhole = true := by
  cases t with
  | object ms cut =>
      cases room with
      | zero => nomatch h
      | succ room =>
          exact (takesMembers_enter l.columns room).isWhole_object
            (goesThrough_read_object l room) h
  | array ts cut =>
      cases room with
      | zero => nomatch h
      | succ room =>
          obtain ⟨_, hfold, rfl⟩ := (goesThrough_read_array l room).foldlM_of_ok h
          refine Tree.isWholeItems_iff.mpr (forall_of_foldlM (fun _ _ _ ht => ?_) hfold)
          obtain ⟨d, cols, x, -, hx⟩ := place_eq_ok ht
          exact Kind.isWhole_of_read hx
  | _ => nomatch h

/-- A record is never read from a stump of its text. -/
theorem read_stump {t t' : Tree} (ht : Tree.Stump c t t') {r : R} (h : l.read room t = .ok r) :
    ∃ f, l.read room t' = .error f ∧ c.Allows f := by
  cases t with
  | object ms cut =>
      cases room with
      | zero => nomatch h
      | succ room =>
          obtain ⟨-, -, rfl⟩ := (goesThrough_read_object l room).foldlM_of_ok h
          rcases (takesMembers_enter l.columns room).allows_object (goesThrough_read_object l room)
            h ht with rfl | ⟨ms', g, rfl, hallows⟩
          · exact ⟨.ended, rfl, Or.inl rfl⟩
          · exact (goesThrough_read_object l room).error_of_cut hallows
  | array ts cut =>
      cases room with
      | zero => nomatch h
      | succ room =>
          have hthrough := goesThrough_read_array l room
          cases ht with
          | absent => exact ⟨.ended, rfl, Or.inl rfl⟩
          | array before after =>
              exact hthrough.error_of_cut (Or.inl (hthrough.stop_between h .ended))
          | item before after ht =>
              refine hthrough.error_of_cut (hthrough.allows_part rfl h fun _ _ hx => ?_)
              exact allows_place ht hx
  | _ => nomatch h

/-- A text that is a record, cut off before its end. -/
theorem ofBytes_of_cut {p s : List UInt8} {r : R} (h : l.ofBytes (p ++ s) = .ok r) :
    (Lexeme.AllSpace s → l.ofBytes p = .ok r)
      ∧ (¬ Lexeme.AllSpace s → ∃ f, l.ofBytes p = .error f ∧ f ≠ .mistyped
          ∧ (Lexeme.cutsNumber p s = false → f = .ended)) := by
  obtain ⟨hread, htrailing⟩ := Document.read_eq_ok_iff.mp h
  have hdocument : Document.ofBytes (p ++ s) = ⟨(Document.ofBytes (p ++ s)).root, false⟩ := by
    rw [← htrailing]
  obtain ⟨hspace, hcut⟩ := Document.ofBytes_of_cut hdocument (isWhole_of_read hread)
  refine ⟨fun hs => ?_, fun hs => ?_⟩
  · rw [ofBytes, hspace hs]
    exact Document.read_eq_ok_iff.mpr ⟨hread, rfl⟩
  · obtain ⟨c, root', hc, hroot, hstump⟩ := hcut hs
    obtain ⟨f, hf, hallows⟩ := read_stump hstump hread
    have herror : l.ofBytes p = .error f := by
      rw [ofBytes, hroot, Document.read, hf]
      rfl
    refine ⟨f, herror, ?_, fun hnumber => ?_⟩
    · rcases hallows with rfl | ⟨-, rfl⟩ <;> simp
    · rcases hallows with rfl | ⟨hc', -⟩
      · rfl
      · cases (hc hc').symm.trans hnumber

theorem ne_number_of_read {t : Tree} {r : R} (h : l.read room t = .ok r) (n : Numeral) :
    t ≠ .number n := by
  rintro rfl
  nomatch h

/-- A text that is a record, gone on with. -/
theorem ofBytes_append {t : List UInt8} {r : R} (h : l.ofBytes t = .ok r) (s : List UInt8) :
    l.ofBytes (t ++ s) = if Lexeme.AllSpace s then .ok r else .error .malformed := by
  obtain ⟨hread, htrailing⟩ := Document.read_eq_ok_iff.mp h
  have hdocument : Document.ofBytes t = ⟨(Document.ofBytes t).root, false⟩ := by
    rw [← htrailing]
  rw [ofBytes, Document.ofBytes_append hdocument (isWhole_of_read hread)
    (ne_number_of_read hread), Document.read, hread, ok_bind]
  by_cases hs : Lexeme.AllSpace s <;> simp [hs]

end Layout

/-! ## The three records -/

/-- A reader takes one record of one text. What it takes it also takes with
less or more white space after it; if anything else is cut off the end, it
notices that the text ended, and if anything else follows, it does not take
it. Only a numeral that is cut may look like a whole or a wrong one, and
never like one of another type. -/
structure Framed {R : Type} (read : List UInt8 → Except Fault R) : Prop where
  cut_space : ∀ {p s r}, read (p ++ s) = .ok r → Lexeme.AllSpace s → read p = .ok r
  cut : ∀ {p s r}, read (p ++ s) = .ok r → ¬ Lexeme.AllSpace s →
    ∃ f, read p = .error f ∧ f ≠ .mistyped ∧ (Lexeme.cutsNumber p s = false → f = .ended)
  append_space : ∀ {t s r}, read t = .ok r → Lexeme.AllSpace s → read (t ++ s) = .ok r
  append : ∀ {t s r}, read t = .ok r → ¬ Lexeme.AllSpace s → read (t ++ s) = .error .malformed

theorem Layout.framed {R : Type} (l : Layout R) : Framed l.ofBytes where
  cut_space h hs := (ofBytes_of_cut h).1 hs
  cut h hs := (ofBytes_of_cut h).2 hs
  append_space h hs := (ofBytes_append h _).trans (if_pos hs)
  append h hs := (ofBytes_append h _).trans (if_neg hs)

theorem framed_ofBytes : Framed Event.ofBytes ∧ Framed Entity.ofBytes ∧ Framed Version.ofBytes :=
  ⟨Event.layout.framed, Entity.layout.framed, Version.layout.framed⟩

/-- An entity with a character of two octets, a surrogate pair, rules that
nest and a member that is skipped. -/
def denseText : List UInt8 :=
  Text.bytes ("\x7b\"id\":-7,\"name\":\"é\\ud83d\\ude00\",\"rules\":\x7b\"k\":[true,null]\x7d,"
    ++ "\"z\":[\"\\udc00\"]\x7d")

def denseEntity : Entity :=
  { Entity.blank with
    id := -7
    name := "é😀"
    rules := { Rules.blank with extra := [("k", .array [.bool true, .null])] } }

/-- Where to cut it: before everything, in a key, after the numeral, in the
first character of the name, in both halves of the pair and between them,
in a word, after the rules, in the string that is skipped and before the
last brace. -/
def denseCuts : List Nat :=
  [0, 3, 8, 18, 23, 25, 29, 49, 58, 70, 73]

theorem framed_denseText :
    Entity.ofBytes denseText = .ok denseEntity
      ∧ (∀ n ∈ denseCuts, Entity.ofBytes (denseText.take n) = .error .ended)
      ∧ Entity.ofBytes (denseText ++ [0x20, 0x0A]) = .ok denseEntity
      ∧ Entity.ofBytes (denseText ++ [0x20, 0x7D]) = .error .malformed := by
  have hread : Entity.ofBytes denseText = .ok denseEntity := rfl
  have hcuts : ∀ n ∈ denseCuts, ¬ Lexeme.AllSpace (denseText.drop n)
      ∧ Lexeme.cutsNumber (denseText.take n) (denseText.drop n) = false := by decide +kernel
  refine ⟨hread, fun n hn => ?_, ?_, ?_⟩
  · have hwhole : Entity.ofBytes (denseText.take n ++ denseText.drop n) = .ok denseEntity := by
      rw [List.take_append_drop]
      exact hread
    obtain ⟨f, hf, -, hended⟩ := framed_ofBytes.2.1.cut hwhole (hcuts n hn).1
    rw [hf, hended (hcuts n hn).2]
  · exact framed_ofBytes.2.1.append_space hread (by decide)
  · exact framed_ofBytes.2.1.append hread (by decide)

end EventSeal
