import EventSeal.Proofs.Json.Stumps
import Mathlib.Data.List.Induction

/-!
# What a text begins and ends with

The text of a container begins and ends with the marks of that container,
white space around it apart (`Document.enclosed_of_fence?`). No more is needed
for it than the ends of the scan. The first lexeme decides what the tree will
be, so it is the opening mark (`Tree.Builder.opens_of_leads`), and of the
lexemes that complete a tree only a closing mark completes a container
(`Tree.Builder.closes_of_step`). A mark is the lexeme of one octet, wherever it
comes (`Lexeme.scan_eq_cons`, `Lexeme.scan_eq_concat`); a word, a string or a
numeral that is under way before it leaves another lexeme first.
-/

namespace EventSeal.Json

/-- Between two octets, except for white space before the one and after the
other. -/
def Enclosed (first last : UInt8) (bs : List UInt8) : Prop :=
  ∃ before inner after, bs = before ++ first :: inner ++ last :: after
    ∧ Lexeme.AllSpace before ∧ Lexeme.AllSpace after

namespace Lexeme

open State

/-- The octet of a lexeme that has one octet. -/
def mark? : Lexeme → Option UInt8
  | openObject => some 0x7B
  | closeObject => some 0x7D
  | openArray => some 0x5B
  | closeArray => some 0x5D
  | colon => some 0x3A
  | comma => some 0x2C
  | null | bool _ | number _ | string _ | gap _ => none

theorem mark?_of_enter {b : UInt8} {l : Lexeme} (h : enter b = ([l], idle)) :
    l.mark? = some b := by
  have hmark : ∀ {o : UInt8} {m : Lexeme} {x : List Lexeme × State},
      (if b = o then ([m], idle) else x) = ([l], idle) → m.mark? = some o →
        l.mark? = some b ∨ x = ([l], idle) := by
    intro o m x hx hm
    split_ifs at hx with hb
    · obtain rfl := (List.cons.inj (Prod.mk.inj hx).1).1
      exact Or.inl (hb ▸ hm)
    · exact Or.inr hx
  -- what begins a word, a string or a numeral leaves nothing yet
  have hbegin : ∀ {p : Prop} [Decidable p] {s : State} {x : List Lexeme × State},
      (if p then ([], s) else x) = ([l], idle) → x = ([l], idle) := by
    intro p _ s x hx
    split_ifs at hx with hp
    · cases hx
    · exact hx
  rw [enter] at h
  replace h := hbegin h
  refine (hmark h rfl).elim id fun h => ?_
  refine (hmark h rfl).elim id fun h => ?_
  refine (hmark h rfl).elim id fun h => ?_
  refine (hmark h rfl).elim id fun h => ?_
  refine (hmark h rfl).elim id fun h => ?_
  refine (hmark h rfl).elim id fun h => ?_
  replace h := hbegin (hbegin (hbegin (hbegin h)))
  split at h <;> cases h

/-- What is under way leaves a lexeme that is no mark. -/
theorem mark?_of_valid {s : State} (hs : s.Valid) (hidle : s ≠ idle) {bs : List UInt8}
    {l : Lexeme} {ls : List Lexeme} (h : scanFrom s bs = l :: ls) (hgapless : Gapless (l :: ls)) :
    l.mark? = none := by
  rw [← h] at hgapless
  cases s with
  | idle => exact absurd rfl hidle
  | word owed m =>
      obtain ⟨rest, heq⟩ := scanFrom_word hs.1 hgapless
      obtain rfl := (List.cons.inj (h.symm.trans heq)).1
      rcases hs.2.2 with rfl | ⟨b, rfl⟩ <;> rfl
  | number d =>
      obtain ⟨n, rest, heq, -⟩ := scanFrom_number hgapless
      obtain rfl := (List.cons.inj (h.symm.trans heq)).1
      rfl
  | string q =>
      obtain ⟨text, rest, heq, -⟩ := scanFrom_string hgapless
      obtain rfl := (List.cons.inj (h.symm.trans heq)).1
      rfl
  | halted => exact hs.elim

/-- A mark that is scanned first is the first octet, white space apart. -/
theorem scan_eq_cons {bs : List UInt8} {l : Lexeme} {ls : List Lexeme} {o : UInt8}
    (h : scan bs = l :: ls) (hgapless : Gapless (l :: ls)) (hmark : l.mark? = some o) :
    ∃ before after, bs = before ++ o :: after ∧ AllSpace before := by
  rw [scan] at h
  induction bs with
  | nil => cases h
  | cons b bs ih =>
      rw [scanFrom, step] at h
      rcases enter_cases b with ⟨hb, heq⟩ | ⟨-, m, heq⟩ | ⟨-, s, heq, hidle, hs⟩ | ⟨-, heq⟩
      · rw [heq] at h
        obtain ⟨before, after, rfl, hbefore⟩ := ih h
        exact ⟨b :: before, after, rfl, List.forall_mem_cons.mpr ⟨hb, hbefore⟩⟩
      · rw [heq] at h
        obtain rfl := (List.cons.inj h).1
        have hb := Option.some.inj ((mark?_of_enter heq).symm.trans hmark)
        exact ⟨[], bs, by rw [hb, List.nil_append], List.forall_mem_nil _⟩
      · rw [heq] at h
        cases (mark?_of_valid hs hidle h hgapless).symm.trans hmark
      · rw [heq] at h
        obtain rfl := (List.cons.inj h).1
        cases hmark

theorem mark?_of_mem_finish {s : State} {l : Lexeme} (h : l ∈ s.finish) : l.mark? = none := by
  cases s with
  | idle | halted => nomatch h
  | word owed m => rw [List.mem_singleton.mp h]; rfl
  | string q => rw [List.mem_singleton.mp h]; rfl
  | number d =>
      rw [finish] at h
      split at h <;> rw [List.mem_singleton.mp h] <;> rfl

/-- An octet leaves no mark but its own. -/
theorem mark?_of_mem_enter {b : UInt8} {l : Lexeme} (h : l ∈ (enter b).1) :
    l.mark? = none ∨ l.mark? = some b := by
  rcases enter_cases b with ⟨-, heq⟩ | ⟨-, m, heq⟩ | ⟨-, s, heq, -⟩ | ⟨-, heq⟩ <;> rw [heq] at h
  · nomatch h
  · rw [List.mem_singleton.mp h]
    exact Or.inr (mark?_of_enter heq)
  · nomatch h
  · rw [List.mem_singleton.mp h]
    exact Or.inl rfl

theorem mark?_of_mem_step {s : State} (hs : s.Valid) {b : UInt8} {l : Lexeme}
    (h : l ∈ (s.step b).1) : l.mark? = none ∨ l.mark? = some b := by
  cases s with
  | idle => exact mark?_of_mem_enter h
  | word owed m =>
      obtain ⟨howed, -, hm⟩ := hs
      obtain ⟨o, owed, rfl⟩ := List.exists_cons_of_ne_nil howed
      rw [step] at h
      split_ifs at h
      · rw [List.mem_singleton.mp h]
        exact Or.inl rfl
      · rw [List.mem_singleton.mp h]
        rcases hm with rfl | ⟨c, rfl⟩ <;> exact Or.inl rfl
      · cases h
  | number d =>
      rw [step] at h
      split at h
      · cases h
      · split_ifs at h
        · rcases List.mem_cons.mp h with rfl | h
          · exact Or.inl rfl
          · exact mark?_of_mem_enter h
        · rw [List.mem_singleton.mp h]
          exact Or.inl rfl
  | string q =>
      rw [step] at h
      split at h
      · cases h
      · rw [List.mem_singleton.mp h]
        exact Or.inl rfl
      · rw [List.mem_singleton.mp h]
        exact Or.inl rfl
  | halted => exact hs.elim

/-- A mark that is scanned last is the last octet, white space apart. -/
theorem scan_eq_concat {bs : List UInt8} {ls : List Lexeme} {l : Lexeme} {o : UInt8}
    (h : scan bs = ls ++ [l]) (hgapless : Gapless (ls ++ [l])) (hmark : l.mark? = some o) :
    ∃ before after, bs = before ++ o :: after ∧ AllSpace after := by
  induction bs using List.reverseRecOn with
  | nil => exact absurd h.symm (List.append_ne_nil_of_right_ne_nil _ (List.cons_ne_nil _ _))
  | append_singleton front b ih =>
      rw [← h] at hgapless
      by_cases hb : isSpace b = true
      · have hspace : AllSpace [b] := List.forall_mem_singleton.mpr hb
        obtain ⟨before, after, rfl, hafter⟩ := ih ((scan_of_allSpace hspace hgapless).trans h)
        refine ⟨before, after ++ [b], by simp, ?_⟩
        exact List.forall_mem_append.mpr ⟨hafter, hspace⟩
      · rw [scan, scanFrom_append] at h hgapless
        obtain ⟨hpart, -⟩ := Gapless.of_append hgapless
        have hvalid := valid_scanPart (s := .idle) trivial hpart
        -- the last octet leaves something, so the last lexeme is among that
        have hne : scanFrom (scanPart .idle front).2 [b] ≠ [] := fun hnil =>
          hb (((scanFrom_eq_nil_iff hvalid [b]).mp hnil).2 b List.mem_cons_self)
        have hl : l ∈ scanFrom (scanPart .idle front).2 [b] := by
          have hlast := congrArg List.getLast? h
          rw [List.getLast?_append_of_ne_nil _ hne, List.getLast?_concat] at hlast
          exact List.mem_of_getLast? hlast
        have hb' : l.mark? = none ∨ l.mark? = some b := by
          rcases List.mem_append.mp hl with hl | hl
          · exact mark?_of_mem_step hvalid hl
          · exact Or.inl (mark?_of_mem_finish hl)
        rcases hb' with hnone | hb'
        · cases hnone.symm.trans hmark
        · obtain rfl := Option.some.inj (hb'.symm.trans hmark)
          exact ⟨front, [], rfl, List.forall_mem_nil _⟩

end Lexeme

namespace Tree

/-- The marks that a container is written between. -/
def fence? : Tree → Option (UInt8 × UInt8)
  | .array _ _ => some (0x5B, 0x5D)
  | .object _ _ => some (0x7B, 0x7D)
  | _ => none

theorem ne_of_fence? {t : Tree} {o c : UInt8} (h : t.fence? = some (o, c)) :
    o ≠ c ∧ Lexeme.isSpace c = false := by
  cases t with
  | array items cut | object members cut =>
      obtain ⟨rfl, rfl⟩ := Prod.mk.inj (Option.some.inj h)
      decide
  | _ => nomatch h

namespace Builder

variable {root : Tree} {o c : UInt8}

/-- The first lexeme of a container is its opening mark. -/
theorem opens_of_leads {l : Lexeme} (h : (beginValue [] l).Leads root)
    (hroot : root.fence? = some (o, c)) : l.mark? = some o := by
  cases l with
  | openArray =>
      obtain ⟨items, rfl⟩ := h
      exact congrArg (Option.map Prod.fst) hroot
  | openObject =>
      obtain ⟨members, rfl⟩ := h
      exact congrArg (Option.map Prod.fst) hroot
  | null | bool b | number n | string text =>
      obtain rfl := h
      nomatch hroot
  | _ => exact h.elim

theorem eq_of_settle {t : Tree} {fs : List Frame} (h : settle t fs = complete root) :
    t = root := by
  cases fs with
  | nil => exact complete.inj h
  | cons f fs => cases f <;> nomatch h

theorem fence?_of_beginValue {fs : List Frame} {l : Lexeme}
    (h : beginValue fs l = complete root) : root.fence? = none := by
  cases l with
  | null | bool b | number n | string text => rw [← eq_of_settle h]; rfl
  | _ => nomatch h

/-- The lexeme that completes a container is its closing mark. -/
theorem closes_of_step {b : Builder} {l : Lexeme} (h : b.step l = complete root)
    (hroot : root.fence? = some (o, c)) : l.mark? = some c := by
  have hnot : root.fence? ≠ none := fun hnone => nomatch hroot.symm.trans hnone
  have harray : ∀ {items : List Tree} {fs : List Frame},
      settle (.array items none) fs = complete root → Lexeme.closeArray.mark? = some c := by
    intro items fs h
    rw [← eq_of_settle h] at hroot
    exact congrArg (Option.map Prod.snd) hroot
  have hobject : ∀ {members : List (Option String × Tree)} {fs : List Frame},
      settle (.object members none) fs = complete root → Lexeme.closeObject.mark? = some c := by
    intro members fs h
    rw [← eq_of_settle h] at hroot
    exact congrArg (Option.map Prod.snd) hroot
  cases b with
  | value fs => exact absurd (fence?_of_beginValue h) hnot
  | firstItem fs =>
      rcases eq_or_ne l .closeArray with rfl | hl
      · exact harray h
      · rw [step_firstItem hl] at h
        exact absurd (fence?_of_beginValue h) hnot
  | afterItem done fs =>
      cases l with
      | closeArray => exact harray h
      | _ => nomatch h
  | firstKey fs =>
      rcases eq_or_ne l .closeObject with rfl | hl
      · exact hobject h
      · rw [step_firstKey hl] at h
        cases l <;> nomatch h
  | key done fs => cases l <;> nomatch h
  | colon done k fs => cases l <;> nomatch h
  | afterMember done fs =>
      cases l with
      | closeObject => exact hobject h
      | _ => nomatch h
  | complete t | trailing t | failed t => nomatch h

end Builder

end Tree

/-! ## Texts of containers -/

/-- A text that begins with one mark and ends with another is between them. -/
theorem enclosed_of_ends {bs before rest front after : List UInt8} {o c : UInt8}
    (hfirst : bs = before ++ o :: rest) (hbefore : Lexeme.AllSpace before)
    (hlast : bs = front ++ c :: after) (hafter : Lexeme.AllSpace after) (hne : o ≠ c)
    (hc : Lexeme.isSpace c = false) : Enclosed o c bs := by
  rcases List.append_eq_append_iff.mp (hfirst.symm.trans hlast) with
    ⟨inner, rfl, hrest⟩ | ⟨gap, rfl, hrest⟩
  · cases inner with
    | nil => exact absurd (List.cons.inj hrest).1 hne
    | cons b inner =>
        obtain ⟨rfl, rfl⟩ := List.cons.inj hrest
        exact ⟨before, inner, after, hlast, hbefore, hafter⟩
  · -- the last mark would stand before the first, among white space
    cases gap with
    | nil => exact absurd (List.cons.inj hrest).1.symm hne
    | cons b gap =>
        obtain ⟨rfl, -⟩ := List.cons.inj hrest
        have hspace := hbefore c (List.mem_append_right _ List.mem_cons_self)
        exact absurd (hc.symm.trans hspace) Bool.false_ne_true

theorem Enclosed.find?_eq {o c : UInt8} {bs : List UInt8} (h : Enclosed o c bs)
    (ho : Lexeme.isSpace o = false) :
    bs.find? (fun b => !Lexeme.isSpace b) = some o := by
  obtain ⟨before, inner, after, rfl, hbefore, -⟩ := h
  have hnone : before.find? (fun b => !Lexeme.isSpace b) = none :=
    List.find?_eq_none.mpr fun b hb => by simp [hbefore b hb]
  rw [List.append_assoc, List.find?_append, hnone, List.cons_append, List.find?_cons_of_pos]
  · rfl
  · rw [ho]
    rfl

/-- No text is between brackets and between braces. -/
theorem Enclosed.not_braces {bs : List UInt8} (h : Enclosed 0x5B 0x5D bs) :
    ¬ Enclosed 0x7B 0x7D bs := fun h' =>
  absurd ((h.find?_eq rfl).symm.trans (h'.find?_eq rfl)) (by decide)

open Tree.Builder in
/-- The text of a whole container is between its marks. -/
theorem Document.enclosed_of_fence? {bs : List UInt8} {root : Tree}
    (h : ofBytes bs = ⟨root, false⟩) (hwhole : root.isWhole = true) {o c : UInt8}
    (hroot : root.fence? = some (o, c)) : Enclosed o c bs := by
  have hcomplete := eq_complete_of_finish h hwhole
  have hleads : ((Lexeme.scan bs).foldl step (value [])).Leads root := by
    rw [hcomplete]
    rfl
  have hgapless := gapless_of_leads hleads
  have hne : Lexeme.scan bs ≠ [] := fun hnil => by
    rw [hnil] at hcomplete
    nomatch hcomplete
  obtain ⟨before, rest, hfirst, hbefore⟩ :
      ∃ before rest, bs = before ++ o :: rest ∧ Lexeme.AllSpace before := by
    obtain ⟨l, ls, hscan⟩ := List.exists_cons_of_ne_nil hne
    rw [hscan] at hleads hgapless
    exact Lexeme.scan_eq_cons hscan hgapless (opens_of_leads (leads_of_foldl hleads) hroot)
  obtain ⟨front, after, hlast, hafter⟩ :
      ∃ front after, bs = front ++ c :: after ∧ Lexeme.AllSpace after := by
    obtain ⟨ls, l, hscan⟩ := (List.eq_nil_or_concat' (Lexeme.scan bs)).resolve_left hne
    rw [hscan, List.foldl_append] at hcomplete
    rw [hscan] at hgapless
    exact Lexeme.scan_eq_concat hscan hgapless (closes_of_step hcomplete hroot)
  obtain ⟨hoc, hc⟩ := Tree.ne_of_fence? hroot
  exact enclosed_of_ends hfirst hbefore hlast hafter hoc hc

end EventSeal.Json
