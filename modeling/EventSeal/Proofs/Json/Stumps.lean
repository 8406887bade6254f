import EventSeal.Proofs.Json.Breaks
import EventSeal.Proofs.Json.Trees

/-!
# What a cut leaves of a tree

A text that is one whole JSON value is cut in two. If the second part is
only white space, the first has the same tree. Otherwise its tree is a
`Stump` of the whole one: as far as it goes it is the same, and on the way
from the root to the cut every container breaks off because the text ended.
At the cut there is the beginning of a word, of a string, of a key or of a
numeral, or nothing at all (`ofBytes_of_cut`).

The proof runs the builder backwards. That its state leads to a whole tree
in the end says what that tree is around the place where the builder stands
(`Leads`), and this is kept from each state to the one before it
(`leads_of_step`). So nothing has to be known of the lexemes that were cut
off, only that there were some that led to a whole tree.

What is gone on with after a whole value is white space, or it trails
(`ofBytes_append`).
-/

namespace EventSeal.Json

open Lexeme (Gapless AllSpace cutsNumber)

namespace Tree

/-! ## Stumps -/

/-- The second of two trees is what a cut leaves of the first. -/
inductive Stump (c : Lexeme.Cut) : Tree → Tree → Prop
  | absent (t : Tree) : Stump c t (.gap .ended)
  | null : Stump c .null (.gap .inWord)
  | bool (b : Bool) : Stump c (.bool b) (.gap .inWord)
  | string {text : Option String} {unpaired : Bool} (h : unpaired = true → text = none) :
      Stump c (.string text) (.gap (.inString unpaired))
  | unfinished (hc : c = .inNumber) (n : Numeral) : Stump c (.number n) (.gap .inNumber)
  | number (hc : c = .inNumber) {m n : Numeral} (h : m.Begins n)
      (hpos : n.plain = true → 0 < m.digits) : Stump c (.number n) (.number m)
  | array (before after : List Tree) :
      Stump c (.array (before ++ after) none) (.array before (some .ended))
  | item (before after : List Tree) {t t' : Tree} (h : Stump c t t') :
      Stump c (.array (before ++ t :: after) none) (.array (before ++ [t']) (some .ended))
  | object (before after : List (Option String × Tree)) :
      Stump c (.object (before ++ after) none) (.object before (some .ended))
  | key (before after : List (Option String × Tree)) {k : Option String} {unpaired : Bool}
      (h : unpaired = true → k = none) (t : Tree) :
      Stump c (.object (before ++ (k, t) :: after) none)
        (.object before (some (.inString unpaired)))
  | member (before after : List (Option String × Tree)) (k : Option String) {t t' : Tree}
      (h : Stump c t t') :
      Stump c (.object (before ++ (k, t) :: after) none)
        (.object (before ++ [(k, t')]) (some .ended))

/-- In the place that the frames leave stands `t`, in the whole tree `root`. -/
def Completes : List Frame → Tree → Tree → Prop
  | [], t, root => t = root
  | .array done :: fs, t, root =>
      ∃ after, Completes fs (.array (done.reverse ++ t :: after) none) root
  | .member done k :: fs, t, root =>
      ∃ after, Completes fs (.object (done.reverse ++ (k, t) :: after) none) root

/-- What a cut leaves of an inner tree, it leaves of the root with the
containers broken off around it. -/
theorem Stump.abandon {c : Lexeme.Cut} {fs : List Frame} {t t' root : Tree} (h : Stump c t t')
    (hroot : Completes fs t root) : Stump c root (abandon t' fs) := by
  induction fs generalizing t t' with
  | nil => exact (show t = root from hroot) ▸ h
  | cons f fs ih =>
      cases f with
      | array done =>
          obtain ⟨after, hroot⟩ := hroot
          rw [Tree.abandon, Frame.fill, List.reverse_cons]
          exact ih (.item done.reverse after h) hroot
      | member done k =>
          obtain ⟨after, hroot⟩ := hroot
          rw [Tree.abandon, Frame.fill, List.reverse_cons]
          exact ih (.member done.reverse after k h) hroot

theorem isWhole_abandon {t : Tree} (h : t.isWhole = false) (fs : List Frame) :
    (abandon t fs).isWhole = false := by
  induction fs generalizing t with
  | nil => exact h
  | cons f fs ih => exact ih (by cases f <;> rfl)

namespace Builder

/-! ## Backwards -/

/-- The state comes to the whole tree `root` in the end, if the right
lexemes follow. -/
def Leads : Builder → Tree → Prop
  | value fs, root => ∃ t, Completes fs t root
  | firstItem fs, root => ∃ items, Completes fs (.array items none) root
  | afterItem done fs, root => ∃ after, Completes fs (.array (done.reverse ++ after) none) root
  | firstKey fs, root => ∃ members, Completes fs (.object members none) root
  | key done fs, root => ∃ after, Completes fs (.object (done.reverse ++ after) none) root
  | colon done k fs, root =>
      ∃ t after, Completes fs (.object (done.reverse ++ (k, t) :: after) none) root
  | afterMember done fs, root =>
      ∃ after, Completes fs (.object (done.reverse ++ after) none) root
  | complete t, root => t = root
  | trailing _, _ => False
  | failed _, _ => False

theorem completes_of_settle {fs : List Frame} {t root : Tree} (h : (settle t fs).Leads root) :
    Completes fs t root := by
  cases fs with
  | nil => exact h
  | cons f fs =>
      cases f with
      | array done =>
          obtain ⟨after, h⟩ := h
          rw [List.reverse_cons, List.append_assoc] at h
          exact ⟨after, h⟩
      | member done k =>
          obtain ⟨after, h⟩ := h
          rw [List.reverse_cons, List.append_assoc] at h
          exact ⟨after, h⟩

theorem completes_of_beginValue {fs : List Frame} {l : Lexeme} {root : Tree}
    (h : (beginValue fs l).Leads root) : ∃ t, Completes fs t root := by
  cases l with
  | null | bool b | number n | string text => exact ⟨_, completes_of_settle h⟩
  | openArray =>
      obtain ⟨items, h⟩ := h
      exact ⟨_, h⟩
  | openObject =>
      obtain ⟨members, h⟩ := h
      exact ⟨_, h⟩
  | gap g => exact h.elim
  | closeObject | closeArray | colon | comma => exact h.elim

theorem completes_of_beginKey {done : List (Option String × Tree)} {fs : List Frame} {l : Lexeme}
    {root : Tree} (h : (beginKey done fs l).Leads root) :
    ∃ after, Completes fs (.object (done.reverse ++ after) none) root := by
  cases l with
  | string text =>
      obtain ⟨t, after, h⟩ := h
      exact ⟨_, h⟩
  | _ => exact h.elim

theorem step_firstItem {l : Lexeme} (h : l ≠ .closeArray) (fs : List Frame) :
    (firstItem fs).step l = beginValue (.array [] :: fs) l := by
  cases l with
  | closeArray => exact absurd rfl h
  | _ => rfl

theorem step_firstKey {l : Lexeme} (h : l ≠ .closeObject) (fs : List Frame) :
    (firstKey fs).step l = beginKey [] fs l := by
  cases l with
  | closeObject => exact absurd rfl h
  | _ => rfl

theorem leads_of_step {b : Builder} {l : Lexeme} {root : Tree} (h : (b.step l).Leads root) :
    b.Leads root := by
  cases b with
  | value fs => exact completes_of_beginValue h
  | firstItem fs =>
      rcases eq_or_ne l .closeArray with rfl | hl
      · exact ⟨_, completes_of_settle h⟩
      · rw [step_firstItem hl] at h
        obtain ⟨t, after, h⟩ := completes_of_beginValue h
        exact ⟨_, h⟩
  | afterItem done fs =>
      cases l with
      | comma =>
          obtain ⟨t, after, h⟩ := h
          exact ⟨_, h⟩
      | closeArray => exact ⟨[], (List.append_nil _).symm ▸ completes_of_settle h⟩
      | _ => exact h.elim
  | firstKey fs =>
      rcases eq_or_ne l .closeObject with rfl | hl
      · exact ⟨_, completes_of_settle h⟩
      · rw [step_firstKey hl] at h
        exact completes_of_beginKey h
  | key done fs => exact completes_of_beginKey h
  | colon done k fs =>
      cases l with
      | colon =>
          obtain ⟨t, after, h⟩ := h
          exact ⟨t, after, h⟩
      | _ => exact h.elim
  | afterMember done fs =>
      cases l with
      | comma => exact h
      | closeObject => exact ⟨[], (List.append_nil _).symm ▸ completes_of_settle h⟩
      | _ => exact h.elim
  | complete t => exact h.elim
  | trailing t => exact h.elim
  | failed t => exact h.elim

theorem leads_of_foldl {b : Builder} {ls : List Lexeme} {root : Tree}
    (h : (ls.foldl step b).Leads root) : b.Leads root := by
  induction ls generalizing b with
  | nil => exact h
  | cons l ls ih => exact leads_of_step (ih h)

theorem not_leads_step_gap {b : Builder} {g : Gap} {root : Tree} :
    ¬ (b.step (.gap g)).Leads root := by
  cases b <;> exact id

/-- No gap leads to a whole tree. -/
theorem gapless_of_leads {b : Builder} {ls : List Lexeme} {root : Tree}
    (h : (ls.foldl step b).Leads root) : Gapless ls := by
  intro g hg
  obtain ⟨before, after, rfl⟩ := List.append_of_mem hg
  rw [List.foldl_append, List.foldl_cons] at h
  exact not_leads_step_gap (leads_of_foldl h)

/-! ## Stopping early -/

theorem finish_settle (t : Tree) (fs : List Frame) :
    (settle t fs).finish = ⟨Tree.abandon t fs, false⟩ := by
  cases fs with
  | nil => rfl
  | cons f fs => cases f <;> rfl

/-- Where nothing more comes, either nothing is missing, or a stump is left. -/
theorem finish_of_leads {b : Builder} {root : Tree} (c : Lexeme.Cut) (h : b.Leads root) :
    b = complete root ∨ ∃ root', b.finish = ⟨root', false⟩ ∧ Stump c root root' := by
  cases b with
  | complete t =>
      obtain rfl : t = root := h
      exact Or.inl rfl
  | value fs =>
      obtain ⟨t, h⟩ := h
      exact Or.inr ⟨_, rfl, (Stump.absent t).abandon h⟩
  | firstItem fs =>
      obtain ⟨items, h⟩ := h
      exact Or.inr ⟨_, rfl, (Stump.array [] items).abandon h⟩
  | afterItem done fs =>
      obtain ⟨after, h⟩ := h
      exact Or.inr ⟨_, rfl, (Stump.array done.reverse after).abandon h⟩
  | firstKey fs =>
      obtain ⟨members, h⟩ := h
      exact Or.inr ⟨_, rfl, (Stump.object [] members).abandon h⟩
  | key done fs | afterMember done fs =>
      obtain ⟨after, h⟩ := h
      exact Or.inr ⟨_, rfl, (Stump.object done.reverse after).abandon h⟩
  | colon done k fs =>
      obtain ⟨t, after, h⟩ := h
      have hroot : Completes (.member done k :: fs) t root := ⟨after, h⟩
      exact Or.inr ⟨_, rfl, (Stump.absent t).abandon hroot⟩
  | trailing t => exact h.elim
  | failed t => exact h.elim

theorem finish_beginValue_fragment {fs : List Frame} {c : Lexeme.Cut} {l m : Lexeme} {root : Tree}
    (hlm : Lexeme.Fragment c l m) (h : (beginValue fs l).Leads root) :
    ∃ root', (beginValue fs m).finish = ⟨root', false⟩ ∧ Stump c root root' := by
  cases hlm with
  | null => exact ⟨_, rfl, Stump.null.abandon (completes_of_settle h)⟩
  | bool _ b => exact ⟨_, rfl, (Stump.bool b).abandon (completes_of_settle h)⟩
  | string _ htext => exact ⟨_, rfl, (Stump.string htext).abandon (completes_of_settle h)⟩
  | unfinished n => exact ⟨_, rfl, (Stump.unfinished rfl n).abandon (completes_of_settle h)⟩
  | number hmn hpos =>
      exact ⟨_, finish_settle _ fs, (Stump.number rfl hmn hpos).abandon (completes_of_settle h)⟩

theorem finish_beginKey_fragment {done : List (Option String × Tree)} {fs : List Frame}
    {c : Lexeme.Cut} {l m : Lexeme} {root : Tree} (hlm : Lexeme.Fragment c l m)
    (h : (beginKey done fs l).Leads root) :
    ∃ root', (beginKey done fs m).finish = ⟨root', false⟩ ∧ Stump c root root' := by
  cases hlm with
  | string _ htext =>
      obtain ⟨t, after, h⟩ := h
      exact ⟨_, rfl, (Stump.key done.reverse after htext t).abandon h⟩
  | _ => exact h.elim

/-- A fragment comes last and leaves a stump. Fragments are of values and
of keys; where a mark must stand, the whole lexeme led nowhere either. -/
theorem finish_step_fragment {b : Builder} {c : Lexeme.Cut} {l m : Lexeme} {root : Tree}
    (hlm : Lexeme.Fragment c l m) (h : (b.step l).Leads root) :
    ∃ root', (b.step m).finish = ⟨root', false⟩ ∧ Stump c root root' := by
  cases b with
  | value fs => exact finish_beginValue_fragment hlm h
  | firstItem fs =>
      rw [step_firstItem (by cases hlm <;> nofun)] at h ⊢
      exact finish_beginValue_fragment hlm h
  | firstKey fs =>
      rw [step_firstKey (by cases hlm <;> nofun)] at h ⊢
      exact finish_beginKey_fragment hlm h
  | key done fs => exact finish_beginKey_fragment hlm h
  | afterItem done fs | afterMember done fs => cases hlm <;> exact h.elim
  | colon done k fs => cases hlm <;> exact h.elim
  | complete t => exact h.elim
  | trailing t => exact h.elim
  | failed t => exact h.elim

/-! ## Where a whole tree comes from -/

theorem settle_ne_failed (t t' : Tree) (fs : List Frame) : settle t fs ≠ failed t' := by
  cases fs with
  | nil => nofun
  | cons f fs => cases f <;> nofun

theorem isWhole_eq_false_of_beginValue {fs : List Frame} {l : Lexeme} {t : Tree}
    (h : beginValue fs l = failed t) : t.isWhole = false := by
  cases l with
  | null | bool b | number n | string text => exact absurd h (settle_ne_failed _ _ _)
  | openArray | openObject => nomatch h
  | gap g | closeObject | closeArray | colon | comma =>
      obtain rfl := failed.inj h
      exact isWhole_abandon rfl fs

theorem isWhole_eq_false_of_beginKey {done : List (Option String × Tree)} {fs : List Frame}
    {l : Lexeme} {t : Tree} (h : beginKey done fs l = failed t) : t.isWhole = false := by
  cases l with
  | string text => nomatch h
  | _ =>
      obtain rfl := failed.inj h
      exact isWhole_abandon rfl fs

/-- A tree that a step fails with has a gap. -/
theorem isWhole_eq_false_of_step {b : Builder} {l : Lexeme} {t : Tree} (h : b.step l = failed t) :
    b = failed t ∨ t.isWhole = false := by
  cases b with
  | value fs => exact Or.inr (isWhole_eq_false_of_beginValue h)
  | firstItem fs =>
      rcases eq_or_ne l .closeArray with rfl | hl
      · exact absurd h (settle_ne_failed _ _ _)
      · exact Or.inr (isWhole_eq_false_of_beginValue (step_firstItem hl fs ▸ h))
  | firstKey fs =>
      rcases eq_or_ne l .closeObject with rfl | hl
      · exact absurd h (settle_ne_failed _ _ _)
      · exact Or.inr (isWhole_eq_false_of_beginKey (step_firstKey hl fs ▸ h))
  | key done fs => exact Or.inr (isWhole_eq_false_of_beginKey h)
  | afterItem done fs =>
      cases l with
      | comma => nomatch h
      | closeArray => exact absurd h (settle_ne_failed _ _ _)
      | _ =>
          obtain rfl := failed.inj h
          exact Or.inr (isWhole_abandon rfl fs)
  | colon done k fs =>
      cases l with
      | colon => nomatch h
      | _ =>
          obtain rfl := failed.inj h
          exact Or.inr (isWhole_abandon rfl (.member done k :: fs))
  | afterMember done fs =>
      cases l with
      | comma => nomatch h
      | closeObject => exact absurd h (settle_ne_failed _ _ _)
      | _ =>
          obtain rfl := failed.inj h
          exact Or.inr (isWhole_abandon rfl fs)
  | complete t => nomatch h
  | trailing t => nomatch h
  | failed t' => exact Or.inl h

theorem isWhole_eq_false_of_foldl {b : Builder} {ls : List Lexeme} {t : Tree}
    (h : ls.foldl step b = failed t) : b = failed t ∨ t.isWhole = false := by
  induction ls generalizing b with
  | nil => exact Or.inl h
  | cons l ls ih =>
      rcases ih h with h | h
      · exact isWhole_eq_false_of_step h
      · exact Or.inr h

/-- A document is whole only if nothing is missing at its end. -/
theorem eq_complete_of_finish {ls : List Lexeme} {root : Tree}
    (h : (ls.foldl step (value [])).finish = ⟨root, false⟩) (hwhole : root.isWhole = true) :
    ls.foldl step (value []) = complete root := by
  cases hb : ls.foldl step (value []) with
  | complete t =>
      rw [hb] at h
      obtain rfl := (Document.mk.inj h).1
      rfl
  | trailing t =>
      rw [hb] at h
      nomatch (Document.mk.inj h).2
  | failed t =>
      rw [hb] at h
      obtain rfl := (Document.mk.inj h).1
      rcases isWhole_eq_false_of_foldl hb with h | h
      · nomatch h
      · exact absurd hwhole (h ▸ Bool.false_ne_true)
  | value fs | firstItem fs | afterItem done fs | firstKey fs | key done fs | afterMember done fs =>
      rw [hb] at h
      obtain rfl := (Document.mk.inj h).1
      rw [isWhole_abandon rfl fs] at hwhole
      nomatch hwhole
  | colon done k fs =>
      rw [hb] at h
      obtain rfl := (Document.mk.inj h).1
      rw [isWhole_abandon rfl (.member done k :: fs)] at hwhole
      nomatch hwhole

theorem foldl_step_trailing (t : Tree) (ls : List Lexeme) :
    ls.foldl step (trailing t) = trailing t := by
  induction ls with
  | nil => rfl
  | cons l ls ih => exact ih

/-- A numeral that completes a tree is all of it. -/
theorem eq_number_of_step {b : Builder} {n : Numeral} {root : Tree}
    (h : b.step (.number n) = complete root) : root = .number n := by
  have hsettle : ∀ fs, settle (.number n) fs = complete root → root = .number n := by
    intro fs hfs
    cases fs with
    | nil => exact (complete.inj hfs).symm
    | cons f fs => cases f <;> nomatch hfs
  cases b with
  | value fs => exact hsettle fs h
  | firstItem fs => nomatch h
  | _ => nomatch h

end Builder

end Tree

/-! ## Documents -/

namespace Document

open EventSeal.Json.Tree EventSeal.Json.Tree.Builder

variable {root : Tree}

/-- Of a text that is one whole tree, the first part has the same tree if
the rest is white space, and a stump of it otherwise. -/
theorem ofBytes_of_cut {p s : List UInt8} (h : ofBytes (p ++ s) = ⟨root, false⟩)
    (hwhole : root.isWhole = true) :
    (AllSpace s → ofBytes p = ⟨root, false⟩)
      ∧ (¬ AllSpace s → ∃ c root', (c = .inNumber → cutsNumber p s = true)
          ∧ ofBytes p = ⟨root', false⟩ ∧ Stump c root root') := by
  have hcomplete := eq_complete_of_finish h hwhole
  have hleads : ((Lexeme.scan (p ++ s)).foldl step (value [])).Leads root := by
    rw [hcomplete]
    rfl
  have hgapless := gapless_of_leads hleads
  refine ⟨fun hs => ?_, fun hs => ?_⟩
  · rw [ofBytes, Lexeme.scan_of_allSpace hs hgapless]
    exact h
  obtain ⟨c, hc, hbreak⟩ := Lexeme.break_of_not_allSpace hs hgapless
  rw [ofBytes, ofLexemes]
  generalize Lexeme.scan (p ++ s) = ls, Lexeme.scan p = ms at hbreak hleads
  cases hbreak with
  | between hafter =>
      rw [List.foldl_append] at hleads
      rcases finish_of_leads c (leads_of_foldl hleads) with hdone | ⟨root', hroot⟩
      · -- nothing can follow a complete tree
        obtain ⟨l, after, rfl⟩ := List.exists_cons_of_ne_nil hafter
        rw [hdone, List.foldl_cons] at hleads
        exact (leads_of_foldl hleads : (Builder.trailing root).Leads root).elim
      · exact ⟨c, root', hc, hroot⟩
  | within hfragment =>
      rw [List.foldl_append, List.foldl_cons] at hleads
      rw [List.foldl_append]
      obtain ⟨root', hroot⟩ := finish_step_fragment hfragment (leads_of_foldl hleads)
      exact ⟨c, root', hc, hroot⟩

/-- After a whole value that is no numeral there may be white space and
nothing else. -/
theorem ofBytes_append {t : List UInt8} (h : ofBytes t = ⟨root, false⟩)
    (hwhole : root.isWhole = true) (hnumber : ∀ n, root ≠ .number n) (s : List UInt8) :
    ofBytes (t ++ s) = ⟨root, !decide (AllSpace s)⟩ := by
  have hcomplete := eq_complete_of_finish h hwhole
  have hleads : ((Lexeme.scan t).foldl step (value [])).Leads root := by
    rw [hcomplete]
    rfl
  have hgapless := gapless_of_leads hleads
  rcases Lexeme.scan_append_of_gapless hgapless with ⟨before, n, hscan⟩ | happend
  · rw [hscan, List.foldl_append] at hcomplete
    exact absurd (eq_number_of_step hcomplete) (hnumber n)
  · rw [ofBytes, ofLexemes, happend, List.foldl_append, hcomplete]
    by_cases hs : AllSpace s
    · rw [(Lexeme.scanFrom_eq_nil_iff (s := .idle) trivial s).mpr ⟨rfl, hs⟩, decide_eq_true hs]
      rfl
    · rw [decide_eq_false hs]
      obtain ⟨l, rest, hrest⟩ := List.exists_cons_of_ne_nil fun hnil =>
        hs ((Lexeme.scanFrom_eq_nil_iff (s := .idle) trivial s).mp hnil).2
      rw [hrest, List.foldl_cons]
      exact congrArg finish (foldl_step_trailing root rest)

end Document

end EventSeal.Json
