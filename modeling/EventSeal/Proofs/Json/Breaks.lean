import EventSeal.Json.Lexeme
import Mathlib.Data.List.Basic

/-!
# Where the scan of a text breaks off

A text may be cut anywhere, so also within a word, a string or a numeral.
The scan of the first part then ends in the middle of a lexeme. If the scan
of the whole text leaves no gap (`Gapless`), that lexeme is completed by
the second part, and what has been scanned of it bounds what it becomes
(`scanFrom_word`, `scanFrom_string`, `scanFrom_number`):

- a string in which an unpaired surrogate has gone by denotes no text;
- a plain numeral has begun as a plain numeral with the same sign that is
  worth no more (`Numeral.Begins`).

The second bound is why a cut numeral is never out of a range that holds
the whole one. It says nothing about zero, which with a minus sign is no
integer; but a zero takes no further digit (`Valid.digits_pos_of_push?`).
-/

namespace EventSeal.Json

/-! ## Numerals under way -/

namespace Numeral

/-- What a numeral may have been before its last octets were read. -/
def Begins (m n : Numeral) : Prop :=
  n.plain = true → m.plain = true ∧ m.negative = n.negative ∧ m.digits ≤ n.digits

theorem Begins.refl (n : Numeral) : n.Begins n :=
  fun h => ⟨h, rfl, Nat.le_refl _⟩

theorem Begins.trans {l m n : Numeral} (hlm : l.Begins m) (hmn : m.Begins n) : l.Begins n := by
  intro h
  obtain ⟨hm, hsign, hdigits⟩ := hmn h
  obtain ⟨hl, hsign', hdigits'⟩ := hlm hm
  exact ⟨hl, hsign'.trans hsign, Nat.le_trans hdigits' hdigits⟩

/-- Neither a point nor an exponent mark has gone by. -/
def Phase.isPlain : Phase → Bool
  | .sign | .zero | .whole => true
  | .point | .fraction | .mark | .markSign | .exponent => false

namespace Draft

variable {d d' : Draft} {b : UInt8}

/-- What the phase of a draft says of its numeral. -/
structure Valid (d : Draft) : Prop where
  digits_pos : d.phase = .whole → 0 < d.numeral.digits
  not_plain : d.phase.isPlain = false → d.numeral.plain = false

-- The next three go through the table of `push?`, phase by phase.

theorem begins_of_push? (h : d.push? b = some d') : d.numeral.Begins d'.numeral := by
  obtain ⟨phase, n⟩ := d
  cases phase <;> cases hk : digit? b <;> simp only [push?, hk] at h <;>
    grind [Begins, pushDigit, pushPlace, pushExponent, afterPoint, afterMark]

theorem Valid.push? (hd : d.Valid) (h : d.push? b = some d') : d'.Valid := by
  obtain ⟨phase, n⟩ := d
  obtain ⟨hdigits, hplain⟩ := hd
  constructor <;> cases phase <;> cases hk : digit? b <;> simp only [Draft.push?, hk] at h <;>
    grind [pushDigit, pushPlace, pushExponent, afterPoint, afterMark, Phase.isPlain]

/-- A numeral that could end here and goes on as a plain one is no zero. -/
theorem Valid.digits_pos_of_push? (hd : d.Valid) (hfinal : d.phase.isFinal = true)
    (h : d.push? b = some d') (hplain : d'.numeral.plain = true) : 0 < d.numeral.digits := by
  obtain ⟨phase, n⟩ := d
  obtain ⟨hdigits, hnot⟩ := hd
  cases phase <;> cases hk : digit? b <;> simp only [Draft.push?, hk] at h <;>
    grind [pushDigit, pushPlace, pushExponent, afterPoint, afterMark, Phase.isPlain, Phase.isFinal]

theorem valid_of_start? (h : start? b = some d) : d.Valid := by
  rw [start?] at h
  split at h
  · obtain rfl := Option.some.inj h
    exact ⟨by simp, by simp [Phase.isPlain]⟩
  · exact Valid.push? ⟨by simp, by simp [Phase.isPlain]⟩ h

end Draft

end Numeral

/-! ## Strings under way -/

theorem Quote.unpaired_pushOctet {q : Quote} (b : UInt8) (h : q.unpaired = true) :
    (q.pushOctet b).unpaired = true := by
  rw [pushOctet, settle]
  split
  · rfl
  · exact h

theorem Quote.unpaired_pushCode {q : Quote} (n : Nat) (h : q.unpaired = true) :
    (q.pushCode n).unpaired = true := by
  rw [pushCode]
  split
  · split
    · exact h
    · rfl
  · split
    · exact h
    · split
      · rfl
      · exact h

/-- An unpaired surrogate that has gone by stays. -/
theorem Quote.unpaired_of_step {q q' : Quote} {b : UInt8} (h : q.step b = .more q')
    (hq : q.unpaired = true) : q'.unpaired = true := by
  rw [step] at h
  split at h
  · split at h
    · nomatch h
    · split at h
      · obtain rfl := Next.more.inj h
        exact hq
      · split at h
        · nomatch h
        · obtain rfl := Next.more.inj h
          exact unpaired_pushOctet b hq
  · split at h
    · obtain rfl := Next.more.inj h
      exact hq
    · split at h
      · obtain rfl := Next.more.inj h
        exact unpaired_pushOctet _ hq
      · nomatch h
  · split at h
    · obtain rfl := Next.more.inj h
      exact hq
    · split at h
      · obtain rfl := Next.more.inj h
        exact unpaired_pushCode _ hq
      · nomatch h

/-- A string ends with a quotation mark, and what it denotes is settled then. -/
theorem Quote.closed_of_step {q : Quote} {b : UInt8} {text : Option String}
    (h : q.step b = .closed text) : b = 0x22 ∧ text = q.text? := by
  rw [step] at h
  split at h
  · split at h
    · next hb => exact ⟨hb, (Next.closed.inj h).symm⟩
    · split at h
      · nomatch h
      · split at h <;> nomatch h
  · split at h
    · nomatch h
    · split at h <;> nomatch h
  · split at h
    · nomatch h
    · split at h <;> nomatch h

theorem Quote.text_of_step {q : Quote} {b : UInt8} {text : Option String}
    (h : q.step b = .closed text) (hq : q.unpaired = true) : text = none := by
  have hsettle : q.settle.unpaired = true := by
    rw [settle]
    split
    · rfl
    · exact hq
  rw [(closed_of_step h).2, text?, if_pos hsettle]

namespace Lexeme

/-- No gap among them. -/
def Gapless (ls : List Lexeme) : Prop :=
  ∀ g, Lexeme.gap g ∉ ls

theorem Gapless.of_append {ls ms : List Lexeme} (h : Gapless (ls ++ ms)) :
    Gapless ls ∧ Gapless ms :=
  ⟨fun g hg => h g (List.mem_append_left _ hg), fun g hg => h g (List.mem_append_right _ hg)⟩

theorem not_gapless_cons_gap (g : Gap) (ls : List Lexeme) : ¬ Gapless (.gap g :: ls) :=
  fun h => h g List.mem_cons_self

/-- Only white space. -/
def AllSpace (bs : List UInt8) : Prop :=
  ∀ b ∈ bs, isSpace b = true

instance (bs : List UInt8) : Decidable (AllSpace bs) :=
  decidable_of_iff (bs.all isSpace = true) List.all_eq_true

/-- No white space. -/
def NoSpace (bs : List UInt8) : Prop :=
  ∀ b ∈ bs, isSpace b = false

instance (bs : List UInt8) : Decidable (NoSpace bs) :=
  decidable_of_iff (bs.all (fun b => !isSpace b) = true) (by simp [NoSpace])

namespace State

/-- What holds of a state that a scan comes to before any stray octet. -/
def Valid : State → Prop
  | word owed l => owed ≠ [] ∧ NoSpace owed ∧ (l = .null ∨ ∃ b, l = .bool b)
  | number d => d.Valid
  | idle | string _ => True
  | halted => False

/-- An octet between lexemes: it is passed over, it is a mark, it begins a
word, a string or a numeral, or it cannot stand there. -/
theorem enter_cases (b : UInt8) :
    (isSpace b = true ∧ enter b = ([], idle))
      ∨ (isSpace b = false ∧ ∃ l, enter b = ([l], idle))
      ∨ (isSpace b = false ∧ ∃ s, enter b = ([], s) ∧ s ≠ idle ∧ s.Valid)
      ∨ (isSpace b = false ∧ enter b = ([.gap .stray], halted)) := by
  by_cases hspace : isSpace b = true
  · exact Or.inl ⟨hspace, by rw [enter, if_pos hspace]⟩
  refine Or.inr ?_
  simp only [Bool.not_eq_true] at hspace
  simp only [hspace, true_and]
  rw [enter, hspace, if_neg Bool.false_ne_true]
  by_cases h₁ : b = 0x7B
  · exact Or.inl ⟨_, if_pos h₁⟩
  rw [if_neg h₁]
  by_cases h₂ : b = 0x7D
  · exact Or.inl ⟨_, if_pos h₂⟩
  rw [if_neg h₂]
  by_cases h₃ : b = 0x5B
  · exact Or.inl ⟨_, if_pos h₃⟩
  rw [if_neg h₃]
  by_cases h₄ : b = 0x5D
  · exact Or.inl ⟨_, if_pos h₄⟩
  rw [if_neg h₄]
  by_cases h₅ : b = 0x3A
  · exact Or.inl ⟨_, if_pos h₅⟩
  rw [if_neg h₅]
  by_cases h₆ : b = 0x2C
  · exact Or.inl ⟨_, if_pos h₆⟩
  rw [if_neg h₆]
  refine Or.inr ?_
  by_cases h₇ : b = 0x22
  · exact Or.inl ⟨_, if_pos h₇, nofun, trivial⟩
  rw [if_neg h₇]
  by_cases h₈ : b = 0x6E
  · exact Or.inl ⟨_, if_pos h₈, nofun, nofun, by decide, Or.inl rfl⟩
  rw [if_neg h₈]
  by_cases h₉ : b = 0x74
  · exact Or.inl ⟨_, if_pos h₉, nofun, nofun, by decide, Or.inr ⟨true, rfl⟩⟩
  rw [if_neg h₉]
  by_cases h₀ : b = 0x66
  · exact Or.inl ⟨_, if_pos h₀, nofun, nofun, by decide, Or.inr ⟨false, rfl⟩⟩
  rw [if_neg h₀]
  cases hstart : Numeral.Draft.start? b with
  | some d => exact Or.inl ⟨_, rfl, nofun, Numeral.Draft.valid_of_start? hstart⟩
  | none => exact Or.inr rfl

theorem valid_enter {b : UInt8} (h : Gapless (enter b).1) : (enter b).2.Valid := by
  rcases enter_cases b with ⟨-, heq⟩ | ⟨-, l, heq⟩ | ⟨-, s, heq, -, hs⟩ | ⟨-, heq⟩ <;>
    rw [heq] at h ⊢
  · trivial
  · trivial
  · exact hs
  · exact absurd h (not_gapless_cons_gap _ _)

theorem valid_step {s : State} {b : UInt8} (hs : s.Valid) (h : Gapless (s.step b).1) :
    (s.step b).2.Valid := by
  cases s with
  | idle => exact valid_enter h
  | word owed l =>
      obtain ⟨howed, hsolid, hl⟩ := hs
      cases owed with
      | nil => exact absurd rfl howed
      | cons o owed =>
          rw [step] at h ⊢
          split_ifs at h ⊢ with ho hlast
          · exact absurd h (not_gapless_cons_gap _ _)
          · trivial
          · exact ⟨hlast, (List.forall_mem_cons.mp hsolid).2, hl⟩
  | number d =>
      simp only [step] at h ⊢
      split at h
      · next d' hpush => exact Numeral.Draft.Valid.push? hs hpush
      · split_ifs at h ⊢
        · exact valid_enter fun g hg => h g (List.mem_cons_of_mem _ hg)
        · exact absurd h (not_gapless_cons_gap _ _)
  | string q =>
      simp only [step] at h ⊢
      split at h
      · trivial
      · trivial
      · exact absurd h (not_gapless_cons_gap _ _)
  | halted => exact hs

end State

open State

theorem valid_scanPart {s : State} {bs : List UInt8} (hs : s.Valid)
    (h : Gapless (scanPart s bs).1) : (scanPart s bs).2.Valid := by
  induction bs generalizing s with
  | nil => exact hs
  | cons b bs ih =>
      obtain ⟨hfirst, hrest⟩ := Gapless.of_append h
      exact ih (valid_step hs hfirst) hrest

/-- Only white space between lexemes leaves nothing. -/
theorem scanFrom_eq_nil_iff {s : State} (hs : s.Valid) (bs : List UInt8) :
    scanFrom s bs = [] ↔ s = .idle ∧ AllSpace bs := by
  induction bs generalizing s with
  | nil =>
      cases s with
      | idle => exact iff_of_true rfl ⟨rfl, nofun⟩
      | word owed l => exact iff_of_false (List.cons_ne_nil _ _) (by simp)
      | number d =>
          refine iff_of_false ?_ (by simp)
          rw [scanFrom, finish]
          split <;> exact List.cons_ne_nil _ _
      | string q => exact iff_of_false (List.cons_ne_nil _ _) (by simp)
      | halted => exact hs.elim
  | cons b bs ih =>
      rw [scanFrom, List.append_eq_nil_iff]
      cases s with
      | idle =>
          -- an octet that is not blank leaves a lexeme, or begins one that is then owed
          have hall : AllSpace (b :: bs) ↔ isSpace b = true ∧ AllSpace bs := List.forall_mem_cons
          rw [hall, step]
          rcases enter_cases b with ⟨hb, heq⟩ | ⟨hb, l, heq⟩ | ⟨hb, s, heq, hne, hs⟩ | ⟨hb, heq⟩
          · simp [heq, hb, ih (s := .idle) trivial]
          · simp [heq, hb]
          · simp [heq, hb, ih hs, hne]
          · simp [heq, hb]
      | word owed l =>
          obtain ⟨howed, hsolid, hl⟩ := hs
          refine iff_of_false (fun h => ?_) (by simp)
          cases owed with
          | nil => exact absurd rfl howed
          | cons o owed =>
              rw [step] at h
              split_ifs at h with ho hlast
              · cases h.1
              · cases h.1
              · have howed' := (List.forall_mem_cons.mp hsolid).2
                cases ((ih (s := .word owed l) ⟨hlast, howed', hl⟩).mp h.2).1
      | number d =>
          refine iff_of_false (fun h => ?_) (by simp)
          rw [step] at h
          split at h
          · next d' hpush =>
            cases ((ih (s := .number d') (Numeral.Draft.Valid.push? hs hpush)).mp h.2).1
          · split_ifs at h <;> cases h.1
      | string q =>
          refine iff_of_false (fun h => ?_) (by simp)
          rw [step] at h
          split at h
          · next q' hq => cases ((ih (s := .string q') trivial).mp h.2).1
          · cases h.1
          · cases h.1
      | halted => exact hs.elim

/-! ## What completes a lexeme -/

theorem scanFrom_word {owed : List UInt8} {l : Lexeme} {bs : List UInt8} (howed : owed ≠ [])
    (h : Gapless (scanFrom (.word owed l) bs)) :
    ∃ rest, scanFrom (.word owed l) bs = l :: scanFrom .idle rest := by
  induction bs generalizing owed with
  | nil => exact absurd h (not_gapless_cons_gap _ _)
  | cons b bs ih =>
      cases owed with
      | nil => exact absurd rfl howed
      | cons o owed =>
          simp only [scanFrom, step] at h ⊢
          split_ifs at h ⊢ with ho hlast
          · exact absurd h (not_gapless_cons_gap _ _)
          · exact ⟨bs, rfl⟩
          · exact ih hlast h

theorem scanFrom_string {q : Quote} {bs : List UInt8} (h : Gapless (scanFrom (.string q) bs)) :
    ∃ text rest, scanFrom (.string q) bs = .string text :: scanFrom .idle rest
      ∧ (q.unpaired = true → text = none) := by
  induction bs generalizing q with
  | nil => exact absurd h (not_gapless_cons_gap _ _)
  | cons b bs ih =>
      simp only [scanFrom, step] at h ⊢
      split at h
      · next q' hq =>
        obtain ⟨text, rest, heq, htext⟩ := ih h
        exact ⟨text, rest, heq, fun hu => htext (Quote.unpaired_of_step hq hu)⟩
      · next text hq => exact ⟨text, bs, rfl, Quote.text_of_step hq⟩
      · exact absurd h (not_gapless_cons_gap _ _)

/-- A numeral that does not go on is complete. -/
theorem scanFrom_number_of_push?_eq_none {d : Numeral.Draft} {b : UInt8} {bs : List UInt8}
    (hpush : d.push? b = none) (h : Gapless (scanFrom (.number d) (b :: bs))) :
    d.phase.isFinal = true
      ∧ scanFrom (.number d) (b :: bs) = .number d.numeral :: scanFrom .idle (b :: bs) := by
  simp only [scanFrom, step, hpush] at h ⊢
  split_ifs at h ⊢ with hends
  · exact ⟨(Bool.and_eq_true _ _ ▸ hends).1, rfl⟩
  · exact absurd h (not_gapless_cons_gap _ _)

theorem scanFrom_number {d : Numeral.Draft} {bs : List UInt8}
    (h : Gapless (scanFrom (.number d) bs)) :
    ∃ n rest, scanFrom (.number d) bs = .number n :: scanFrom .idle rest
      ∧ d.numeral.Begins n := by
  induction bs generalizing d with
  | nil =>
      simp only [scanFrom, finish] at h ⊢
      split_ifs at h ⊢
      · exact ⟨_, [], rfl, .refl _⟩
      · exact absurd h (not_gapless_cons_gap _ _)
  | cons b bs ih =>
      cases hpush : d.push? b with
      | none => exact ⟨_, _, (scanFrom_number_of_push?_eq_none hpush h).2, .refl _⟩
      | some d' =>
          simp only [scanFrom, step, hpush, List.nil_append] at h ⊢
          obtain ⟨n, rest, heq, hn⟩ := ih h
          exact ⟨n, rest, heq, (Numeral.Draft.begins_of_push? hpush).trans hn⟩

theorem push?_eq_none_of_isSpace {d : Numeral.Draft} {b : UInt8} (h : isSpace b = true) :
    d.push? b = none := by
  have hb : b = 0x20 ∨ b = 0x0A ∨ b = 0x0D ∨ b = 0x09 := by
    simpa [isSpace, or_assoc] using h
  obtain ⟨phase, n⟩ := d
  rcases hb with rfl | rfl | rfl | rfl <;> cases phase <;> rfl

/-- A string is not complete without a quotation mark. -/
theorem not_gapless_string {q : Quote} {bs : List UInt8} (hbs : 0x22 ∉ bs) :
    ¬ Gapless (scanFrom (.string q) bs) := by
  induction bs generalizing q with
  | nil => exact not_gapless_cons_gap _ _
  | cons b bs ih =>
      rw [List.mem_cons, not_or] at hbs
      rw [scanFrom, step]
      split
      · exact ih hbs.2
      · next text hq => exact absurd (Quote.closed_of_step hq).1.symm hbs.1
      · exact not_gapless_cons_gap _ _

/-- White space completes nothing but a numeral, which is complete anyway. -/
theorem scanFrom_of_allSpace {s : State} {bs : List UInt8} (hs : s.Valid) (hbs : AllSpace bs)
    (h : Gapless (scanFrom s bs)) : scanFrom s bs = s.finish := by
  cases bs with
  | nil => rfl
  | cons b bs =>
      have hb : isSpace b = true := hbs b List.mem_cons_self
      cases s with
      | idle => exact (scanFrom_eq_nil_iff hs _).mpr ⟨rfl, hbs⟩
      | word owed l =>
          obtain ⟨howed, hsolid, hl⟩ := hs
          cases owed with
          | nil => exact absurd rfl howed
          | cons o owed =>
              have ho : b ≠ o := by
                rintro rfl
                exact Bool.false_ne_true ((hsolid b List.mem_cons_self).symm.trans hb)
              rw [scanFrom, step, if_pos ho] at h
              exact absurd h (not_gapless_cons_gap _ _)
      | number d =>
          obtain ⟨hfinal, heq⟩ :=
            scanFrom_number_of_push?_eq_none (push?_eq_none_of_isSpace hb) h
          rw [heq, finish, if_pos hfinal,
            (scanFrom_eq_nil_iff (s := .idle) trivial _).mpr ⟨rfl, hbs⟩]
      | string q =>
          have hquote : 0x22 ∉ b :: bs := fun hmem => absurd (hbs _ hmem) (by decide)
          exact absurd h (not_gapless_string hquote)
      | halted => exact hs.elim

/-! ## Cutting -/

inductive Cut
  | inNumber
  | elsewhere

/-- The second of two lexemes is what a cut leaves of the first. -/
inductive Fragment : Cut → Lexeme → Lexeme → Prop
  | null (c : Cut) : Fragment c .null (.gap .inWord)
  | bool (c : Cut) (b : Bool) : Fragment c (.bool b) (.gap .inWord)
  | string (c : Cut) {text : Option String} {unpaired : Bool}
      (h : unpaired = true → text = none) :
      Fragment c (.string text) (.gap (.inString unpaired))
  | unfinished (n : Numeral) : Fragment .inNumber (.number n) (.gap .inNumber)
  | number {m n : Numeral} (h : m.Begins n) (hpos : n.plain = true → 0 < m.digits) :
      Fragment .inNumber (.number n) (.number m)

/-- Whether the first part ends in a numeral that the second goes on with. -/
def cutsNumber (p s : List UInt8) : Bool :=
  match (scanPart .idle p).2, s with
  | .number d, b :: _ => (d.push? b).isSome
  | _, _ => false

/-- How the lexemes `ms` of a first part stand to those of the whole text,
where the rest is not only white space. -/
inductive Break (c : Cut) : List Lexeme → List Lexeme → Prop
  | between {ms after : List Lexeme} (h : after ≠ []) : Break c (ms ++ after) ms
  | within {before after : List Lexeme} {l m : Lexeme} (h : Fragment c l m) :
      Break c (before ++ l :: after) (before ++ [m])

theorem scan_of_allSpace {p s : List UInt8} (hs : AllSpace s) (h : Gapless (scan (p ++ s))) :
    scan p = scan (p ++ s) := by
  rw [scan, scanFrom_append] at h
  obtain ⟨hpart, hrest⟩ := Gapless.of_append h
  have hvalid := valid_scanPart (s := .idle) trivial hpart
  rw [scan, scan, scanFrom_append, scanFrom_of_allSpace hvalid hs hrest, scanFrom_eq_scanPart]

theorem break_of_not_allSpace {p s : List UInt8} (hs : ¬ AllSpace s)
    (h : Gapless (scan (p ++ s))) :
    ∃ c, (c = .inNumber → cutsNumber p s = true) ∧ Break c (scan (p ++ s)) (scan p) := by
  rw [scan, scanFrom_append] at h
  obtain ⟨hpart, hrest⟩ := Gapless.of_append h
  have hvalid := valid_scanPart (s := .idle) trivial hpart
  have hidle : scanFrom .idle s ≠ [] := fun hnil =>
    hs ((scanFrom_eq_nil_iff (s := .idle) trivial s).mp hnil).2
  rw [scan, scan, scanFrom_append, scanFrom_eq_scanPart _ p]
  cases hstate : (scanPart .idle p).2 with
  | idle =>
      rw [finish, List.append_nil]
      exact ⟨.elsewhere, nofun, .between hidle⟩
  | word owed l =>
      rw [hstate] at hvalid hrest
      obtain ⟨rest, heq⟩ := scanFrom_word hvalid.1 hrest
      rw [heq]
      rcases hvalid.2.2 with rfl | ⟨b, rfl⟩
      · exact ⟨.elsewhere, nofun, .within (.null _)⟩
      · exact ⟨.elsewhere, nofun, .within (.bool _ b)⟩
  | string q =>
      rw [hstate] at hrest
      obtain ⟨text, rest, heq, htext⟩ := scanFrom_string hrest
      rw [heq]
      exact ⟨.elsewhere, nofun, .within (.string _ htext)⟩
  | number d =>
      rw [hstate] at hvalid hrest
      cases s with
      | nil => exact absurd nofun hs
      | cons b s =>
          cases hpush : d.push? b with
          | none =>
              -- the numeral ends right at the cut
              obtain ⟨hfinal, heq⟩ := scanFrom_number_of_push?_eq_none hpush hrest
              rw [heq, finish, if_pos hfinal, List.append_cons]
              exact ⟨.elsewhere, nofun, .between hidle⟩
          | some d' =>
              -- the cut is within the numeral, of which a beginning is left
              have hcuts : cutsNumber p (b :: s) = true := by
                simp only [cutsNumber, hstate, hpush, Option.isSome_some]
              refine ⟨.inNumber, fun _ => hcuts, ?_⟩
              simp only [scanFrom, step, hpush, List.nil_append] at hrest ⊢
              obtain ⟨n, rest, heq, hn⟩ := scanFrom_number hrest
              have hbegins := Numeral.Draft.begins_of_push? hpush
              rw [heq, finish]
              split
              · next hfinal =>
                refine .within (.number (hbegins.trans hn) fun hplain => ?_)
                exact Numeral.Draft.Valid.digits_pos_of_push? hvalid hfinal hpush (hn hplain).1
              · exact .within (.unfinished n)
  | halted =>
      rw [hstate] at hvalid
      exact hvalid.elim

/-- A text that does not end in a numeral can be gone on with. -/
theorem scan_append_of_gapless {t : List UInt8} (h : Gapless (scan t)) :
    (∃ before n, scan t = before ++ [.number n])
      ∨ ∀ s, scan (t ++ s) = scan t ++ scanFrom .idle s := by
  rw [scan, scanFrom_eq_scanPart] at h ⊢
  obtain ⟨hpart, hrest⟩ := Gapless.of_append h
  have hvalid := valid_scanPart (s := .idle) trivial hpart
  cases hstate : (scanPart .idle t).2 with
  | idle =>
      refine Or.inr fun s => ?_
      rw [scan, scanFrom_append, hstate, finish, List.append_nil]
  | word owed l =>
      rw [hstate] at hrest
      exact absurd hrest (not_gapless_cons_gap _ _)
  | string q =>
      rw [hstate] at hrest
      exact absurd hrest (not_gapless_cons_gap _ _)
  | number d =>
      rw [hstate, finish] at hrest
      split at hrest
      · next hfinal =>
        rw [finish, if_pos hfinal]
        exact Or.inl ⟨_, _, rfl⟩
      · exact absurd hrest (not_gapless_cons_gap _ _)
  | halted =>
      rw [hstate] at hvalid
      exact hvalid.elim

end Lexeme

end EventSeal.Json
