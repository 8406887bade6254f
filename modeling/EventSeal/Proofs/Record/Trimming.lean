import EventSeal.Proofs.Json.Spelled
import EventSeal.Proofs.Record.Framing
import EventSeal.Proofs.Text.Trimming

/-!
# Blanks around a record

Whoever reads a line or a file takes the blanks off it, and there are more
blanks in Unicode than white space in JSON. This makes no difference to a
text that a strict reader takes as it stands: what is trimmed off it is
white space (`Layout.ofBytes_trim`).

A blank that is no white space begins with an octet that goes on with
nothing and begins nothing (`IsForeign`). Between lexemes, in a word and in
a numeral it leaves a gap, and a text with a gap is not taken. In a string
it could stand, but then it would not stand at an end of the text: no blank
has an octet that closes a string.
-/

namespace EventSeal

open Json

/-! ## The octets of blanks -/

namespace Json.Lexeme

/-- An octet that can stand in a string and nowhere else, and closes none. -/
def IsForeign (b : UInt8) : Prop :=
  b = 0x0B ∨ b = 0x0C ∨ 0x80 ≤ b

instance (b : UInt8) : Decidable (IsForeign b) :=
  inferInstanceAs (Decidable (_ ∨ _ ∨ _))

namespace IsForeign

variable {b : UInt8}

theorem ne (h : IsForeign b) {o : UInt8} (ho : ¬ IsForeign o) : b ≠ o :=
  fun heq => ho (heq ▸ h)

theorem digit?_eq_none (h : IsForeign b) : digit? b = none := by
  rw [digit?, if_neg]
  rintro ⟨hlo, hhi⟩
  rcases h with rfl | rfl | h
  · exact absurd hlo (by decide)
  · exact absurd hlo (by decide)
  · exact absurd (UInt8.le_trans h hhi) (by decide)

theorem push?_eq_none (h : IsForeign b) (d : Numeral.Draft) : d.push? b = none := by
  obtain ⟨phase, n⟩ := d
  cases phase <;> simp (disch := decide) [Numeral.Draft.push?, h.digit?_eq_none,
    Numeral.Draft.isPoint, Numeral.Draft.isMark, h.ne]

theorem enter_eq (h : IsForeign b) : State.enter b = ([.gap .stray], .halted) := by
  have hstart : Numeral.Draft.start? b = none := by
    rw [Numeral.Draft.start?, if_neg (h.ne (by decide)), h.push?_eq_none]
  simp (disch := decide) [State.enter, isSpace, hstart, h.ne]

end IsForeign

end Json.Lexeme

open Json.Lexeme

theorem Text.toNat_of_isBlank {c : Char} (h : isBlank c = true) (hascii : c.toNat < 0x80) :
    (0x09 ≤ c.toNat ∧ c.toNat ≤ 0x0D) ∨ c.toNat = 0x20 := by
  simp only [isBlank, Bool.or_eq_true, Bool.and_eq_true, decide_eq_true_eq, beq_iff_eq] at h
  omega

/-- A blank is one octet of white space, or it begins with a foreign octet
and has no other either. -/
theorem Text.utf8EncodeChar_of_isBlank {c : Char} (h : isBlank c = true) :
    (∃ b, String.utf8EncodeChar c = [b] ∧ isSpace b = true)
      ∨ ∃ b bs, String.utf8EncodeChar c = b :: bs ∧ ∀ o ∈ b :: bs, IsForeign o := by
  by_cases hascii : c.toNat < 0x80
  · rw [utf8EncodeChar_of_lt hascii]
    have hb := toNat_of_isBlank h hascii
    generalize c.toNat = n at hb
    have hn : n ∈ [0x09, 0x0A, 0x0B, 0x0C, 0x0D, 0x20] := by
      simp only [List.mem_cons, List.not_mem_nil, or_false]
      omega
    have hcases : ∀ n ∈ [0x09, 0x0A, 0x0B, 0x0C, 0x0D, 0x20],
        isSpace (UInt8.ofNat n) = true ∨ IsForeign (UInt8.ofNat n) := by decide
    rcases hcases n hn with hspace | hforeign
    · exact Or.inl ⟨_, rfl, hspace⟩
    · exact Or.inr ⟨_, [], rfl, List.forall_mem_singleton.mpr hforeign⟩
  · obtain ⟨b, bs, heq⟩ : ∃ b bs, String.utf8EncodeChar c = b :: bs := by
      refine List.exists_cons_of_ne_nil fun hnil => ?_
      have hlength := String.length_utf8EncodeChar c
      rw [hnil] at hlength
      exact absurd hlength.symm (Nat.ne_of_gt c.utf8Size_pos)
    refine Or.inr ⟨b, bs, heq, fun o ho => ?_⟩
    rw [← heq] at ho
    exact Or.inr (Or.inr (le_of_mem_utf8EncodeChar (Nat.le_of_not_lt hascii) ho))

namespace Json.Lexeme

open State

/-! ## Words under way -/

/-- The octets that a word still needs are no foreign ones. -/
def Ascii : State → Prop
  | word owed _ => ∀ o ∈ owed, ¬ IsForeign o
  | _ => True

theorem ascii_ite {c : Prop} [Decidable c] {p q : List Lexeme × State} (hp : Ascii p.2)
    (hq : Ascii q.2) : Ascii (if c then p else q).2 := by
  split
  · exact hp
  · exact hq

theorem ascii_enter (b : UInt8) : Ascii (enter b).2 := by
  have hnull : ∀ o ∈ [0x75, 0x6C, 0x6C], ¬ IsForeign o := by simp [IsForeign]
  have htrue : ∀ o ∈ [0x72, 0x75, 0x65], ¬ IsForeign o := by simp [IsForeign]
  have hfalse : ∀ o ∈ [0x61, 0x6C, 0x73, 0x65], ¬ IsForeign o := by simp [IsForeign]
  rw [enter]
  -- white space, the six marks and the quotation mark begin no word
  iterate 8 refine ascii_ite trivial ?_
  refine ascii_ite hnull (ascii_ite htrue (ascii_ite hfalse ?_))
  split <;> trivial

theorem ascii_step {s : State} (h : Ascii s) (b : UInt8) : Ascii (s.step b).2 := by
  cases s with
  | idle => exact ascii_enter b
  | word owed l =>
      cases owed with
      | nil => exact ascii_enter b
      | cons o owed =>
          rw [step]
          split_ifs
          · trivial
          · trivial
          · exact (List.forall_mem_cons.mp h).2
  | number d =>
      simp only [step]
      split
      · trivial
      · split_ifs
        · exact ascii_enter b
        · trivial
  | string q =>
      simp only [step]
      split <;> trivial
  | halted => trivial

theorem ascii_scanPart {s : State} (h : Ascii s) (bs : List UInt8) : Ascii (scanPart s bs).2 := by
  induction bs generalizing s with
  | nil => exact h
  | cons b bs ih => exact ih (ascii_step h b)

/-! ## Blanks at the ends of a text -/

theorem quote_not_mem_octets {cs : List Char} (hcs : ∀ c ∈ cs, Text.isBlank c = true) :
    0x22 ∉ octets cs := by
  intro hmem
  obtain ⟨c, hc, hmem⟩ := List.mem_flatMap.mp hmem
  rcases Text.utf8EncodeChar_of_isBlank (hcs c hc) with ⟨b, heq, hb⟩ | ⟨b, bs, heq, hforeign⟩
  · rw [heq, List.mem_singleton] at hmem
    exact absurd (hmem ▸ hb) (by decide)
  · rw [heq] at hmem
    exact absurd (hforeign _ hmem) (by decide)

/-- A foreign octet leaves a gap everywhere but in a string. -/
theorem not_gapless_foreign {s : State} {b : UInt8} {bs : List UInt8} (hs : s.Valid)
    (ha : Ascii s) (hb : IsForeign b) (hquote : 0x22 ∉ b :: bs) :
    ¬ Gapless (scanFrom s (b :: bs)) := by
  cases s with
  | idle =>
      rw [scanFrom, step, hb.enter_eq]
      exact not_gapless_cons_gap _ _
  | word owed l =>
      cases owed with
      | nil => exact absurd rfl hs.1
      | cons o owed =>
          rw [scanFrom, step, if_pos (hb.ne (ha o List.mem_cons_self))]
          exact not_gapless_cons_gap _ _
  | number d =>
      intro h
      rw [(scanFrom_number_of_push?_eq_none (hb.push?_eq_none d) h).2, scanFrom, step,
        hb.enter_eq] at h
      exact h .stray (List.mem_cons_of_mem _ List.mem_cons_self)
  | string q => exact not_gapless_string hquote
  | halted => exact hs.elim

theorem allSpace_of_gapless {s : State} (hs : s.Valid) (ha : Ascii s) {cs : List Char}
    (hcs : ∀ c ∈ cs, Text.isBlank c = true) (h : Gapless (scanFrom s (octets cs))) :
    AllSpace (octets cs) := by
  induction cs generalizing s with
  | nil => exact nofun
  | cons c cs ih =>
      obtain ⟨hc, hcs'⟩ := List.forall_mem_cons.mp hcs
      rcases Text.utf8EncodeChar_of_isBlank hc with ⟨b, heq, hb⟩ | ⟨b, bs, heq, hforeign⟩
      · rw [octets_cons, heq, List.singleton_append] at h ⊢
        obtain ⟨hfirst, hrest⟩ := Gapless.of_append h
        exact List.forall_mem_cons.mpr
          ⟨hb, ih (valid_step hs hfirst) (ascii_step ha b) hcs' hrest⟩
      · have hquote : 0x22 ∉ octets (c :: cs) := quote_not_mem_octets hcs
        rw [octets_cons, heq, List.cons_append] at h hquote
        exact absurd h (not_gapless_foreign hs ha (hforeign b List.mem_cons_self) hquote)

/-- At the beginning of a text. -/
theorem scanFrom_leading {cs : List Char} (hcs : ∀ c ∈ cs, Text.isBlank c = true)
    {bs : List UInt8} (h : Gapless (scanFrom .idle (octets cs ++ bs))) :
    scanFrom .idle (octets cs ++ bs) = scanFrom .idle bs := by
  induction cs with
  | nil => rfl
  | cons c cs ih =>
      obtain ⟨hc, hcs'⟩ := List.forall_mem_cons.mp hcs
      rcases Text.utf8EncodeChar_of_isBlank hc with ⟨b, heq, hb⟩ | ⟨b, more, heq, hforeign⟩
      · have hstep : State.idle.step b = ([], .idle) := by rw [step, enter, if_pos hb]
        rw [octets_cons, heq, List.singleton_append, List.cons_append, scanFrom, hstep] at h ⊢
        exact ih hcs' h
      · rw [octets_cons, heq, List.append_assoc, List.cons_append, scanFrom, step,
          (hforeign b List.mem_cons_self).enter_eq] at h
        exact absurd h (not_gapless_cons_gap _ _)

end Json.Lexeme

namespace Layout

variable {R : Type} {l : Layout R}

theorem gapless_of_ofBytes {bs : List UInt8} {r : R} (h : l.ofBytes bs = .ok r) :
    Gapless (scan bs) := by
  obtain ⟨hread, htrailing⟩ := Document.read_eq_ok_iff.mp h
  have hdocument : Document.ofBytes bs = ⟨(Document.ofBytes bs).root, false⟩ := by
    rw [← htrailing]
  have hcomplete := Tree.Builder.eq_complete_of_finish hdocument (isWhole_of_read hread)
  have hleads : ((scan bs).foldl Tree.Builder.step (.value [])).Leads
      (Document.ofBytes bs).root := by
    rw [hcomplete]
    rfl
  exact Tree.Builder.gapless_of_leads hleads

theorem ofBytes_of_scan_eq {as bs : List UInt8} (h : scan as = scan bs) :
    l.ofBytes as = l.ofBytes bs := by
  rw [ofBytes, ofBytes, Document.ofBytes, Document.ofBytes, h]

/-- What is a record as it stands is the same record when it is trimmed. -/
theorem ofBytes_trim {s : String} {r : R} (h : l.ofBytes (Text.bytes s) = .ok r) :
    l.ofBytes (Text.bytes (Text.trim s)) = .ok r := by
  obtain ⟨before, after, hs, hbefore, hafter⟩ := Text.exists_around_trimChars s.toList
  have hbytes : Text.bytes s
      = octets (before ++ Text.trimChars s.toList) ++ octets after := by
    rw [Text.bytes_eq_flatMap, ← octets, ← octets_append, ← hs]
  rw [hbytes] at h
  have hgapless := gapless_of_ofBytes h
  rw [scan, scanFrom_append] at hgapless
  obtain ⟨hpart, hrest⟩ := Gapless.of_append hgapless
  have hspace := allSpace_of_gapless (valid_scanPart (s := .idle) trivial hpart)
    (ascii_scanPart (s := .idle) trivial _) hafter hrest
  have hstart := (ofBytes_of_cut h).1 hspace
  have hleading := gapless_of_ofBytes hstart
  rw [octets_append] at hstart hleading
  rw [Text.trim, Text.bytes_ofList, ← octets, ← hstart]
  exact ofBytes_of_scan_eq (scanFrom_leading hbefore hleading).symm

end Layout

end EventSeal
