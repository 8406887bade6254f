import EventSeal.Proofs.Json.Spelling
import EventSeal.Proofs.Json.Writing

/-!
# Every spelling is read

The text of a spelling has the tree of the spelling (`ofBytes_chars`). As
with the compact form, the scan is followed from the beginning of a value
to whatever stands behind it, and of that it is asked only that no numeral
goes on with it.

What a string or a numeral is made of is followed piece by piece: a piece
leaves the octets of its character, whichever way it is written, and each
part of a numeral leaves the draft that the part before it left, with its
own digits pushed onto it.
-/

namespace EventSeal.Json

/-- The octets of some characters. -/
def octets (cs : List Char) : List UInt8 :=
  cs.flatMap String.utf8EncodeChar

@[simp] theorem octets_append (cs ds : List Char) : octets (cs ++ ds) = octets cs ++ octets ds :=
  List.flatMap_append

theorem octets_cons (c : Char) (cs : List Char) :
    octets (c :: cs) = String.utf8EncodeChar c ++ octets cs :=
  List.flatMap_cons

namespace Lexeme

open Numeral Quote

/-! ## White space -/

theorem scanPart_space (ws : Space) : scanPart .idle (octets ws.chars) = ([], .idle) := by
  induction ws with
  | nil => rfl
  | cons b ws ih =>
      have hb : scanPart .idle (String.utf8EncodeChar b.char) = ([], .idle) := by cases b <;> rfl
      rw [Space.chars, List.map_cons, octets_cons]
      exact scanPart_trans hb ih

theorem scanFrom_space (ws : Space) (rest : List UInt8) :
    scanFrom .idle (octets ws.chars ++ rest) = scanFrom .idle rest := by
  rw [scanFrom_append, scanPart_space, List.nil_append]

theorem delimited_space (ws : Space) {rest : List UInt8} (h : Delimited rest) :
    Delimited (octets ws.chars ++ rest) := by
  cases ws with
  | nil => exact h
  | cons b ws => cases b <;> exact ⟨rfl, rfl, rfl⟩

/-! ## Strings -/

/-- The octet of a hexadecimal digit of either case. -/
def codeOctet (d : HexDigit) : UInt8 :=
  UInt8.ofNat d.char.toNat

theorem utf8EncodeChar_hexDigitChar (d : HexDigit) :
    String.utf8EncodeChar d.char = [codeOctet d] := by
  have hlt : ∀ (v : Fin 16) (u : Bool), (HexDigit.mk v u).char.toNat < 0x80 := by decide
  exact Text.utf8EncodeChar_of_lt (hlt d.value d.upper)

theorem hexValue?_codeOctet (d : HexDigit) : hexValue? (codeOctet d) = some d.value.val := by
  have hall : ∀ (v : Fin 16) (u : Bool), hexValue? (codeOctet ⟨v, u⟩) = some v.val := by decide
  exact hall d.value d.upper

theorem code?_codeOctets (n : Code) :
    code? [codeOctet n.first, codeOctet n.second, codeOctet n.third, codeOctet n.fourth]
      = some n.value := by
  simp [code?, hexValue?_codeOctet, Code.value]

theorem octets_code (n : Code) :
    octets n.chars = [0x5C, 0x75, codeOctet n.first, codeOctet n.second, codeOctet n.third,
      codeOctet n.fourth] := by
  simp only [Code.chars, octets_cons, utf8EncodeChar_hexDigitChar]
  rfl

theorem scanPart_codeChars {q : Quote} (hq : q.phase = .plain) (n : Code) :
    scanPart (.string q) (octets n.chars) = ([], .string (q.pushCode n.value)) := by
  rw [octets_code]
  exact scanPart_unicode hq (code?_codeOctets n)

theorem phase_pushCode (q : Quote) (n : Nat) : (q.pushCode n).phase = .plain := by
  rw [pushCode]
  split <;> split_ifs <;> rfl

/-- Both halves of a pair stand for one character. -/
theorem pushCode_pair {m n : Code} (hm : m.IsLeading) (hn : n.IsTrailing) (os : List UInt8) :
    ((settled os).pushCode m.value).pushCode n.value
      = settled (os ++ String.utf8EncodeChar (Piece.pair m n hm hn).char) := by
  have hlead : isLeading m.value = true := by simpa [isLeading, Code.IsLeading] using hm
  have htrail : isTrailing n.value = true := by simpa [isTrailing, Code.IsTrailing] using hn
  simp [pushCode, settled, hlead, htrail, pushChar, Piece.char]

/-- However a character is spelled, what it leaves is its octets. -/
theorem scanPart_piece (p : Piece) (os : List UInt8) :
    scanPart (.string (settled os)) (octets p.chars)
      = ([], .string (settled (os ++ String.utf8EncodeChar p.char))) := by
  cases p with
  | plain c h =>
      rw [Piece.chars, octets, List.flatMap_singleton]
      exact scanPart_raw (isRaw_of_mem_utf8EncodeChar h.1 h.2.1 (Nat.not_lt_of_le h.2.2)) os
  | letter l => cases l <;> exact scanPart_letter (by decide) rfl os
  | code n h =>
      have hlead : isLeading n.value = false := by
        simpa [isLeading, Code.IsLeading] using h.1
      have htrail : isTrailing n.value = false := by
        simpa [isTrailing, Code.IsTrailing] using h.2
      rw [Piece.chars, scanPart_codeChars rfl, pushCode_settled hlead htrail]
      rfl
  | pair m n hm hn =>
      rw [Piece.chars, octets_append, ← pushCode_pair hm hn]
      exact scanPart_trans (scanPart_codeChars rfl m) (scanPart_codeChars (phase_pushCode _ _) n)

theorem scanPart_quotation (ps : Quotation) :
    scanPart .idle (octets ps.chars) = ([.string (some ps.text)], .idle) :=
  scanPart_quoted scanPart_piece ps

/-! ## Numerals -/

/-- Digits that leave the phase of a numeral as it is. -/
theorem scanPart_digitChars {phase : Numeral.Phase} {push : Numeral → Nat → Numeral}
    (h : ∀ (n : Numeral) (d : Fin 10),
      Draft.push? ⟨phase, n⟩ (digitOctet d) = some ⟨phase, push n d⟩)
    (ds : List (Fin 10)) (n : Numeral) :
    scanPart (.number ⟨phase, n⟩) (octets (digitChars ds))
      = ([], .number ⟨phase, pushAll push ds n⟩) := by
  induction ds generalizing n with
  | nil => rfl
  | cons d ds ih =>
      rw [digitChars, List.map_cons, octets_cons, utf8EncodeChar_digitChar d.isLt]
      exact scanPart_trans (scanPart_push (h n d)) (ih _)

/-- The first digit of some, which may lead to another phase, and the rest. -/
theorem scanPart_digits {phase phase' : Numeral.Phase} {push : Numeral → Nat → Numeral}
    (hfirst : ∀ (n : Numeral) (d : Fin 10),
      Draft.push? ⟨phase, n⟩ (digitOctet d) = some ⟨phase', push n d⟩)
    (hrest : ∀ (n : Numeral) (d : Fin 10),
      Draft.push? ⟨phase', n⟩ (digitOctet d) = some ⟨phase', push n d⟩)
    (ds : Digits) (n : Numeral) :
    scanPart (.number ⟨phase, n⟩) (octets (digitChars ds.all))
      = ([], .number ⟨phase', pushAll push ds.all n⟩) := by
  rw [Digits.all, digitChars, List.map_cons, octets_cons, utf8EncodeChar_digitChar ds.first.isLt]
  exact scanPart_trans (scanPart_push (hfirst n ds.first)) (scanPart_digitChars hrest ds.rest _)

theorem push?_digitOctet_place {phase : Numeral.Phase} (h : phase = .point ∨ phase = .fraction)
    (n : Numeral) (d : Fin 10) :
    Draft.push? ⟨phase, n⟩ (digitOctet d) = some ⟨.fraction, n.pushPlace d⟩ := by
  rcases h with rfl | rfl <;> rw [Draft.push?, digit?_digitOctet d.isLt]

theorem push?_digitOctet_exponent {phase : Numeral.Phase}
    (h : phase = .mark ∨ phase = .markSign ∨ phase = .exponent) (n : Numeral) (d : Fin 10) :
    Draft.push? ⟨phase, n⟩ (digitOctet d) = some ⟨.exponent, n.pushExponent d⟩ := by
  rcases h with rfl | rfl | rfl <;> rw [Draft.push?, digit?_digitOctet d.isLt]

theorem scanPart_fraction {d : Draft} (hd : d.phase = .zero ∨ d.phase = .whole) (f : Figure) :
    scanPart (.number d) (octets f.fractionChars)
      = ([], .number (Figure.fractionDraft d f.fraction)) := by
  rw [Figure.fractionChars]
  cases f.fraction with
  | none => rfl
  | some ds =>
      have hpoint : scanPart (.number d) [0x2E] = ([], .number (Draft.afterPoint d.numeral)) := by
        refine scanPart_push ?_
        obtain ⟨phase, n⟩ := d
        rcases hd with rfl | rfl <;> rfl
      rw [octets_cons]
      exact scanPart_trans hpoint (scanPart_digits (push?_digitOctet_place (Or.inl rfl))
        (push?_digitOctet_place (Or.inr rfl)) ds _)

theorem scanPart_exponent {d : Draft}
    (hd : d.phase = .zero ∨ d.phase = .whole ∨ d.phase = .fraction) (f : Figure) :
    scanPart (.number d) (octets f.exponentChars)
      = ([], .number (Figure.exponentDraft d f.exponent)) := by
  rw [Figure.exponentChars]
  cases f.exponent with
  | none => rfl
  | some e =>
      obtain ⟨upper, sign, ds⟩ := e
      have hmark : scanPart (.number d) (String.utf8EncodeChar (if upper then 'E' else 'e'))
          = ([], .number (Draft.afterMark d.numeral)) := by
        obtain ⟨phase, n⟩ := d
        cases upper <;> refine scanPart_push ?_ <;> rcases hd with rfl | rfl | rfl <;> rfl
      show scanPart _ (octets (((if upper then 'E' else 'e') :: sign.chars) ++ digitChars ds.all))
        = _
      rw [List.cons_append, octets_cons, octets_append]
      refine scanPart_trans hmark ?_
      have hrest := @push?_digitOctet_exponent .exponent (Or.inr (Or.inr rfl))
      cases sign with
      | none => exact scanPart_digits (push?_digitOctet_exponent (Or.inl rfl)) hrest ds _
      | plus | minus =>
          have hfirst := @push?_digitOctet_exponent .markSign (Or.inr (Or.inl rfl))
          exact scanPart_trans (scanPart_push rfl) (scanPart_digits hfirst hrest ds _)

theorem push?_digitOctet_whole (n : Numeral) (d : Fin 10) :
    Draft.push? ⟨.whole, n⟩ (digitOctet d) = some ⟨.whole, n.pushDigit d⟩ := by
  rw [Draft.push?, digit?_digitOctet d.isLt]

/-- The first digit decides whether more may follow. -/
theorem push?_digitOctet_sign (n : Numeral) (d : Fin 10) :
    Draft.push? ⟨.sign, n⟩ (digitOctet d)
      = some ⟨if d.val = 0 then .zero else .whole, n.pushDigit d⟩ := by
  rw [Draft.push?, digit?_digitOctet d.isLt]

theorem scanPart_whole (negative : Bool) (w : Whole) :
    scanPart (.number ⟨.sign, start negative⟩) (octets (digitChars w.digits))
      = ([], .number (Figure.wholeDraft negative w)) := by
  cases w with
  | zero => exact scanPart_push (push?_digitOctet_sign (start negative) 0)
  | positive d ds =>
      have hne : d.succ.val ≠ 0 := by
        rw [Fin.val_succ]
        exact Nat.succ_ne_zero d.val
      have hfirst := push?_digitOctet_sign (start negative) d.succ
      rw [if_neg hne] at hfirst
      rw [Whole.digits, digitChars, List.map_cons, octets_cons,
        utf8EncodeChar_digitChar d.succ.isLt]
      exact scanPart_trans (scanPart_push hfirst) (scanPart_digitChars push?_digitOctet_whole ds _)

theorem scanPart_congr {s t : State} {b : UInt8} (h : s.step b = t.step b) (bs : List UInt8) :
    scanPart s (b :: bs) = scanPart t (b :: bs) := by
  simp only [scanPart, h]

/-- Without a sign the scan is still idle when the first digit comes. -/
theorem scanPart_signed (f : Figure) :
    scanPart .idle (octets (f.signChars ++ digitChars f.whole.digits))
      = ([], .number (Figure.wholeDraft f.negative f.whole)) := by
  have hwhole := scanPart_whole f.negative f.whole
  rw [octets_append, Figure.signChars]
  cases hnegative : f.negative with
  | true =>
      rw [hnegative] at hwhole
      have hsign : scanPart .idle [0x2D] = ([], .number ⟨.sign, start true⟩) := rfl
      exact scanPart_trans hsign hwhole
  | false =>
      rw [hnegative] at hwhole
      obtain ⟨d, ds, hdigits⟩ : ∃ d ds, f.whole.digits = d :: ds := by
        cases f.whole <;> exact ⟨_, _, rfl⟩
      rw [hdigits, digitChars, List.map_cons, octets_cons, utf8EncodeChar_digitChar d.isLt]
        at hwhole ⊢
      exact (scanPart_congr (step_idle_digit d.isLt) _).trans hwhole

theorem scanPart_figure (f : Figure) : scanPart .idle (octets f.chars) = ([], .number f.draft) := by
  have hwhole : (Figure.wholeDraft f.negative f.whole).phase = .zero
      ∨ (Figure.wholeDraft f.negative f.whole).phase = .whole := by
    rw [Figure.wholeDraft]
    split_ifs
    · exact Or.inl rfl
    · exact Or.inr rfl
  have hfraction : ∀ {d : Draft}, d.phase = .zero ∨ d.phase = .whole →
      (Figure.fractionDraft d f.fraction).phase = .zero
        ∨ (Figure.fractionDraft d f.fraction).phase = .whole
        ∨ (Figure.fractionDraft d f.fraction).phase = .fraction := by
    intro d hd
    cases f.fraction with
    | none => exact hd.imp_right Or.inl
    | some ds => exact Or.inr (Or.inr rfl)
  rw [Figure.chars, octets_append, octets_append]
  exact scanPart_trans (scanPart_trans (scanPart_signed f) (scanPart_fraction hwhole f))
    (scanPart_exponent (hfraction hwhole) f)

theorem isFinal_draft (f : Figure) : f.draft.phase.isFinal = true := by
  obtain ⟨negative, whole, fraction, exponent⟩ := f
  cases exponent with
  | some e => rfl
  | none =>
      cases fraction with
      | some ds => rfl
      | none =>
          show (Figure.wholeDraft negative whole).phase.isFinal = true
          rw [Figure.wholeDraft]
          split_ifs <;> rfl

theorem scanFrom_figure (f : Figure) {rest : List UInt8} (h : Delimited rest) :
    scanFrom .idle (octets f.chars ++ rest) = .number f.draft.numeral :: scanFrom .idle rest := by
  rw [scanFrom_append, scanPart_figure, scanFrom_of_isFinal (isFinal_draft f) h]
  rfl

/-! ## Values -/

open Spelling

theorem delimited_itemsChars (items : List (Space × Spelling × Space)) {rest : List UInt8}
    (h : Delimited rest) : Delimited (octets (itemsChars items) ++ rest) := by
  rcases items with _ | ⟨⟨before, s, after⟩, items⟩
  · exact h
  · exact delimited_mark (Or.inl rfl) _

theorem delimited_membersChars (members : List (Key × Space × Spelling × Space))
    {rest : List UInt8} (h : Delimited rest) :
    Delimited (octets (membersChars members) ++ rest) := by
  rcases members with _ | ⟨⟨k, before, s, after⟩, members⟩
  · exact h
  · exact delimited_mark (Or.inl rfl) _

theorem scanFrom_key (k : Key) (rest : List UInt8) :
    scanFrom .idle (octets k.chars ++ rest) = .string (some k.text) :: scanFrom .idle rest := by
  rw [Key.chars, octets_append, octets_append, List.append_assoc, List.append_assoc, scanFrom_space,
    scanFrom_of_scanPart (scanPart_quotation k.quotation), scanFrom_space]
  rfl

mutual

theorem scanFrom_chars : ∀ (s : Spelling) {rest : List UInt8}, Delimited rest →
    scanFrom .idle (octets s.chars ++ rest) = s.tree.lexemes ++ scanFrom .idle rest
  | .null, rest, _ => scanFrom_of_scanPart rfl rest
  | .bool true, rest, _ => scanFrom_of_scanPart rfl rest
  | .bool false, rest, _ => scanFrom_of_scanPart rfl rest
  | .figure f, rest, hrest => scanFrom_figure f hrest
  | .quotation ps, rest, _ => scanFrom_of_scanPart (scanPart_quotation ps) rest
  | .array opening [], rest, _ => by
      simp only [chars, List.cons_append, octets_cons, octets_append, List.append_assoc]
      rw [scanFrom_of_scanPart (l := .openArray) rfl, scanFrom_space,
        scanFrom_of_scanPart (l := .closeArray) rfl]
      rfl
  | .array opening ((before, s, after) :: items), rest, _ => by
      have hclose : Delimited (octets [']'] ++ rest) := delimited_mark (Or.inr (Or.inl rfl)) rest
      have hitems := delimited_itemsChars items hclose
      simp only [chars, List.cons_append, octets_cons _ (_ ++ _), octets_append, List.append_assoc]
      rw [scanFrom_of_scanPart (l := .openArray) rfl, scanFrom_space, scanFrom_space,
        scanFrom_chars s (delimited_space after hitems), scanFrom_space,
        scanFrom_itemsChars items hclose, scanFrom_of_scanPart (l := .closeArray) rfl]
      simp [tree, itemTrees, Tree.lexemes, Tree.closingLexeme]
  | .object opening [], rest, _ => by
      simp only [chars, List.cons_append, octets_cons, octets_append, List.append_assoc]
      rw [scanFrom_of_scanPart (l := .openObject) rfl, scanFrom_space,
        scanFrom_of_scanPart (l := .closeObject) rfl]
      rfl
  | .object opening ((k, before, s, after) :: members), rest, _ => by
      have hclose : Delimited (octets ['\x7d'] ++ rest) :=
        delimited_mark (Or.inr (Or.inr rfl)) rest
      have hmembers := delimited_membersChars members hclose
      simp only [chars, List.cons_append, octets_cons _ (_ ++ _), octets_append, List.append_assoc]
      rw [scanFrom_of_scanPart (l := .openObject) rfl, scanFrom_space, scanFrom_key,
        scanFrom_of_scanPart (l := .colon) rfl, scanFrom_space,
        scanFrom_chars s (delimited_space after hmembers), scanFrom_space,
        scanFrom_membersChars members hclose, scanFrom_of_scanPart (l := .closeObject) rfl]
      simp [tree, memberTrees, Tree.lexemes, Tree.closingLexeme]

theorem scanFrom_itemsChars : ∀ (items : List (Space × Spelling × Space)) {rest : List UInt8},
    Delimited rest →
      scanFrom .idle (octets (itemsChars items) ++ rest)
        = Tree.lexemesItems (itemTrees items) ++ scanFrom .idle rest
  | [], _, _ => rfl
  | (before, s, after) :: items, rest, hrest => by
      have hitems := delimited_itemsChars items hrest
      simp only [itemsChars, List.cons_append, octets_cons _ (_ ++ _), octets_append,
        List.append_assoc]
      rw [scanFrom_of_scanPart (l := .comma) rfl, scanFrom_space,
        scanFrom_chars s (delimited_space after hitems), scanFrom_space,
        scanFrom_itemsChars items hrest]
      simp [itemTrees, Tree.lexemesItems]

theorem scanFrom_membersChars : ∀ (members : List (Key × Space × Spelling × Space))
    {rest : List UInt8}, Delimited rest →
      scanFrom .idle (octets (membersChars members) ++ rest)
        = Tree.lexemesMembers (memberTrees members) ++ scanFrom .idle rest
  | [], _, _ => rfl
  | (k, before, s, after) :: members, rest, hrest => by
      have hmembers := delimited_membersChars members hrest
      simp only [membersChars, List.cons_append, octets_cons _ (_ ++ _), octets_append,
        List.append_assoc]
      rw [scanFrom_of_scanPart (l := .comma) rfl, scanFrom_key,
        scanFrom_of_scanPart (l := .colon) rfl, scanFrom_space,
        scanFrom_chars s (delimited_space after hmembers), scanFrom_space,
        scanFrom_membersChars members hrest]
      simp [memberTrees, Tree.lexemesMembers]

end

end Lexeme

namespace Spelling

mutual

theorem isWhole_tree : ∀ s : Spelling, s.tree.isWhole = true
  | .null => rfl
  | .bool _ => rfl
  | .figure _ => rfl
  | .quotation _ => rfl
  | .array _ items => isWhole_itemTrees items
  | .object _ members => isWhole_memberTrees members

theorem isWhole_itemTrees : ∀ items : List (Space × Spelling × Space),
    Tree.isWholeItems (itemTrees items) = true
  | [] => rfl
  | (_, s, _) :: items => by
      rw [itemTrees, Tree.isWholeItems, isWhole_tree s, isWhole_itemTrees items]
      rfl

theorem isWhole_memberTrees : ∀ members : List (Key × Space × Spelling × Space),
    Tree.isWholeMembers (memberTrees members) = true
  | [] => rfl
  | (_, _, s, _) :: members => by
      rw [memberTrees, Tree.isWholeMembers, isWhole_tree s, isWhole_memberTrees members]
      rfl

end

end Spelling

/-- A spelling between white space is the text of its tree and of nothing
more. -/
theorem Document.ofBytes_spelling (before : Space) (s : Spelling) (after : Space) :
    ofBytes (octets (before.chars ++ s.chars ++ after.chars)) = ⟨s.tree, false⟩ := by
  have hend : Lexeme.Delimited (octets after.chars ++ []) := Lexeme.delimited_space after trivial
  have hscan := Lexeme.scanFrom_chars s hend
  rw [Lexeme.scanFrom_space] at hscan
  have htree : ofLexemes s.tree.lexemes = ⟨s.tree, false⟩ :=
    ofLexemes_lexemes (Spelling.isWhole_tree s)
  rw [ofBytes, Lexeme.scan, octets_append, octets_append, List.append_assoc,
    Lexeme.scanFrom_space, ← List.append_nil (octets after.chars), hscan, Lexeme.scanFrom,
    Lexeme.State.finish, List.append_nil, htree]

end EventSeal.Json
