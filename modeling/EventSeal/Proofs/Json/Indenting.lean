import EventSeal.Proofs.Json.Nesting
import EventSeal.Proofs.Json.Spelled

/-!
# The pretty form reads like the compact one

The pretty form of a value has the lexemes of the compact form with white
space between them, and only between them: a break of a line comes after an
opening mark or a comma and before a closing mark, never inside a string or
a numeral. So both forms are texts of one tree, and what was written in
either way is read as the same value (`ofBytes_pretty`).

The induction is the one for the compact form, with the breaks passed over.
All it needs besides is that a numeral may have a break after it.
-/

namespace EventSeal.Json

/-- The break of a line before something indented. -/
def indentation (level : Nat) : Space :=
  .lineFeed :: List.replicate (2 * level) .space

theorem bytes_newline (level : Nat) :
    Text.bytes (Value.newline level) = octets (indentation level).chars := by
  have hchars : (Value.newline level).toList = (indentation level).chars := by
    simp [Value.newline, indentation, Space.chars, Blank.char]
  rw [Text.bytes_eq_flatMap, hchars, octets]

namespace Lexeme

open Value

theorem scanFrom_newline (level : Nat) (rest : List UInt8) :
    scanFrom .idle (Text.bytes (newline level) ++ rest) = scanFrom .idle rest := by
  rw [bytes_newline, scanFrom_space]

theorem delimited_newline (level : Nat) (rest : List UInt8) :
    Delimited (Text.bytes (newline level) ++ rest) := by
  rw [bytes_newline, indentation, Space.chars, List.map_cons, octets_cons]
  exact ⟨rfl, rfl, rfl⟩

theorem delimited_prettyItems (level : Nat) (vs : List Value) {rest : List UInt8}
    (h : Delimited rest) : Delimited (Text.bytes (prettyItems level vs) ++ rest) := by
  cases vs with
  | nil => exact h
  | cons v vs =>
      simp only [prettyItems, Text.bytes_append, List.append_assoc]
      exact delimited_mark (Or.inl rfl) _

theorem delimited_prettyMembers (level : Nat) (ms : List (String × Value)) {rest : List UInt8}
    (h : Delimited rest) : Delimited (Text.bytes (prettyMembers level ms) ++ rest) := by
  rcases ms with _ | ⟨⟨k, v⟩, ms⟩
  · exact h
  · simp only [prettyMembers, Text.bytes_append, List.append_assoc]
    exact delimited_mark (Or.inl rfl) _

/-- The colon after a key, and the space after it. -/
theorem scanFrom_colonSpace (rest : List UInt8) :
    scanFrom .idle (Text.bytes ": " ++ rest) = .colon :: scanFrom .idle rest :=
  scanFrom_of_scanPart (l := .colon) rfl rest

mutual

theorem scanFrom_prettyAt : ∀ {v : Value}, v.isIntegral = true → ∀ (level : Nat)
    {rest : List UInt8}, Delimited rest →
      scanFrom .idle (Text.bytes (v.prettyAt level) ++ rest) = v.tree.lexemes ++ scanFrom .idle rest
  | .null, _, _, rest, _ => scanFrom_of_scanPart rfl rest
  | .bool true, _, _, rest, _ => scanFrom_of_scanPart rfl rest
  | .bool false, _, _, rest, _ => scanFrom_of_scanPart rfl rest
  | .number (.whole n), _, _, rest, hrest => scanFrom_ofInt n hrest
  | .number (.real _), h, _, _, _ => nomatch h
  | .text s, _, _, rest, _ => scanFrom_of_scanPart (scanPart_quote s) rest
  | .array [], _, _, rest, _ => by
      rw [prettyAt, show Text.bytes "[]" = Text.bytes "[" ++ Text.bytes "]" from rfl,
        List.append_assoc, scanFrom_of_scanPart (l := .openArray) rfl,
        scanFrom_of_scanPart (l := .closeArray) rfl]
      rfl
  | .array (v :: vs), h, level, rest, _ => by
      simp only [isIntegral, isIntegralItems, Bool.and_eq_true] at h
      have hend := delimited_newline level (Text.bytes "]" ++ rest)
      simp only [prettyAt, Text.bytes_append, List.append_assoc]
      rw [scanFrom_of_scanPart (l := .openArray) rfl, scanFrom_newline,
        scanFrom_prettyAt h.1 _ (delimited_prettyItems _ vs hend),
        scanFrom_prettyItems h.2 _ hend, scanFrom_newline,
        scanFrom_of_scanPart (l := .closeArray) rfl]
      simp [tree, treeItems, Tree.lexemes, Tree.closingLexeme]
  | .object [], _, _, rest, _ => by
      rw [prettyAt, Text.bytes_append, List.append_assoc,
        scanFrom_of_scanPart (l := .openObject) rfl,
        scanFrom_of_scanPart (l := .closeObject) rfl]
      rfl
  | .object ((k, v) :: ms), h, level, rest, _ => by
      simp only [isIntegral, isIntegralMembers, Bool.and_eq_true] at h
      have hend := delimited_newline level (Text.bytes Members.closing ++ rest)
      simp only [prettyAt, Text.bytes_append, List.append_assoc]
      rw [scanFrom_of_scanPart (l := .openObject) rfl, scanFrom_newline,
        scanFrom_of_scanPart (scanPart_quote k), scanFrom_colonSpace,
        scanFrom_prettyAt h.1 _ (delimited_prettyMembers _ ms hend),
        scanFrom_prettyMembers h.2 _ hend, scanFrom_newline,
        scanFrom_of_scanPart (l := .closeObject) rfl]
      simp [tree, treeMembers, Tree.lexemes, Tree.closingLexeme]

theorem scanFrom_prettyItems : ∀ {vs : List Value}, isIntegralItems vs = true →
    ∀ (level : Nat) {rest : List UInt8}, Delimited rest →
      scanFrom .idle (Text.bytes (prettyItems level vs) ++ rest)
        = Tree.lexemesItems (treeItems vs) ++ scanFrom .idle rest
  | [], _, _, _, _ => rfl
  | v :: vs, h, level, rest, hrest => by
      rw [isIntegralItems, Bool.and_eq_true] at h
      simp only [prettyItems, Text.bytes_append, List.append_assoc]
      rw [scanFrom_of_scanPart (l := .comma) rfl, scanFrom_newline,
        scanFrom_prettyAt h.1 _ (delimited_prettyItems _ vs hrest),
        scanFrom_prettyItems h.2 _ hrest]
      simp [treeItems, Tree.lexemesItems]

theorem scanFrom_prettyMembers : ∀ {ms : List (String × Value)},
    isIntegralMembers ms = true → ∀ (level : Nat) {rest : List UInt8}, Delimited rest →
      scanFrom .idle (Text.bytes (prettyMembers level ms) ++ rest)
        = Tree.lexemesMembers (treeMembers ms) ++ scanFrom .idle rest
  | [], _, _, _, _ => rfl
  | (k, v) :: ms, h, level, rest, hrest => by
      rw [isIntegralMembers, Bool.and_eq_true] at h
      simp only [prettyMembers, Text.bytes_append, List.append_assoc]
      rw [scanFrom_of_scanPart (l := .comma) rfl, scanFrom_newline,
        scanFrom_of_scanPart (scanPart_quote k), scanFrom_colonSpace,
        scanFrom_prettyAt h.1 _ (delimited_prettyMembers _ ms hrest),
        scanFrom_prettyMembers h.2 _ hrest]
      simp [treeMembers, Tree.lexemesMembers]

end

end Lexeme

/-- A text that has the lexemes of a whole tree, with white space after it or
not, is the text of that tree and of nothing more. -/
theorem Document.ofBytes_of_lexemes {t : Tree} (ht : t.isWhole = true) {bs : List UInt8}
    (h : ∀ {rest : List UInt8}, Lexeme.Delimited rest →
      Lexeme.scanFrom .idle (bs ++ rest) = t.lexemes ++ Lexeme.scanFrom .idle rest)
    (after : Space) : ofBytes (bs ++ octets after.chars) = ⟨t, false⟩ := by
  have hend : Lexeme.Delimited (octets after.chars ++ []) := Lexeme.delimited_space after trivial
  have hscan := h hend
  rw [Lexeme.scanFrom_space, List.append_nil] at hscan
  rw [ofBytes, Lexeme.scan, hscan, Lexeme.scanFrom, Lexeme.State.finish, List.append_nil,
    ofLexemes_lexemes ht]

theorem Document.ofBytes_compact_space {v : Value} (h : v.isIntegral = true) (after : Space) :
    ofBytes (Text.bytes v.compact ++ octets after.chars) = ⟨v.tree, false⟩ :=
  ofBytes_of_lexemes (Value.isWhole_tree h) (Lexeme.scanFrom_compact h) after

theorem Document.ofBytes_pretty {v : Value} (h : v.isIntegral = true) (after : Space) :
    ofBytes (Text.bytes v.pretty ++ octets after.chars) = ⟨v.tree, false⟩ :=
  ofBytes_of_lexemes (Value.isWhole_tree h) (Lexeme.scanFrom_prettyAt h 0) after

/-- The pretty form of a value, read as a whole text. -/
theorem Value.ofBytes_pretty {v : Value} (h : v.isIntegral = true) (ho : v.IsOrdered)
    (hn : v.nesting ≤ Tree.nestingLimit) (after : Space) :
    Value.ofBytes (Text.bytes v.pretty ++ octets after.chars) = .ok v := by
  rw [Value.ofBytes, Document.ofBytes_pretty h, Document.read, Tree.value_tree _ h ho, if_pos hn]
  rfl

end EventSeal.Json
