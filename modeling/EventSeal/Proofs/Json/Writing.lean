import EventSeal.Proofs.Json.Numbering
import EventSeal.Proofs.Json.Quoting
import EventSeal.Proofs.Json.Trees

/-!
# Written values have trees

The compact form of a value is the text of one whole tree
(`ofBytes_compact`). The scan is followed from the beginning of a value to
whatever stands behind it: an integer is not settled before that, so the
statement about a value (`scanFrom_compact`) asks that what follows is
nothing or no part of a numeral. Inside a container a comma or a closing
mark follows, so nothing is asked of the values there.

Only values all of whose numbers are integers are covered
(`isIntegral`). A real number is written in the digits that read back as
it, which is a matter of arithmetic and none of structure.
-/

namespace EventSeal.Json

namespace Value

mutual

/-- Every number in the value is an integer of 64 bits, signed or unsigned. -/
def isIntegral : Value → Bool
  | .null | .bool _ | .text _ => true
  | .number (.whole n) => decide (IsWord n)
  | .number (.real _) => false
  | .array items => isIntegralItems items
  | .object members => isIntegralMembers members

def isIntegralItems : List Value → Bool
  | [] => true
  | v :: vs => v.isIntegral && isIntegralItems vs

def isIntegralMembers : List (String × Value) → Bool
  | [] => true
  | (_, v) :: ms => v.isIntegral && isIntegralMembers ms

end

theorem isIntegralItems_iff {vs : List Value} :
    isIntegralItems vs = true ↔ ∀ v ∈ vs, v.isIntegral = true := by
  induction vs with
  | nil => exact iff_of_true rfl nofun
  | cons v vs ih => rw [isIntegralItems, Bool.and_eq_true, ih, List.forall_mem_cons]

theorem isIntegralMembers_iff {ms : List (String × Value)} :
    isIntegralMembers ms = true ↔ ∀ p ∈ ms, p.2.isIntegral = true := by
  induction ms with
  | nil => exact iff_of_true rfl nofun
  | cons p ms ih => rw [isIntegralMembers, Bool.and_eq_true, ih, List.forall_mem_cons]

mutual

/-- The tree of the compact form. Of a real number it is whatever the
written digits are read as. -/
def tree : Value → Tree
  | .null => .null
  | .bool b => .bool b
  | .number (.whole n) => .number (.ofInt n)
  | .number (.real x) => (Document.ofBytes (Text.bytes (Number.real x).write)).root
  | .text s => .string (some s)
  | .array items => .array (treeItems items) none
  | .object members => .object (treeMembers members) none

def treeItems : List Value → List Tree
  | [] => []
  | v :: vs => v.tree :: treeItems vs

def treeMembers : List (String × Value) → List (Option String × Tree)
  | [] => []
  | (k, v) :: ms => (some k, v.tree) :: treeMembers ms

end

mutual

theorem isWhole_tree : ∀ {v : Value}, v.isIntegral = true → v.tree.isWhole = true
  | .null, _ => rfl
  | .bool _, _ => rfl
  | .number (.whole _), _ => rfl
  | .number (.real _), h => nomatch h
  | .text _, _ => rfl
  | .array _, h => by
      rw [isIntegral] at h
      simpa [tree, Tree.isWhole] using isWholeItems_treeItems h
  | .object _, h => by
      rw [isIntegral] at h
      simpa [tree, Tree.isWhole] using isWholeMembers_treeMembers h

theorem isWholeItems_treeItems : ∀ {vs : List Value}, isIntegralItems vs = true →
    Tree.isWholeItems (treeItems vs) = true
  | [], _ => rfl
  | v :: vs, h => by
      rw [isIntegralItems, Bool.and_eq_true] at h
      rw [treeItems, Tree.isWholeItems, isWhole_tree h.1, isWholeItems_treeItems h.2]
      rfl

theorem isWholeMembers_treeMembers : ∀ {ms : List (String × Value)},
    isIntegralMembers ms = true → Tree.isWholeMembers (treeMembers ms) = true
  | [], _ => rfl
  | (k, v) :: ms, h => by
      rw [isIntegralMembers, Bool.and_eq_true] at h
      rw [treeMembers, Tree.isWholeMembers, isWhole_tree h.1, isWholeMembers_treeMembers h.2]
      rfl

end

end Value

/-! ## Scanning -/

namespace Lexeme

/-- A part of the text that is a lexeme of its own. -/
theorem scanFrom_of_scanPart {bs : List UInt8} {l : Lexeme}
    (h : scanPart .idle bs = ([l], .idle)) (rest : List UInt8) :
    scanFrom .idle (bs ++ rest) = l :: scanFrom .idle rest := by
  rw [scanFrom_append, h, List.singleton_append]

theorem delimited_mark {b : UInt8} (h : b = 0x2C ∨ b = 0x5D ∨ b = 0x7D) (rest : List UInt8) :
    Delimited (b :: rest) := by
  rcases h with rfl | rfl | rfl <;> exact ⟨rfl, rfl, rfl⟩

theorem delimited_compactItems (vs : List Value) {rest : List UInt8} (h : Delimited rest) :
    Delimited (Text.bytes (Value.compactItems vs) ++ rest) := by
  cases vs with
  | nil => exact h
  | cons v vs =>
      simp only [Value.compactItems, Text.bytes_append, List.append_assoc]
      exact delimited_mark (Or.inl rfl) _

theorem delimited_compactMembers (ms : List (String × Value)) {rest : List UInt8}
    (h : Delimited rest) : Delimited (Text.bytes (Value.compactMembers ms) ++ rest) := by
  rcases ms with _ | ⟨⟨k, v⟩, ms⟩
  · exact h
  · simp only [Value.compactMembers, Text.bytes_append, List.append_assoc]
    exact delimited_mark (Or.inl rfl) _

open Value

mutual

theorem scanFrom_compact : ∀ {v : Value}, v.isIntegral = true → ∀ {rest : List UInt8},
    Delimited rest →
      scanFrom .idle (Text.bytes v.compact ++ rest) = v.tree.lexemes ++ scanFrom .idle rest
  | .null, _, rest, _ => scanFrom_of_scanPart rfl rest
  | .bool true, _, rest, _ => scanFrom_of_scanPart rfl rest
  | .bool false, _, rest, _ => scanFrom_of_scanPart rfl rest
  | .number (.whole n), _, rest, hrest => scanFrom_ofInt n hrest
  | .number (.real _), h, _, _ => nomatch h
  | .text s, _, rest, _ => scanFrom_of_scanPart (scanPart_quote s) rest
  | .array [], _, rest, _ => by
      rw [compact, show Text.bytes "[]" = Text.bytes "[" ++ Text.bytes "]" from rfl,
        List.append_assoc, scanFrom_of_scanPart (l := .openArray) rfl,
        scanFrom_of_scanPart (l := .closeArray) rfl]
      rfl
  | .array (v :: vs), h, rest, _ => by
      simp only [isIntegral, isIntegralItems, Bool.and_eq_true] at h
      have hclose : Delimited (Text.bytes "]" ++ rest) :=
        delimited_mark (Or.inr (Or.inl rfl)) rest
      simp only [compact, Text.bytes_append, List.append_assoc]
      rw [scanFrom_of_scanPart (l := .openArray) rfl,
        scanFrom_compact h.1 (delimited_compactItems vs hclose),
        scanFrom_compactItems h.2 hclose, scanFrom_of_scanPart (l := .closeArray) rfl]
      simp [tree, treeItems, Tree.lexemes, Tree.closingLexeme]
  | .object [], _, rest, _ => by
      rw [compact, Text.bytes_append, List.append_assoc,
        scanFrom_of_scanPart (l := .openObject) rfl,
        scanFrom_of_scanPart (l := .closeObject) rfl]
      rfl
  | .object ((k, v) :: ms), h, rest, _ => by
      simp only [isIntegral, isIntegralMembers, Bool.and_eq_true] at h
      have hclose : Delimited (Text.bytes Members.closing ++ rest) :=
        delimited_mark (Or.inr (Or.inr rfl)) rest
      simp only [compact, Text.bytes_append, List.append_assoc]
      rw [scanFrom_of_scanPart (l := .openObject) rfl,
        scanFrom_of_scanPart (scanPart_quote k), scanFrom_of_scanPart (l := .colon) rfl,
        scanFrom_compact h.1 (delimited_compactMembers ms hclose),
        scanFrom_compactMembers h.2 hclose, scanFrom_of_scanPart (l := .closeObject) rfl]
      simp [tree, treeMembers, Tree.lexemes, Tree.closingLexeme]

theorem scanFrom_compactItems : ∀ {vs : List Value}, isIntegralItems vs = true →
    ∀ {rest : List UInt8}, Delimited rest →
      scanFrom .idle (Text.bytes (compactItems vs) ++ rest)
        = Tree.lexemesItems (treeItems vs) ++ scanFrom .idle rest
  | [], _, _, _ => rfl
  | v :: vs, h, rest, hrest => by
      rw [isIntegralItems, Bool.and_eq_true] at h
      simp only [compactItems, Text.bytes_append, List.append_assoc]
      rw [scanFrom_of_scanPart (l := .comma) rfl,
        scanFrom_compact h.1 (delimited_compactItems vs hrest),
        scanFrom_compactItems h.2 hrest]
      simp [treeItems, Tree.lexemesItems]

theorem scanFrom_compactMembers : ∀ {ms : List (String × Value)},
    isIntegralMembers ms = true → ∀ {rest : List UInt8}, Delimited rest →
      scanFrom .idle (Text.bytes (compactMembers ms) ++ rest)
        = Tree.lexemesMembers (treeMembers ms) ++ scanFrom .idle rest
  | [], _, _, _ => rfl
  | (k, v) :: ms, h, rest, hrest => by
      rw [isIntegralMembers, Bool.and_eq_true] at h
      simp only [compactMembers, Text.bytes_append, List.append_assoc]
      rw [scanFrom_of_scanPart (l := .comma) rfl, scanFrom_of_scanPart (scanPart_quote k),
        scanFrom_of_scanPart (l := .colon) rfl,
        scanFrom_compact h.1 (delimited_compactMembers ms hrest),
        scanFrom_compactMembers h.2 hrest]
      simp [treeMembers, Tree.lexemesMembers]

end

end Lexeme

/-- The compact form is the text of its tree and of nothing more. -/
theorem Document.ofBytes_compact {v : Value} (h : v.isIntegral = true) :
    ofBytes (Text.bytes v.compact) = ⟨v.tree, false⟩ := by
  have hscan : Lexeme.scanFrom .idle (Text.bytes v.compact ++ []) = v.tree.lexemes ++ [] :=
    Lexeme.scanFrom_compact h trivial
  rw [List.append_nil, List.append_nil] at hscan
  rw [ofBytes, Lexeme.scan, hscan, ofLexemes_lexemes (Value.isWhole_tree h)]

end EventSeal.Json
