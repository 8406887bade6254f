import EventSeal.Json.Tree

/-!
# Trees from their lexemes

A whole tree is one without gaps. It has a written form in lexemes, and
the builder makes it again of them: met where a value is wanted, they
settle the tree on the frames around it, whatever comes next
(`foldl_step_lexemes`). The frames stay closed over: nothing below them is
looked at, so the statement needs no assumption about the text before.

Of a document that is one whole tree nothing is left over
(`ofLexemes_lexemes`).
-/

namespace EventSeal.Json

namespace Tree

mutual

/-- No gap anywhere. -/
def isWhole : Tree → Bool
  | .null | .bool _ | .number _ | .string _ => true
  | .array items cut => cut.isNone && isWholeItems items
  | .object members cut => cut.isNone && isWholeMembers members
  | .gap _ => false

def isWholeItems : List Tree → Bool
  | [] => true
  | t :: ts => t.isWhole && isWholeItems ts

def isWholeMembers : List (Option String × Tree) → Bool
  | [] => true
  | (_, t) :: ms => t.isWhole && isWholeMembers ms

end

/-- The end of a container. -/
def closingLexeme (close : Lexeme) : Option Gap → Lexeme
  | none => close
  | some g => .gap g

mutual

/-- The lexemes a tree is written as. -/
def lexemes : Tree → List Lexeme
  | .null => [.null]
  | .bool b => [.bool b]
  | .number n => [.number n]
  | .string text => [.string text]
  | .array [] cut => [.openArray, closingLexeme .closeArray cut]
  | .array (t :: ts) cut =>
      .openArray :: t.lexemes ++ lexemesItems ts ++ [closingLexeme .closeArray cut]
  | .object [] cut => [.openObject, closingLexeme .closeObject cut]
  | .object ((key, t) :: ms) cut =>
      .openObject :: .string key :: .colon :: t.lexemes ++ lexemesMembers ms
        ++ [closingLexeme .closeObject cut]
  | .gap g => [.gap g]

/-- The items after the first. -/
def lexemesItems : List Tree → List Lexeme
  | [] => []
  | t :: ts => .comma :: t.lexemes ++ lexemesItems ts

/-- The members after the first. -/
def lexemesMembers : List (Option String × Tree) → List Lexeme
  | [] => []
  | (key, t) :: ms => .comma :: .string key :: .colon :: t.lexemes ++ lexemesMembers ms

end

/-! ## Building -/

/-- A tree does not begin with the end of an array. -/
theorem exists_lexemes_eq_cons (t : Tree) :
    ∃ l ls, t.lexemes = l :: ls ∧ l ≠ .closeArray := by
  cases t with
  | null => exact ⟨.null, _, rfl, nofun⟩
  | bool b => exact ⟨.bool b, _, rfl, nofun⟩
  | number n => exact ⟨.number n, _, rfl, nofun⟩
  | string text => exact ⟨.string text, _, rfl, nofun⟩
  | array items cut => cases items <;> exact ⟨.openArray, _, rfl, nofun⟩
  | object members cut => cases members <;> exact ⟨.openObject, _, rfl, nofun⟩
  | gap g => exact ⟨.gap g, _, rfl, nofun⟩

end Tree

namespace Tree.Builder

/-- The first item of an array is met like any value. -/
theorem foldl_step_firstItem {l : Lexeme} (h : l ≠ .closeArray) (fs : List Frame)
    (ls : List Lexeme) :
    (l :: ls).foldl step (firstItem fs) = (l :: ls).foldl step (value (.array [] :: fs)) := by
  cases l with
  | closeArray => exact absurd rfl h
  | _ => rfl

mutual

theorem foldl_step_lexemes : ∀ {t : Tree}, t.isWhole = true → ∀ (fs : List Frame)
    (ls : List Lexeme), (t.lexemes ++ ls).foldl step (value fs) = ls.foldl step (settle t fs)
  | .null, _, _, _ => rfl
  | .bool _, _, _, _ => rfl
  | .number _, _, _, _ => rfl
  | .string _, _, _, _ => rfl
  | .array [] cut, h, fs, ls => by
      obtain rfl : cut = none := by simpa [isWhole, isWholeItems] using h
      rfl
  | .array (t :: ts) cut, h, fs, ls => by
      simp only [isWhole, isWholeItems, Bool.and_eq_true, Option.isNone_iff_eq_none] at h
      obtain ⟨rfl, ht, hts⟩ := h
      obtain ⟨l, rest, hcons, hl⟩ := exists_lexemes_eq_cons t
      calc (Tree.lexemes (.array (t :: ts) none) ++ ls).foldl step (value fs)
          = (t.lexemes ++ (lexemesItems ts ++ .closeArray :: ls)).foldl step (firstItem fs) := by
            simp only [Tree.lexemes, closingLexeme, List.cons_append, List.append_assoc]
            rfl
        _ = (t.lexemes ++ (lexemesItems ts ++ .closeArray :: ls)).foldl step
              (value (.array [] :: fs)) := by
            rw [hcons]
            exact foldl_step_firstItem hl fs _
        _ = (lexemesItems ts ++ .closeArray :: ls).foldl step (afterItem [t] fs) :=
            foldl_step_lexemes ht _ _
        _ = (Lexeme.closeArray :: ls).foldl step (afterItem (ts.reverse ++ [t]) fs) :=
            foldl_step_lexemesItems hts _ _ _
        _ = ls.foldl step (settle (.array (t :: ts) none) fs) := by
            simp only [List.foldl_cons, step, List.reverse_append, List.reverse_reverse]
            rfl
  | .object [] cut, h, fs, ls => by
      obtain rfl : cut = none := by simpa [isWhole, isWholeMembers] using h
      rfl
  | .object ((k, t) :: ms) cut, h, fs, ls => by
      simp only [isWhole, isWholeMembers, Bool.and_eq_true, Option.isNone_iff_eq_none] at h
      obtain ⟨rfl, ht, hms⟩ := h
      calc (Tree.lexemes (.object ((k, t) :: ms) none) ++ ls).foldl step (value fs)
          = (t.lexemes ++ (lexemesMembers ms ++ .closeObject :: ls)).foldl step
              (value (.member [] k :: fs)) := by
            simp only [Tree.lexemes, closingLexeme, List.cons_append, List.append_assoc]
            rfl
        _ = (lexemesMembers ms ++ .closeObject :: ls).foldl step (afterMember [(k, t)] fs) :=
            foldl_step_lexemes ht _ _
        _ = (Lexeme.closeObject :: ls).foldl step (afterMember (ms.reverse ++ [(k, t)]) fs) :=
            foldl_step_lexemesMembers hms _ _ _
        _ = ls.foldl step (settle (.object ((k, t) :: ms) none) fs) := by
            simp only [List.foldl_cons, step, List.reverse_append, List.reverse_reverse]
            rfl
  | .gap _, h, _, _ => nomatch h

theorem foldl_step_lexemesItems : ∀ {ts : List Tree}, isWholeItems ts = true →
    ∀ (done : List Tree) (fs : List Frame) (ls : List Lexeme),
      (lexemesItems ts ++ ls).foldl step (afterItem done fs)
        = ls.foldl step (afterItem (ts.reverse ++ done) fs)
  | [], _, _, _, _ => rfl
  | t :: ts, h, done, fs, ls => by
      simp only [isWholeItems, Bool.and_eq_true] at h
      calc (lexemesItems (t :: ts) ++ ls).foldl step (afterItem done fs)
          = (t.lexemes ++ (lexemesItems ts ++ ls)).foldl step (value (.array done :: fs)) := by
            simp only [lexemesItems, List.cons_append, List.append_assoc]
            rfl
        _ = (lexemesItems ts ++ ls).foldl step (afterItem (t :: done) fs) :=
            foldl_step_lexemes h.1 _ _
        _ = ls.foldl step (afterItem (ts.reverse ++ t :: done) fs) :=
            foldl_step_lexemesItems h.2 _ _ _
        _ = ls.foldl step (afterItem ((t :: ts).reverse ++ done) fs) := by
            rw [List.reverse_cons, List.append_assoc, List.singleton_append]

theorem foldl_step_lexemesMembers : ∀ {ms : List (Option String × Tree)},
    isWholeMembers ms = true →
    ∀ (done : List (Option String × Tree)) (fs : List Frame) (ls : List Lexeme),
      (lexemesMembers ms ++ ls).foldl step (afterMember done fs)
        = ls.foldl step (afterMember (ms.reverse ++ done) fs)
  | [], _, _, _, _ => rfl
  | (k, t) :: ms, h, done, fs, ls => by
      simp only [isWholeMembers, Bool.and_eq_true] at h
      calc (lexemesMembers ((k, t) :: ms) ++ ls).foldl step (afterMember done fs)
          = (t.lexemes ++ (lexemesMembers ms ++ ls)).foldl step (value (.member done k :: fs)) := by
            simp only [lexemesMembers, List.cons_append, List.append_assoc]
            rfl
        _ = (lexemesMembers ms ++ ls).foldl step (afterMember ((k, t) :: done) fs) :=
            foldl_step_lexemes h.1 _ _
        _ = ls.foldl step (afterMember (ms.reverse ++ (k, t) :: done) fs) :=
            foldl_step_lexemesMembers h.2 _ _ _
        _ = ls.foldl step (afterMember (((k, t) :: ms).reverse ++ done) fs) := by
            rw [List.reverse_cons, List.append_assoc, List.singleton_append]

end

end Tree.Builder

theorem Document.ofLexemes_lexemes {t : Tree} (h : t.isWhole = true) :
    ofLexemes t.lexemes = ⟨t, false⟩ := by
  have hfold := Tree.Builder.foldl_step_lexemes h [] []
  rw [List.append_nil] at hfold
  rw [ofLexemes, hfold]
  rfl

end EventSeal.Json
