import EventSeal.Text.Blank
import EventSeal.Text.Split
import Mathlib.Data.List.Basic

/-!
# Lines of a text

A line ends with a line feed, and a carriage return just before that belongs
to the end and not to the line. The last line may do without an end; what
stands after the last line feed is then a line only if there is something
(`lines`).

Splitting a text at every line feed gives a piece more where the text ends
with one, and it leaves the carriage returns. Both make no difference to
anyone who takes the blanks off a line and passes over what is blank then:
a carriage return is a blank (`trimChars_withoutReturn`).
-/

namespace EventSeal.Text

/-- Without the carriage return at its end, if there is one. -/
def withoutReturn (l : List Char) : List Char :=
  if l.getLast? = some '\r' then l.dropLast else l

/-- The lines among pieces that have a line feed between them. -/
def linesOfPieces : List (List Char) → List (List Char)
  | [] => []
  | [l] => if l = [] then [] else [l]
  | l :: m :: rest => withoutReturn l :: linesOfPieces (m :: rest)

def lines (s : String) : List (List Char) :=
  linesOfPieces (splitOn '\n' s.toList)

/-- How many line feeds there are. -/
def newlines (s : String) : Nat :=
  s.toList.count '\n'

/-! ## Texts that end every line -/

/-- Pieces that are ended each by a line feed. -/
theorem linesOfPieces_concat_nil (ps : List (List Char)) :
    linesOfPieces (ps ++ [[]]) = ps.map withoutReturn := by
  induction ps with
  | nil => rfl
  | cons p ps ih =>
      cases ps with
      | nil => rfl
      | cons q ps => exact congrArg (withoutReturn p :: ·) ih

/-- The lines of texts that are ended each by a line feed, which may have
line feeds themselves. -/
theorem lines_flatMap_concat (ps : List (List Char)) :
    lines (String.ofList (ps.flatMap (· ++ ['\n'])))
      = ps.flatMap fun p => (splitOn '\n' p).map withoutReturn := by
  have hpieces : splitOn '\n' (ps.flatMap (· ++ ['\n'])) = ps.flatMap (splitOn '\n') ++ [[]] := by
    induction ps with
    | nil => rfl
    | cons p ps ih =>
        rw [List.flatMap_cons, List.append_assoc, List.singleton_append, splitOn_append_sep, ih,
          List.flatMap_cons, List.append_assoc]
  rw [lines, String.toList_ofList, hpieces, linesOfPieces_concat_nil, List.map_flatMap]

theorem withoutReturn_of_getLast?_ne {l : List Char} (h : l.getLast? ≠ some '\r') :
    withoutReturn l = l :=
  if_neg h

/-! ## Trimmed lines -/

/-- A blank at the end is taken off whatever it stands after. -/
theorem trimChars_concat_blank {c : Char} (h : isBlank c = true) (cs : List Char) :
    trimChars (cs ++ [c]) = trimChars cs := by
  rw [trimChars, trimChars, trimStart, trimStart, List.dropWhile_append]
  cases hstart : cs.dropWhile isBlank with
  | nil => simp [h]
  | cons d ds => exact trimEnd_concat_blank h

theorem trimChars_withoutReturn (l : List Char) : trimChars (withoutReturn l) = trimChars l := by
  rw [withoutReturn]
  split
  · next hlast =>
    obtain ⟨cs, rfl⟩ := List.getLast?_eq_some_iff.mp hlast
    rw [List.dropLast_concat, trimChars_concat_blank rfl]
  · rfl

end EventSeal.Text
