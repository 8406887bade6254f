/-!
# Blank characters

What stands around a value and does not belong to it: the characters
with the Unicode property `White_Space`. The set is closed and small, so
it is written out. Zero-width space (U+200B) and the byte order mark
(U+FEFF) do not have the property and stay where they are.
-/

namespace EventSeal.Text

def isBlank (c : Char) : Bool :=
  let n := c.toNat
  (0x09 ≤ n && n ≤ 0x0D) || n == 0x20 || n == 0x85 || n == 0xA0 || n == 0x1680
    || (0x2000 ≤ n && n ≤ 0x200A) || n == 0x2028 || n == 0x2029 || n == 0x202F
    || n == 0x205F || n == 0x3000

/-! ## Trimming

On lists of characters: the text between the first and the last
character that is not blank. -/

def trimStart (cs : List Char) : List Char :=
  cs.dropWhile isBlank

def trimEnd (cs : List Char) : List Char :=
  (cs.reverse.dropWhile isBlank).reverse

def trimChars (cs : List Char) : List Char :=
  trimEnd (trimStart cs)

def trim (s : String) : String :=
  String.ofList (trimChars s.toList)

@[simp] theorem trimStart_nil : trimStart [] = [] := rfl

@[simp] theorem trimEnd_nil : trimEnd [] = [] := rfl

theorem trimStart_cons_solid {c : Char} {cs : List Char} (h : isBlank c = false) :
    trimStart (c :: cs) = c :: cs := by
  simp [trimStart, h]

theorem trimEnd_concat_blank {c : Char} {cs : List Char} (h : isBlank c = true) :
    trimEnd (cs ++ [c]) = trimEnd cs := by
  simp [trimEnd, h]

theorem trimEnd_concat_solid {c : Char} {cs : List Char} (h : isBlank c = false) :
    trimEnd (cs ++ [c]) = cs ++ [c] := by
  simp [trimEnd, h]

/-- Nothing is taken from a text between two characters that are not blank. -/
theorem trimChars_framed {a b : Char} (ha : isBlank a = false) (hb : isBlank b = false)
    (cs : List Char) : trimChars (a :: cs ++ [b]) = a :: cs ++ [b] := by
  rw [trimChars, List.cons_append, trimStart_cons_solid ha, ← List.cons_append,
    trimEnd_concat_solid hb]

end EventSeal.Text
