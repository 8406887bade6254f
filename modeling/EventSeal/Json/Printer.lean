import EventSeal.Json.Value
import EventSeal.Text.Hex

/-!
# Writing JSON

Two forms. The compact one has no space outside strings. The pretty one
puts every item and member on a line of its own, indented by two spaces a
level, except that an empty container stays `[]` or `\x7b\x7d`.

Both write a string the same way: quote, backslash and the control
characters below U+0020 are escaped, five of those with a letter, and
everything else stands as it is.
-/

namespace EventSeal.Json

def escapedChar (c : Char) : List Char :=
  if c = '"' then ['\\', '"']
  else if c = '\\' then ['\\', '\\']
  else if c = '\x08' then ['\\', 'b']
  else if c = '\x0c' then ['\\', 'f']
  else if c = '\n' then ['\\', 'n']
  else if c = '\r' then ['\\', 'r']
  else if c = '\t' then ['\\', 't']
  else if c.toNat < 0x20 then
    ['\\', 'u', '0', '0', Text.hexDigit (c.toNat / 16), Text.hexDigit (c.toNat % 16)]
  else [c]

def quote (s : String) : String :=
  String.ofList ('"' :: s.toList.flatMap escapedChar ++ ['"'])

def Members.opening : String := "\x7b"

def Members.closing : String := "\x7d"

namespace Value

/-- Every scalar has one written form. -/
def scalar : Value → String
  | .null => "null"
  | .bool b => if b then "true" else "false"
  | .number n => n.write
  | .text s => quote s
  | .array _ | .object _ => ""

/-! ## Compact -/

mutual

def compact : Value → String
  | .array [] => "[]"
  | .array (v :: vs) => "[" ++ v.compact ++ compactItems vs ++ "]"
  | .object [] => Members.opening ++ Members.closing
  | .object ((k, v) :: ms) =>
      Members.opening ++ quote k ++ ":" ++ v.compact ++ compactMembers ms ++ Members.closing
  | .null => scalar .null
  | .bool b => scalar (.bool b)
  | .number n => scalar (.number n)
  | .text s => scalar (.text s)

/-- The items after the first. -/
def compactItems : List Value → String
  | [] => ""
  | v :: vs => "," ++ v.compact ++ compactItems vs

/-- The members after the first. -/
def compactMembers : List (String × Value) → String
  | [] => ""
  | (k, v) :: ms => "," ++ quote k ++ ":" ++ v.compact ++ compactMembers ms

end

/-! ## Pretty -/

def newline (level : Nat) : String :=
  "\n" ++ String.ofList (List.replicate (2 * level) ' ')

mutual

/-- A value that begins on a line indented to `level`. -/
def prettyAt (level : Nat) : Value → String
  | .array [] => "[]"
  | .array (v :: vs) =>
      "[" ++ newline (level + 1) ++ v.prettyAt (level + 1) ++ prettyItems (level + 1) vs
        ++ newline level ++ "]"
  | .object [] => Members.opening ++ Members.closing
  | .object ((k, v) :: ms) =>
      Members.opening ++ newline (level + 1) ++ quote k ++ ": " ++ v.prettyAt (level + 1)
        ++ prettyMembers (level + 1) ms ++ newline level ++ Members.closing
  | .null => scalar .null
  | .bool b => scalar (.bool b)
  | .number n => scalar (.number n)
  | .text s => scalar (.text s)

def prettyItems (level : Nat) : List Value → String
  | [] => ""
  | v :: vs => "," ++ newline level ++ v.prettyAt level ++ prettyItems level vs

def prettyMembers (level : Nat) : List (String × Value) → String
  | [] => ""
  | (k, v) :: ms =>
      "," ++ newline level ++ quote k ++ ": " ++ v.prettyAt level ++ prettyMembers level ms

end

def pretty (v : Value) : String :=
  v.prettyAt 0

end Value

end EventSeal.Json
