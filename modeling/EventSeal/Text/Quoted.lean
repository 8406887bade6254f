/-!
# Quoted text

How a message shows a text that somebody else supplied: between quotes,
with everything that could be mistaken for the message itself escaped.
Quote and backslash get a backslash, the four common controls a letter
of their own, every other control character its number in hexadecimal
between braces. All else stands as it is.

That is less than the program escapes. It gives the number of other
characters too that do not print or that join the one before, such as U+200B
and U+0301; here these stand as they are.
-/

namespace EventSeal.Text

/-- The general category `Cc`. -/
def isControl (c : Char) : Bool :=
  c.toNat < 0x20 || (0x7F ≤ c.toNat && c.toNat ≤ 0x9F)

def quotedChar (c : Char) : List Char :=
  if c = '"' then ['\\', '"']
  else if c = '\\' then ['\\', '\\']
  else if c = '\n' then ['\\', 'n']
  else if c = '\r' then ['\\', 'r']
  else if c = '\t' then ['\\', 't']
  else if c = '\x00' then ['\\', '0']
  else if isControl c then
    ['\\', 'u', '\x7b'] ++ Nat.toDigits 16 c.toNat ++ ['\x7d']
  else [c]

def quoted (s : String) : String :=
  String.ofList ('"' :: s.toList.flatMap quotedChar ++ ['"'])

end EventSeal.Text
