import EventSeal.Json.Tree
import EventSeal.Text.Hex

/-!
# All ways of writing a JSON text

The grammar of JSON as a data type: a `Spelling` is a value together with
everything that a writer is free to choose, which is the white space, how
each character of a string is written and how a numeral is. It has a text
(`chars`), and it has a tree, which holds what is left when all that is
forgotten again. No spelling has a text that is not JSON, and an unpaired
surrogate cannot be spelled.
-/

namespace EventSeal.Json

/-! ## White space -/

inductive Blank
  | space
  | tab
  | lineFeed
  | carriageReturn
deriving DecidableEq

def Blank.char : Blank → Char
  | space => ' '
  | tab => '\t'
  | lineFeed => '\n'
  | carriageReturn => '\r'

abbrev Space := List Blank

def Space.chars (ws : Space) : List Char :=
  ws.map Blank.char

/-! ## Strings -/

/-- A hexadecimal digit of either case. -/
structure HexDigit where
  value : Fin 16
  upper : Bool
deriving DecidableEq

def HexDigit.char (d : HexDigit) : Char :=
  if d.upper then (Text.hexDigit d.value).toUpper else Text.hexDigit d.value

/-- The four digits after `\u`. -/
structure Code where
  first : HexDigit
  second : HexDigit
  third : HexDigit
  fourth : HexDigit
deriving DecidableEq

namespace Code

def value (n : Code) : Nat :=
  16 * (16 * (16 * n.first.value + n.second.value) + n.third.value) + n.fourth.value

def chars (n : Code) : List Char :=
  ['\\', 'u', n.first.char, n.second.char, n.third.char, n.fourth.char]

def IsLeading (n : Code) : Prop :=
  0xD800 ≤ n.value ∧ n.value < 0xDC00

def IsTrailing (n : Code) : Prop :=
  0xDC00 ≤ n.value ∧ n.value < 0xE000

instance (n : Code) : Decidable n.IsLeading :=
  inferInstanceAs (Decidable (_ ∧ _))

instance (n : Code) : Decidable n.IsTrailing :=
  inferInstanceAs (Decidable (_ ∧ _))

end Code

/-- A character that has a letter of its own after a backslash. -/
inductive Letter
  | quotation
  | backslash
  | slash
  | backspace
  | formFeed
  | lineFeed
  | carriageReturn
  | tab
deriving DecidableEq

namespace Letter

def letter : Letter → Char
  | quotation => '"'
  | backslash => '\\'
  | slash => '/'
  | backspace => 'b'
  | formFeed => 'f'
  | lineFeed => 'n'
  | carriageReturn => 'r'
  | tab => 't'

def char : Letter → Char
  | quotation => '"'
  | backslash => '\\'
  | slash => '/'
  | backspace => '\x08'
  | formFeed => '\x0c'
  | lineFeed => '\n'
  | carriageReturn => '\r'
  | tab => '\t'

end Letter

/-- One character of a string, in one of the ways to write it. -/
inductive Piece
  | plain (c : Char) (h : c ≠ '"' ∧ c ≠ '\\' ∧ 0x20 ≤ c.toNat)
  | letter (l : Letter)
  | code (n : Code) (h : ¬ n.IsLeading ∧ ¬ n.IsTrailing)
  | pair (m n : Code) (hm : m.IsLeading) (hn : n.IsTrailing)

namespace Piece

def chars : Piece → List Char
  | plain c _ => [c]
  | letter l => ['\\', l.letter]
  | code n _ => n.chars
  | pair m n _ _ => m.chars ++ n.chars

def char : Piece → Char
  | plain c _ => c
  | letter l => l.char
  | code n _ => Char.ofNat n.value
  | pair m n _ _ => Char.ofNat (0x10000 + (m.value - 0xD800) * 0x400 + (n.value - 0xDC00))

end Piece

/-- What stands between quotation marks. -/
abbrev Quotation := List Piece

namespace Quotation

def chars (ps : Quotation) : List Char :=
  '"' :: ps.flatMap Piece.chars ++ ['"']

def text (ps : Quotation) : String :=
  String.ofList (ps.map Piece.char)

end Quotation

/-! ## Numerals -/

def digitChars (ds : List (Fin 10)) : List Char :=
  ds.map fun d => d.val.digitChar

/-- The number that digits are written for. -/
def decimal (ds : List (Fin 10)) : Nat :=
  ds.foldl (fun n d => 10 * n + d.val) 0

/-- Digits pushed onto a numeral, one after the other. -/
def pushAll (push : Numeral → Nat → Numeral) (ds : List (Fin 10)) (n : Numeral) : Numeral :=
  ds.foldl (fun n d => push n d.val) n

/-- At least one digit. -/
structure Digits where
  first : Fin 10
  rest : List (Fin 10)
deriving DecidableEq

def Digits.all (ds : Digits) : List (Fin 10) :=
  ds.first :: ds.rest

/-- The digits before the point, which begin with a zero only if it is the
only one. -/
inductive Whole
  | zero
  | positive (first : Fin 9) (rest : List (Fin 10))
deriving DecidableEq

def Whole.digits : Whole → List (Fin 10)
  | zero => [0]
  | positive d ds => d.succ :: ds

inductive ExponentSign
  | none
  | plus
  | minus
deriving DecidableEq

def ExponentSign.chars : ExponentSign → List Char
  | none => []
  | plus => ['+']
  | minus => ['-']

structure Exponent where
  upper : Bool
  sign : ExponentSign
  digits : Digits
deriving DecidableEq

def Exponent.chars (e : Exponent) : List Char :=
  (if e.upper then 'E' else 'e') :: e.sign.chars ++ digitChars e.digits.all

/-- A numeral with all that is written of it. -/
structure Figure where
  negative : Bool
  whole : Whole
  fraction : Option Digits
  exponent : Option Exponent
deriving DecidableEq

namespace Figure

def signChars (f : Figure) : List Char :=
  if f.negative then ['-'] else []

def fractionChars (f : Figure) : List Char :=
  match f.fraction with
  | none => []
  | some ds => '.' :: digitChars ds.all

def exponentChars (f : Figure) : List Char :=
  match f.exponent with
  | none => []
  | some e => e.chars

def chars (f : Figure) : List Char :=
  f.signChars ++ digitChars f.whole.digits ++ f.fractionChars ++ f.exponentChars

/-- The integer before the point. -/
def integer (f : Figure) : Int :=
  if f.negative then -(decimal f.whole.digits : Int) else decimal f.whole.digits

/-- No fraction, no exponent, and not minus zero. -/
def IsInteger (f : Figure) : Prop :=
  f.fraction = none ∧ f.exponent = none ∧ ¬ (f.negative = true ∧ f.whole = .zero)

/-! What the scan has of a numeral after each of its parts. -/

def wholeDraft (negative : Bool) (w : Whole) : Numeral.Draft :=
  ⟨if w = .zero then .zero else .whole,
    pushAll Numeral.pushDigit w.digits (.start negative)⟩

def fractionDraft (d : Numeral.Draft) : Option Digits → Numeral.Draft
  | none => d
  | some ds => ⟨.fraction, pushAll Numeral.pushPlace ds.all { d.numeral with plain := false }⟩

def withSign (n : Numeral) : ExponentSign → Numeral
  | .none | .plus => n
  | .minus => { n with exponentNegative := true }

def exponentDraft (d : Numeral.Draft) : Option Exponent → Numeral.Draft
  | none => d
  | some e =>
      ⟨.exponent, pushAll Numeral.pushExponent e.digits.all
        (withSign { d.numeral with plain := false } e.sign)⟩

def draft (f : Figure) : Numeral.Draft :=
  exponentDraft (fractionDraft (wholeDraft f.negative f.whole) f.fraction) f.exponent

end Figure

/-! ## Values -/

/-- A key, with the white space around it. -/
structure Key where
  before : Space
  quotation : Quotation
  after : Space

namespace Key

def chars (k : Key) : List Char :=
  k.before.chars ++ k.quotation.chars ++ k.after.chars

def text (k : Key) : String :=
  k.quotation.text

end Key

/-- A value as it is written. Items and the values of members have white
space before and after them; a container has some after its opening mark
in any case. -/
inductive Spelling
  | null
  | bool (b : Bool)
  | figure (f : Figure)
  | quotation (ps : Quotation)
  | array (opening : Space) (items : List (Space × Spelling × Space))
  | object (opening : Space) (members : List (Key × Space × Spelling × Space))

namespace Spelling

mutual

def chars : Spelling → List Char
  | .null => ['n', 'u', 'l', 'l']
  | .bool true => ['t', 'r', 'u', 'e']
  | .bool false => ['f', 'a', 'l', 's', 'e']
  | .figure f => f.chars
  | .quotation ps => ps.chars
  | .array opening [] => '[' :: opening.chars ++ [']']
  | .array opening ((before, s, after) :: items) =>
      '[' :: opening.chars ++ before.chars ++ s.chars ++ after.chars ++ itemsChars items ++ [']']
  | .object opening [] => '\x7b' :: opening.chars ++ ['\x7d']
  | .object opening ((k, before, s, after) :: members) =>
      '\x7b' :: opening.chars ++ k.chars ++ ':' :: before.chars ++ s.chars ++ after.chars
        ++ membersChars members ++ ['\x7d']

/-- The items after the first. -/
def itemsChars : List (Space × Spelling × Space) → List Char
  | [] => []
  | (before, s, after) :: items =>
      ',' :: before.chars ++ s.chars ++ after.chars ++ itemsChars items

/-- The members after the first. -/
def membersChars : List (Key × Space × Spelling × Space) → List Char
  | [] => []
  | (k, before, s, after) :: members =>
      ',' :: k.chars ++ ':' :: before.chars ++ s.chars ++ after.chars ++ membersChars members

end

mutual

def tree : Spelling → Tree
  | .null => .null
  | .bool b => .bool b
  | .figure f => .number f.draft.numeral
  | .quotation ps => .string (some ps.text)
  | .array _ items => .array (itemTrees items) none
  | .object _ members => .object (memberTrees members) none

def itemTrees : List (Space × Spelling × Space) → List Tree
  | [] => []
  | (_, s, _) :: items => s.tree :: itemTrees items

def memberTrees : List (Key × Space × Spelling × Space) → List (Option String × Tree)
  | [] => []
  | (k, _, s, _) :: members => (some k.text, s.tree) :: memberTrees members

end

end Spelling

end EventSeal.Json
