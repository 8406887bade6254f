import EventSeal.Json.Reader

/-!
# Choices

A choice among names is written as the name, or as an object with the
name for its only key and null for its value. Since what stands in place
of the name decides between "malformed" and "of the wrong type" even where
no key could stand, a choice is read from lexemes and not from a tree.
-/

namespace EventSeal.Json

/-- The problem with a value that begins so, where another type is wanted. -/
def Lexeme.mistype : Lexeme → Fault
  | .null | .bool _ | .openArray | .openObject => .mistyped
  | .number n => (Tree.number n).mistype
  | .string text => (Tree.string text).mistype
  | .gap g => g.fault
  | .closeArray | .closeObject | .colon | .comma => .malformed

namespace Choice

variable {α : Type}

/-- The name itself. A name that is not offered is of the wrong type. -/
def readName (offered : String → Option α) : Lexeme → Except Fault α
  | .string (some s) =>
      match offered s with
      | some a => .ok a
      | none => .error .mistyped
  | l => .error l.mistype

def expect (mark : Lexeme) : List Lexeme → Except Fault (List Lexeme)
  | [] => .error .ended
  | l :: rest => if l = mark then .ok rest else .error .malformed

def expectNull : List Lexeme → Except Fault (List Lexeme)
  | [] => .error .ended
  | .null :: rest => .ok rest
  | l :: _ => .error l.mistype

/-- The object form, after its opening brace. -/
def readObject (offered : String → Option α) : List Lexeme → Except Fault (α × List Lexeme)
  | [] => .error .ended
  | l :: rest => do
      let a ← readName offered l
      let rest ← expect .colon rest
      let rest ← expectNull rest
      let rest ← expect .closeObject rest
      return (a, rest)

def readPart (offered : String → Option α) : List Lexeme → Except Fault (α × List Lexeme)
  | [] => .error .ended
  | .string text :: rest => do
      let a ← readName offered (.string text)
      return (a, rest)
  | .openObject :: rest => readObject offered rest
  | l :: _ => .error l.asGap.atKey.fault

def read (offered : String → Option α) (ls : List Lexeme) : Except Fault α := do
  let (a, rest) ← readPart offered ls
  if rest = [] then .ok a else .error .malformed

def ofBytes (offered : String → Option α) (bs : List UInt8) : Except Fault α :=
  read offered (Lexeme.scan bs)

end Choice

end EventSeal.Json
