import EventSeal.Text.Utf8

/-!
# Quoted strings

A string between quotes, read octet by octet. Two questions are kept
apart, because a string that nobody reads is only asked the first:

- is it a string at all: no raw control octet, no unknown escape, four
  hexadecimal digits after `\u`;
- which text it denotes, if any: escaped surrogates must come in pairs,
  and the octets must be UTF-8.

So a finished string carries `none` when it denotes no text, and a draft
remembers whether an unpaired surrogate has gone by.
-/

namespace EventSeal.Json

inductive Quote.Phase
  | plain
  /-- after a backslash -/
  | escape
  /-- after `\u`, with the octets that followed -/
  | code (octets : List UInt8)
deriving DecidableEq

/-- A string under way. -/
structure Quote where
  phase : Quote.Phase
  /-- the octets of the text, latest first -/
  payload : List UInt8
  /-- an escaped leading surrogate that stands directly before -/
  leading : Option Nat
  unpaired : Bool
deriving DecidableEq

namespace Quote

def start : Quote :=
  ⟨.plain, [], none, false⟩

def isLeading (n : Nat) : Bool :=
  0xD800 ≤ n && n < 0xDC00

def isTrailing (n : Nat) : Bool :=
  0xDC00 ≤ n && n < 0xE000

/-- What a letter after a backslash stands for. -/
def escaped? (b : UInt8) : Option UInt8 :=
  if b = 0x22 then some 0x22
  else if b = 0x5C then some 0x5C
  else if b = 0x2F then some 0x2F
  else if b = 0x62 then some 0x08
  else if b = 0x66 then some 0x0C
  else if b = 0x6E then some 0x0A
  else if b = 0x72 then some 0x0D
  else if b = 0x74 then some 0x09
  else none

/-- The value of an octet that is a hexadecimal digit of either case. -/
def hexValue? (b : UInt8) : Option Nat :=
  let n := b.toNat
  if 0x30 ≤ n ∧ n ≤ 0x39 then some (n - 0x30)
  else if 0x41 ≤ n ∧ n ≤ 0x46 then some (n - 0x37)
  else if 0x61 ≤ n ∧ n ≤ 0x66 then some (n - 0x57)
  else none

def code? (octets : List UInt8) : Option Nat :=
  octets.foldl (fun acc b => do return 16 * (← acc) + (← hexValue? b)) (some 0)

/-- Gives up a leading surrogate for which no partner can come any more. -/
def settle (q : Quote) : Quote :=
  if q.leading.isSome then { q with leading := none, unpaired := true } else q

def pushOctet (q : Quote) (b : UInt8) : Quote :=
  { q.settle with phase := .plain, payload := b :: q.payload }

def pushChar (q : Quote) (n : Nat) : Quote :=
  { q with
    phase := .plain
    leading := none
    payload := (String.utf8EncodeChar (Char.ofNat n)).reverse ++ q.payload }

/-- After a complete `\u` escape of value `n`. -/
def pushCode (q : Quote) (n : Nat) : Quote :=
  match q.leading with
  | some h =>
      if isTrailing n then q.pushChar (0x10000 + (h - 0xD800) * 0x400 + (n - 0xDC00))
      else { q with phase := .plain, leading := none, unpaired := true }
  | none =>
      if isLeading n then { q with phase := .plain, leading := some n }
      else if isTrailing n then { q with phase := .plain, unpaired := true }
      else q.pushChar n

/-- The text denoted, once the closing quote is reached. -/
def text? (q : Quote) : Option String :=
  if q.settle.unpaired then none else Text.ofBytes? q.payload.reverse

inductive Next
  | more (q : Quote)
  | closed (text : Option String)
  | broken

def step (q : Quote) (b : UInt8) : Next :=
  match q.phase with
  | .plain =>
      if b = 0x22 then .closed q.text?
      else if b = 0x5C then .more { q with phase := .escape }
      else if b < 0x20 then .broken
      else .more (q.pushOctet b)
  | .escape =>
      if b = 0x75 then .more { q with phase := .code [] }
      else match escaped? b with
        | some e => .more (q.pushOctet e)
        | none => .broken
  | .code octets =>
      if octets.length < 3 then .more { q with phase := .code (octets ++ [b]) }
      else match code? (octets ++ [b]) with
        | some n => .more (q.pushCode n)
        | none => .broken

end Quote

end EventSeal.Json
