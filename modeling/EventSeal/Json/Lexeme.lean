import EventSeal.Json.Numeral
import EventSeal.Json.Quote

/-!
# Lexemes

A JSON text as a list of marks, words, numerals and strings, scanned
octet by octet. The scanner is a machine: a state and one octet give
some lexemes and the next state. So what has been scanned of a text is
settled, whatever comes after it (`scanFrom_append`).

A text need not be JSON. Where it stops making sense the scan leaves a
gap and ignores the rest; at the end of the octets an unfinished word,
numeral or string leaves a gap too. The kind of the gap is kept, because
whoever meets it reports "ended too early" or "malformed" depending on
what was being read and why.
-/

namespace EventSeal.Json

inductive Gap
  | ended
  /-- ended within `null`, `true` or `false` -/
  | inWord
  /-- ended within a numeral that needs another digit -/
  | inNumber
  /-- ended within a string, perhaps after an unpaired surrogate -/
  | inString (unpaired : Bool)
  /-- an octet that cannot stand where it stands -/
  | stray
deriving DecidableEq

inductive Lexeme
  | openObject
  | closeObject
  | openArray
  | closeArray
  | colon
  | comma
  | null
  | bool (b : Bool)
  | number (n : Numeral)
  | string (text : Option String)
  | gap (g : Gap)
deriving DecidableEq

namespace Lexeme

inductive State
  | idle
  /-- within a word, with the octets it still needs -/
  | word (owed : List UInt8) (lexeme : Lexeme)
  | number (draft : Numeral.Draft)
  | string (quote : Quote)
  /-- after a stray octet -/
  | halted

def isSpace (b : UInt8) : Bool :=
  b == 0x20 || b == 0x0A || b == 0x0D || b == 0x09

namespace State

/-- An octet between lexemes. -/
def enter (b : UInt8) : List Lexeme × State :=
  if isSpace b then ([], idle)
  else if b = 0x7B then ([.openObject], idle)
  else if b = 0x7D then ([.closeObject], idle)
  else if b = 0x5B then ([.openArray], idle)
  else if b = 0x5D then ([.closeArray], idle)
  else if b = 0x3A then ([.colon], idle)
  else if b = 0x2C then ([.comma], idle)
  else if b = 0x22 then ([], string .start)
  else if b = 0x6E then ([], word [0x75, 0x6C, 0x6C] .null)
  else if b = 0x74 then ([], word [0x72, 0x75, 0x65] (.bool true))
  else if b = 0x66 then ([], word [0x61, 0x6C, 0x73, 0x65] (.bool false))
  else match Numeral.Draft.start? b with
    | some d => ([], number d)
    | none => ([.gap .stray], halted)

def step : State → UInt8 → List Lexeme × State
  | idle, b => enter b
  | word [] l, b => (l :: (enter b).1, (enter b).2)
  | word (o :: owed) l, b =>
      if b ≠ o then ([.gap .stray], halted)
      else if owed = [] then ([l], idle)
      else ([], word owed l)
  | number d, b =>
      match d.push? b with
      | some d' => ([], number d')
      | none =>
          if d.endsBefore b then (.number d.numeral :: (enter b).1, (enter b).2)
          else ([.gap .stray], halted)
  | string q, b =>
      match q.step b with
      | .more q' => ([], string q')
      | .closed text => ([.string text], idle)
      | .broken => ([.gap .stray], halted)
  | halted, _ => ([], halted)

/-- What the end of the octets leaves. -/
def finish : State → List Lexeme
  | idle => []
  | word _ _ => [.gap .inWord]
  | number d => if d.phase.isFinal then [.number d.numeral] else [.gap .inNumber]
  | string q => [.gap (.inString q.unpaired)]
  | halted => []

end State

def scanFrom (s : State) : List UInt8 → List Lexeme
  | [] => s.finish
  | b :: bs => (s.step b).1 ++ scanFrom (s.step b).2 bs

def scan (bs : List UInt8) : List Lexeme :=
  scanFrom .idle bs

/-! ## Scanning in parts -/

/-- The lexemes settled by some octets, and the state they lead to. -/
def scanPart (s : State) : List UInt8 → List Lexeme × State
  | [] => ([], s)
  | b :: bs =>
      let (out, t) := scanPart (s.step b).2 bs
      ((s.step b).1 ++ out, t)

theorem scanFrom_append (s : State) (as bs : List UInt8) :
    scanFrom s (as ++ bs) = (scanPart s as).1 ++ scanFrom (scanPart s as).2 bs := by
  induction as generalizing s with
  | nil => rfl
  | cons a as ih => simp [scanFrom, scanPart, ih]

theorem scanPart_append (s : State) (as bs : List UInt8) :
    scanPart s (as ++ bs)
      = ((scanPart s as).1 ++ (scanPart (scanPart s as).2 bs).1,
          (scanPart (scanPart s as).2 bs).2) := by
  induction as generalizing s with
  | nil => rfl
  | cons a as ih => simp [scanPart, ih]

theorem scanPart_trans {s t u : State} {as bs : List UInt8} {ls ms : List Lexeme}
    (has : scanPart s as = (ls, t)) (hbs : scanPart t bs = (ms, u)) :
    scanPart s (as ++ bs) = (ls ++ ms, u) := by
  rw [scanPart_append, has, hbs]

theorem scanFrom_eq_scanPart (s : State) (bs : List UInt8) :
    scanFrom s bs = (scanPart s bs).1 ++ (scanPart s bs).2.finish := by
  have := scanFrom_append s bs []
  simpa [scanFrom] using this

@[simp] theorem scanFrom_halted (bs : List UInt8) : scanFrom .halted bs = [] := by
  induction bs with
  | nil => rfl
  | cons b bs ih => simp [scanFrom, State.step, ih]

end Lexeme

end EventSeal.Json
