import EventSeal.Json.Lexeme

/-!
# Trees

What a reader walks: the structure of a JSON text, up to the place where
the text stops being JSON. There the tree has a gap, in place of a value
or at the end of a container, and nothing after it.

Every text has a tree. Faults are not reported here, because which fault
a text has depends on what its reader wants: a reader may stop at a value
of the wrong kind before it comes to the gap. A tree has all that such a
reader needs, in the order in which it is written, and nothing is decided
twice.

A string or key is `none` when it denotes no text. Keys may repeat.
-/

namespace EventSeal.Json

inductive Tree
  | null
  | bool (b : Bool)
  | number (n : Numeral)
  | string (text : Option String)
  /-- `cut` is where the container breaks off, if it is not closed -/
  | array (items : List Tree) (cut : Option Gap)
  | object (members : List (Option String × Tree)) (cut : Option Gap)
  | gap (g : Gap)

/-- A tree, and whether the text goes on after it. -/
structure Document where
  root : Tree
  trailing : Bool

/-- A gap where only certain marks may stand: what is there cannot,
whatever it would have become. -/
def Gap.atMark : Gap → Gap
  | .ended => .ended
  | .inWord | .inNumber | .inString _ | .stray => .stray

/-- A gap where a key must stand: only the beginning of a string could
have become one. -/
def Gap.atKey : Gap → Gap
  | .ended => .ended
  | .inString unpaired => .inString unpaired
  | .inWord | .inNumber | .stray => .stray

/-- Where a text ends if the lexeme is not what must come next: not at
all, except in a gap. -/
def Lexeme.asGap : Lexeme → Gap
  | .gap g => g
  | _ => .stray

namespace Tree

/-! ## Building

The machine that makes a tree of lexemes. A frame is a container that
waits for a value, with what it holds so far, latest first. -/

inductive Frame
  | array (done : List Tree)
  | member (done : List (Option String × Tree)) (key : Option String)

namespace Frame

/-- The container with the value in its place. -/
def fill (t : Tree) (cut : Option Gap) : Frame → Tree
  | .array done => .array (t :: done).reverse cut
  | .member done key => .object ((key, t) :: done).reverse cut

end Frame

/-- The whole tree, when nothing comes after the innermost value. -/
def abandon (t : Tree) : List Frame → Tree
  | [] => t
  | f :: fs => abandon (f.fill t (some .ended)) fs

/-- A place in a text. The frames around it are innermost first. -/
inductive Builder
  | value (frames : List Frame)
  | firstItem (frames : List Frame)
  | afterItem (done : List Tree) (frames : List Frame)
  | firstKey (frames : List Frame)
  | key (done : List (Option String × Tree)) (frames : List Frame)
  | colon (done : List (Option String × Tree)) (key : Option String) (frames : List Frame)
  | afterMember (done : List (Option String × Tree)) (frames : List Frame)
  | complete (root : Tree)
  | trailing (root : Tree)
  /-- past a gap -/
  | failed (root : Tree)

namespace Builder

/-- After a whole value. -/
def settle (t : Tree) : List Frame → Builder
  | [] => complete t
  | .array done :: fs => afterItem (t :: done) fs
  | .member done k :: fs => afterMember ((k, t) :: done) fs

def beginValue (fs : List Frame) : Lexeme → Builder
  | .null => settle .null fs
  | .bool b => settle (.bool b) fs
  | .number n => settle (.number n) fs
  | .string text => settle (.string text) fs
  | .openArray => firstItem fs
  | .openObject => firstKey fs
  | .gap g => failed (abandon (.gap g) fs)
  | .closeObject | .closeArray | .colon | .comma => failed (abandon (.gap .stray) fs)

def beginKey (done : List (Option String × Tree)) (fs : List Frame) : Lexeme → Builder
  | .string text => colon done text fs
  | l => failed (abandon (.object done.reverse (some l.asGap.atKey)) fs)

def step : Builder → Lexeme → Builder
  | value fs, l => beginValue fs l
  | firstItem fs, .closeArray => settle (.array [] none) fs
  | firstItem fs, l => beginValue (.array [] :: fs) l
  | afterItem done fs, .comma => value (.array done :: fs)
  | afterItem done fs, .closeArray => settle (.array done.reverse none) fs
  | afterItem done fs, l => failed (abandon (.array done.reverse (some l.asGap.atMark)) fs)
  | firstKey fs, .closeObject => settle (.object [] none) fs
  | firstKey fs, l => beginKey [] fs l
  | key done fs, l => beginKey done fs l
  | colon done k fs, .colon => value (.member done k :: fs)
  | colon done k fs, l => failed (abandon (.gap l.asGap.atMark) (.member done k :: fs))
  | afterMember done fs, .comma => key done fs
  | afterMember done fs, .closeObject => settle (.object done.reverse none) fs
  | afterMember done fs, l => failed (abandon (.object done.reverse (some l.asGap.atMark)) fs)
  | complete t, _ => trailing t
  | trailing t, _ => trailing t
  | failed t, _ => failed t

/-- The document when no lexeme follows. -/
def finish : Builder → Document
  | value fs => ⟨abandon (.gap .ended) fs, false⟩
  | firstItem fs => ⟨abandon (.array [] (some .ended)) fs, false⟩
  | afterItem done fs => ⟨abandon (.array done.reverse (some .ended)) fs, false⟩
  | firstKey fs => ⟨abandon (.object [] (some .ended)) fs, false⟩
  | key done fs => ⟨abandon (.object done.reverse (some .ended)) fs, false⟩
  | colon done k fs => ⟨abandon (.gap .ended) (.member done k :: fs), false⟩
  | afterMember done fs => ⟨abandon (.object done.reverse (some .ended)) fs, false⟩
  | complete t => ⟨t, false⟩
  | trailing t => ⟨t, true⟩
  | failed t => ⟨t, false⟩

end Builder

end Tree

namespace Document

def ofLexemes (ls : List Lexeme) : Document :=
  (ls.foldl Tree.Builder.step (.value [])).finish

def ofBytes (bs : List UInt8) : Document :=
  ofLexemes (Lexeme.scan bs)

end Document

end EventSeal.Json
