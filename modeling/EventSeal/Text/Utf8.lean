/-!
# Text as octets

`bytes` and `ofBytes?` are the two directions of UTF-8. `lossy` reads
any octets at all: what is not UTF-8 shows as U+FFFD, once for every
longest piece that could still have become a character. It works octet
by octet; between two octets it knows only the bits read so far, how
many octets are owed, and in which range the next one must lie. The
range is what keeps out overlong forms, surrogates and numbers beyond
U+10FFFF: it is narrower than `80`–`BF` after `E0`, `ED`, `F0` and `F4`.
-/

namespace EventSeal.Text

def bytes (s : String) : List UInt8 :=
  s.toByteArray.data.toList

/-- Nothing, unless the octets are well-formed UTF-8. -/
def ofBytes? (bs : List UInt8) : Option String :=
  String.fromUTF8? bs.toByteArray

@[simp] theorem bytes_empty : bytes "" = [] := rfl

@[simp] theorem bytes_append (s t : String) : bytes (s ++ t) = bytes s ++ bytes t := by
  simp [bytes]

theorem toByteArray_bytes (s : String) : (bytes s).toByteArray = s.toByteArray := by
  apply ByteArray.ext
  apply Array.ext'
  simp [bytes]

@[simp] theorem ofBytes?_bytes (s : String) : ofBytes? (bytes s) = some s := by
  simp [ofBytes?, toByteArray_bytes, String.fromUTF8?, s.isValidUTF8,
    String.fromUTF8]

theorem bytes_injective {s t : String} (h : bytes s = bytes t) : s = t := by
  have := congrArg ofBytes? h
  simpa using this

/-! ## Reading what may not be text -/

namespace Lossy

/-- A character under way: the bits so far, and for the next octet its
range and how many follow after it. -/
structure Pending where
  bits : Nat
  low : Nat
  high : Nat
  after : Nat

def replacement : Char := '\uFFFD'

/-- An octet where a character may begin. -/
def start (b : UInt8) : List Char × Option Pending :=
  let n := b.toNat
  if n < 0x80 then ([Char.ofNat n], none)
  else if n < 0xC2 then ([replacement], none)
  else if n < 0xE0 then ([], some ⟨n % 0x20, 0x80, 0xBF, 0⟩)
  else if n < 0xF0 then
    ([], some ⟨n % 0x10, if n = 0xE0 then 0xA0 else 0x80, if n = 0xED then 0x9F else 0xBF, 1⟩)
  else if n < 0xF5 then
    ([], some ⟨n % 0x08, if n = 0xF0 then 0x90 else 0x80, if n = 0xF4 then 0x8F else 0xBF, 2⟩)
  else ([replacement], none)

def step : Option Pending → UInt8 → List Char × Option Pending
  | none, b => start b
  | some p, b =>
      let n := b.toNat
      if p.low ≤ n ∧ n ≤ p.high then
        let bits := p.bits * 0x40 + n % 0x40
        match p.after with
        | 0 => ([Char.ofNat bits], none)
        | k + 1 => ([], some ⟨bits, 0x80, 0xBF, k⟩)
      else (replacement :: (start b).1, (start b).2)

def run : Option Pending → List UInt8 → List Char
  | none, [] => []
  | some _, [] => [replacement]
  | p, b :: bs => (step p b).1 ++ run (step p b).2 bs

end Lossy

def lossy (bs : List UInt8) : String :=
  String.ofList (Lossy.run none bs)

end EventSeal.Text
