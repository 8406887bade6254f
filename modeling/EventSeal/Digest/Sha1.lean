/-!
# SHA-1

The hash of FIPS 180, for messages of whole octets. The message schedule
is a window of sixteen words that slides: each round takes the word at
its front and puts a new one at its end, so that a round needs no array
and no index beyond the four taps.
-/

namespace EventSeal.Sha1

/-- The chaining value, five words. -/
structure Chain where
  a : UInt32
  b : UInt32
  c : UInt32
  d : UInt32
  e : UInt32
deriving DecidableEq

namespace Chain

def initial : Chain :=
  ⟨0x67452301, 0xEFCDAB89, 0x98BADCFE, 0x10325476, 0xC3D2E1F0⟩

def add (x y : Chain) : Chain :=
  ⟨x.a + y.a, x.b + y.b, x.c + y.c, x.d + y.d, x.e + y.e⟩

def words (x : Chain) : List UInt32 :=
  [x.a, x.b, x.c, x.d, x.e]

end Chain

/-! ## Rounds -/

def rotateLeft (x k : UInt32) : UInt32 :=
  (x <<< k) ||| (x >>> (32 - k))

/-- The function and the constant of round `t`; they change every twenty rounds. -/
def mix (t : Nat) (b c d : UInt32) : UInt32 :=
  if t < 20 then ((b &&& c) ||| (~~~b &&& d)) + 0x5A827999
  else if t < 40 then (b ^^^ c ^^^ d) + 0x6ED9EBA1
  else if t < 60 then ((b &&& c) ||| (b &&& d) ||| (c &&& d)) + 0x8F1BBCDC
  else (b ^^^ c ^^^ d) + 0xCA62C1D6

def round (t : Nat) (x : Chain) (w : UInt32) : Chain :=
  ⟨rotateLeft x.a 5 + mix t x.b x.c x.d + x.e + w, x.a, rotateLeft x.b 30, x.c, x.d⟩

/-- The window after its front word has been used. -/
def slide (window : List UInt32) : List UInt32 :=
  let tap i := window.getD i 0
  window.tail ++ [rotateLeft (tap 0 ^^^ tap 2 ^^^ tap 8 ^^^ tap 13) 1]

/-- The rounds `t, …, t + n - 1`. -/
def rounds : Nat → Nat → List UInt32 → Chain → Chain
  | 0, _, _, x => x
  | n + 1, t, window, x => rounds n (t + 1) (slide window) (round t x (window.headD 0))

def compress (block : List UInt32) (x : Chain) : Chain :=
  x.add (rounds 80 0 block x)

/-! ## Messages -/

def octets (w : UInt32) : List UInt8 :=
  [(w >>> 24).toUInt8, (w >>> 16).toUInt8, (w >>> 8).toUInt8, w.toUInt8]

def words : List UInt8 → List UInt32
  | p :: q :: r :: s :: rest =>
      ((p.toUInt32 <<< 24) ||| (q.toUInt32 <<< 16) ||| (r.toUInt32 <<< 8) ||| s.toUInt32)
        :: words rest
  | _ => []

/-- What is put after a message of `n` octets: a one bit, zeros up to
eight octets short of a whole block, and the number of bits. -/
def padding (n : Nat) : List UInt8 :=
  0x80 :: List.replicate ((119 - n % 64) % 64) 0
    ++ (List.range 8).map fun i => UInt8.ofNat (8 * n / Nat.pow 256 (7 - i))

/-- A block under way, latest word first. -/
structure Progress where
  chain : Chain
  held : List UInt32

def Progress.absorb (p : Progress) (w : UInt32) : Progress :=
  if p.held.length < 15 then ⟨p.chain, w :: p.held⟩
  else ⟨compress (w :: p.held).reverse p.chain, []⟩

def digest (message : List UInt8) : List UInt8 :=
  let padded := words (message ++ padding message.length)
  (padded.foldl Progress.absorb ⟨Chain.initial, []⟩).chain.words.flatMap octets

@[simp] theorem length_digest (message : List UInt8) : (digest message).length = 20 := by
  simp [digest, Chain.words, octets]

end EventSeal.Sha1
