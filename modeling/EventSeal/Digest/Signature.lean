import EventSeal.Digest.Sha1
import EventSeal.Text.Hex

/-!
# Signatures

A signature is a SHA-1 digest in lower case hexadecimal: forty
characters. It is a checksum without a key. Whoever holds the signed
text can compute it, so it shows that a text was changed and not who
wrote it.

`compute` and `parse?` give the form described; a signature taken from a
wire record is whatever text stands there, so the form is a predicate
(`wellFormed`) and no part of the type.
-/

namespace EventSeal

/-- The digests that signatures are made of; the wire form admits one. -/
inductive DigestAlgorithm
  | sha1
deriving DecidableEq

namespace DigestAlgorithm

def name : DigestAlgorithm → String
  | sha1 => "sha-1"

def digest : DigestAlgorithm → List UInt8 → List UInt8
  | sha1, message => Sha1.digest message

/-- Characters in a digest written in hexadecimal. -/
def hexLength : DigestAlgorithm → Nat
  | sha1 => 40

@[simp] theorem length_digest (a : DigestAlgorithm) (message : List UInt8) :
    2 * (a.digest message).length = a.hexLength := by
  cases a
  simp [digest, hexLength]

end DigestAlgorithm

structure Signature where
  text : String
deriving DecidableEq

namespace Signature

def wellFormed (s : String) : Bool :=
  s.toList.length == 40 && s.toList.all Text.isHexDigit

def compute (a : DigestAlgorithm) (message : List UInt8) : Signature :=
  ⟨Text.hex (a.digest message)⟩

def parse? (s : String) : Option Signature :=
  if wellFormed s then some ⟨s⟩ else none

def matchesText (s : Signature) (claimed : String) : Bool :=
  s.text == claimed

/-- Why a text is refused as a signature. -/
structure Malformed where
  value : String
deriving DecidableEq

namespace Malformed

def message (m : Malformed) : String :=
  "signature ('" ++ m.value ++ "') is not allowed"

end Malformed

def parse (s : String) : Except Malformed Signature :=
  match parse? s with
  | some sig => .ok sig
  | none => .error ⟨s⟩

theorem parse?_eq_some_iff {s : String} {sig : Signature} :
    parse? s = some sig ↔ wellFormed s = true ∧ sig = ⟨s⟩ := by
  by_cases h : wellFormed s = true <;> simp [parse?, h, eq_comm]

theorem wellFormed_compute (a : DigestAlgorithm) (message : List UInt8) :
    wellFormed (compute a message).text = true := by
  simp [wellFormed, compute, Text.hex, DigestAlgorithm.hexLength,
    Text.all_isHexDigit_hexChars]

end Signature

end EventSeal
