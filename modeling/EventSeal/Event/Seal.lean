import EventSeal.Digest.Signature
import EventSeal.Event.Basic

/-!
# Sealing events

The signature of an event covers its canonical text: the nine texts of the
body and the time in decimal, one after the other with nothing between
them. There is no key, so a seal that holds says that the body is as it was
when it was signed, and nothing about who signed it.

Verification fails closed: a missing event, an empty signature and one
that differs in as little as the case of a letter do not verify.
-/

namespace EventSeal

namespace Event

namespace Body

def canonicalText (b : Body) : String :=
  b.id ++ b.project ++ b.version ++ b.context ++ b.entity ++ b.event ++ b.source
    ++ b.params ++ b.accessToken ++ Decimal.ofInt b.createdAt.toInt

def canonicalBytes (b : Body) : List UInt8 :=
  Text.bytes b.canonicalText

def signature (b : Body) : Signature :=
  Signature.compute .sha1 b.canonicalBytes

def verifies (b : Body) (claimed : String) : Bool :=
  if claimed = "" then false else b.signature.matchesText claimed

end Body

def isUnsigned (e : Event) : Bool :=
  e.sign == ""

/-- The event with the signature of its present body. -/
def signed (e : Event) : Event :=
  { e with sign := e.toBody.signature.text }

def verifies (e : Event) : Bool :=
  if e.sign = "" then false else e.toBody.verifies e.sign

/-- A stored signature that is none. -/
structure InvalidSignature where
  cause : Signature.Malformed
deriving DecidableEq

def InvalidSignature.message (e : InvalidSignature) : String :=
  "invalid signature: " ++ e.cause.message

/-- The stored signature, if it has the form of one. -/
def signature (e : Event) : Except InvalidSignature Signature :=
  match Signature.parse e.sign with
  | .ok s => .ok s
  | .error m => .error ⟨m⟩

end Event

/-! ## Events that may be absent

Every reading of an absent event is the zero value of its kind. -/

namespace OptionalEvent

def isPresent (e : Option Event) : Bool :=
  e.isSome

def isUnsigned : Option Event → Bool
  | none => true
  | some e => e.isUnsigned

def verifies : Option Event → Bool
  | none => false
  | some e => e.verifies

def part (e : Option Event) (p : Event.Part) : String :=
  match e with
  | none => ""
  | some e => e.toBody.get p

def sign : Option Event → String
  | none => ""
  | some e => e.sign

def createdAt : Option Event → Int64
  | none => 0
  | some e => e.createdAt

def label (e : Option Event) (l : Label) : String :=
  match e with
  | none => ""
  | some e => l.text e.coordinates

end OptionalEvent

end EventSeal
