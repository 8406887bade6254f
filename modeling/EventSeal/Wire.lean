import EventSeal.Digest.Signature
import EventSeal.Json.Choice
import EventSeal.Mode
import EventSeal.Role

/-!
# Small wire forms

Modes, tiers and digest algorithms are choices among names, a role is its
rank, and a signature is its text. Nothing is asked of that text here.
-/

namespace EventSeal

open Json

namespace Mode

def offered (s : String) : Option Mode :=
  if s = "dev" then some development
  else if s = "prod" ∨ s = "production" then some production
  else none

def ofBytes (bs : List UInt8) : Except Fault Mode :=
  Choice.ofBytes offered bs

def value (m : Mode) : Value :=
  .text m.name

end Mode

namespace Tier

def ofBytes (bs : List UInt8) : Except Fault Tier :=
  Choice.ofBytes ofName? bs

def value (t : Tier) : Value :=
  .text t.name

end Tier

namespace DigestAlgorithm

def offered (s : String) : Option DigestAlgorithm :=
  if s = name .sha1 then some .sha1 else none

def ofBytes (bs : List UInt8) : Except Fault DigestAlgorithm :=
  Choice.ofBytes offered bs

def value (a : DigestAlgorithm) : Value :=
  .text a.name

end DigestAlgorithm

namespace Role

def ofBytes (bs : List UInt8) : Except Fault Role := do
  let n ← (Document.ofBytes bs).read Tree.int32
  return ⟨n⟩

def value (r : Role) : Value :=
  .number (.whole r.rank.toInt)

end Role

namespace Signature

def ofBytes (bs : List UInt8) : Except Fault Signature := do
  let s ← (Document.ofBytes bs).read Tree.text
  return ⟨s⟩

def value (s : Signature) : Value :=
  .text s.text

end Signature

end EventSeal
