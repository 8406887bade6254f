import EventSeal.Entity
import EventSeal.Event.Seal
import EventSeal.Role
import EventSeal.Version

/-!
# The gate

Whether an event may act on an entity. The conditions have a fixed order,
and the first one that fails is the reason for rejecting the event: the
seal, the caller's tier, the entity being live and the one meant, the
project owning the version, the version being the one meant and online.
-/

namespace EventSeal

inductive Rejection
  | badSignature
  | forbidden (role : Role) (required : Tier)
  | entityDeleted (code : String)
  | entityMismatch (event entity : String)
  | projectMismatch (event version : String)
  | versionMismatch (event version : String)
  | versionOffline (label : String)
deriving DecidableEq

namespace Rejection

def reason : Rejection → String
  | badSignature => "signature does not verify"
  | forbidden role required => "role " ++ role.text ++ " is not " ++ required.name
  | entityDeleted code => "entity " ++ code ++ " is deleted"
  | entityMismatch event entity =>
      "event targets entity " ++ event ++ " but entity record is " ++ entity
  | projectMismatch event version =>
      "event project " ++ event ++ " does not own version of project " ++ version
  | versionMismatch event version => "event version " ++ event ++ " does not match " ++ version
  | versionOffline label => "version " ++ label ++ " is offline"

def message (r : Rejection) : String :=
  "event rejected: " ++ r.reason

end Rejection

namespace Gate

def check (role : Role) (required : Tier) (event : Event) (entity : Entity)
    (version : Version) : Except Rejection Unit :=
  if event.toBody.verifies event.sign = false then .error .badSignature
  else if role.satisfies required = false then .error (.forbidden role required)
  else if entity.isDeleted = true then .error (.entityDeleted entity.code)
  else if entity.code ≠ event.entity then .error (.entityMismatch event.entity entity.code)
  else if version.project ≠ event.project then
    .error (.projectMismatch event.project version.project)
  else if version.matchesLabel event.version = false then
    .error (.versionMismatch event.version version.label)
  else if version.online = false then .error (.versionOffline version.label)
  else .ok ()

end Gate

end EventSeal
