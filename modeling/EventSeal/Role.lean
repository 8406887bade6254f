import EventSeal.Decimal.Signed
import EventSeal.Text.Blank

/-!
# Roles and tiers

A caller has a rank, a 32-bit integer, and a rank belongs to one tier.
What is asked of a caller is a tier. A caller meets exactly the tier he
is in, with one exception: the superuser, who holds the largest rank there
is, meets every tier from normal upward.
-/

namespace EventSeal

/-- Tiers, lowest first. -/
inductive Tier
  | banned
  | anonymous
  | normal
  | developer
  | admin
  | superuser
deriving DecidableEq

namespace Tier

def all : List Tier :=
  [banned, anonymous, normal, developer, admin, superuser]

def name : Tier → String
  | banned => "banned"
  | anonymous => "anonymous"
  | normal => "normal"
  | developer => "developer"
  | admin => "admin"
  | superuser => "superuser"

def ofName? (s : String) : Option Tier :=
  all.find? (·.name == s)

def level : Tier → Nat
  | banned => 0
  | anonymous => 1
  | normal => 2
  | developer => 3
  | admin => 4
  | superuser => 5

def compare (t u : Tier) : Ordering :=
  Ord.compare t.level u.level

end Tier

structure Role where
  rank : Int32
deriving DecidableEq

namespace Role

def banned : Role := ⟨-2⟩

def anonymous : Role := ⟨-1⟩

def normal : Role := ⟨0⟩

def developer : Role := ⟨2000000000⟩

def admin : Role := ⟨2147483000⟩

/-- The largest rank. -/
def superuser : Role := ⟨2147483647⟩

/-- From the rank of `low` up to and without that of `high`. -/
def between (low high : Role) (r : Role) : Bool :=
  low.rank ≤ r.rank && r.rank < high.rank

def isSuperuser (r : Role) : Bool :=
  r.rank == superuser.rank

def isUser (r : Role) : Bool :=
  r.isSuperuser || between normal developer r

def isDeveloper (r : Role) : Bool :=
  r.isSuperuser || between developer admin r

def isAdmin (r : Role) : Bool :=
  r.isSuperuser || between admin superuser r

def tier (r : Role) : Tier :=
  if r.isSuperuser then .superuser
  else if admin.rank ≤ r.rank then .admin
  else if developer.rank ≤ r.rank then .developer
  else if normal.rank ≤ r.rank then .normal
  else if r.rank = anonymous.rank then .anonymous
  else .banned

def satisfies (r : Role) : Tier → Bool
  | .normal => r.isUser
  | .developer => r.isDeveloper
  | .admin => r.isAdmin
  | .superuser => r.isSuperuser
  | .anonymous => r.tier == .anonymous
  | .banned => r.tier == .banned

def compare (r s : Role) : Ordering :=
  Ord.compare r.rank.toInt s.rank.toInt

/-! ## Text -/

def text (r : Role) : String :=
  Decimal.ofInt r.rank.toInt

/-- Reads a rank, which may have blanks around it. -/
def ofText (s : String) : Except Decimal.IntegerFault Role :=
  (Decimal.readInt32 (Text.trimChars s.toList)).map Role.mk

end Role

namespace Tier

/-- The rank that stands for the tier. -/
def floor : Tier → Role
  | banned => Role.banned
  | anonymous => Role.anonymous
  | normal => Role.normal
  | developer => Role.developer
  | admin => Role.admin
  | superuser => Role.superuser

end Tier

end EventSeal
