import EventSeal.Json.Coercion
import EventSeal.Text.Lowercase

/-!
# Deployment modes

Production has to be asked for by name, in any case of letters. Everything
else, also a misspelling, is development.
-/

namespace EventSeal

open Json

inductive Mode
  | development
  | production
deriving DecidableEq

namespace Mode

def isProductionText (s : String) : Bool :=
  let t := Text.lowercase s
  t == "prod" || t == "production"

/-- For a value that may be absent or of any type. -/
def isProductionValue (v : Option Value) : Bool :=
  isProductionText (coerceText v)

def ofText (s : String) : Mode :=
  if isProductionText s then production else development

def ofValue (v : Option Value) : Mode :=
  if isProductionValue v then production else development

def isProduction (m : Mode) : Bool :=
  m == production

def name : Mode → String
  | development => "dev"
  | production => "prod"

end Mode

end EventSeal
