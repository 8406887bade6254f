/-!
# Labels

Where an event belongs, as the texts that logs, addresses and storage use
for it. Every label is a plain concatenation with fixed separators. Codes
may hold the separators themselves, so different coordinates can have the
same label.
-/

namespace EventSeal

structure Coordinates where
  project : String
  context : String
  entity : String
  event : String
  version : String
deriving DecidableEq

/-- Where the entities of a context are stored. -/
def tableName (context entity : String) : String :=
  context ++ "_" ++ entity

namespace Coordinates

def blank : Coordinates :=
  ⟨"", "", "", "", ""⟩

def entityName (c : Coordinates) : String :=
  c.project ++ "." ++ c.context ++ "." ++ c.entity

def fullName (c : Coordinates) : String :=
  c.entityName ++ "->" ++ c.event

def uniqueName (c : Coordinates) : String :=
  c.fullName ++ "@" ++ c.version

def entityUrl (c : Coordinates) : String :=
  "/" ++ c.project ++ "/" ++ c.context ++ "/" ++ c.entity

def versionedEntityName (c : Coordinates) : String :=
  c.entityName ++ "@" ++ c.version

def tableName (c : Coordinates) : String :=
  EventSeal.tableName c.context c.entity

end Coordinates

/-- The six labels of a set of coordinates. -/
inductive Label
  | fullName
  | uniqueName
  | entityUrl
  | entityName
  | versionedEntityName
  | tableName
deriving DecidableEq

namespace Label

def all : List Label :=
  [fullName, uniqueName, entityUrl, entityName, versionedEntityName, tableName]

def name : Label → String
  | fullName => "fullName"
  | uniqueName => "uniqueName"
  | entityUrl => "entityUrl"
  | entityName => "entityName"
  | versionedEntityName => "versionedEntityName"
  | tableName => "tableName"

def text : Label → Coordinates → String
  | fullName, c => c.fullName
  | uniqueName, c => c.uniqueName
  | entityUrl, c => c.entityUrl
  | entityName, c => c.entityName
  | versionedEntityName, c => c.versionedEntityName
  | tableName, c => c.tableName

end Label

end EventSeal
