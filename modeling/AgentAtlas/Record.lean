import AgentAtlas.Property.Value

/-!
# Records and definitions

A record is one entry of the capability hierarchy; its key is also the user-agent name it stands
for, except for the abstract root. A `Parent` among the properties of a new record becomes its
parent link, so no record holds a property of that name (`properties_make`).
-/

set_option autoImplicit false

namespace AgentAtlas

/-- The key of the abstract root. -/
def defaultProperties : String := "DefaultProperties"

/-- The key of the record which matches every user agent. -/
def defaultBrowser : String := "*"

/-- A bundle of properties which records take over by its key. -/
structure Definition where
  /-- What stands for the platform in the match texts of children. -/
  fragment? : Option String
  properties : Properties
  deriving Repr, DecidableEq, Inhabited

/-- One entry of the hierarchy. -/
@[ext]
structure Record where
  key : String
  /-- The key of the parent. -/
  parent? : Option String
  /-- The label of the division it comes from. -/
  division : String
  properties : Properties
  /-- The parent is a link and no property. -/
  parentFree : properties.get? Property.parentName = none

namespace Record

/-- The record of a key with its properties; a `Parent` among them becomes the link. -/
def make (key division : String) (properties : Properties) : Record where
  key := key
  parent? := (properties.get? Property.parentName).map fun value => Text.trim value.display
  division := division
  properties := properties.erase Property.parentName
  parentFree := by rw [Keyed.get?_erase, if_pos rfl]

/-- The record below another parent. -/
def under (record : Record) (parent : String) : Record := { record with parent? := some parent }

/-- The user-agent name which the record stands for. -/
def name? (record : Record) : Option String :=
  if record.key = defaultProperties then none else some record.key

/-- Roots inherit nothing. -/
def isRoot (record : Record) : Bool :=
  record.key == defaultProperties || record.key == defaultBrowser

theorem properties_make (key division : String) (properties : Properties) (name : String) :
    (make key division properties).properties.get? name =
      if name = Property.parentName then none else properties.get? name :=
  properties.get?_erase Property.parentName name

end Record

end AgentAtlas
