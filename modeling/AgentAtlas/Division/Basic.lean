import AgentAtlas.Json.Shape
import AgentAtlas.Record

/-!
# Division files and definition files

A division file holds user agents with their children; both may refer to definitions by key. A
definition file holds sections of keyed definitions. User agents and children are open records:
their further fields have to be values, and count towards the nesting of the file.
-/

set_option autoImplicit false

namespace AgentAtlas

open Json (Tree)

/-- References to definitions. -/
structure References where
  browser? : Option String
  engine? : Option String
  device? : Option String
  platform? : Option String
  deriving DecidableEq, Repr

/-- A child of a user agent, which expands once per listed platform and device. -/
structure Child where
  /-- The name of the child, with placeholders for platform and device. -/
  pattern : String
  references : References
  /-- Keys of platforms. -/
  platforms : List String
  /-- Keys of devices under the texts that stand for them. -/
  devices : Keyed String String
  properties : Properties
  deriving DecidableEq, Repr

/-- A user agent with its children. -/
structure Agent where
  name : String
  references : References
  properties : Properties
  children : List Child
  deriving DecidableEq, Repr

/-- A division file. -/
structure Division where
  label? : Option String
  /-- Where the file stands among the others. -/
  sortIndex : Int
  agents : List Agent
  deriving DecidableEq, Repr

/-- The sections of a definition file. -/
abbrev Sections := Keyed String (Keyed String Definition)

/-- The properties which a tree describes. -/
def Properties.ofTree? (t : Tree) : Option Properties := t.map? Property.Value.ofTree?

namespace References

def fieldNames : List String := ["browser", "engine", "device", "platform"]

/-- The references among the fields of a record. -/
def ofFields? (fields : Tree.Fields) : Option References := do
  return {
    browser? := ← Tree.optional? fields "browser" none Tree.textOrNull?
    engine? := ← Tree.optional? fields "engine" none Tree.textOrNull?
    device? := ← Tree.optional? fields "device" none Tree.textOrNull?
    platform? := ← Tree.optional? fields "platform" none Tree.textOrNull? }

end References

/-- The child which a tree describes. -/
def Child.ofTree? (levels : Nat) (t : Tree) : Option Child := do
  let names := ["match", "platforms", "devices", "properties"] ++ References.fieldNames
  let fields ← t.openRecord? names levels
  return {
    pattern := ← Tree.required? fields "match" Tree.text?
    references := ← References.ofFields? fields
    platforms := ← Tree.optional? fields "platforms" [] (Tree.list? Tree.text?)
    devices := ← Tree.optional? fields "devices" .empty (Tree.map? Tree.text?)
    properties := ← Tree.optional? fields "properties" .empty Properties.ofTree? }

/-- The user agent which a tree describes. Its children stand two levels below it. -/
def Agent.ofTree? (levels : Nat) (t : Tree) : Option Agent := do
  let names := ["userAgent", "properties", "children"] ++ References.fieldNames
  let fields ← t.openRecord? names levels
  return {
    name := ← Tree.required? fields "userAgent" Tree.text?
    references := ← References.ofFields? fields
    properties := ← Tree.optional? fields "properties" .empty Properties.ofTree?
    children := ← Tree.optional? fields "children" [] (Tree.list? (Child.ofTree? (levels - 2))) }

/-- The least integer of 64 bits with a sign. -/
def leastSortIndex : Int := -0x8000000000000000

/-- The greatest integer of 64 bits with a sign. -/
def greatestSortIndex : Int := 0x7FFFFFFFFFFFFFFF

/-- An integer literal within 64 bits with a sign. -/
def sortIndexOfTree? : Tree → Option Int
  | .number n => n.integer?.filter fun i => leastSortIndex ≤ i && i ≤ greatestSortIndex
  | _ => none

/-- The division which a tree describes. Its user agents stand two levels below it. -/
def Division.ofTree? (t : Tree) : Option Division := do
  let fields ← t.record? ["division", "sortIndex", "userAgents"]
  return {
    label? := ← Tree.optional? fields "division" none Tree.textOrNull?
    sortIndex := ← Tree.optional? fields "sortIndex" 0 sortIndexOfTree?
    agents := ← Tree.optional? fields "userAgents" []
      (Tree.list? (Agent.ofTree? (Json.nestingLimit - 2))) }

/-- The definition which a tree describes. -/
def Definition.ofTree? (t : Tree) : Option Definition := do
  let fields ← t.record? ["match", "properties"]
  return {
    fragment? := ← Tree.optional? fields "match" none Tree.textOrNull?
    properties := ← Tree.optional? fields "properties" .empty Properties.ofTree? }

/-- The sections which a tree describes. -/
def Sections.ofTree? (t : Tree) : Option Sections := t.map? (Tree.map? Definition.ofTree?)

end AgentAtlas
