import AgentAtlas.Collection
import AgentAtlas.Division.Basic
import AgentAtlas.Text.Separated

/-!
# Records of a division

A user agent is one record under its own name. Each child becomes one record for every pair of a
listed platform and a listed device, platforms outermost; an empty list stands for a single pass
without one. The text of a platform takes the place of `#PLATFORM#` in the child's name, then that
of a device the place of `#DEVICE#`. Later properties replace earlier ones: those of the referenced
browser, engine, device and platform, then of the listed platform and device, then the own ones.

`Division.steps` is the whole sequence of records, cut off by the first fault; a faulty child yields
no record at all. `Collection.applyDivision` adds the sequence as far as it goes.
-/

set_option autoImplicit false

namespace AgentAtlas

/-- What a child's name holds where the platform goes. -/
def platformPlaceholder : List Char := "#PLATFORM#".toList

/-- What a child's name holds where the device goes. -/
def devicePlaceholder : List Char := "#DEVICE#".toList

/-- The properties of a referenced definition, none without a reference. -/
def Definitions.referred (defs : Definitions) (kind : DefinitionKind) :
    Option String → Except Fault Properties
  | none => .ok .empty
  | some key => (defs.find kind key).map Definition.properties

/-- The properties of all referenced definitions. -/
def References.properties (refs : References) (defs : Definitions) : Except Fault Properties := do
  let browser ← defs.referred .browser refs.browser?
  let engine ← defs.referred .engine refs.engine?
  let device ← defs.referred .device refs.device?
  let platform ← defs.referred .platform refs.platform?
  return ((browser.overlay engine).overlay device).overlay platform

/-- The passes over a list: one for each entry, or a single one without any. -/
def passes {α : Type} : List α → List (Option α)
  | [] => [none]
  | entries => entries.map some

namespace Child

/-- A platform of a pass, with its key. -/
abbrev Platform := String × Definition

/-- A device of a pass, with the text that stands for it. -/
abbrev Device := String × Definition

/-- The name of a child with the text of a platform. -/
def withPlatform (parent : String) (name : List Char) :
    Option Platform → Except Fault (List Char)
  | none => .ok name
  | some (key, definition) =>
    match definition.fragment? with
    | none => .error (.structural (.platformWithoutMatch key parent))
    | some fragment => .ok (Text.replace platformPlaceholder fragment.toList name)

/-- The name of a child with the text of a device. -/
def withDevice (name : List Char) : Option Device → List Char
  | none => name
  | some (text, _) => Text.replace devicePlaceholder text.toList name

/-- The properties of a pass's definition. -/
def listed : Option (String × Definition) → Properties
  | none => .empty
  | some (_, definition) => definition.properties

/-- The name and the properties of one pass. -/
def expandOne (child : Child) (parent : String) (base : Properties)
    (platform : Option Platform) (device : Option Device) : Except Fault (String × Properties) := do
  let name := withDevice (← withPlatform parent child.pattern.toList platform) device
  if Text.occurs platformPlaceholder name || Text.occurs devicePlaceholder name then
    throw (.structural (.placeholderLeft (String.ofList name) parent))
  return (String.ofList name,
    ((base.overlay (listed platform)).overlay (listed device)).overlay child.properties)

/-- The names and properties of all passes. -/
def expand (child : Child) (defs : Definitions) (parent : String) :
    Except Fault (List (String × Properties)) := do
  let platforms ← child.platforms.mapM fun key => return (key, ← defs.find .platform key)
  let devices ← child.devices.entries.mapM fun (text, key) => return (text, ← defs.find .device key)
  let base ← child.references.properties defs
  let pairs := (passes platforms).flatMap fun p => (passes devices).map fun d => (p, d)
  pairs.mapM fun (p, d) => child.expandOne parent base p d

end Child

/-- The next record of a sequence, or why there is none. -/
abbrev Step := Except Fault Record

namespace Agent

/-- The record of a user agent itself. -/
def record (agent : Agent) (defs : Definitions) (label : String) : Step := do
  let base ← agent.references.properties defs
  return Record.make agent.name label (base.overlay agent.properties)

/-- The records of a child of the agent, all or none. -/
def childSteps (agent : Agent) (defs : Definitions) (label : String) (child : Child) : List Step :=
  match child.expand defs agent.name with
  | .ok expanded => expanded.map fun (name, properties) =>
    .ok ((Record.make name label properties).under agent.name)
  | .error fault => [.error fault]

/-- The record of the agent and those of its children. -/
def steps (agent : Agent) (defs : Definitions) (label : String) : List Step :=
  agent.record defs label :: agent.children.flatMap (agent.childSteps defs label)

end Agent

/-- The records of a division file in order, with the faults in their places. -/
def Division.steps (division : Division) (defs : Definitions) (path : String) : List Step :=
  match division.label? with
  | none => [.error (.structural (.labelMissing path))]
  | some label => division.agents.flatMap fun agent => agent.steps defs label

namespace Collection

/-- Add records up to the first fault: what is then in the collection, the number of added records,
and the fault. -/
def addSteps (c : Collection) : List Step → Collection × Nat × Option Fault
  | [] => (c, 0, none)
  | .error fault :: _ => (c, 0, some fault)
  | .ok record :: rest =>
    match c.add record with
    | .error fault => (c, 0, some fault)
    | .ok next =>
      let (last, count, fault?) := next.addSteps rest
      (last, count + 1, fault?)

/-- Add the records of a division file. After a fault the records before it are in the collection.
-/
def applyDivision (c : Collection) (division : Division) (path : String) :
    Collection × Except Fault Nat :=
  match c.addSteps (division.steps c.definitions path) with
  | (last, count, none) => (last, .ok count)
  | (last, _, some fault) => (last, .error fault)

end Collection

end AgentAtlas
