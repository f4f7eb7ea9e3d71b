import AgentAtlas.Json.Printer
import AgentAtlas.Json.Shape

/-!
# Build configuration

The version, the release date and the comment lines which the head of an artifact shows.
-/

set_option autoImplicit false

namespace AgentAtlas

/-- What the head of an artifact shows, as far as it is configured. -/
structure Config where
  version? : Option String
  released? : Option String
  comments : List String
  deriving DecidableEq, Repr

namespace Config

/-- The comment lines of an artifact without configured ones. -/
def defaultComments : List String :=
  ["Provided courtesy of https://browscap.org/",
    "Created and maintained by the Browser Capabilities Project",
    "Do NOT edit manually: this file is generated from the browscap resource tree."]

/-- Nothing configured. -/
def default : Config := ⟨none, none, defaultComments⟩

instance : Inhabited Config := ⟨default⟩

/-- The configuration which a tree describes. -/
def ofTree? (t : Json.Tree) : Option Config := do
  let fields ← t.record? ["version", "released", "comments"]
  return {
    version? := ← Json.Tree.optional? fields "version" none Json.Tree.textOrNull?
    released? := ← Json.Tree.optional? fields "released" none Json.Tree.textOrNull?
    comments := ← Json.Tree.optional? fields "comments" defaultComments
      (Json.Tree.list? Json.Tree.text?) }

/-- Another version, where one is given. -/
def withVersion (config : Config) (version? : Option String) : Config :=
  { config with version? := version?.or config.version? }

/-- Another release date, where one is given. -/
def withReleased (config : Config) (released? : Option String) : Config :=
  { config with released? := released?.or config.released? }

/-- The version shown. -/
def version (config : Config) : String := config.version?.getD "0"

/-- The release date shown. -/
def released (config : Config) : String := config.released?.getD ""

/-- A text, or `null` for none. -/
def textOrNull : Option String → Json
  | some s => .string s
  | none => .null

/-- The configuration as a value. -/
def toJson (config : Config) : Json :=
  .object [
    ("version", textOrNull config.version?),
    ("released", textOrNull config.released?),
    ("comments", .array (config.comments.map .string))]

end Config

end AgentAtlas
