import AgentAtlas.Document
import AgentAtlas.Source

/-!
# Checking and building

A check loads, reduces and compiles a source and reports its sizes; a build also renders the
artifact in a flavor and a format. Both report in messages for the user.
-/

set_option autoImplicit false

namespace AgentAtlas

/-- What a build is asked for. -/
structure BuildOptions where
  flavor : Flavor := .full
  format : Format := .json
  /-- The version to show instead of the configured one. -/
  version? : Option String := none
  /-- The release date to show instead of the configured one. -/
  released? : Option String := none
  deriving DecidableEq, Repr

/-- How a message is meant. -/
inductive Level where
  | info
  | success
  | warning
  deriving DecidableEq, Repr

/-- A message for the user. -/
structure Message where
  level : Level
  text : String
  deriving DecidableEq, Repr

/-- The sizes of what a run went through. -/
structure Stats where
  records : Nat
  definitions : Nat
  rows : Nat
  patterns : Nat
  parents : Nat
  deriving DecidableEq, Repr

/-- What a run reports. -/
structure Report where
  /-- The document, of a build. -/
  document? : Option String
  stats : Stats
  messages : List Message
  deriving DecidableEq, Repr

namespace Stats

/-- The sizes of a collection and its artifact. -/
def of (c : Collection) (artifact : Artifact) : Stats where
  records := c.records.length
  definitions := c.definitions.count
  rows := artifact.rows.size
  patterns := artifact.patterns.size
  parents := artifact.parents.size

/-- The messages of a check. -/
def checkMessages (stats : Stats) : List Message :=
  [⟨.info, Decimal.natText stats.definitions ++ " definitions, " ++
      Decimal.natText stats.records ++ " records, " ++
      Decimal.natText stats.patterns ++ " patterns."⟩] ++
    (if stats.patterns = 0 then [⟨.warning, "No record produces a pattern."⟩] else []) ++
    [⟨.success, "Resources are valid."⟩]

/-- The message of a build. -/
def buildMessage (stats : Stats) (flavor : Flavor) (version : String) : Message :=
  ⟨.success, "Compiled " ++ Decimal.natText stats.rows ++ " rows and " ++
    Decimal.natText stats.patterns ++ " patterns (" ++ flavor.name ++ " flavor, version " ++
    version ++ ")."⟩

end Stats

namespace Source

/-- The collection of a source and its artifact in a flavor. -/
def compile (source : Source) (catalog : Catalog) (flavor : Flavor) :
    Except Fault (Collection × Artifact) := do
  let c ← source.collection
  let rows ← c.rows catalog flavor
  return (c, ← Artifact.compile rows)

/-- Validate a source. -/
def check (source : Source) (catalog : Catalog) : Except Fault Report := do
  let _ ← source.config
  let (c, artifact) ← source.compile catalog .full
  let stats := Stats.of c artifact
  return ⟨none, stats, stats.checkMessages⟩

/-- Build the artifact of a source. -/
def build (source : Source) (catalog : Catalog) (options : BuildOptions) :
    Except Fault Report := do
  let config := ((← source.config).withVersion options.version?).withReleased options.released?
  let (c, artifact) ← source.compile catalog options.flavor
  let stats := Stats.of c artifact
  return ⟨some (Document.text options.format config artifact), stats,
    [stats.buildMessage options.flavor config.version]⟩

end Source

end AgentAtlas
