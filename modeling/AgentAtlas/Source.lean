import AgentAtlas.Collection
import AgentAtlas.Config
import AgentAtlas.Disk
import AgentAtlas.Division.Expansion

/-!
# Resource trees

A resource tree is a directory with four directories of definition files, one of division files, two
core division files and, if there is one, a configuration file. Loading looks first for every
directory and file it needs, then adds the definitions, the two core divisions, and the other
divisions by their sort index. Files of a directory are taken in the order of their names, whatever
order the disk lists them in, and only those with the extension `json`.

A source is what a build starts from: a configuration and a collection, each of which may fail.
-/

set_option autoImplicit false

namespace AgentAtlas

open Json (Tree)

/-- What a build starts from. -/
structure Source where
  config : Except Fault Config
  collection : Except Fault Collection

/-- Records one after the other in an empty collection. -/
def Collection.ofRecords (records : List Record) : Except Fault Collection :=
  records.foldlM Collection.add .empty

/-- Records which are there already, with a configuration. -/
def Source.ofRecords (config : Config) (records : List Record) : Source where
  config := .ok config
  collection := Collection.ofRecords records

namespace ResourceTree

/-! ## Files -/

/-- The blanks of ASCII. -/
def isAsciiBlank (b : UInt8) : Bool := b == 0x20 || b == 0x09 || b == 0x0A || b == 0x0C || b == 0x0D

def isAscii (b : UInt8) : Bool := b < 0x80

/-- The characters of ASCII bytes. -/
def asciiChars (content : Bytes) : List Char := content.map fun b => Char.ofNat b.toNat

/-- What a file describes: it has to hold more than blanks, only ASCII, and JSON of the right shape.
-/
def describe {α : Type} (path : String) (ofTree? : Tree → Option α) (content : Bytes) :
    Except Fault α :=
  if content.all isAsciiBlank then .error (.emptyFile path)
  else if !content.all isAscii then .error (.nonAscii path)
  else
    match (Tree.ofChars? (asciiChars content)).bind ofTree? with
    | some described => .ok described
    | none => .error (.malformed path)

/-- What the file of a path describes. -/
def readFile {α : Type} (disk : Disk) (path : String) (ofTree? : Tree → Option α) :
    Except Fault α :=
  match disk.read path with
  | .ok content => describe path ofTree? content
  | .error cause => .error (.system path cause)

/-- The path of a directory which has to be there. -/
def requireDirectory (disk : Disk) (path : String) : Except Fault Unit :=
  if disk.isDirectory path then .ok () else .error (.missingDirectory path)

/-- The path of a file which has to be there. -/
def requireFile (disk : Disk) (path : String) : Except Fault Unit :=
  if disk.isFile path then .ok () else .error (.missingFile path)

/-- File names in order. -/
def sortNames (names : List String) : List String := names.mergeSort fun a b => a ≤ b

/-- Whether a file of this name describes something. -/
def isDescription (name : String) : Bool := Path.extension? name == some "json"

/-- The paths of the JSON files in a directory, in the order of their names; there has to be one. -/
def jsonFiles (disk : Disk) (directory : String) : Except Fault (List String) := do
  requireDirectory disk directory
  let names := (disk.names directory).filter fun name =>
    isDescription name && disk.isFile (Path.join directory name)
  if names.isEmpty then throw (.emptyDirectory directory)
  return (sortNames names).map (Path.join directory)

/-! ## Layout -/

/-- The kinds of definitions in the order in which they are loaded. -/
def kinds : List DefinitionKind := [.platform, .engine, .device, .browser]

/-- The directory of a kind's definition files, and the section that holds the definitions in them.
-/
def heading : DefinitionKind → String
  | .platform => "platforms"
  | .engine => "engines"
  | .device => "devices"
  | .browser => "browsers"

def agentsDirectory : String := "user-agents"

def defaultPropertiesFile : String := "core/default-properties.json"

def defaultBrowserFile : String := "core/default-browser.json"

def configFile : String := "browscap.json"

/-- The directories with descriptions in them. -/
def directories : List String := kinds.map heading ++ [agentsDirectory, "core"]

/-- The paths of everything a resource tree is read from. -/
structure Layout where
  /-- The definition files of each kind. -/
  definitions : List (DefinitionKind × List String)
  /-- The division files besides the core ones. -/
  divisions : List String
  /-- The core division files. -/
  core : List String
  deriving DecidableEq, Repr

/-- Find everything a resource tree is read from. -/
def layout (disk : Disk) (root : String) : Except Fault Layout := do
  requireDirectory disk root
  let definitions ← kinds.mapM fun kind =>
    return (kind, ← jsonFiles disk (Path.join root (heading kind)))
  let divisions ← jsonFiles disk (Path.join root agentsDirectory)
  let core := [defaultPropertiesFile, defaultBrowserFile].map (Path.join root)
  core.forM (requireFile disk)
  return ⟨definitions, divisions, core⟩

/-! ## Loading -/

/-- Add the definitions of one file. -/
def addDefinitions (disk : Disk) (kind : DefinitionKind) (c : Collection) (path : String) :
    Except Fault Collection := do
  let sections ← readFile disk path Sections.ofTree?
  match sections.get? (heading kind) with
  | none => throw (.structural (.sectionMissing path (heading kind)))
  | some definitions =>
    definitions.entries.foldlM (fun c e => c.addDefinition kind e.1 e.2) c

/-- Add the records of a division. -/
def addDivision (c : Collection) (division : String × Division) : Except Fault Collection :=
  match c.applyDivision division.2 division.1 with
  | (last, .ok _) => .ok last
  | (_, .error fault) => .error fault

/-- Divisions by sort index; those of one index keep their order. -/
def sortDivisions (divisions : List (String × Division)) : List (String × Division) :=
  divisions.mergeSort fun a b => a.2.sortIndex ≤ b.2.sortIndex

/-- Load a resource tree. -/
def load (disk : Disk) (root : String) : Except Fault Collection := do
  let found ← layout disk root
  let defined ← found.definitions.foldlM
    (fun c files => files.2.foldlM (addDefinitions disk files.1) c) Collection.empty
  let core ← found.core.foldlM
    (fun c path => do addDivision c (path, ← readFile disk path Division.ofTree?)) defined
  let divisions ← found.divisions.mapM fun path =>
    return (path, ← readFile disk path Division.ofTree?)
  let loaded ← (sortDivisions divisions).foldlM addDivision core
  if (loaded.indexOf? defaultProperties).isNone then
    throw (.structural (.defaultsMissing (Path.join root defaultPropertiesFile)))
  return loaded

/-- The configuration of a resource tree. -/
def config (disk : Disk) (root : String) : Except Fault Config :=
  let path := Path.join root configFile
  if disk.contains path then readFile disk path Config.ofTree? else .ok .default

end ResourceTree

/-- The source that a resource tree is. -/
def Source.ofTree (disk : Disk) (root : String) : Source where
  config := ResourceTree.config disk root
  collection := ResourceTree.load disk root

end AgentAtlas
