import AgentAtlas.Decimal.Layout

/-!
# Faults

What can be wrong with a source, one constructor a cause, and the text of each (`Fault.message`).
The coarse classification (`Fault.kind`) is for callers who care only about the sort of problem.
-/

set_option autoImplicit false

namespace AgentAtlas

/-- The kinds of keyed definitions which divisions refer to. -/
inductive DefinitionKind where
  | platform
  | engine
  | device
  | browser
  deriving DecidableEq, Repr, Inhabited

def DefinitionKind.name : DefinitionKind → String
  | .platform => "platform"
  | .engine => "engine"
  | .device => "device"
  | .browser => "browser"

/-- Where a key has to be unique: within one kind of definitions, or among the records. -/
inductive Namespace where
  | definition (kind : DefinitionKind)
  | division
  deriving DecidableEq, Repr

def Namespace.name : Namespace → String
  | .definition kind => kind.name
  | .division => "division"

/-- Why the system refused an operation on a path. -/
inductive SystemFault where
  | notFound
  | busy
  | notDirectory
  | isDirectory
  | nameTooLong
  /-- Any other refusal, in the system's own words and with its number. -/
  | other (words : String) (number : Nat)
  deriving DecidableEq, Repr

/-- The refusal which a system means by a number, given its words for it. -/
def SystemFault.ofNumber (words : String) : Nat → SystemFault
  | 2 => .notFound
  | 16 => .busy
  | 20 => .notDirectory
  | 21 => .isDirectory
  | 36 => .nameTooLong
  | number => .other words number

def SystemFault.message : SystemFault → String
  | .notFound => "No such file or directory (os error 2)"
  | .busy => "Device or resource busy (os error 16)"
  | .notDirectory => "Not a directory (os error 20)"
  | .isDirectory => "Is a directory (os error 21)"
  | .nameTooLong => "File name too long (os error 36)"
  | .other words number => words ++ " (os error " ++ Decimal.natText number ++ ")"

/-- What is wrong with the structure of a source. -/
inductive StructuralFault where
  | unknownProperty (property key : String)
  | disallowedValue (text property key : String)
  | parentMissing (key : String)
  | parentUnknown (parent key : String)
  | parentLate (parent key : String)
  | parentNotCompiled (parent key : String)
  | labelMissing (path : String)
  | sectionMissing (path heading : String)
  | platformWithoutMatch (platform parent : String)
  | placeholderLeft (pattern parent : String)
  | defaultsMissing (path : String)
  deriving DecidableEq, Repr

/-- A text between quotes. -/
def quoted (s : String) : String := "\"" ++ s ++ "\""

def StructuralFault.message : StructuralFault → String
  | .unknownProperty property key =>
    "property " ++ quoted property ++ " of " ++ quoted key ++ " is not a known property"
  | .disallowedValue text property key =>
    "invalid value " ++ quoted text ++ " for property " ++ quoted property ++ " of " ++ quoted key
  | .parentMissing key => "\"Parent\" is missing for key " ++ quoted key
  | .parentUnknown parent key =>
    "Parent " ++ quoted parent ++ " of " ++ quoted key ++ " does not exist"
  | .parentLate parent key =>
    "Parent " ++ quoted parent ++ " of " ++ quoted key ++ " must be defined before it"
  | .parentNotCompiled parent key =>
    "Parent " ++ quoted parent ++ " of " ++ quoted key ++ " was not compiled"
  | .labelMissing path => "\"division\" is missing in file " ++ quoted path
  | .sectionMissing path heading =>
    "file " ++ quoted path ++ " has no " ++ quoted heading ++ " section"
  | .platformWithoutMatch platform parent =>
    "platform " ++ quoted platform ++ " used by a child of " ++ quoted parent ++ " has no match"
  | .placeholderLeft pattern parent =>
    "match " ++ quoted pattern ++ " of a child of " ++ quoted parent ++
      " still contains a placeholder"
  | .defaultsMissing path => "\"DefaultProperties\" is not defined in " ++ quoted path

/-- What can be wrong with a source or a delivery. -/
inductive Fault where
  | missingDirectory (path : String)
  | missingFile (path : String)
  | system (path : String) (cause : SystemFault)
  | emptyDirectory (path : String)
  | emptyFile (path : String)
  | malformed (path : String)
  | nonAscii (path : String)
  | duplicate (space : Namespace) (key : String)
  | notFound (space : Namespace) (key : String)
  | structural (cause : StructuralFault)
  deriving DecidableEq, Repr

/-- The sorts of problems. -/
inductive FaultKind where
  | system
  | format
  | encoding
  | duplicateKey
  | structural
  | notFound
  deriving DecidableEq, Repr

namespace Fault

def message : Fault → String
  | missingDirectory path => "Directory " ++ quoted path ++ " does not exist."
  | missingFile path => "File " ++ quoted path ++ " does not exist."
  | system path cause => "IO error on " ++ quoted path ++ ": " ++ cause.message
  | emptyDirectory path => "Directory " ++ quoted path ++ " was empty."
  | emptyFile path => "File " ++ quoted path ++ " was empty."
  | malformed path => "File " ++ quoted path ++ " had invalid JSON."
  | nonAscii path => "File " ++ quoted path ++ " contains Non-ASCII-Characters."
  | duplicate space key =>
    "it was tried to add " ++ space.name ++ " " ++ quoted key ++
      ", but this was already added before"
  | notFound space key => space.name ++ " " ++ quoted key ++ " not found"
  | structural cause => "Structure error: " ++ cause.message

def kind : Fault → FaultKind
  | missingDirectory _ | missingFile _ | system _ _ => .system
  | emptyDirectory _ | emptyFile _ | malformed _ => .format
  | nonAscii _ => .encoding
  | duplicate _ _ => .duplicateKey
  | notFound _ _ => .notFound
  | structural _ => .structural

end Fault

end AgentAtlas
