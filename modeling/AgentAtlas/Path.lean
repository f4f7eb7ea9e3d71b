import AgentAtlas.Text.Separated

/-!
# Paths

A path is a text of names between slashes. It is absolute if it starts with a slash; empty names and
single points lead nowhere else (`Path.names`), but the text with them is what counts for the length
of a path and what a message shows.
-/

set_option autoImplicit false

namespace AgentAtlas.Path

/-- The greatest number of bytes in a path. -/
def greatestLength : Nat := 4095

/-- The greatest number of bytes in a name. -/
def greatestNameLength : Nat := 255

/-- The parts of a path between its slashes. -/
def parts (path : String) : List String := (Text.split ['/'] path.toList).map String.ofList

/-- Whether a path starts at the root of the system. -/
def isAbsolute (path : String) : Bool := path.toList.head? == some '/'

/-- Whether a path can only name a directory, since it ends with a slash. -/
def endsInSlash (path : String) : Bool := path.toList.getLast? == some '/'

/-- The names which a path follows. -/
def names (path : String) : List String := (parts path).filter fun part => part != "" && part != "."

/-- The paths of everything on the way to a path, the path itself last. -/
def stations (path : String) : List String :=
  (List.range (names path).length).map fun n =>
    (if isAbsolute path then "/" else "") ++ String.intercalate "/" ((names path).take (n + 1))

/-- The path of a name below another path. An absolute one stands for itself. -/
def join (base name : String) : String :=
  if isAbsolute name then name
  else if base = "" || endsInSlash base then base ++ name
  else base ++ "/" ++ name

/-- The text of a file name after its last point. A name with only a leading point has none, nor has
the name of the parent directory. -/
def extension? (name : String) : Option String :=
  let backwards := name.toList.reverse
  match backwards.dropWhile (· != '.') with
  | '.' :: _ :: _ =>
    if name = ".." then none
    else some (String.ofList (backwards.takeWhile (· != '.')).reverse)
  | _ => none

/-- The extension of the file which a path names. -/
def fileExtension? (path : String) : Option String := (names path).getLast?.bind extension?

/-- Whether the last part of a path is a directory's name for itself or its parent. -/
def endsInDots (path : String) : Bool :=
  match ((parts path).filter (· != "")).getLast? with
  | some part => part == "." || part == ".."
  | none => isAbsolute path

end AgentAtlas.Path
