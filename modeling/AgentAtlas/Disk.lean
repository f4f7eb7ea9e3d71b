import AgentAtlas.Fault
import AgentAtlas.Keyed
import AgentAtlas.Path

/-!
# Disks

A disk maps locations to files and directories. Following a path (`Disk.follow`) leads to a
location: it needs a directory at every name but the last, and neither the path nor a name may be
too long. Files are written whole, a file is renamed onto a file or onto nothing, and only a file is
removed; each operation that is refused says why and changes nothing.
-/

set_option autoImplicit false

namespace AgentAtlas

/-- The bytes of a file. -/
abbrev Bytes := List UInt8

/-- What a disk holds at a location. -/
inductive Entry where
  | file (content : Bytes)
  | directory
  deriving DecidableEq, Repr

/-- The names from the root of the system down to an entry. -/
abbrev Location := List String

/-- Files and directories by location. The root of the system, at `[]`, is always there. -/
structure Disk where
  contents : Keyed Location Entry
  /-- Where paths start which are not absolute. -/
  workingDirectory : Location
  deriving DecidableEq, Repr

namespace Disk

/-- What is at a location. -/
def get? (d : Disk) (location : Location) : Option Entry :=
  if location = [] then some .directory else d.contents.get? location

/-- A disk with an entry at a location. -/
def put (d : Disk) (location : Location) (entry : Entry) : Disk :=
  { d with contents := d.contents.insert location entry }

/-- A disk without what was at a location. -/
def erase (d : Disk) (location : Location) : Disk :=
  { d with contents := d.contents.erase location }

/-- The directories above a location, made where they are missing. -/
def withParents (d : Disk) (location : Location) : Disk :=
  (List.range location.length).foldl (fun d n =>
    if (d.get? (location.take n)).isNone then d.put (location.take n) .directory else d) d

/-- A disk with an entry and the directories above it. -/
def place (d : Disk) (location : Location) (entry : Entry) : Disk :=
  (d.withParents location).put location entry

/-- Nothing but a working directory and the directories above it. -/
def startingAt (location : Location) : Disk :=
  (Disk.mk .empty location).place location .directory

/-- The location which names lead to from a location. Above the root there is the root again. -/
def followFrom (d : Disk) (location : Location) : List String → Except SystemFault Location
  | [] => .ok location
  | name :: rest =>
    match d.get? location with
    | some .directory =>
      if Path.greatestNameLength < name.utf8ByteSize then .error .nameTooLong
      else d.followFrom (if name = ".." then location.dropLast else location ++ [name]) rest
    | some (.file _) => .error .notDirectory
    | none => .error .notFound

/-- The location which a path leads to; nothing needs to be there. -/
def follow (d : Disk) (path : String) : Except SystemFault Location :=
  if Path.greatestLength < path.utf8ByteSize then .error .nameTooLong
  else d.followFrom (if Path.isAbsolute path then [] else d.workingDirectory) (Path.names path)

/-- What a path names. -/
def at? (d : Disk) (path : String) : Option Entry :=
  match d.follow path with
  | .ok location => d.get? location
  | .error _ => none

def isDirectory (d : Disk) (path : String) : Bool := d.at? path == some .directory

def isFile (d : Disk) (path : String) : Bool :=
  match d.at? path with
  | some (.file _) => true
  | _ => false

/-- Whether a path names anything. -/
def contains (d : Disk) (path : String) : Bool := (d.at? path).isSome

/-- The names of what is in the directory at a location, in the disk's order. -/
def namesAt (d : Disk) (location : Location) : List String :=
  d.contents.keys.filterMap fun below =>
    if below ≠ [] ∧ below.dropLast = location then below.getLast? else none

/-- The names of what is in a directory, in the disk's order. -/
def names (d : Disk) (path : String) : List String :=
  match d.follow path with
  | .ok location => d.namesAt location
  | .error _ => []

/-- The bytes of a file. -/
def read (d : Disk) (path : String) : Except SystemFault Bytes := do
  match d.get? (← d.follow path) with
  | some (.file content) => return content
  | some .directory => throw .isDirectory
  | none => throw .notFound

/-- Write a file whole. -/
def write (d : Disk) (path : String) (content : Bytes) : Except SystemFault Disk := do
  let location ← d.follow path
  match d.get? location with
  | some .directory => throw .isDirectory
  | _ => return d.put location (.file content)

/-- Give a file another path, whose file it replaces. -/
def rename (d : Disk) (source path : String) : Except SystemFault Disk := do
  let origin ← d.follow source
  match d.get? origin with
  | some (.file content) =>
    let location ← d.follow path
    -- The last name of the new path is judged before anything is looked for under it.
    if Path.endsInDots path then throw .busy
    if Path.endsInSlash path then throw .notDirectory
    match d.get? location with
    | some .directory => throw .isDirectory
    | _ => return (d.erase origin).put location (.file content)
  | some .directory => throw .isDirectory
  | none => throw .notFound

/-- Remove a file. -/
def remove (d : Disk) (path : String) : Except SystemFault Disk := do
  let location ← d.follow path
  match d.get? location with
  | some (.file _) => return d.erase location
  | some .directory => throw .isDirectory
  | none => throw .notFound

end Disk

end AgentAtlas
