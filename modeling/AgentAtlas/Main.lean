import AgentAtlas.Gzip
import AgentAtlas.Moment
import AgentAtlas.Session
import Std.Time.DateTime.Timestamp

/-!
# The program

What a run needs of the outside world: the part of the resource tree that it reads, the present
time, what compresses a document, and the actions of a delivery. All decisions are in
`AgentAtlas.Session`.
-/

set_option autoImplicit false

namespace AgentAtlas.Program

open System (FilePath)

/-! ## Looking at the tree -/

/-- What is at a path, if it is a file or a directory. -/
def look (path : FilePath) : IO (Option Entry) := do
  match ← path.metadata.toBaseIO with
  | .error _ => return none
  | .ok data =>
    match data.type with
    | .dir => return some .directory
    | .file => return some (.file (← IO.FS.readBinFile path).data.toList)
    | _ => return none

/-- The disk with what is at a path and on the way to it. -/
def note (disk : Disk) (path : String) : IO Disk :=
  (Path.stations path).foldlM (fun disk (station : String) => do
    match disk.follow station, ← look station with
    | .ok location, some entry => return disk.put location entry
    | _, _ => return disk) disk

/-- The disk with a directory and the files in it that describe something. -/
def noteDirectory (disk : Disk) (path : String) : IO Disk := do
  let disk ← note disk path
  if !disk.isDirectory path then return disk
  let entries ← FilePath.readDir path
  let names := (entries.toList.map (·.fileName)).filter ResourceTree.isDescription
  names.foldlM (fun disk name => note disk (Path.join path name)) disk

/-- The part of a resource tree that a run reads. -/
def treeDisk (root : String) : IO Disk := do
  let disk ← note (.startingAt (Path.names (← IO.currentDir).toString)) root
  let disk ← ResourceTree.directories.foldlM
    (fun disk name => noteDirectory disk (Path.join root name)) disk
  note disk (Path.join root ResourceTree.configFile)

/-! ## Acting -/

/-- Why the system refused an operation. -/
def refusal : IO.Error → SystemFault
  | .alreadyExists _ number words | .invalidArgument _ number words
  | .permissionDenied _ number words | .resourceExhausted _ number words
  | .inappropriateType _ number words | .noSuchThing _ number words
  | .interrupted _ number words | .noFileOrDirectory _ number words
  | .otherError number words | .resourceBusy number words | .resourceVanished number words
  | .unsupportedOperation number words | .hardwareFault number words
  | .unsatisfiedConstraints number words | .illegalOperation number words
  | .protocolError number words | .timeExpired number words =>
    .ofNumber words number.toNat
  | .unexpectedEof => .other "Unexpected end of file" 0
  | .userError words => .other words 0

/-- An operation of the system, with its refusal as a value. -/
def attempt (operation : IO Unit) : IO (Except SystemFault Unit) := do
  match ← operation.toBaseIO with
  | .ok () => return .ok ()
  | .error error => return .error (refusal error)

/-- An action of a delivery, carried out. -/
def act : Action → IO (Except SystemFault Unit)
  | .write path content => attempt (IO.FS.writeBinFile path ⟨content.toArray⟩)
  | .rename source path => attempt (IO.FS.rename source path)
  | .remove path => attempt (IO.FS.removeFile path)

/-- The present time. -/
def now : IO String := do
  return Moment.text (← Std.Time.Timestamp.now).toSecondsSinceUnixEpoch.toInt.toNat

/-- A run. -/
def run (arguments : List String) : IO Session.Outcome := do
  match CommandLine.request arguments with
  | .error stop => return Session.stopped stop
  | .ok request =>
    match Session.prepare Gzip.encode (← treeDisk request.root) (← now) request with
    | .error fault => return Session.failed fault
    | .ok prepared => Session.finish act prepared

end AgentAtlas.Program

def main (arguments : List String) : IO UInt32 := do
  let outcome ← AgentAtlas.Program.run arguments
  (← IO.getStdout).write ⟨outcome.stdout.toArray⟩
  (← IO.getStderr).putStr outcome.stderr
  return outcome.exitCode
