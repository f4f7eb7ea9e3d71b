import AgentAtlas.Disk

/-!
# Delivering a file all at once

A delivery writes its content beside the path, under the path's name with `.tmp` behind it, and
renames that file onto the path. If the renaming is refused, the file beside the path is removed
again. So the path holds either what it held before or the whole content.

The order of the actions is fixed once (`Delivery.perform`) for anything that can carry them out; on
a disk a step keeps the state before it (`Delivery.step`), so every state in between is known.
-/

set_option autoImplicit false

namespace AgentAtlas

/-- A content for a path. -/
structure Delivery where
  path : String
  content : Bytes
  deriving DecidableEq, Repr

/-- What a delivery asks the system to do. -/
inductive Action where
  | write (path : String) (content : Bytes)
  | rename (source path : String)
  | remove (path : String)
  deriving DecidableEq, Repr

/-- An action on a disk. -/
def Action.run : Action → Disk → Except SystemFault Disk
  | write path content, disk => disk.write path content
  | rename source path, disk => disk.rename source path
  | remove path, disk => disk.remove path

namespace Delivery

/-- The path beside the one delivered to. -/
def temporary (d : Delivery) : String := d.path ++ ".tmp"

/-- Carry a delivery out, and say what stopped it. -/
def perform {m : Type → Type} [Monad m] (d : Delivery)
    (act : Action → m (Except SystemFault Unit)) : m (Option Fault) := do
  match ← act (.write d.temporary d.content) with
  | .error cause => return some (.system d.temporary cause)
  | .ok () =>
    match ← act (.rename d.temporary d.path) with
    | .ok () => return none
    | .error cause =>
      let _ ← act (.remove d.temporary)
      return some (.system d.path cause)

/-- A disk with the states it went through. -/
structure History where
  disk : Disk
  /-- The earlier states, latest first. -/
  earlier : List Disk
  deriving Repr

/-- An action which adds a state to the history unless it is refused. -/
def step (action : Action) : StateM History (Except SystemFault Unit) := do
  let history ← get
  match action.run history.disk with
  | .ok disk =>
    set (History.mk disk (history.disk :: history.earlier))
    return .ok ()
  | .error cause => return .error cause

end Delivery

end AgentAtlas
