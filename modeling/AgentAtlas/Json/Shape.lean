import AgentAtlas.Json.Basic
import AgentAtlas.Keyed

/-!
# Trees of a known shape

A record of named fields is written as an object or, with the same meaning, as an array of the
fields in their order, from which the last ones may be missing. A field given twice is refused;
fields of other names are passed over, whatever they hold. In an *open* record, which is written as
an object only, the other fields have to be values themselves.

A map of keys takes every name; a repeated one keeps its first place and takes its last value.
-/

set_option autoImplicit false

namespace AgentAtlas.Json.Tree

/-- The fields of a record by name. -/
abbrev Fields := List (String × Tree)

/-- The text of a string. -/
def text? : Tree → Option String
  | .string pieces => Json.text? pieces
  | _ => none

/-- A text or nothing: `null`. -/
def textOrNull? : Tree → Option (Option String)
  | .null => some none
  | t => t.text?.map some

/-- The items of an array, each read by `read`. -/
def list? {α : Type} (read : Tree → Option α) : Tree → Option (List α)
  | .array items => items.mapM read
  | _ => none

/-- The members of an object with their names read. -/
def members? : Tree → Option Fields
  | .object members => members.mapM fun (pieces, t) => do return (← Json.text? pieces, t)
  | _ => none

/-- The entries of an object as a map, each value read by `read`. -/
def map? {α : Type} (read : Tree → Option α) (t : Tree) : Option (Keyed String α) := do
  let members ← t.members?
  let entries ← members.mapM fun (name, value) => do return (name, ← read value)
  return Keyed.ofList entries

/-- The fields of these names, none of them twice. -/
def known? (names : List String) (fields : Fields) : Option Fields :=
  let known := fields.filter fun f => names.contains f.1
  if (known.map Prod.fst).Nodup then some known else none

/-- The fields of a record in either notation. -/
def record? (names : List String) : Tree → Option Fields
  | .array items => if items.length ≤ names.length then some (names.zip items) else none
  | t => t.members?.bind (known? names)

/-- The fields of an open record, of which at most `levels` containers stand in one another. -/
def openRecord? (names : List String) (levels : Nat) (t : Tree) : Option Fields := do
  let fields ← t.members?
  if fields.all fun (name, value) => names.contains name || (value.json? (levels - 1)).isSome then
    known? names fields
  else none

/-- A field which has to be there. -/
def required? {α : Type} (fields : Fields) (name : String) (read : Tree → Option α) : Option α :=
  (fields.lookup name).bind read

/-- A field with a value for its absence. -/
def optional? {α : Type} (fields : Fields) (name : String) (absent : α) (read : Tree → Option α) :
    Option α :=
  match fields.lookup name with
  | none => some absent
  | some value => read value

end AgentAtlas.Json.Tree
