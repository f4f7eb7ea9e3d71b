import AgentAtlas.Json.Basic
import AgentAtlas.Text.Separated

/-!
# JSON text

Two layouts: without any space (`compact`), and with one item a line, each level of containers two
spaces further in (`pretty`). An empty container is written without a line break in both.
-/

set_option autoImplicit false

namespace AgentAtlas.Json

open Text (join)

mutual

/-- A value without spaces. -/
def compact : Json → List Char
  | .null => "null".toList
  | .bool b => (if b then "true" else "false").toList
  | .number n => n.chars
  | .string s => quote s.toList
  | .array items => '[' :: join [','] (compactItems items) ++ [']']
  | .object members => '\x7b' :: join [','] (compactMembers members) ++ ['\x7d']

/-- The items of an array without spaces. -/
def compactItems : List Json → List (List Char)
  | [] => []
  | v :: rest => v.compact :: compactItems rest

/-- The members of an object without spaces. -/
def compactMembers : List (String × Json) → List (List Char)
  | [] => []
  | (name, v) :: rest => (quote name.toList ++ ':' :: v.compact) :: compactMembers rest

end

/-- A new line, indented by two spaces a level. -/
def newline (level : Nat) : List Char := '\n' :: List.replicate (2 * level) ' '

/-- The parts of a container between its brackets, one a line. -/
def block (level : Nat) (parts : List (List Char)) : List Char :=
  match parts with
  | [] => []
  | _ => newline (level + 1) ++ join (',' :: newline (level + 1)) parts ++ newline level

mutual

/-- A value with one item a line, inside `level` containers. -/
def prettyAt (level : Nat) : Json → List Char
  | .null => "null".toList
  | .bool b => (if b then "true" else "false").toList
  | .number n => n.chars
  | .string s => quote s.toList
  | .array items => '[' :: block level (prettyItems (level + 1) items) ++ [']']
  | .object members => '\x7b' :: block level (prettyMembers (level + 1) members) ++ ['\x7d']

/-- The items of an array, each inside `level` containers. -/
def prettyItems (level : Nat) : List Json → List (List Char)
  | [] => []
  | v :: rest => v.prettyAt level :: prettyItems level rest

/-- The members of an object, each inside `level` containers. -/
def prettyMembers (level : Nat) : List (String × Json) → List (List Char)
  | [] => []
  | (name, v) :: rest =>
    (quote name.toList ++ ':' :: ' ' :: v.prettyAt level) :: prettyMembers level rest

end

/-- The text of a value without spaces. -/
def compactText (v : Json) : String := String.ofList v.compact

/-- The text of a value with one item a line. -/
def prettyText (v : Json) : String := String.ofList (v.prettyAt 0)

end AgentAtlas.Json
