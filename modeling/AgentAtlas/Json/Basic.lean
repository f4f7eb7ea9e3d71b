import AgentAtlas.Json.Tree

/-!
# JSON values

A `Json` value is a tree that has been read in full: its strings are texts, its numbers have
readings, its containers stand at most `nestingLimit` deep. Objects keep the order and the
repetitions of their members.
-/

set_option autoImplicit false

namespace AgentAtlas

/-- A JSON value. -/
inductive Json where
  | null
  | bool (b : Bool)
  | number (n : Json.Number)
  | string (s : String)
  | array (items : List Json)
  | object (members : List (String × Json))
  deriving Repr, Inhabited

namespace Json

/-- How many containers may stand around a value that is read in full, itself included. -/
def nestingLimit : Nat := 127

/-- The text of a literal. -/
def text? (pieces : List Piece) : Option String := (decode pieces).map String.ofList

mutual

/-- The value of a tree whose containers stand at most `levels` deep. -/
def Tree.json? (levels : Nat) : Tree → Option Json
  | .null => some .null
  | .bool b => some (.bool b)
  | .number n => n.number?.map .number
  | .string pieces => (text? pieces).map .string
  | .array items => if levels = 0 then none else (itemValues? (levels - 1) items).map .array
  | .object members =>
    if levels = 0 then none else (memberValues? (levels - 1) members).map .object

/-- The values of an array's items. -/
def itemValues? (levels : Nat) : List Tree → Option (List Json)
  | [] => some []
  | t :: rest => do
    let value ← t.json? levels
    return value :: (← itemValues? levels rest)

/-- The names and values of an object's members. -/
def memberValues? (levels : Nat) : List (List Piece × Tree) → Option (List (String × Json))
  | [] => some []
  | (pieces, t) :: rest => do
    let name ← text? pieces
    let value ← t.json? levels
    return (name, value) :: (← memberValues? levels rest)

end

/-- The value of a text. -/
def parse? (s : String) : Option Json := (Tree.ofChars? s.toList).bind (Tree.json? nestingLimit)

end Json

end AgentAtlas
