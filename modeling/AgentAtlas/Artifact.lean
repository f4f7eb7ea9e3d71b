import AgentAtlas.Inheritance
import AgentAtlas.Pattern.Compression
import AgentAtlas.Table

/-!
# The compiled artifact

Rows stand in the order of their names, specific ones first, and refer to their parents by position.
An artifact holds the table from patterns to rows, the rows by position, and the keys of the rows
which are parents.
-/

set_option autoImplicit false

namespace AgentAtlas

/-- A row by position, with the position of its parent. -/
structure ArtifactRow where
  parent? : Option Nat
  properties : List (String × Property.Value)
  deriving DecidableEq, Repr

/-- The compiled tables. -/
structure Artifact where
  patterns : Table String Pattern.Target
  rows : Table Nat ArtifactRow
  /-- The keys of the rows which are parents. -/
  parents : Table Nat String
  deriving DecidableEq, Repr

/-- The name by which a row is ordered. -/
def Row.orderName (row : Row) : String := row.name?.getD row.key

/-- The name whose pattern leads to the row. A header has one only if its name has a wildcard. -/
def Row.patternName? (row : Row) : Option String :=
  row.name?.filter fun name => !row.header || Glob.hasWildcard name

namespace Artifact

/-- Rows in their final order. -/
def arranged (rows : List Row) : List Row := Glob.sortBySpecificity Row.orderName rows

/-- The position of the last row of a key. -/
def position? (rows : List Row) (key : String) : Option Nat :=
  ((rows.zipIdx.map fun e => (e.1.key, e.2)).reverse).lookup key

/-- The patterns of the rows which have one. -/
def numbered (rows : List Row) : List Pattern.Numbered :=
  rows.zipIdx.filterMap fun e => e.1.patternName?.map fun name => ⟨e.2, Pattern.ofName name⟩

/-- The pattern table of rows in their final order. -/
def patternTable (rows : List Row) : Table String Pattern.Target :=
  Table.ofList ((Pattern.compress (numbered rows)).map fun e => (e.key, e.target))

/-- The position and key of a row's parent. -/
def parentLink (rows : List Row) (row : Row) : Except Fault (Option (Nat × String)) :=
  match row.parent? with
  | none => .ok none
  | some parent =>
    match position? rows parent with
    | some i => .ok (some (i, parent))
    | none => .error (.structural (.parentNotCompiled parent row.key))

/-- The artifact of reduced rows. -/
def compile (rows : List Row) : Except Fault Artifact := do
  let rows := arranged rows
  let links ← rows.mapM (parentLink rows)
  return {
    patterns := patternTable rows
    rows := Table.ofPositions (List.zipWith (fun row link =>
      ⟨link.map Prod.fst, row.properties.entries⟩) rows links)
    parents := Table.ofList (links.filterMap id) }

end Artifact

end AgentAtlas
