import AgentAtlas.Collection
import AgentAtlas.Property.Catalog

/-!
# Reduced rows

A record inherits everything its parent has, by itself or by inheritance; a root inherits nothing.
Its row holds what it adds: its own properties whose normalized value differs from the inherited
one, of these the ones that the catalog and the filter show, in catalog order.

Records are read in order, and a parent has to come before its children, so what a parent has is
known when a child needs it. The first record that breaks a rule is refused: first for a property
outside the catalog, in the record's own order, then for its parent.
-/

set_option autoImplicit false

namespace AgentAtlas

/-- A record reduced to what it adds. -/
structure Row where
  key : String
  /-- The user-agent name the row stands for. -/
  name? : Option String
  /-- The key of the parent. -/
  parent? : Option String
  /-- Whether the record heads a group: it adds a comment which says something. -/
  header : Bool
  properties : Properties
  deriving DecidableEq, Repr

namespace Inheritance

/-- What each record read so far has, by itself or by inheritance; the latest first. -/
abbrev Known := List (String × Properties)

/-- The properties of a record as they are compared. -/
def own (record : Record) : Properties := record.properties.mapValues Property.Value.normalized

/-- Refuse the first property which the catalog does not take. -/
def checkProperties (catalog : Catalog) (record : Record) : Except Fault Unit :=
  record.properties.entries.forM fun e => catalog.check record.key e.1 e.2

/-- What an earlier record has. -/
def ofParent (c : Collection) (known : Known) (key parent : String) : Except Fault Properties :=
  match known.lookup parent with
  | some properties => .ok properties
  | none =>
    if (c.indexOf? parent).isSome then .error (.structural (.parentLate parent key))
    else .error (.structural (.parentUnknown parent key))

/-- What a record inherits. The parent of a root has to come before it too, but hands nothing down.
-/
def inherited (c : Collection) (known : Known) (record : Record) : Except Fault Properties :=
  match record.parent? with
  | some parent => do
    let properties ← ofParent c known record.key parent
    return if record.isRoot then .empty else properties
  | none =>
    if record.isRoot then .ok .empty else .error (.structural (.parentMissing record.key))

/-- What own properties add to inherited ones. -/
def added (inherited own : Properties) : Properties :=
  own.filter fun name value => inherited.get? name != some value

/-- The properties which rows under a filter show, in catalog order. -/
def shown (catalog : Catalog) (filter : Property.Filter) (properties : Properties) : Properties :=
  catalog.filterMap fun name info => if filter.shows name info then properties.get? name else none

/-- Whether a comment that says something is among the properties. -/
def isHeader (properties : Properties) : Bool :=
  match properties.get? Property.commentName with
  | some comment => !comment.isBlank
  | none => false

/-- The row of a record. -/
def rowOf (catalog : Catalog) (filter : Property.Filter) (inherited : Properties)
    (record : Record) : Row :=
  let effective := added inherited (own record)
  { key := record.key
    name? := record.name?
    parent? := record.parent?
    header := isHeader effective
    properties := shown catalog filter effective }

/-- The rows of the remaining records. -/
def rowsFrom (c : Collection) (catalog : Catalog) (filter : Property.Filter) (known : Known) :
    List Record → Except Fault (List Row)
  | [] => .ok []
  | record :: rest => do
    checkProperties catalog record
    let above ← inherited c known record
    let full := above.overlay (own record)
    let rows ← rowsFrom c catalog filter ((record.key, full) :: known) rest
    return rowOf catalog filter above record :: rows

end Inheritance

/-- The reduced rows of a collection. -/
def Collection.rows (c : Collection) (catalog : Catalog) (filter : Property.Filter) :
    Except Fault (List Row) :=
  Inheritance.rowsFrom c catalog filter [] c.records

end AgentAtlas
