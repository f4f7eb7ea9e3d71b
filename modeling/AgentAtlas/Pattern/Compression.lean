import AgentAtlas.Keyed
import AgentAtlas.Pattern.Digits

/-!
# Compressed patterns

Patterns with one skeleton form a group. A group of three or more becomes one entry: the slots on
which all members agree are folded back into the skeleton, and each member is a *variant* named by
its runs in the other slots. A smaller group is a single entry from its first member's pattern to
its last member's row; with two members that is the second member's row. Patterns without digit runs
come first, each an entry of its own, then the groups in the order in which their skeletons first
occurred.
-/

set_option autoImplicit false

namespace AgentAtlas.Pattern

/-- The row which a pattern belongs to. -/
structure Numbered where
  index : Nat
  pattern : Pattern
  deriving DecidableEq, Repr

/-- A pattern of a group, with its runs. -/
structure Member where
  index : Nat
  pattern : Pattern
  runs : List (List Char)
  deriving DecidableEq, Repr

/-- How compressed patterns lead to rows. -/
inductive Entry where
  /-- A pattern without runs. -/
  | single (pattern : Pattern) (index : Nat)
  /-- A group too small for a table of variants. -/
  | collapsed (pattern : Pattern) (index : Nat)
  /-- A skeleton with its variants, one a member. -/
  | grouped (skeleton : List Char) (variants : List (String × Nat))
  deriving DecidableEq, Repr

/-- What a pattern stands for: a row, or a table of variants. -/
inductive Target where
  | row (index : Nat)
  | variants (table : Keyed String Nat)
  deriving DecidableEq, Repr

namespace Entry

/-- The pattern or skeleton of an entry. -/
def key : Entry → String
  | single pattern _ => String.ofList pattern
  | collapsed pattern _ => String.ofList pattern
  | grouped skeleton _ => String.ofList skeleton

/-- What the key of an entry stands for. Of equal variants the last one counts. -/
def target : Entry → Target
  | single _ index => .row index
  | collapsed _ index => .row index
  | grouped _ variants => .variants (Keyed.ofList variants)

end Entry

/-- The character before the runs of a variant. -/
def variantMarker : Char := '@'

/-- The text between the runs of a variant. -/
def variantDelimiter : List Char := ['|']

/-- For each slot, whether all members agree with the first one on it. -/
def agreements (first : Member) (members : List Member) : List Bool :=
  (List.range first.runs.length).map fun i => members.all fun m => m.runs[i]? == first.runs[i]?

/-- The name of a member among its group: its runs in the slots without agreement. -/
def variantName (agreed : List Bool) (m : Member) : String :=
  let varying := ((m.runs.zip agreed).filter fun r => !r.2).map Prod.fst
  String.ofList (variantMarker :: Text.join variantDelimiter varying)

/-- The skeleton with the agreed runs filled in. -/
def foldedSkeleton (skeleton : List Char) (agreed : List Bool) (first : Member) : List Char :=
  fill skeleton (List.zipWith (fun run agreed => if agreed then run else slot) first.runs agreed)

/-- The entry of a group, whose members are in order. -/
def groupEntry (skeleton : List Char) (first : Member) (others : List Member) : Entry :=
  let members := first :: others
  if members.length ≤ 2 then .collapsed first.pattern (members.getLastD first).index
  else
    let agreed := agreements first members
    .grouped (foldedSkeleton skeleton agreed first)
      (members.map fun m => (variantName agreed m, m.index))

/-- The patterns with runs, each with its skeleton. -/
def slotted (patterns : List Numbered) : List (List Char × Member) :=
  patterns.filterMap fun n =>
    (scan? n.pattern).map fun s => (s.skeleton, ⟨n.index, n.pattern, s.runs⟩)

/-- The skeletons, in the order in which they first occur. -/
def skeletons (patterns : List Numbered) : List (List Char) :=
  ((slotted patterns).map Prod.fst).eraseDups

/-- The members of a group, in order. -/
def membersOf (skeleton : List Char) (members : List (List Char × Member)) : List Member :=
  (members.filter fun m => m.1 == skeleton).map Prod.snd

/-- The entries of patterns in row order. -/
def compress (patterns : List Numbered) : List Entry :=
  let singles := patterns.filterMap fun n =>
    if (scan? n.pattern).isNone then some (.single n.pattern n.index) else none
  let members := slotted patterns
  let groups := (skeletons patterns).filterMap fun skeleton =>
    match membersOf skeleton members with
    | [] => none
    | first :: others => some (groupEntry skeleton first others)
  singles ++ groups

/-- The number of groups. -/
def groupCount (patterns : List Numbered) : Nat := (skeletons patterns).length

end AgentAtlas.Pattern
