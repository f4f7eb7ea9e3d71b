import AgentAtlas.Artifact
import AgentAtlas.Config
import AgentAtlas.Markup

/-!
# The artifact document

One JSON object: the comment lines, the version, the pattern table, each row's properties as JSON
text under the row's position, and the keys of the parent rows under theirs. A row's object starts
with the position of its parent.
-/

set_option autoImplicit false

namespace AgentAtlas.Document

/-- A natural as a value. -/
def natural (n : Nat) : Json := .number (.integer n)

/-- A property value in a format. -/
def value (format : Format) : Property.Value → Json
  | .flag b => .bool b
  | .text s => .string (format.text s)

/-- The object of a row: the parent first, then the properties. A repeated name keeps its first
place and takes its last value. -/
def rowObject (format : Format) (row : ArtifactRow) : Json :=
  let parent := row.parent?.toList.map fun i => (format.text Property.parentName, natural i)
  let properties := row.properties.map fun e => (format.text e.1, value format e.2)
  .object (Keyed.ofList (parent ++ properties)).entries

/-- What a pattern stands for. -/
def target : Pattern.Target → Json
  | .row i => natural i
  | .variants table => .object (table.entries.map fun e => (e.1, natural e.2))

/-- The document of an artifact. -/
def ofArtifact (format : Format) (config : Config) (artifact : Artifact) : Json :=
  .object [
    ("comments", .array (config.comments.map .string)),
    ("GJK_Browscap_Version", .object [
      ("Version", .string config.version), ("Released", .string config.released)]),
    ("patterns", .object (artifact.patterns.entries.map fun e => (e.1, target e.2))),
    ("browsers", .object (artifact.rows.entries.map fun e =>
      (Decimal.natText e.1, .string (rowObject format e.2).compactText))),
    ("userAgents", .object (artifact.parents.entries.map fun e =>
      (Decimal.natText e.1, .string e.2)))]

/-- The text of an artifact's document. -/
def text (format : Format) (config : Config) (artifact : Artifact) : String :=
  (ofArtifact format config artifact).prettyText

end AgentAtlas.Document
