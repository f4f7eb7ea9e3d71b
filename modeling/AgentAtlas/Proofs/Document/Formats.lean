import AgentAtlas.Proofs.Document.Decoding
import AgentAtlas.Proofs.Markup.Entities

/-!
# The two formats of a document

A document in either format is read into its parts by one reader, which knows nothing of formats
(`parts?`). The parts of the two documents of an artifact agree in everything but the texts of the
rows, and the text of a row in the one format says what it says in the other once the entities in
names and texts are characters again (`formats_agree`).

Rows are not supposed to have distinct names here: a name that is repeated is written once in each
format, at its first place and with its last value, and no two names are escaped to one.
-/

set_option autoImplicit false

namespace AgentAtlas

open Json (wordLimit)

theorem Format.text_xml_injective : Function.Injective Format.xml.text := by
  intro s t h
  exact String.toList_injective (Markup.escape_injective (String.ofList_injective h))

/-- The names in the object of a row, as often as they are written into it. -/
def ArtifactRow.names (row : ArtifactRow) : List String :=
  (row.parent?.toList.map fun _ => Property.parentName) ++ row.properties.map Prod.fst

namespace Document

/-! ## Reading a document in either format -/

/-- The parts of a document, the rows as texts under their positions. -/
structure Parts where
  comments : Json
  version : Json
  patterns : Json
  rows : Table Nat String
  parents : Json

/-- The parts of a text. -/
def parts? (s : String) : Option Parts :=
  match Json.parse? s with
  | some (.object [("comments", comments), ("GJK_Browscap_Version", version),
      ("patterns", patterns), ("browsers", browsers), ("userAgents", parents)]) =>
    (table? position? string? browsers).map fun rows =>
      ⟨comments, version, patterns, rows, parents⟩
  | _ => none

/-- The members of the object in a row's text. -/
def rowMembers? (s : String) : Option (List (String × Json)) :=
  match Json.parse? s with
  | some (.object members) => some members
  | _ => none

/-- A text with the characters for its entities. -/
def unescapeText (s : String) : String := String.ofList (Markup.unescape s.toList)

/-- A value with the characters for the entities in it, if it is a string. -/
def unescapeValue : Json → Json
  | .string s => .string (unescapeText s)
  | v => v

/-- A member with the characters for the entities in its name and its value. -/
def unescapeMember (member : String × Json) : String × Json :=
  (unescapeText member.1, unescapeValue member.2)

/-- The one document of an artifact says with entities what the other says without. -/
structure SameData (artifact : Artifact) (xml json : Parts) : Prop where
  comments : xml.comments = json.comments
  version : xml.version = json.version
  patterns : xml.patterns = json.patterns
  parents : xml.parents = json.parents
  positions : xml.rows.keys = artifact.rows.keys ∧ json.rows.keys = artifact.rows.keys
  /-- The row texts at a position have the same members in the same order, each of the row's names
  once. -/
  rows : ∀ i row, artifact.rows.get? i = some row → ∃ escaped plain members,
    xml.rows.get? i = some escaped ∧ json.rows.get? i = some plain ∧
      rowMembers? escaped = some members ∧
      rowMembers? plain = some (members.map unescapeMember) ∧
      members.map Prod.fst = row.names.eraseDups.map Format.xml.text

variable {artifact : Artifact}

/-- A document in either format is read part by part. -/
theorem parts?_text (format : Format) (config : Config) (h : artifact.InWords) :
    parts? (text format config artifact) = some
      { comments := .array (config.comments.map .string)
        version := .object [("Version", .string config.version),
          ("Released", .string config.released)]
        patterns := .object (artifact.patterns.entries.map fun e => (e.1, target e.2))
        rows := artifact.rows.mapValues fun row => (rowObject format row).compactText
        parents := .object (artifact.parents.entries.map fun e =>
          (Decimal.natText e.1, .string e.2)) } := by
  have hrows : table? position? string? (.object (artifact.rows.entries.map fun e =>
      (Decimal.natText e.1, .string (rowObject format e.2).compactText))) =
        some (artifact.rows.mapValues fun row => (rowObject format row).compactText) := by
    have htable : ∀ texts : Table Nat String, table? position? string? (.object
        (texts.entries.map fun e => (Decimal.natText e.1, .string e.2))) = some texts :=
      fun _ => table?_object position?_natText fun _ _ => rfl
    have htexts := htable (artifact.rows.mapValues fun row => (rowObject format row).compactText)
    rwa [Table.mapValues, List.map_map] at htexts
  rw [parts?, text, Json.parse?_prettyText (fits_ofArtifact config h)]
  simp only [ofArtifact, hrows]
  rfl

/-! ## Rows in the two formats -/

/-- A value of a row with entities in its text. -/
def escapeValue : Json → Json
  | .string s => .string (Format.xml.text s)
  | v => v

/-- A member of a row with entities in its name and its text. -/
def escapeMember (member : String × Json) : String × Json :=
  (Format.xml.text member.1, escapeValue member.2)

/-- What is written into the object of a row, without entities. -/
def rowEntries (row : ArtifactRow) : List (String × Json) :=
  (row.parent?.toList.map fun i => (Property.parentName, natural i)) ++
    row.properties.map fun e => (e.1, value .json e.2)

theorem map_fst_rowEntries (row : ArtifactRow) : (rowEntries row).map Prod.fst = row.names := by
  rw [rowEntries, List.map_append, List.map_map, List.map_map]
  rfl

theorem unescapeText_text (s : String) : unescapeText (Format.xml.text s) = s := by
  rw [unescapeText, Format.text, String.toList_ofList, Markup.unescape_escape, String.ofList_toList]

theorem unescapeValue_escapeValue (v : Json) : unescapeValue (escapeValue v) = v := by
  cases v with
  | string s => exact congrArg Json.string (unescapeText_text s)
  | null => rfl
  | bool b => rfl
  | number n => rfl
  | array items => rfl
  | object members => rfl

theorem unescapeMember_escapeMember (member : String × Json) :
    unescapeMember (escapeMember member) = member := by
  rw [unescapeMember, escapeMember, unescapeText_text, unescapeValue_escapeValue]

/-- The object of a row in the one format has the members of the other, escaped one by one. -/
theorem rowObject_xml (row : ArtifactRow) :
    rowObject .xml row =
      .object ((Keyed.ofList (rowEntries row)).entries.map escapeMember) := by
  have hvalue : ∀ v, value .xml v = escapeValue (value .json v) := by
    intro v
    cases v <;> rfl
  have hentries : (row.parent?.toList.map fun i =>
        (Format.xml.text Property.parentName, natural i)) ++
      (row.properties.map fun e => (Format.xml.text e.1, value .xml e.2)) =
        (rowEntries row).map escapeMember := by
    simp only [rowEntries, List.map_append, List.map_map, hvalue]
    rfl
  refine congrArg Json.object ?_
  rw [hentries]
  exact Keyed.entries_ofList_map Format.text_xml_injective escapeValue (rowEntries row)

theorem rowMembers?_rowObject {format : Format} {row : ArtifactRow} {members : List (String × Json)}
    (hobject : rowObject format row = .object members)
    (hparent : ∀ i ∈ row.parent?, i < wordLimit) :
    rowMembers? (rowObject format row).compactText = some members := by
  rw [rowMembers?, Json.parse?_compactText (fits_rowObject format hparent), hobject]

/-- **The two formats carry the same data.** Their documents have the same comments, version,
patterns and parents, and replacing the entities in the names and strings of a row of the one gives
the row of the other, entry for entry. This rests on escaping, which takes no two names to one and
leaves nothing in a text that could be taken for markup. -/
theorem formats_agree (config : Config) (hwords : artifact.InWords) :
    (∃ xml json, parts? (text .xml config artifact) = some xml ∧
      parts? (text .json config artifact) = some json ∧ SameData artifact xml json) ∧
    Function.Injective Format.xml.text ∧
    ∀ s, Markup.Safe (Format.xml.text s).toList := by
  refine ⟨⟨_, _, parts?_text .xml config hwords, parts?_text .json config hwords, ?_⟩,
    Format.text_xml_injective, ?_⟩
  · constructor
    case comments => rfl
    case version => rfl
    case patterns => rfl
    case parents => rfl
    case positions => simp [Table.keys, Table.mapValues]
    case rows =>
      intro i row hrow
      have hparent := hwords.parents (i, row) (Table.get?_eq_some_iff.1 hrow)
      have htext : ∀ format : Format, (artifact.rows.mapValues fun row =>
          (rowObject format row).compactText).get? i = some (rowObject format row).compactText := by
        intro format
        rw [Table.get?_mapValues, hrow, Option.map_some]
      refine ⟨_, _, (Keyed.ofList (rowEntries row)).entries.map escapeMember, htext .xml,
        htext .json, rowMembers?_rowObject (rowObject_xml row) hparent, ?_, ?_⟩
      · -- one pass over the escaped members gives the plain ones back
        have hplain : ((Keyed.ofList (rowEntries row)).entries.map escapeMember).map
            unescapeMember = (Keyed.ofList (rowEntries row)).entries := by
          simp only [List.map_map, Function.comp_def, unescapeMember_escapeMember, List.map_id']
        rw [hplain]
        exact rowMembers?_rowObject rfl hparent
      · rw [← map_fst_rowEntries, ← Keyed.keys_ofList, Keyed.keys, List.map_map, List.map_map]
        rfl
  · intro s
    rw [Format.text, String.toList_ofList]
    exact Markup.safe_escape s.toList

/-- Two names of which the one is the other escaped, a name given twice, and texts with all five
characters and with what looks like an entity. -/
def entityArtifact : Artifact where
  patterns := Table.ofList [("^A&B$", .row 0), ("^\\.*$", .row 1)]
  rows := Table.ofList [
    (0, ⟨none, []⟩),
    (1, ⟨some 0, [("a<b", .text "AT&T <b> \"x\" 'y'"), ("a&lt;b", .text "&amp;lt;"),
      ("a<b", .flag true)]⟩)]
  parents := Table.ofList [(0, "<root>")]

theorem formats_agree_entityArtifact :
    entityArtifact.InWords ∧ ∃ xml json, parts? (text .xml .default entityArtifact) = some xml ∧
      parts? (text .json .default entityArtifact) = some json ∧
        SameData entityArtifact xml json := by
  have hwords : entityArtifact.InWords := ⟨by decide, by decide⟩
  exact ⟨hwords, (formats_agree .default hwords).1⟩

end Document

end AgentAtlas
