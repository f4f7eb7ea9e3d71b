import AgentAtlas.Document
import AgentAtlas.Proofs.Artifact.Closure
import AgentAtlas.Proofs.Json.Reading

/-!
# What a document says

`read?` is a reader for documents which knows nothing of how they are written. It takes the five
members in their order and nothing else, tables only with their keys ascending, positions only in
the digits that belong to them, and a row from the text in the text.

What it reads in the document of an artifact is the artifact, with the head that was configured
(`read?_text`). The names of a row's properties have to be distinct and other than the parent's
(`ArtifactRow.Named`), and the positions that are written as numbers have to be words
(`Artifact.InWords`), as they are where the rows can be counted in words.
-/

set_option autoImplicit false

namespace AgentAtlas

open Json (wordLimit)

/-- The row's properties have names of their own, and none has the parent's. -/
def ArtifactRow.Named (row : ArtifactRow) : Prop :=
  (Property.parentName :: row.properties.map Prod.fst).Nodup

instance : DecidablePred ArtifactRow.Named := fun _ => List.nodupDecidable _

/-- The positions to which patterns and rows refer are words of the machine. -/
structure Artifact.InWords (artifact : Artifact) : Prop where
  targets : ∀ e ∈ artifact.patterns.entries, ∀ i ∈ e.2.positions, i < wordLimit
  parents : ∀ e ∈ artifact.rows.entries, ∀ i ∈ e.2.parent?, i < wordLimit

/-- Rows which can be counted in words compile into an artifact whose positions are words. -/
theorem Artifact.inWords_of_compile {rows : List Row} {a : Artifact} (h : compile rows = .ok a)
    (hlength : rows.length ≤ wordLimit) : a.InWords where
  targets e he i hi :=
    Nat.lt_of_lt_of_le (lt_of_mem_positions h (Table.get?_eq_some_iff.2 he) hi) hlength
  parents e he i hi := by
    have hrow := Table.get?_eq_some_iff.2 he
    rw [get?_rows_of_compile h] at hrow
    obtain ⟨row, -, heq⟩ := Option.map_eq_some_iff.1 hrow
    rw [← heq, Option.mem_def, Option.bind_eq_some_iff] at hi
    obtain ⟨key, -, hposition⟩ := hi
    obtain ⟨parent, hparent, -⟩ := key_of_position? hposition
    have hlt := (List.getElem?_eq_some_iff.1 hparent).1
    rw [length_arranged] at hlt
    exact Nat.lt_of_lt_of_le hlt hlength

namespace Document

/-! ## Reading -/

/-- What a document says: the head, and the tables. -/
structure Contents where
  comments : List String
  version : String
  released : String
  artifact : Artifact
  deriving DecidableEq, Repr

def string? : Json → Option String
  | .string s => some s
  | _ => none

def natural? : Json → Option Nat
  | .number (.integer (.ofNat n)) => some n
  | _ => none

def value? : Json → Option Property.Value
  | .bool b => some (.flag b)
  | .string s => some (.text s)
  | _ => none

/-- The position that is written so. -/
def position? (s : String) : Option Nat :=
  let n := Json.ofDigits s.toList
  if Decimal.natText n = s then some n else none

section Entries

variable {κ α : Type} (key? : String → Option κ) (item? : Json → Option α)

/-- The members of an object, their names and values read. -/
def entries? (members : List (String × Json)) : Option (List (κ × α)) :=
  members.mapM fun member => do return (← key? member.1, ← item? member.2)

/-- An object whose keys ascend. -/
def table? [LT κ] [DecidableLT κ] : Json → Option (Table κ α)
  | .object members => do
    let entries ← entries? key? item? members
    if h : entries.Pairwise fun a b => a.1 < b.1 then some ⟨entries, h⟩ else none
  | _ => none

end Entries

/-- An object of positions, under distinct names. -/
def variants? (members : List (String × Json)) : Option (Keyed String Nat) := do
  let entries ← entries? some natural? members
  if h : (entries.map Prod.fst).Nodup then some ⟨entries, h⟩ else none

/-- A position, or an object of them. -/
def target? : Json → Option Pattern.Target
  | .object members => (variants? members).map .variants
  | v => (natural? v).map .row

/-- The row of a text: if a parent comes first, its position, and the properties. -/
def row? (s : String) : Option ArtifactRow :=
  match Json.parse? s with
  | some (.object ((name, v) :: members)) =>
    if name = Property.parentName then do
      return ⟨some (← natural? v), ← entries? some value? members⟩
    else (entries? some value? ((name, v) :: members)).map fun properties => ⟨none, properties⟩
  | some (.object []) => some ⟨none, []⟩
  | _ => none

/-- What the text of a document says. -/
def read? (s : String) : Option Contents :=
  match Json.parse? s with
  | some (.object [
      ("comments", .array comments),
      ("GJK_Browscap_Version", .object [
        ("Version", .string version), ("Released", .string released)]),
      ("patterns", patterns), ("browsers", rows), ("userAgents", parents)]) => do
    let artifact := {
      patterns := ← table? some target? patterns
      rows := ← table? position? (fun v => (string? v).bind row?) rows
      parents := ← table? position? string? parents }
    return ⟨← comments.mapM string?, version, released, artifact⟩
  | _ => none

/-! ## What is written can be read -/

theorem position?_natText (n : Nat) : position? (Decimal.natText n) = some n := by
  have hdigits : Json.ofDigits (Decimal.natText n).toList = n := by
    rw [Decimal.natText, String.toList_ofList, Json.ofDigits_digitChars]
  rw [position?, hdigits]
  exact if_pos rfl

theorem value?_value (v : Property.Value) : value? (value .json v) = some v := by
  cases v <;> rfl

section Entries

variable {κ α : Type} {key? : String → Option κ} {item? : Json → Option α}
  {f : κ → String} {g : α → Json}

/-- Entries are read as they were if each key and each value is. -/
theorem entries?_map (hkey : ∀ key, key? (f key) = some key) {entries : List (κ × α)}
    (hitem : ∀ e ∈ entries, item? (g e.2) = some e.2) :
    entries? key? item? (entries.map fun e => (f e.1, g e.2)) = some entries := by
  rw [entries?, mapM_eq_some_iff, List.forall₂_map_left_iff, List.forall₂_same]
  intro e he
  rw [hkey e.1, hitem e he]
  rfl

theorem table?_object [LT κ] [DecidableLT κ] (hkey : ∀ key, key? (f key) = some key)
    {table : Table κ α} (hitem : ∀ e ∈ table.entries, item? (g e.2) = some e.2) :
    table? key? item? (.object (table.entries.map fun e => (f e.1, g e.2))) = some table := by
  rw [table?, entries?_map hkey hitem]
  exact dif_pos table.ascending

end Entries

theorem properties?_map (properties : List (String × Property.Value)) :
    entries? some value? (properties.map fun e => (e.1, value .json e.2)) = some properties :=
  entries?_map (f := id) (fun _ => rfl) fun e _ => value?_value e.2

theorem target?_target (t : Pattern.Target) : target? (target t) = some t := by
  cases t with
  | row i => rfl
  | variants table =>
      have hentries : entries? some natural? (table.entries.map fun e => (e.1, natural e.2)) =
          some table.entries := entries?_map (f := id) (fun _ => rfl) fun _ _ => rfl
      have hvariants : variants? (table.entries.map fun e => (e.1, natural e.2)) = some table := by
        rw [variants?, hentries]
        exact dif_pos table.nodup
      rw [target, target?, hvariants]
      rfl

theorem fits_natural {levels n : Nat} (h : n < wordLimit) : (natural n).Fits levels :=
  ⟨n, h, rfl⟩

theorem fits_value (levels : Nat) (format : Format) (v : Property.Value) :
    (value format v).Fits levels := by
  cases v <;> trivial

/-! ## Rows -/

/-- The object of a row with distinct names has a member for the parent, if there is one, and then
one for each property. -/
theorem rowObject_json {row : ArtifactRow} (h : row.Named) :
    rowObject .json row = .object
      ((row.parent?.toList.map fun i => (Property.parentName, natural i)) ++
        row.properties.map fun e => (e.1, value .json e.2)) := by
  refine congrArg Json.object (Keyed.entries_ofList ?_)
  rw [List.map_append, List.map_map, List.map_map]
  cases row.parent? with
  | none => exact (List.nodup_cons.1 h).2
  | some i => exact h

theorem fits_rowObject (format : Format) {row : ArtifactRow}
    (hparent : ∀ i ∈ row.parent?, i < wordLimit) :
    (rowObject format row).Fits Json.nestingLimit := by
  rw [rowObject, Json.Fits, Json.fitMembers_iff]
  refine ⟨by decide, fun member hmember => ?_⟩
  rcases List.mem_append.1 (Pattern.mem_of_mem_entries_ofList hmember) with hfirst | hrest
  · obtain ⟨i, hi, rfl⟩ := List.mem_map.1 hfirst
    exact fits_natural (hparent i (Option.mem_toList.1 hi))
  · obtain ⟨e, -, rfl⟩ := List.mem_map.1 hrest
    exact fits_value _ format e.2

/-- A row is read as it was. -/
theorem row?_rowObject {row : ArtifactRow} (h : row.Named)
    (hparent : ∀ i ∈ row.parent?, i < wordLimit) :
    row? (rowObject .json row).compactText = some row := by
  rw [row?, Json.parse?_compactText (fits_rowObject .json hparent), rowObject_json h]
  have hproperties := properties?_map row.properties
  obtain ⟨parent?, properties⟩ := row
  cases parent? with
  | some i =>
      simp only [Option.toList_some, List.map_cons, List.map_nil, List.singleton_append,
        hproperties]
      rfl
  | none =>
      cases properties with
      | nil => rfl
      | cons e rest =>
          have hname : e.1 ≠ Property.parentName := fun heq =>
            (List.nodup_cons.1 h).1 (heq ▸ List.mem_cons_self)
          simp only [Option.toList_none, List.map_nil, List.nil_append, List.map_cons,
            if_neg hname] at hproperties ⊢
          rw [hproperties]
          rfl

/-! ## The document -/

variable {artifact : Artifact}

theorem fits_target {levels : Nat} (hlevels : levels ≠ 0) {t : Pattern.Target}
    (h : ∀ i ∈ t.positions, i < wordLimit) : (target t).Fits levels := by
  cases t with
  | row i => exact fits_natural (h i List.mem_cons_self)
  | variants table =>
      rw [target, Json.Fits, Json.fitMembers_iff, List.forall_mem_map]
      exact ⟨hlevels, fun e he => fits_natural (h e.2 (List.mem_map_of_mem he))⟩

/-- Three containers stand around a number of the document at most. -/
theorem fits_ofArtifact {format : Format} (config : Config) (h : artifact.InWords) :
    (ofArtifact format config artifact).Fits Json.nestingLimit := by
  have hinside : Json.nestingLimit - 1 ≠ 0 := by decide
  have htargets : ∀ e ∈ artifact.patterns.entries,
      (target e.2).Fits (Json.nestingLimit - 1 - 1) := fun e he =>
    fits_target (by decide) (h.targets e he)
  rw [ofArtifact, Json.Fits, Json.fitMembers_iff]
  simp only [List.forall_mem_cons, List.forall_mem_map, Json.Fits, Json.fitMembers_iff,
    Json.fitItems_iff]
  exact ⟨by decide, ⟨hinside, fun _ _ => trivial⟩,
    ⟨hinside, trivial, trivial, List.forall_mem_nil _⟩, ⟨hinside, htargets⟩,
    ⟨hinside, fun _ _ => trivial⟩, ⟨hinside, fun _ _ => trivial⟩, List.forall_mem_nil _⟩

/-- **What a document says is the artifact which it was written for, with the configured head.** -/
theorem read?_text (config : Config) (hnames : ∀ e ∈ artifact.rows.entries, e.2.Named)
    (hwords : artifact.InWords) :
    read? (text .json config artifact) = some
      { comments := config.comments
        version := config.version?.getD "0"
        released := config.released?.getD ""
        artifact := artifact } := by
  have hcomments : (config.comments.map Json.string).mapM string? = some config.comments := by
    rw [mapM_eq_some_iff, List.forall₂_map_left_iff, List.forall₂_same]
    exact fun _ _ => rfl
  have hpatterns : table? some target?
      (.object (artifact.patterns.entries.map fun e => (e.1, target e.2))) =
        some artifact.patterns :=
    table?_object (f := id) (fun _ => rfl) fun e _ => target?_target e.2
  have hrows : table? position? (fun v => (string? v).bind row?)
      (.object (artifact.rows.entries.map fun e =>
        (Decimal.natText e.1, .string (rowObject .json e.2).compactText))) = some artifact.rows :=
    table?_object (g := fun row => .string (rowObject .json row).compactText) position?_natText
      fun e he => row?_rowObject (hnames e he) (hwords.parents e he)
  have hparents : table? position? string?
      (.object (artifact.parents.entries.map fun e => (Decimal.natText e.1, .string e.2))) =
        some artifact.parents :=
    table?_object position?_natText fun _ _ => rfl
  rw [read?, text, Json.parse?_prettyText (fits_ofArtifact config hwords)]
  simp only [ofArtifact, hcomments, hpatterns, hrows, hparents]
  rfl

/-- A table of variants, a row without properties, and names and texts whose characters are
escaped twice. -/
def quotedArtifact : Artifact where
  patterns := Table.ofList [
    ("^\"(\\d)\\.(\\d)é.*$", .variants (Keyed.ofList [("@9|0", 10), ("@1|2", 2)])),
    ("^.*$", .row 10)]
  rows := Table.ofList [
    (10, ⟨none, []⟩),
    (2, ⟨some 10, [("say \"\\n\"", .text "line\n\t\u0001\"\\\" 😀"), ("", .flag true)]⟩)]
  parents := Table.ofList [(10, "Default\u001f\"Properties\\")]

theorem read?_text_quotedArtifact :
    read? (text .json .default quotedArtifact) =
      some ⟨Config.defaultComments, "0", "", quotedArtifact⟩ :=
  read?_text .default (by decide) ⟨by decide, by decide⟩

end Document

end AgentAtlas
