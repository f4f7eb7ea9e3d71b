import AgentAtlas.Proofs.Build.Agreement
import AgentAtlas.Proofs.Inheritance.Spelling
import Mathlib.Data.List.Forall2

/-!
# Builds from records in other spellings

A record is made of a draft: a key, a division, and properties with the parent among them. Drafts
with the same properties in another order and in other spellings (`Respells`) make records which say
the same (`saysTheSame_of_respells`). So a build from the ones reports what a build from the others
does, or both fail with faults of one kind (`build_respelled`). The faults themselves may differ:
which property is refused first goes by the order, and a message shows the spelling.
-/

set_option autoImplicit false

namespace AgentAtlas

open Inheritance

/-! ## Drafts -/

/-- What a record is made of. -/
structure Draft where
  key : String
  division : String
  /-- The properties, the parent among them. -/
  properties : Properties
  deriving DecidableEq, Repr

namespace Draft

/-- The record made of a draft. -/
def record (draft : Draft) : Record := Record.make draft.key draft.division draft.properties

/-- The names of a draft with the normalized values under them. -/
def normalized (draft : Draft) : List (String × Property.Value) :=
  draft.properties.entries.map fun e => (e.1, e.2.normalized)

/-- Two drafts differ in the order of their properties and in how the values are spelled. -/
structure Respells (a b : Draft) : Prop where
  key : a.key = b.key
  division : a.division = b.division
  properties : a.normalized.Perm b.normalized

variable {a b : Draft}

theorem Respells.map_get?_eq (h : Respells a b) (name : String) :
    (a.properties.get? name).map Property.Value.normalized =
      (b.properties.get? name).map Property.Value.normalized := by
  rw [← Keyed.get?_mapValues, ← Keyed.get?_mapValues]
  exact Keyed.get?_congr (fun _ => h.properties.mem_iff) name

theorem get?_own_record (draft : Draft) (name : String) :
    (own draft.record).get? name = if name = Property.parentName then none
      else (draft.properties.get? name).map Property.Value.normalized := by
  rw [own, Keyed.get?_mapValues, record, Record.properties_make]
  split <;> rfl

/-- The parent is the text of the normalized value. -/
theorem parent?_record (draft : Draft) :
    draft.record.parent? = ((draft.properties.get? Property.parentName).map
      Property.Value.normalized).map Property.Value.display := by
  rw [Option.map_map]
  exact congrArg (Option.map · _) (funext Property.Value.trim_display)

/-- Drafts in other spellings make records which say the same. -/
theorem saysTheSame_of_respells (h : Respells a b) : SaysTheSame a.record b.record where
  key := h.key
  parent? := by rw [parent?_record, parent?_record, h.map_get?_eq]
  own := fun name => by rw [get?_own_record, get?_own_record, h.map_get?_eq]

end Draft

/-! ## Collections -/

/-- Two collections have the same definitions, and records which say the same. -/
structure Collection.SaysTheSame (c d : Collection) : Prop where
  definitions : c.definitions = d.definitions
  records : List.Forall₂ Inheritance.SaysTheSame c.records d.records

theorem map_key_eq {records others : List Record} (h : List.Forall₂ SaysTheSame records others) :
    records.map Record.key = others.map Record.key := by
  induction h with
  | nil => rfl
  | cons hrs _ ih => rw [List.map_cons, List.map_cons, hrs.key, ih]

/-- A repeated key is refused in both collections. -/
theorem sameOutcome_add {c d : Collection} {r s : Record} (h : c.SaysTheSame d)
    (hrs : SaysTheSame r s) : SameOutcome Collection.SaysTheSame (c.add r) (d.add s) := by
  rw [Collection.add, Collection.add]
  have hkeys : r.key ∈ c.records.map Record.key ↔ s.key ∈ d.records.map Record.key := by
    rw [map_key_eq h.records, hrs.key]
  by_cases hkey : s.key ∈ d.records.map Record.key
  · rw [dif_pos hkey, dif_pos (hkeys.2 hkey)]
    exact .error rfl
  · rw [dif_neg hkey, dif_neg (mt hkeys.1 hkey)]
    exact .ok ⟨h.definitions, List.rel_append h.records (.cons hrs .nil)⟩

theorem sameOutcome_ofRecords {records others : List Record}
    (h : List.Forall₂ SaysTheSame records others) :
    SameOutcome Collection.SaysTheSame (Collection.ofRecords records)
      (Collection.ofRecords others) := by
  have hempty : Collection.empty.SaysTheSame Collection.empty := ⟨rfl, .nil⟩
  apply SameOutcome.foldlM ?_ h hempty
  intro c d r s hcd hrs
  exact sameOutcome_add hcd hrs

/-! ## Builds -/

theorem Stats.of_congr {c d : Collection} (h : c.SaysTheSame d) : Stats.of c = Stats.of d := by
  funext artifact
  rw [Stats.of, Stats.of, h.definitions, h.records.length_eq]

namespace Source

/-- **Spelling and the order of properties do not change a build.** Drafts which say the same in
other spellings build to the same document, sizes and messages, or both builds fail with faults of
one kind. -/
theorem build_respelled (config : Config) (catalog : Catalog) (options : BuildOptions)
    {drafts others : List Draft} (h : List.Forall₂ Draft.Respells drafts others) :
    SameOutcome Eq
      ((Source.ofRecords config (drafts.map Draft.record)).build catalog options)
      ((Source.ofRecords config (others.map Draft.record)).build catalog options) := by
  have hrecords : List.Forall₂ SaysTheSame (drafts.map Draft.record) (others.map Draft.record) := by
    rw [List.forall₂_map_left_iff, List.forall₂_map_right_iff]
    exact h.imp fun _ _ => Draft.saysTheSame_of_respells
  have hcompile : SameOutcome (fun x y => x.1.SaysTheSame y.1 ∧ x.2 = y.2)
      ((Source.ofRecords config (drafts.map Draft.record)).compile catalog options.flavor)
      ((Source.ofRecords config (others.map Draft.record)).compile catalog options.flavor) := by
    -- loading, reading and compiling, one after the other
    refine (sameOutcome_ofRecords hrecords).bind fun c d hcd => ?_
    have hrows : SameOutcome Eq (c.rows catalog options.flavor) (d.rows catalog options.flavor) :=
      sameOutcome_rowsFrom hcd.records fun _ => .none
    refine hrows.bind fun rows _ heq => ?_
    subst heq
    exact (SameOutcome.refl (Artifact.compile rows)).bind fun a _ heq => .ok ⟨hcd, heq⟩
  refine (SameOutcome.refl (.ok config)).bind fun _ _ hconfig => ?_
  refine hcompile.bind fun ⟨c, a⟩ ⟨d, b⟩ ⟨hcd, hab⟩ => .ok ?_
  dsimp only at hcd hab
  rw [Stats.of_congr hcd, hab, hconfig]

/-- A source builds if its records have rows. -/
theorem exists_build_eq_ok {source : Source} {config : Config} {c : Collection} {catalog : Catalog}
    {options : BuildOptions} {rows : List Row} (hconfig : source.config = .ok config)
    (hc : source.collection = .ok c) (hr : c.rows catalog options.flavor = .ok rows) :
    ∃ report, source.build catalog options = .ok report := by
  obtain ⟨a, ha⟩ := Artifact.exists_compile_rows hr
  rw [build, hconfig, compile_eq_artifact source catalog hc, artifact_eq_ok_iff.2 ⟨rows, hr, ha⟩]
  exact ⟨_, rfl⟩

/-- A root and a child of it. -/
def plainDrafts : List Draft :=
  [⟨defaultProperties, "Sample", .ofList [("Comment", .text "Sample"), ("Beta", .flag false)]⟩,
    ⟨"Chrome*", "Sample", .ofList [("Parent", .text defaultProperties), ("Beta", .flag true),
      ("Browser", .text "Chrome"), ("Browser_Bits", .text "64")]⟩]

/-- The same in another order, with blanks and flags as texts. -/
def respelledDrafts : List Draft :=
  [⟨defaultProperties, "Sample", .ofList [("Beta", .text "false"), ("Comment", .text " Sample")]⟩,
    ⟨"Chrome*", "Sample", .ofList [("Browser_Bits", .text "64\t"), ("Beta", .text " true "),
      ("Parent", .text (" " ++ defaultProperties)), ("Browser", .text "Chrome\n")]⟩]

theorem build_respelled_drafts :
    List.Forall₂ Draft.Respells plainDrafts respelledDrafts ∧
      ∃ report,
        (Source.ofRecords .default (plainDrafts.map Draft.record)).build .standard {} = .ok report ∧
        (Source.ofRecords .default (respelledDrafts.map Draft.record)).build .standard {} =
          .ok report := by
  have hrespells : List.Forall₂ Draft.Respells plainDrafts respelledDrafts :=
    .cons ⟨rfl, rfl, by decide +kernel⟩ (.cons ⟨rfl, rfl, by decide +kernel⟩ .nil)
  have hrows : (Collection.ofRecords (plainDrafts.map Draft.record) >>= fun c =>
      c.rows .standard Flavor.full).toOption.map List.length = some 2 := by decide +kernel
  obtain ⟨rows, hrows, -⟩ := exists_eq_ok hrows
  obtain ⟨c, hc, hrows⟩ := bind_eq_ok_iff.1 hrows
  have hbuild : ∃ report,
      (Source.ofRecords .default (plainDrafts.map Draft.record)).build .standard {} = .ok report :=
    exists_build_eq_ok rfl hc hrows
  obtain ⟨report, hreport⟩ := hbuild
  have hsame := build_respelled .default .standard {} hrespells
  rw [hreport] at hsame
  exact ⟨hrespells, report, hreport, hsame.eq_ok⟩

end Source

end AgentAtlas
