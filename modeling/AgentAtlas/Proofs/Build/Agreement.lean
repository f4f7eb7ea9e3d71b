import AgentAtlas.Build
import AgentAtlas.Proofs.Artifact.Flavors
import AgentAtlas.Proofs.Artifact.PatternTable
import AgentAtlas.Proofs.Inheritance.Headers

/-!
# A check and a build agree

Both load the source and compile its collection, the check under the full flavor and the build
under the one it is asked for. A flavor has no say in whether there is an artifact, nor in the sizes
of its tables, and a document is there for every artifact. So a source which passes the check
builds, with the same sizes, and one which does not fails with the same fault
(`check_build_agree`). The check warns exactly of collections without a record which emits a pattern
(`size_patterns_eq_zero_iff`).
-/

set_option autoImplicit false

namespace AgentAtlas

open Inheritance

variable {c : Collection} {catalog : Catalog} {filter : Property.Filter} {rows : List Row}
  {a : Artifact}

/-! ## Collections without patterns -/

/-- The record emits a pattern: it has a name, and it heads no group or the name has a wildcard. -/
def Inheritance.EmitsPattern (c : Collection) (record : Record) : Prop :=
  ∃ name, record.name? = some name ∧
    (¬ Heads c record ∨ '*' ∈ name.toList ∨ '?' ∈ name.toList)

theorem exists_patternName?_iff (catalog : Catalog) (filter : Property.Filter)
    {earlier : List Record} {record : Record} {inherited : Properties}
    (h : Inherits c earlier record inherited) (hsub : earlier ⊆ c.records) :
    (∃ name, (rowOf catalog filter inherited record).patternName? = some name) ↔
      EmitsPattern c record := by
  simp only [Artifact.patternName?_eq_some_iff, ← Bool.not_eq_true, header_rowOf_iff h hsub]
  rfl

/-- Rows without a pattern are those of a collection in which no record emits one. -/
theorem patternName?_eq_none_iff (hr : c.rows catalog filter = .ok rows) :
    (∀ row ∈ rows, row.patternName? = none) ↔ ∀ record ∈ c.records, ¬ EmitsPattern c record := by
  obtain ⟨hlen, hrow⟩ := rows_eq_ok hr
  have htake : ∀ i, c.records.take i ⊆ c.records := fun i => List.take_subset i c.records
  constructor
  · intro h record hm
    obtain ⟨i, hi⟩ := List.mem_iff_getElem?.1 hm
    obtain ⟨above, hin, hri⟩ := hrow i record hi
    rw [← exists_patternName?_iff catalog filter hin (htake i)]
    rintro ⟨name, hname⟩
    rw [h _ (List.mem_of_getElem? hri)] at hname
    cases hname
  · intro h row hm
    obtain ⟨i, hi⟩ := List.mem_iff_getElem?.1 hm
    -- the record at the place of the row
    have hlt : i < c.records.length := hlen ▸ (List.getElem?_eq_some_iff.1 hi).1
    obtain ⟨above, hin, hri⟩ := hrow i c.records[i] (List.getElem?_eq_getElem hlt)
    rw [hi, Option.some.injEq] at hri
    subst hri
    rw [Option.eq_none_iff_forall_ne_some]
    intro name hname
    have hemits := (exists_patternName?_iff catalog filter hin (htake i)).1 ⟨name, hname⟩
    exact h _ (List.getElem_mem hlt) hemits

theorem numbered_eq_nil_iff :
    Artifact.numbered rows = [] ↔ ∀ row ∈ rows, row.patternName? = none := by
  rw [List.eq_nil_iff_forall_not_mem]
  simp only [Artifact.mem_numbered_iff]
  constructor
  · intro h row hm
    obtain ⟨i, hi⟩ := List.mem_iff_getElem?.1 hm
    rw [Option.eq_none_iff_forall_ne_some]
    intro name hname
    exact h ⟨i, Pattern.ofName name⟩ ⟨row, name, hi, hname, rfl⟩
  · rintro h n ⟨row, name, hi, hname, -⟩
    rw [h row (List.mem_of_getElem? hi)] at hname
    cases hname

theorem artifact_eq_ok_iff :
    c.artifact catalog filter = .ok a ↔
      ∃ rows, c.rows catalog filter = .ok rows ∧ Artifact.compile rows = .ok a :=
  bind_eq_ok_iff

/-- An artifact is without patterns exactly if no record of the collection emits one. -/
theorem size_patterns_eq_zero_iff (h : c.artifact catalog filter = .ok a) :
    a.patterns.size = 0 ↔ ∀ record ∈ c.records, ¬ EmitsPattern c record := by
  obtain ⟨rows, hr, hc⟩ := artifact_eq_ok_iff.1 h
  rw [Artifact.patterns_of_compile hc, Artifact.patternTable, Table.size_ofList_eq_zero_iff,
    List.map_eq_nil_iff, Pattern.compress_eq_nil_iff, numbered_eq_nil_iff,
    ← patternName?_eq_none_iff hr]
  simp only [Artifact.mem_arranged]

/-! ## Sizes and messages -/

/-- A filter changes none of the sizes. -/
theorem Stats.of_restrict (c : Collection) (a : Artifact) (keep : String → Bool) :
    Stats.of c (a.restrict keep) = Stats.of c a := by
  simp [Stats.of, Artifact.restrict, Table.mapValues, Table.size]

/-- A check warns exactly of a collection without patterns. -/
theorem Stats.warning_mem_checkMessages_iff (stats : Stats) :
    (⟨.warning, "No record produces a pattern."⟩ : Message) ∈ stats.checkMessages ↔
      stats.patterns = 0 := by
  rw [checkMessages]
  split <;> simp_all

namespace Source

variable (source : Source) (catalog : Catalog)

/-- Compiling a source gives the artifact of its collection. -/
theorem compile_eq_artifact (hc : source.collection = .ok c) (flavor : Flavor) :
    source.compile catalog flavor = (c.artifact catalog flavor).map (c, ·) := by
  simp only [compile, hc, Collection.artifact, bind, Except.bind]
  cases c.rows catalog flavor with
  | error fault => rfl
  | ok rows =>
      dsimp only
      cases Artifact.compile rows <;> rfl

/-- Compiling a source in a flavor gives what its collection has without one, less the properties
which the flavor leaves out. -/
theorem compile_eq_map (hc : source.collection = .ok c) (flavor : Flavor) :
    source.compile catalog flavor = (c.artifact catalog .everything).map fun a =>
      (c, a.restrict (catalog.passes flavor)) := by
  rw [compile_eq_artifact source catalog hc, c.artifact_eq_map]
  cases c.artifact catalog .everything <;> rfl

/-- **A check and a build agree.** They fail with one fault, or both succeed with the same sizes,
and then the build has a document, and the check warns exactly if no record of the collection emits
a pattern. -/
theorem check_build_agree (options : BuildOptions) :
    (∃ fault, source.check catalog = .error fault ∧ source.build catalog options = .error fault) ∨
      ∃ c checked built document, source.collection = .ok c ∧
        source.check catalog = .ok checked ∧ source.build catalog options = .ok built ∧
          built.stats = checked.stats ∧ built.document? = some document ∧
            (⟨.warning, "No record produces a pattern."⟩ ∈ checked.messages ↔
              ∀ record ∈ c.records, ¬ EmitsPattern c record) := by
  rw [check, build]
  cases source.config with
  | error fault => exact .inl ⟨fault, rfl, rfl⟩
  | ok config =>
      cases hc : source.collection with
      | error fault =>
          have hfault : ∀ flavor, source.compile catalog flavor = .error fault := by
            intro flavor
            rw [compile, hc]
            rfl
          rw [hfault, hfault]
          exact .inl ⟨fault, rfl, rfl⟩
      | ok c =>
          rw [compile_eq_map source catalog hc, compile_eq_map source catalog hc]
          cases ha : c.artifact catalog .everything with
          | error fault => exact .inl ⟨fault, rfl, rfl⟩
          | ok a =>
              refine .inr ⟨c, _, _, _, rfl, rfl, rfl, ?_, rfl, ?_⟩
              · -- the sizes are those of the artifact without a flavor
                show Stats.of c _ = Stats.of c _
                rw [Stats.of_restrict, Stats.of_restrict]
              · rw [← size_patterns_eq_zero_iff ha]
                show _ ∈ (Stats.of c _).checkMessages ↔ _
                rw [Stats.warning_mem_checkMessages_iff, Stats.of_restrict]
                rfl

end Source

end AgentAtlas
