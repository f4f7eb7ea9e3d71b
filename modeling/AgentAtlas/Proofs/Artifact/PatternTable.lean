import AgentAtlas.Proofs.Artifact.Closure
import AgentAtlas.Proofs.Pattern.Expansion
import AgentAtlas.Proofs.Pattern.Lookups

/-!
# The pattern table of an artifact

A row emits the pattern of its name, except for a header whose name has no wildcard, and the
patterns are numbered by the positions of their rows. Where no two rows have one name, no two
patterns are the same (`nodup_patterns_numbered`), so the pattern table is faithful to them
(`compile_patterns_faithful`). The rows of a collection have no two names alike
(`nodup_names_rows`). No pattern of a name contains a slot, so compressing the patterns of rows
never looks beyond an end (`compress_in_bounds`).
-/

set_option autoImplicit false

namespace AgentAtlas.Artifact

open Pattern (Numbered)

variable {rows : List Row} {a : Artifact}

/-- The row at a position emits a pattern: it has a name, and it is no header or the name has a
wildcard. -/
def Emits (rows : List Row) (i : Nat) (p : Pattern) : Prop :=
  ∃ row name, (arranged rows)[i]? = some row ∧ row.name? = some name ∧
    (row.header = false ∨ '*' ∈ name.toList ∨ '?' ∈ name.toList) ∧ p = Pattern.ofName name

theorem hasWildcard_iff {name : String} :
    Glob.hasWildcard name = true ↔ '*' ∈ name.toList ∨ '?' ∈ name.toList := by
  rw [Glob.hasWildcard, List.any_eq_true]
  constructor
  · rintro ⟨c, hc, hw⟩
    rw [Glob.isWildcard, Bool.or_eq_true, beq_iff_eq, beq_iff_eq] at hw
    rcases hw with rfl | rfl
    · exact .inl hc
    · exact .inr hc
  · rintro (hc | hc)
    · exact ⟨_, hc, rfl⟩
    · exact ⟨_, hc, rfl⟩

theorem patternName?_eq_some_iff {row : Row} {name : String} :
    row.patternName? = some name ↔ row.name? = some name ∧
      (row.header = false ∨ '*' ∈ name.toList ∨ '?' ∈ name.toList) := by
  rw [Row.patternName?, Option.filter_eq_some_iff, Bool.or_eq_true, Bool.not_eq_true',
    hasWildcard_iff]

/-- The numbered patterns are those of the rows which emit one. -/
theorem mem_numbered_iff {n : Numbered} :
    n ∈ numbered rows ↔ ∃ row name, rows[n.index]? = some row ∧
      row.patternName? = some name ∧ n.pattern = Pattern.ofName name := by
  rw [numbered, List.mem_filterMap]
  constructor
  · rintro ⟨⟨row, i⟩, hrow, hn⟩
    obtain ⟨name, hname, rfl⟩ := Option.map_eq_some_iff.1 hn
    exact ⟨row, name, List.mem_zipIdx_iff_getElem?.1 hrow, hname, rfl⟩
  · rintro ⟨row, name, hrow, hname, hp⟩
    refine ⟨(row, n.index), List.mem_zipIdx_iff_getElem?.2 hrow, ?_⟩
    rw [hname, Option.map_some, ← hp]

/-- Patterns stand in the order of their rows. -/
theorem numbered_ascending (rows : List Row) :
    (numbered rows).Pairwise fun m n => m.index < n.index := by
  have hidx : rows.zipIdx.Pairwise fun d e => d.2 < e.2 := by
    rw [List.pairwise_iff_getElem]
    intro i j hi hj h
    simpa using h
  apply hidx.filterMap
  intro d e hlt m hm n hn
  obtain ⟨-, -, rfl⟩ := Option.map_eq_some_iff.1 hm
  obtain ⟨-, -, rfl⟩ := Option.map_eq_some_iff.1 hn
  exact hlt

/-- Rows with different names emit different patterns. -/
theorem nodup_patterns_numbered (h : (rows.filterMap Row.name?).Nodup) :
    ((numbered rows).map Numbered.pattern).Nodup := by
  rw [← List.zipIdx_map_fst 0 rows, List.filterMap_map, List.Nodup, List.pairwise_filterMap] at h
  rw [numbered, List.Nodup, List.pairwise_map, List.pairwise_filterMap]
  apply h.imp
  intro d e hne m hm n hn he
  obtain ⟨name, hname, rfl⟩ := Option.map_eq_some_iff.1 hm
  obtain ⟨other, hother, rfl⟩ := Option.map_eq_some_iff.1 hn
  exact hne name (patternName?_eq_some_iff.1 hname).1 other (patternName?_eq_some_iff.1 hother).1
    (Pattern.ofName_injective he)

theorem exists_name_of_mem_numbered {n : Numbered} (h : n ∈ numbered rows) :
    ∃ name, n.pattern = Pattern.ofName name := by
  obtain ⟨-, name, -, -, hp⟩ := mem_numbered_iff.1 h
  exact ⟨name, hp⟩

/-- The names of a collection's rows are different, as the keys of its records are. -/
theorem nodup_names_rows {c : Collection} {catalog : Catalog} {filter : Property.Filter}
    (hr : c.rows catalog filter = .ok rows) : (rows.filterMap Row.name?).Nodup := by
  -- a row with a name has its key as the name
  have hname : ∀ row ∈ rows, ∀ name, row.name? = some name → name = row.key := by
    intro row hrow name hn
    obtain ⟨-, record, inherited, -, rfl⟩ := exists_record_of_mem hr hrow
    rw [Inheritance.rowOf, Record.name?] at hn
    split at hn
    · cases hn
    · exact (Option.some.inj hn).symm
  have hkeys := Inheritance.rows_nodup hr
  rw [List.Nodup, List.pairwise_map] at hkeys
  rw [List.Nodup, List.pairwise_filterMap]
  apply hkeys.imp_of_mem
  intro r s hrm hsm hne name hn other ho
  rw [hname r hrm name hn, hname s hsm other ho]
  exact hne

/-- **The pattern table of an artifact loses, invents and overwrites nothing, but for the groups of
two.** Where the names of rows are different, it is faithful to the patterns which rows emit,
numbered by the positions of their rows. -/
theorem compile_patterns_faithful {rows : List Row} {a : Artifact}
    (hn : (rows.filterMap Row.name?).Nodup) (hc : compile rows = .ok a) :
    (∀ i p, (⟨i, p⟩ : Numbered) ∈ numbered (arranged rows) ↔ Emits rows i p) ∧
      (numbered (arranged rows)).Pairwise (fun m n => m.index < n.index) ∧
        Pattern.Faithful (numbered (arranged rows)) a.patterns := by
  refine ⟨?_, numbered_ascending _, ?_⟩
  · intro i p
    rw [mem_numbered_iff, Emits]
    simp only [patternName?_eq_some_iff, and_assoc]
  · rw [patterns_of_compile hc, patternTable]
    -- arranging does not change the names
    have hnames : ((arranged rows).filterMap Row.name?).Nodup :=
      ((arranged_perm rows).filterMap Row.name?).nodup_iff.2 hn
    exact Pattern.faithful_ofList_compress (fun n hm => exists_name_of_mem_numbered hm)
      (nodup_patterns_numbered hnames)

/-- **Compression never looks beyond an end.** The pattern of a name does not contain the text of a
slot. In every group of patterns which do not contain it each member has as many runs as the
skeleton has slots, and every lookup made for the entries finds something. So it is for the patterns
of all rows. -/
theorem compress_in_bounds :
    (∀ name, ¬ Pattern.slot <:+: Pattern.ofName name) ∧
      (∀ patterns : List Numbered, (∀ n ∈ patterns, ¬ Pattern.slot <:+: n.pattern) →
        Pattern.InBounds patterns) ∧
      ∀ rows : List Row, Pattern.InBounds (numbered rows) := by
  refine ⟨Pattern.not_slot_infix_ofName, fun _ h => Pattern.inBounds_of_not_slot h, ?_⟩
  intro rows
  apply Pattern.inBounds_of_not_slot
  intro n hn
  obtain ⟨name, hname⟩ := exists_name_of_mem_numbered hn
  rw [hname]
  exact Pattern.not_slot_infix_ofName name

/-- Three patterns which are of no names: their parentheses come near to a slot. -/
def bracketedPatterns : List Numbered :=
  [⟨0, "^(1)\\d2$".toList⟩, ⟨1, "^(3)\\d2$".toList⟩, ⟨2, "^(4)\\d2$".toList⟩]

theorem compress_in_bounds_bracketed :
    (∀ n ∈ bracketedPatterns, ¬ Pattern.slot <:+: n.pattern) ∧
      Pattern.InBounds bracketedPatterns := by
  have h : ∀ n ∈ bracketedPatterns, ¬ Pattern.slot <:+: n.pattern := by decide
  exact ⟨h, compress_in_bounds.2.1 bracketedPatterns h⟩

/-! ## A table with a pair -/

/-- A row without parent and properties. -/
def bareRow (name : String) (header : Bool) : Row := ⟨name, some name, none, header, .empty⟩

/-- Two versions of one browser, three of another, a header and the row of all names. -/
def versionRows : List Row := [
  bareRow "Opera/10*" false, bareRow "Opera/11*" false,
  bareRow "Mini/1*" false, bareRow "Mini/2*" false, bareRow "Mini/3*" false,
  bareRow "Mini" true, bareRow "*" false]

/-- The pair has the first pattern with the second row, and the header has no pattern. -/
def versionTable : Table String Pattern.Target := Table.ofList [
  ("^.*$", .row 6), ("^Opera/10.*$", .row 1),
  ("^Mini/(\\d+).*$", .variants (Keyed.ofList [("@1", 2), ("@2", 3), ("@3", 4)]))]

theorem arranged_versionRows : arranged versionRows = versionRows := by
  apply List.mergeSort_of_pairwise
  decide

/-- The artifact of the rows. -/
def versionArtifact : Artifact where
  patterns := versionTable
  rows := Table.ofPositions (versionRows.map fun _ => ⟨none, []⟩)
  parents := .empty

theorem compile_versionRows : compile versionRows = .ok versionArtifact := by
  rw [compile, arranged_versionRows]
  rfl

theorem compile_patterns_faithful_versions :
    (versionRows.filterMap Row.name?).Nodup ∧ compile versionRows = .ok versionArtifact ∧
      Pattern.Faithful (numbered versionRows) versionTable := by
  have hnames : (versionRows.filterMap Row.name?).Nodup := by decide
  obtain ⟨-, -, hfaithful⟩ := compile_patterns_faithful hnames compile_versionRows
  rw [arranged_versionRows] at hfaithful
  exact ⟨hnames, compile_versionRows, hfaithful⟩

end AgentAtlas.Artifact
