import AgentAtlas.Proofs.Artifact.Placement
import AgentAtlas.Proofs.Inheritance.Acceptance
import AgentAtlas.Proofs.Inheritance.Lineage
import AgentAtlas.Proofs.Pattern.Groups

/-!
# Artifacts of reduced rows are closed and acyclic

The rows of a collection compile, and every position in the artifact is that of a row: in the
patterns, as a parent of a row, and in the parent table (`compile_closed`). Arranging scatters
parents and children, so positions do not decrease from a row to its parent. What does decrease is
the place of the record in the collection (`rows_parent_before`), and it bounds the way up to a row
without a parent (`exists_climb`).
-/

set_option autoImplicit false

namespace AgentAtlas.Artifact

open Inheritance

variable {c : Collection} {catalog : Catalog} {filter : Property.Filter} {rows : List Row}
  {a : Artifact}

/-- The position which a number of steps from row to parent leads to. -/
def climb (a : Artifact) : Nat → Nat → Option Nat
  | 0, i => some i
  | steps + 1, i => ((a.rows.get? i).bind ArtifactRow.parent?).bind (climb a steps)

/-- What holds of the artifact of the rows of a collection. -/
structure Closed (c : Collection) (rows : List Row) (a : Artifact) : Prop where
  /-- The rows are numbered from zero on, one for each record. -/
  numbered : a.rows.keys = List.range c.records.length
  /-- Each record has one row. -/
  placed : ∀ record ∈ c.records, ∃! i, keyAt? rows i = some record.key
  /-- A pattern leads to rows. -/
  patterns : ∀ pattern target, a.patterns.get? pattern = some target →
    ∀ i ∈ target.positions, i < c.records.length
  /-- The row of a record links to the row of the record's parent, or to none with it. -/
  links : ∀ i row, a.rows.get? i = some row → ∃ record ∈ c.records,
    keyAt? rows i = some record.key ∧ (row.parent? = none ↔ record.parent? = none) ∧
      ∀ parent, record.parent? = some parent →
        ∃ j, row.parent? = some j ∧ keyAt? rows j = some parent
  /-- The parent table holds the positions which are parents, with the keys of their rows. -/
  parents : ∀ j key, a.parents.get? j = some key ↔
    keyAt? rows j = some key ∧ ∃ i row, a.rows.get? i = some row ∧ row.parent? = some j
  /-- From each row the links lead to a root without a parent. -/
  rooted : ∀ i row, a.rows.get? i = some row → ∃ steps ≤ c.records.length - 1, ∃ j last,
    a.climb steps i = some j ∧ a.rows.get? j = some last ∧ last.parent? = none ∧
      (keyAt? rows j = some defaultProperties ∨ keyAt? rows j = some defaultBrowser)

/-! ## Rows and their records -/

/-- Every row is the row of a record. -/
theorem exists_record_of_mem (hr : c.rows catalog filter = .ok rows) {row : Row}
    (hm : row ∈ rows) :
    ∃ (k : Nat) (record : Record) (inherited : Properties), c.records[k]? = some record ∧
      row = rowOf catalog filter inherited record := by
  obtain ⟨hlen, hrow⟩ := rows_eq_ok hr
  obtain ⟨k, hk⟩ := List.mem_iff_getElem?.1 hm
  cases hrec : c.records[k]? with
  | none =>
      have hlt := (List.getElem?_eq_some_iff.1 hk).1
      have hge := List.getElem?_eq_none_iff.1 hrec
      omega
  | some record =>
      obtain ⟨inherited, -, hk'⟩ := hrow k record hrec
      rw [hk, Option.some.injEq] at hk'
      exact ⟨k, record, inherited, hrec, hk'⟩

/-- The row of a record, wherever arranging puts it. -/
theorem exists_record_of_arranged (hr : c.rows catalog filter = .ok rows) {i : Nat} {row : Row}
    (hi : (arranged rows)[i]? = some row) :
    ∃ (k : Nat) (record : Record), c.records[k]? = some record ∧ row.key = record.key ∧
      row.parent? = record.parent? := by
  obtain ⟨k, record, inherited, hrec, rfl⟩ :=
    exists_record_of_mem hr (mem_arranged.1 (List.mem_of_getElem? hi))
  exact ⟨k, record, hrec, rfl, rfl⟩

/-- A record which names a parent comes after it. -/
theorem rows_parent_before (hr : c.rows catalog filter = .ok rows) {k : Nat} {record : Record}
    {parent : String} (hk : c.records[k]? = some record) (hp : record.parent? = some parent) :
    ∃ j < k, ∃ above, c.records[j]? = some above ∧ above.key = parent := by
  have hw : WellFormed catalog (c.records.take k) record := exists_rows_iff.1 ⟨rows, hr⟩ k record hk
  obtain ⟨above, hmem, hkey⟩ := List.mem_map.1 (hw.placed parent hp)
  obtain ⟨j, hj⟩ := List.mem_iff_getElem?.1 hmem
  rw [List.getElem?_take] at hj
  split at hj
  · rename_i hlt
    exact ⟨j, hlt, above, hj, hkey⟩
  · cases hj

/-- A record which names no parent is a root. -/
theorem isRoot_of_parent?_eq_none (hr : c.rows catalog filter = .ok rows) {k : Nat}
    {record : Record} (hk : c.records[k]? = some record) (hp : record.parent? = none) :
    record.key = defaultProperties ∨ record.key = defaultBrowser := by
  have hw : WellFormed catalog (c.records.take k) record := exists_rows_iff.1 ⟨rows, hr⟩ k record hk
  have hroot : record.isRoot = true := by
    by_contra hchild
    exact hw.linked (Bool.eq_false_of_not_eq_true hchild) hp
  simpa [Record.isRoot] using hroot

/-- The rows of a collection compile: the parent of each has a row. -/
theorem exists_compile_rows (hr : c.rows catalog filter = .ok rows) :
    ∃ a, compile rows = .ok a := by
  apply exists_compile_eq_ok
  intro row hrow parent hp
  obtain ⟨i, hi⟩ := List.mem_iff_getElem?.1 (mem_arranged.2 hrow)
  obtain ⟨k, record, hk, -, hparent⟩ := exists_record_of_arranged hr hi
  obtain ⟨j, -, above, hj, hkey⟩ := rows_parent_before hr hk (hparent ▸ hp)
  have hmem : parent ∈ rows.map Row.key := by
    rw [rows_keys hr, ← hkey]
    exact List.mem_map_of_mem (List.mem_of_getElem? hj)
  exact List.mem_map.1 hmem

/-! ## Positions -/

/-- A key of a row is at the position which is found for it. -/
theorem keyAt?_eq_some_iff_position? (hn : (rows.map Row.key).Nodup) {i : Nat} {key : String} :
    keyAt? rows i = some key ↔ position? (arranged rows) key = some i := by
  rw [keyAt?_eq_some_iff, position?_eq_some_iff (nodup_keys_arranged hn)]

/-- The key of a record is at one position. -/
theorem exists_keyAt? (hr : c.rows catalog filter = .ok rows) {record : Record}
    (hmem : record ∈ c.records) : ∃ i, keyAt? rows i = some record.key := by
  have hkey : record.key ∈ rows.map Row.key := by
    rw [rows_keys hr]
    exact List.mem_map_of_mem hmem
  obtain ⟨row, hrow, hrk⟩ := List.mem_map.1 hkey
  obtain ⟨i, hi⟩ := List.mem_iff_getElem?.1 (mem_arranged.2 hrow)
  exact ⟨i, keyAt?_eq_some_iff.2 ⟨row, hi, hrk⟩⟩

/-- The row at the position of a record's key, with the position of the parent's key. -/
theorem get?_rows_of_keyAt? (hr : c.rows catalog filter = .ok rows) (hc : compile rows = .ok a)
    {i k : Nat} {record : Record} (hk : c.records[k]? = some record)
    (hi : keyAt? rows i = some record.key) :
    ∃ row, a.rows.get? i = some row ∧
      row.parent? = record.parent?.bind (position? (arranged rows)) := by
  obtain ⟨row, hrow, hkey⟩ := keyAt?_eq_some_iff.1 hi
  obtain ⟨l, other, hl, hother, hparent⟩ := exists_record_of_arranged hr hrow
  -- no key occurs twice
  have hsame : other = record :=
    eq_of_key_eq (List.mem_of_getElem? hl) (List.mem_of_getElem? hk) (hother ▸ hkey)
  subst hsame
  have hget := get?_rows_of_compile hc i
  rw [hrow, Option.map_some, hparent] at hget
  exact ⟨_, hget, rfl⟩

/-- The rows of an artifact are those of the records. -/
theorem exists_record_of_get? (hr : c.rows catalog filter = .ok rows)
    (hc : compile rows = .ok a) {i : Nat} {row : ArtifactRow} (hi : a.rows.get? i = some row) :
    ∃ (k : Nat) (record : Record), c.records[k]? = some record ∧
      keyAt? rows i = some record.key ∧
      row.parent? = record.parent?.bind (position? (arranged rows)) := by
  rw [get?_rows_of_compile hc, Option.map_eq_some_iff] at hi
  obtain ⟨r, hr', rfl⟩ := hi
  obtain ⟨k, record, hk, hkey, hparent⟩ := exists_record_of_arranged hr hr'
  exact ⟨k, record, hk, keyAt?_eq_some_iff.2 ⟨r, hr', hkey⟩, by rw [hparent]⟩

/-- A parent's key has a position. -/
theorem exists_position?_parent (hr : c.rows catalog filter = .ok rows) {k : Nat}
    {record : Record} {parent : String} (hk : c.records[k]? = some record)
    (hp : record.parent? = some parent) : ∃ j, position? (arranged rows) parent = some j := by
  obtain ⟨l, -, above, hl, rfl⟩ := rows_parent_before hr hk hp
  obtain ⟨j, hj⟩ := exists_keyAt? hr (List.mem_of_getElem? hl)
  exact ⟨j, (keyAt?_eq_some_iff_position? (rows_nodup hr)).1 hj⟩

/-- From the row of the record at a place of the collection, at most as many steps lead to a root
without a parent. The induction is on the place, which each step lowers. -/
theorem exists_climb (hr : c.rows catalog filter = .ok rows) (hc : compile rows = .ok a) :
    ∀ (k i : Nat) (record : Record), c.records[k]? = some record →
      keyAt? rows i = some record.key → ∃ steps ≤ k, ∃ j last,
        a.climb steps i = some j ∧ a.rows.get? j = some last ∧ last.parent? = none ∧
          (keyAt? rows j = some defaultProperties ∨ keyAt? rows j = some defaultBrowser) := by
  intro k
  induction k using Nat.strong_induction_on with
  | _ k ih =>
      intro i record hk hi
      obtain ⟨row, hrow, hparent⟩ := get?_rows_of_keyAt? hr hc hk hi
      cases hp : record.parent? with
      | none =>
          -- the row itself has no parent
          rw [hp] at hparent
          refine ⟨0, Nat.zero_le k, i, row, rfl, hrow, hparent, ?_⟩
          rw [hi, Option.some.injEq, Option.some.injEq]
          exact isRoot_of_parent?_eq_none hr hk hp
      | some parent =>
          -- one step leads to the row of an earlier record
          obtain ⟨l, hlt, above, hl, rfl⟩ := rows_parent_before hr hk hp
          obtain ⟨j, hj⟩ := exists_position?_parent hr hk hp
          have hkey := (keyAt?_eq_some_iff_position? (rows_nodup hr)).2 hj
          obtain ⟨steps, hle, top, last, hclimb, hlast⟩ := ih l hlt j above hl hkey
          refine ⟨steps + 1, by omega, top, last, ?_, hlast⟩
          rw [hp, Option.bind_some, hj] at hparent
          rw [climb, hrow, Option.bind_some, hparent, Option.bind_some, hclimb]

/-- A pattern leads to rows only. -/
theorem lt_of_mem_positions (hc : compile rows = .ok a) {pattern : String}
    {target : Pattern.Target} (h : a.patterns.get? pattern = some target) {i : Nat}
    (hi : i ∈ target.positions) : i < rows.length := by
  rw [patterns_of_compile hc, patternTable, Table.get?_ofList, List.lookup_eq_some_iff] at h
  obtain ⟨before, after, hsplit, -⟩ := h
  have hmem : (pattern, target) ∈
      ((Pattern.compress (numbered (arranged rows))).map fun e => (e.key, e.target)).reverse := by
    rw [hsplit]
    exact List.mem_append_right _ List.mem_cons_self
  obtain ⟨e, he, htarget⟩ := List.mem_map.1 (List.mem_reverse.1 hmem)
  obtain ⟨-, rfl⟩ := Prod.mk.inj htarget
  obtain ⟨n, hn, rfl⟩ := Pattern.exists_index_of_mem_positions he hi
  obtain ⟨⟨row, index⟩, hrow, hname⟩ := List.mem_filterMap.1 hn
  obtain ⟨name, -, rfl⟩ := Option.map_eq_some_iff.1 hname
  have hlt := (List.getElem?_eq_some_iff.1 (List.mem_zipIdx_iff_getElem?.1 hrow)).1
  rwa [length_arranged] at hlt

/-- **Reduced rows compile, into an artifact which is closed and acyclic.** -/
theorem compile_closed (c : Collection) (catalog : Catalog) (filter : Property.Filter)
    {rows : List Row} (hr : c.rows catalog filter = .ok rows) :
    ∃ a, compile rows = .ok a ∧ Closed c rows a := by
  obtain ⟨a, hc⟩ := exists_compile_rows hr
  have hn := rows_nodup hr
  have hlen := (rows_eq_ok hr).1
  refine ⟨a, hc, ?_⟩
  constructor
  case numbered => rw [keys_rows_of_compile hc, hlen]
  case placed =>
    intro record hmem
    obtain ⟨i, hi⟩ := exists_keyAt? hr hmem
    refine ⟨i, hi, ?_⟩
    intro j hj
    rw [keyAt?_eq_some_iff_position? hn] at hi hj
    rw [hj, Option.some.injEq] at hi
    exact hi
  case patterns =>
    -- patterns are numbered by the rows which emit them
    intro pattern target h i hi
    rw [← hlen]
    exact lt_of_mem_positions hc h hi
  case links =>
    intro i row hi
    obtain ⟨k, record, hk, hkey, hparent⟩ := exists_record_of_get? hr hc hi
    refine ⟨record, List.mem_of_getElem? hk, hkey, ?_, ?_⟩
    · cases hp : record.parent? with
      | none => simp [hparent, hp]
      | some parent =>
          obtain ⟨j, hj⟩ := exists_position?_parent hr hk hp
          simp [hparent, hp, hj]
    · intro parent hp
      obtain ⟨j, hj⟩ := exists_position?_parent hr hk hp
      exact ⟨j, by rw [hparent, hp, Option.bind_some, hj],
        (keyAt?_eq_some_iff_position? hn).2 hj⟩
  case parents =>
    intro j key
    rw [get?_parents_of_compile hc, keyAt?_eq_some_iff_position? hn]
    constructor
    · -- a link which was found is the parent of the row where it was found
      rintro ⟨row, hrow, hp, hj⟩
      obtain ⟨i, hi⟩ := List.mem_iff_getElem?.1 (mem_arranged.2 hrow)
      refine ⟨hj, i, _, by rw [get?_rows_of_compile hc, hi, Option.map_some], ?_⟩
      rw [hp, Option.bind_some, hj]
    · rintro ⟨hj, i, row, hi, hp⟩
      rw [get?_rows_of_compile hc, Option.map_eq_some_iff] at hi
      obtain ⟨r, hr', rfl⟩ := hi
      obtain ⟨parent, hparent, hj'⟩ := Option.bind_eq_some_iff.1 hp
      -- the position belongs to one key, so the parent found there is the key
      rw [← keyAt?_eq_some_iff_position? hn] at hj hj'
      rw [hj, Option.some.injEq] at hj'
      subst hj'
      exact ⟨r, mem_arranged.1 (List.mem_of_getElem? hr'), hparent,
        (keyAt?_eq_some_iff_position? hn).1 hj⟩
  case rooted =>
    -- the last place is one less than the number of records
    intro i row hi
    obtain ⟨k, record, hk, hkey, -⟩ := exists_record_of_get? hr hc hi
    obtain ⟨steps, hle, h⟩ := exists_climb hr hc k i record hk hkey
    have hlt := (List.getElem?_eq_some_iff.1 hk).1
    exact ⟨steps, by omega, h⟩

/-! ## A sample -/

/-- A catalog of three properties. -/
def sampleCatalog : Catalog :=
  Keyed.ofList [("Comment", Catalog.text.inLite), ("Browser", Catalog.text.inLite),
    ("Version", Catalog.text.inLite)]

/-- A record with its parent and properties. -/
def sampleRecord (key parent : String) (properties : List (String × Property.Value)) : Record :=
  (Record.make key "sample" (Keyed.ofList properties)).under parent

/-- The abstract root, a root linked to it, a header below the abstract root, and a child. -/
def sample : Collection where
  definitions := .empty
  records := [
    Record.make defaultProperties "sample" (Keyed.ofList [("Browser", .text "unknown")]),
    sampleRecord defaultBrowser defaultProperties [("Browser", .text "any")],
    sampleRecord "Chrome" defaultProperties [("Comment", .text "Chrome"), ("Browser", .text "Chrome")],
    sampleRecord "Chrome/62*" "Chrome" [("Version", .text " 62 "), ("Browser", .text "Chrome")]]
  nodup := by decide +kernel

/-- The rows of the sample. -/
def sampleRows : List Row := [
  ⟨defaultProperties, none, none, false, Keyed.ofList [("Browser", .text "unknown")]⟩,
  ⟨defaultBrowser, some "*", some defaultProperties, false, Keyed.ofList [("Browser", .text "any")]⟩,
  ⟨"Chrome", some "Chrome", some defaultProperties, true,
    Keyed.ofList [("Comment", .text "Chrome"), ("Browser", .text "Chrome")]⟩,
  ⟨"Chrome/62*", some "Chrome/62*", some "Chrome", false, Keyed.ofList [("Version", .text "62")]⟩]

theorem sample_rows :
    sample.rows sampleCatalog (Property.Filter.ofFlavor .lite) = .ok sampleRows := by
  rfl

theorem compile_closed_sample :
    sample.rows sampleCatalog (Property.Filter.ofFlavor .lite) = .ok sampleRows ∧
      ∃ a, compile sampleRows = .ok a ∧ Closed sample sampleRows a :=
  ⟨sample_rows, compile_closed sample sampleCatalog (Property.Filter.ofFlavor .lite) sample_rows⟩

end AgentAtlas.Artifact
