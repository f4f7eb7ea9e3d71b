import AgentAtlas.Proofs.Artifact.Closure

/-!
# What a reader of an artifact sees

A reader takes what the parent row shows and lays the row's own properties over it (`View`). A row
holds only what its record adds and only what the filter passes, and rows stand in another order
than records; still the view of a record's row shows, for every property which the filter passes,
the nearest declaration on the record's lineage (`exists_view`, by induction on the place of the
record in the collection).
-/

set_option autoImplicit false

namespace AgentAtlas.Artifact

open Inheritance

variable {c : Collection} {catalog : Catalog} {filter : Property.Filter} {rows : List Row}
  {a : Artifact}

/-- The properties which a reader sees at a row. -/
inductive View (a : Artifact) : Nat → Properties → Prop
  | top {i : Nat} {properties : List (String × Property.Value)} :
      a.rows.get? i = some ⟨none, properties⟩ → View a i (Keyed.ofList properties)
  | child {i j : Nat} {properties : List (String × Property.Value)} {above : Properties} :
      a.rows.get? i = some ⟨some j, properties⟩ → View a j above →
      View a i (above.overlay (Keyed.ofList properties))

/-- A row has one view. -/
theorem View.unique {i : Nat} {view : Properties} (h : View a i view) :
    ∀ {other : Properties}, View a i other → other = view := by
  induction h with
  | top hi =>
      intro other ho
      cases ho with
      | top hi' =>
          rw [hi, Option.some.injEq, ArtifactRow.mk.injEq] at hi'
          rw [hi'.2]
      | child hi' _ =>
          rw [hi, Option.some.injEq, ArtifactRow.mk.injEq] at hi'
          cases hi'.1
  | child hi _ ih =>
      intro other ho
      cases ho with
      | top hi' =>
          rw [hi, Option.some.injEq, ArtifactRow.mk.injEq] at hi'
          cases hi'.1
      | child hi' hv =>
          rw [hi, Option.some.injEq, ArtifactRow.mk.injEq, Option.some.injEq] at hi'
          obtain ⟨rfl, rfl⟩ := hi'
          rw [ih hv]

/-- The entries of a map give the map's values back. -/
theorem get?_ofList_entries (properties : Properties) (name : String) :
    (Keyed.ofList properties.entries).get? name = properties.get? name := by
  rw [Keyed.get?_ofList, Keyed.lookup_reverse properties.nodup]
  rfl

/-! ## What a row shows of a property which passes -/

variable {name : String} {info : Property.Info}

/-- A property which passes is shown as it is. -/
theorem get?_shown (hi : catalog.get? name = some info) (hs : filter.shows name info = true)
    (properties : Properties) :
    (shown catalog filter properties).get? name = properties.get? name := by
  rw [shown, Keyed.get?_filterMap, hi, Option.bind_some, if_pos hs]

/-- What the row of a record shows is what the record declares differently. -/
theorem get?_rowOf (hi : catalog.get? name = some info) (hs : filter.shows name info = true)
    (inherited : Properties) (record : Record) :
    (rowOf catalog filter inherited record).properties.get? name =
      (declared? record name).filter fun value => inherited.get? name != some value := by
  rw [rowOf, get?_shown hi hs, get?_added_own]

/-- A row shows all that its record declares where nothing is inherited. -/
theorem get?_rowOf_empty (hi : catalog.get? name = some info)
    (hs : filter.shows name info = true) (record : Record) :
    (rowOf catalog filter .empty record).properties.get? name = declared? record name := by
  rw [get?_rowOf hi hs, Keyed.get?_empty]
  cases declared? record name <;> simp

/-! ## Views of records -/

/-- What a view owes the lineage of its record for a property: the nearest declaration, and nothing
where there is none and the root at the end of the lineage names no parent. -/
def Shows (lineage : List Record) (view : Properties) (name : String) : Prop :=
  (∀ value, nearest? lineage name = some value → view.get? name = some value) ∧
    (nearest? lineage name = none →
      (∀ root, lineage.getLast? = some root → root.parent? = none) → view.get? name = none)

/-- The view of a root shows what the root declares, over whatever the row it links to shows. -/
theorem shows_root {record : Record} (above : Properties) {view : Properties}
    (ha : record.parent? = none → above = .empty)
    (hv : view.get? name = (declared? record name).or (above.get? name)) :
    Shows [record] view name := by
  rw [Shows, nearest?_singleton, hv]
  constructor
  · intro value hd
    rw [hd, Option.some_or]
  · intro hd hroot
    rw [hd, ha (hroot record rfl), Option.none_or, Keyed.get?_empty]

/-- The view of a record shows what its row shows over the view of the parent. -/
theorem shows_child {record : Record} {lineage : List Record}
    {inherited above view : Properties} (ha : Shows lineage above name)
    (hin : inherited.get? name = nearest? lineage name)
    (hv : view.get? name = ((declared? record name).filter fun value =>
      inherited.get? name != some value).or (above.get? name)) :
    Shows (record :: lineage) view name := by
  rw [Shows, nearest?_cons, hv, hin]
  cases hd : declared? record name with
  | some declared =>
      constructor
      · intro value h
        rw [Option.some_or, Option.some.injEq] at h
        subst h
        by_cases hsame : nearest? lineage name = some declared
        · -- the row leaves the declaration out, and the view of the parent has it
          rw [hsame, Option.filter_some_neg (by simp), Option.none_or]
          exact ha.1 declared hsame
        · -- the row shows the declaration
          rw [Option.filter_some_pos (by simpa using hsame), Option.some_or]
      · intro h
        simp at h
  | none =>
      -- the row shows nothing, and the view of the parent is left
      rw [Option.none_or, Option.filter_none, Option.none_or]
      refine ⟨ha.1, ?_⟩
      intro hnone hroot
      apply ha.2 hnone
      intro root hlast
      apply hroot root
      rw [List.getLast?_cons, hlast]
      rfl

/-- The row at the position of a record's key, with what the record inherits. -/
theorem get?_rows_of_inherits (hr : c.rows catalog filter = .ok rows)
    (hc : compile rows = .ok a) {i k : Nat} {record : Record}
    (hk : c.records[k]? = some record) (hi : keyAt? rows i = some record.key) :
    ∃ inherited, Inherits c (c.records.take k) record inherited ∧
      a.rows.get? i = some ⟨record.parent?.bind (position? (arranged rows)),
        (rowOf catalog filter inherited record).properties.entries⟩ := by
  obtain ⟨inherited, hin, hrow⟩ := (rows_eq_ok hr).2 k record hk
  obtain ⟨row, hrow', hkey⟩ := keyAt?_eq_some_iff.1 hi
  -- no key occurs twice, so the row found by its key is the row of the record
  have hsame : row = rowOf catalog filter inherited record :=
    List.inj_on_of_nodup_map (rows_nodup hr) (mem_arranged.1 (List.mem_of_getElem? hrow'))
      (List.mem_of_getElem? hrow) hkey
  subst hsame
  refine ⟨inherited, hin, ?_⟩
  rw [get?_rows_of_compile hc, hrow', Option.map_some]
  rfl

/-- The view of a record's row shows its lineage, by induction on the place of the record. -/
theorem exists_view (hr : c.rows catalog filter = .ok rows) (hc : compile rows = .ok a) :
    ∀ (k i : Nat) (record : Record), c.records[k]? = some record →
      keyAt? rows i = some record.key → ∃ view lineage, View a i view ∧
        Lineage c record lineage ∧ ∀ name info, catalog.get? name = some info →
          filter.shows name info = true → Shows lineage view name := by
  intro k
  induction k using Nat.strong_induction_on with
  | _ k ih =>
      intro i record hk hi
      obtain ⟨inherited, hin, hrow⟩ := get?_rows_of_inherits hr hc hk hi
      -- the view of the parent's row, which the record at an earlier place has
      have hparent : ∀ parent : Record, record.parent? = some parent.key →
          parent ∈ c.records.take k → ∃ j above lineage,
            position? (arranged rows) parent.key = some j ∧ View a j above ∧
              Lineage c parent lineage ∧ ∀ name info, catalog.get? name = some info →
                filter.shows name info = true → Shows lineage above name := by
        intro parent hp hmem
        obtain ⟨l, hl⟩ := List.mem_iff_getElem?.1 hmem
        rw [List.getElem?_take] at hl
        split at hl
        · rename_i hlt
          obtain ⟨j, hj⟩ := exists_position?_parent hr hk hp
          have hkey := (keyAt?_eq_some_iff_position? (rows_nodup hr)).2 hj
          obtain ⟨above, lineage, h⟩ := ih l hlt j parent hl hkey
          exact ⟨j, above, lineage, hj, h⟩
        · cases hl
      cases hin with
      | top hroot hp =>
          rw [hp, Option.bind_none] at hrow
          refine ⟨_, _, .top hrow, .root hroot, ?_⟩
          intro name info hname hs
          apply shows_root .empty (fun _ => rfl)
          rw [get?_ofList_entries, get?_rowOf_empty hname hs, Keyed.get?_empty, Option.or_none]
      | linked hroot hp hmem =>
          obtain ⟨j, above, -, hj, hview, -⟩ := hparent _ hp hmem
          rw [hp, Option.bind_some, hj] at hrow
          refine ⟨_, _, .child hrow hview, .root hroot, ?_⟩
          intro name info hname hs
          apply shows_root above (fun hnone => by rw [hp] at hnone; cases hnone)
          -- a root declares over what the linked row shows, and inherits nothing of it
          rw [Keyed.get?_overlay, get?_ofList_entries, get?_rowOf_empty hname hs]
      | child hchild hp hmem hl hn =>
          obtain ⟨j, above, lineage, hj, hview, hl', hshows⟩ := hparent _ hp hmem
          obtain rfl := hl.unique hl'
          rw [hp, Option.bind_some, hj] at hrow
          refine ⟨_, _, .child hrow hview, .child hchild hp (List.mem_of_mem_take hmem) hl, ?_⟩
          intro name info hname hs
          apply shows_child (hshows name info hname hs) (hn name)
          rw [Keyed.get?_overlay, get?_ofList_entries, get?_rowOf hname hs]

/-- **A reader sees at each row the nearest declarations of its record.** For a property of the
output which is not for internal use and which the filter admits, the view of the row shows the
nearest declaration on the lineage of the record; it shows nothing if there is none and the root at
the end of the lineage names no parent. -/
theorem view_shows_nearest (c : Collection) (catalog : Catalog) (filter : Property.Filter)
    {rows : List Row} {a : Artifact} (hr : c.rows catalog filter = .ok rows)
    (hc : compile rows = .ok a) {record : Record} (hmem : record ∈ c.records) {i : Nat}
    (hi : keyAt? rows i = some record.key) :
    (∃ view, View a i view) ∧ (∃ lineage, Lineage c record lineage) ∧
      ∀ view lineage, View a i view → Lineage c record lineage →
        ∀ name info, catalog.get? name = some info → info.output = true → info.extra = false →
          filter.admits name info = true →
            (∀ value, nearest? lineage name = some value → view.get? name = some value) ∧
            (nearest? lineage name = none →
              (∀ root, lineage.getLast? = some root → root.parent? = none) →
                view.get? name = none) := by
  obtain ⟨k, hk⟩ := List.mem_iff_getElem?.1 hmem
  obtain ⟨view, lineage, hview, hl, hshows⟩ := exists_view hr hc k i record hk hi
  refine ⟨⟨view, hview⟩, ⟨lineage, hl⟩, ?_⟩
  intro other above ho ha name info hname hout hint hadm
  -- a row has one view and a record one lineage
  obtain rfl := hview.unique ho
  obtain rfl := hl.unique ha
  exact hshows name info hname (by simp [Property.Filter.shows, hout, hint, hadm])

/-! ## The sample -/

/-- The sample's rows in their final order, the longest name first. -/
def sampleOrder : List Row := [0, 3, 2, 1].filterMap (sampleRows[·]?)

theorem arranged_sample : arranged sampleRows = sampleOrder := by
  apply arranged_eq_of_descending
  · decide
  · decide

/-- The artifact of the sample. -/
def sampleArtifact : Artifact where
  patterns := Table.ofList [("^Chrome/62.*$", .row 1), ("^.*$", .row 3)]
  rows := Table.ofPositions [
    ⟨none, [("Browser", .text "unknown")]⟩,
    ⟨some 2, [("Version", .text "62")]⟩,
    ⟨some 0, [("Comment", .text "Chrome"), ("Browser", .text "Chrome")]⟩,
    ⟨some 0, [("Browser", .text "any")]⟩]
  parents := Table.ofList [(0, "DefaultProperties"), (2, "Chrome")]

theorem compile_sample : compile sampleRows = .ok sampleArtifact := by
  rw [compile, arranged_sample]
  rfl

/-- The row of a version shows the browser of its parent's row, which its own row leaves out. -/
theorem view_shows_nearest_sample :
    sample.rows sampleCatalog (Property.Filter.ofFlavor .lite) = .ok sampleRows ∧
      compile sampleRows = .ok sampleArtifact ∧
        ∃ record ∈ sample.records, keyAt? sampleRows 1 = some record.key ∧
          ∃ view, View sampleArtifact 1 view ∧ view.get? "Browser" = some (.text "Chrome") := by
  have hmem : sampleRecord "Chrome/62*" "Chrome"
      [("Version", .text " 62 "), ("Browser", .text "Chrome")] ∈ sample.records := by
    simp [sample]
  have hkey : keyAt? sampleRows 1 = some "Chrome/62*" := by
    rw [keyAt?, arranged_sample]
    rfl
  obtain ⟨⟨view, hview⟩, ⟨lineage, hl⟩, hshows⟩ := view_shows_nearest sample sampleCatalog
    (Property.Filter.ofFlavor .lite) sample_rows compile_sample hmem hkey
  have hnearest : nearest? lineage "Browser" = some (.text "Chrome") := by
    cases hl with
    | root hroot => cases hroot
    | child _ _ _ _ =>
        rw [nearest?_cons]
        rfl
  obtain ⟨hvalue, -⟩ := hshows view lineage hview hl "Browser" Catalog.text.inLite rfl rfl rfl rfl
  exact ⟨sample_rows, compile_sample, _, hmem, hkey, view, hview, hvalue _ hnearest⟩

end AgentAtlas.Artifact
