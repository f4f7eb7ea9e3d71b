import AgentAtlas.Proofs.Collection.Adding
import AgentAtlas.Proofs.Inheritance.Acceptance
import AgentAtlas.Proofs.Inheritance.Ancestry
import AgentAtlas.Proofs.Inheritance.Spelling
import AgentAtlas.Source

/-!
# Collections of reduced records

A row makes a record again, with less in it than the record it stands for: what the record says like
those above it is gone, and so is what is not emitted (`Remakes`). For an emitted property this loses
nothing below: the nearest declaration on a lineage of remade records is the one on the lineage which
they stand for (`Rebuilds.exists_lineage`). So the rows of the remade records are the rows which they
are made of; only a header flag needs that comments are emitted (`rows_resolved_again`).
-/

set_option autoImplicit false

namespace AgentAtlas

/-- The record which a row makes, with the label of a division. -/
def Row.record (division : String) (row : Row) : Record :=
  match row.parent? with
  | some parent => (Record.make row.key division row.properties).under parent
  | none => Record.make row.key division row.properties

/-- Records of new and distinct keys follow those of a collection. -/
theorem Collection.exists_foldlM_add (records : List Record) :
    ∀ {c : Collection}, ((c.records ++ records).map Record.key).Nodup →
      ∃ d, records.foldlM Collection.add c = .ok d ∧ d.records = c.records ++ records := by
  induction records with
  | nil => exact fun _ => ⟨_, rfl, (List.append_nil _).symm⟩
  | cons record rest ih =>
      intro c hnodup
      rcases add_cases c record with ⟨hknown, -⟩ | ⟨-, next, hadd, -, hrecords⟩
      · -- a known key would be there twice
        rw [List.map_append, List.map_cons, List.nodup_middle, List.nodup_cons] at hnodup
        exact absurd (List.mem_append_left _ hknown) hnodup.1
      · have hnext : next.records ++ rest = c.records ++ record :: rest := by
          rw [hrecords, List.append_assoc, List.singleton_append]
        obtain ⟨d, hd, hall⟩ := ih (hnext ▸ hnodup)
        refine ⟨d, ?_, hall.trans hnext⟩
        rw [List.foldlM_cons, hadd]
        exact hd

theorem Collection.exists_ofRecords {records : List Record}
    (h : (records.map Record.key).Nodup) :
    ∃ d, Collection.ofRecords records = .ok d ∧ d.records = records :=
  exists_foldlM_add records h

namespace Inheritance

variable {c d : Collection} {catalog : Catalog} {filter : Property.Filter}
  {record remade : Record} {above higher lineage : List Record} {rows : List Row} {row other : Row}
  {name : String} {value : Property.Value}

/-! ## Remade records -/

/-- The remade record says what the record adds to those above it, as far as it is emitted. -/
structure Remakes (catalog : Catalog) (filter : Property.Filter) (record : Record)
    (above : List Record) (remade : Record) : Prop where
  key : remade.key = record.key
  parent? : remade.parent? = record.parent?
  declares (name : String) (value : Property.Value) :
    declared? remade name = some value ↔ catalog.Emits filter name ∧ Adds record above name value

/-- No record declares a parent as a property. -/
theorem declared?_parentName (record : Record) : declared? record Property.parentName = none := by
  rw [declared?, record.parentFree, Option.map_none]

theorem normalized_of_declared? (h : declared? record name = some value) :
    value.normalized = value := by
  obtain ⟨authored, -, rfl⟩ := Option.map_eq_some_iff.1 h
  exact authored.normalized_normalized

theorem key_record (division : String) (row : Row) : (row.record division).key = row.key := by
  rw [Row.record]
  cases row.parent? <;> rfl

theorem get?_properties_record (division : String) (row : Row) (name : String) :
    (row.record division).properties.get? name =
      if name = Property.parentName then none else row.properties.get? name := by
  rw [Row.record]
  cases row.parent? <;> exact Record.properties_make row.key division row.properties name

/-- A minimal row shows no parent among its properties. -/
theorem Minimal.get?_parentName (h : Minimal catalog filter record above row) :
    row.properties.get? Property.parentName = none := by
  rw [Option.eq_none_iff_forall_ne_some]
  intro value hvalue
  obtain ⟨-, hdeclared, -⟩ := (h.shows _ _).1 hvalue
  rw [declared?_parentName] at hdeclared
  cases hdeclared

/-- The values of a minimal row are normalized, so the record which it makes declares them. -/
theorem Minimal.declared?_record (h : Minimal catalog filter record above row) (division : String)
    (name : String) : declared? (row.record division) name = row.properties.get? name := by
  rw [declared?, get?_properties_record]
  split
  · rename_i hparent
    rw [hparent, h.get?_parentName, Option.map_none]
  · cases hvalue : row.properties.get? name with
    | none => rfl
    | some value =>
        obtain ⟨-, hdeclared, -⟩ := (h.shows _ _).1 hvalue
        rw [Option.map_some, normalized_of_declared? hdeclared]

theorem Minimal.parent?_record (h : Minimal catalog filter record above row) (division : String) :
    (row.record division).parent? = record.parent? := by
  rw [← h.parent?, Row.record]
  cases hparent : row.parent? with
  | some parent => rfl
  | none =>
      show (row.properties.get? Property.parentName).map _ = none
      rw [h.get?_parentName, Option.map_none]

/-- A minimal row remakes its record. -/
theorem Minimal.remakes (h : Minimal catalog filter record above row) (division : String) :
    Remakes catalog filter record above (row.record division) where
  key := (key_record division row).trans h.key
  parent? := h.parent?_record division
  declares name value := by rw [h.declared?_record, h.shows]

namespace Remakes

theorem isRoot (h : Remakes catalog filter record above remade) :
    remade.isRoot = record.isRoot := by
  rw [Record.isRoot, Record.isRoot, h.key]

/-- Below lineages with one nearest declaration, the remade record adds what the record does. -/
theorem adds_iff (h : Remakes catalog filter record above remade)
    (hn : catalog.Emits filter name → nearest? higher name = nearest? above name) :
    Adds remade higher name value ↔ catalog.Emits filter name ∧ Adds record above name value := by
  rw [Adds, h.declares]
  constructor
  · exact fun hadds => hadds.1
  · rintro ⟨hemits, hadds⟩
    exact ⟨⟨hemits, hadds⟩, by rw [hn hemits]; exact hadds.2⟩

/-- What the remade record leaves out of an emitted property is the nearest declaration above. -/
theorem nearest?_cons_eq (h : Remakes catalog filter record above remade)
    (hemits : catalog.Emits filter name) (hn : nearest? higher name = nearest? above name) :
    nearest? (remade :: higher) name = nearest? (record :: above) name := by
  have hdeclared : declared? remade name =
      (declared? record name).filter fun value => nearest? above name != some value := by
    apply Option.ext
    intro value
    rw [h.declares, Option.filter_eq_some_iff, bne_iff_ne, Adds]
    exact and_iff_right hemits
  rw [nearest?_cons, nearest?_cons, hdeclared, hn]
  cases declared? record name with
  | none => rfl
  | some value =>
      by_cases hsame : nearest? above name = some value
      · -- the value is left out, and found above
        rw [hsame, Option.filter_some_neg (by simp), Option.none_or, Option.some_or]
      · rw [Option.filter_some_pos (by simpa using hsame)]

end Remakes

/-! ## Collections of remade records -/

/-- The records of a collection, remade in the same order. -/
structure Rebuilds (catalog : Catalog) (filter : Property.Filter) (c d : Collection) : Prop where
  keys : d.records.map Record.key = c.records.map Record.key
  remakes (i : Nat) (record remade : Record) : c.records[i]? = some record →
    d.records[i]? = some remade → ∃ above, Lineage c record (record :: above) ∧
      Remakes catalog filter record above remade

/-- The records which rows make have the keys of the rows. -/
theorem map_key_records (division : Row → String) (rows : List Row) :
    (rows.map fun row => row.record (division row)).map Record.key = rows.map Row.key := by
  rw [List.map_map]
  exact List.map_congr_left fun row _ => key_record (division row) row

/-- The records which the rows of a collection make rebuild the collection. -/
theorem rebuilds_of_rows (h : c.rows catalog filter = .ok rows) {division : Row → String}
    (hd : d.records = rows.map fun row => row.record (division row)) :
    Rebuilds catalog filter c d where
  keys := by rw [hd, map_key_records, rows_keys h]
  remakes i record remade hi hremade := by
    obtain ⟨row, above, hrow, hl, hm⟩ := exists_minimal_row h hi
    rw [hd, List.getElem?_map, hrow, Option.map_some, Option.some.injEq] at hremade
    subst hremade
    exact ⟨above, hl, hm.remakes (division row)⟩

namespace Rebuilds

theorem length (h : Rebuilds catalog filter c d) : d.records.length = c.records.length := by
  simpa using congrArg List.length h.keys

theorem exists_remade (h : Rebuilds catalog filter c d) {i : Nat}
    (hi : c.records[i]? = some record) : ∃ remade, d.records[i]? = some remade := by
  have hlt : i < d.records.length := h.length ▸ (List.getElem?_eq_some_iff.1 hi).1
  exact ⟨_, List.getElem?_eq_getElem hlt⟩

theorem exists_record (h : Rebuilds catalog filter c d) {i : Nat}
    (hi : d.records[i]? = some remade) : ∃ record, c.records[i]? = some record := by
  have hlt : i < c.records.length := h.length ▸ (List.getElem?_eq_some_iff.1 hi).1
  exact ⟨_, List.getElem?_eq_getElem hlt⟩

/-- A remade record has a lineage on which the nearest declarations of emitted properties are those
on the lineage of the record. The induction is on the lineage of the record. -/
theorem exists_lineage (h : Rebuilds catalog filter c d) (hl : Lineage c record lineage) :
    ∀ {i : Nat} {remade : Record}, c.records[i]? = some record → d.records[i]? = some remade →
      ∃ higher, Lineage d remade (remade :: higher) ∧ ∀ above, lineage = record :: above →
        ∀ name, catalog.Emits filter name → nearest? higher name = nearest? above name := by
  induction hl with
  | root hroot =>
      intro i remade hi hremade
      obtain ⟨_, -, hremakes⟩ := h.remakes i _ remade hi hremade
      refine ⟨[], .root (hremakes.isRoot.trans hroot), ?_⟩
      rintro _ heq name -
      cases heq
      rfl
  | @child record parent lineage hchild hparent hmem hlineage ih =>
      intro i remade hi hremade
      obtain ⟨_, -, hremakes⟩ := h.remakes i record remade hi hremade
      -- the parent is remade as well, and has a lineage by induction
      obtain ⟨j, hj⟩ := List.mem_iff_getElem?.1 hmem
      obtain ⟨other, hother⟩ := h.exists_remade hj
      obtain ⟨above, habove, hothers⟩ := h.remakes j parent other hj hother
      obtain ⟨higher, hhigher, hn⟩ := ih hj hother
      obtain rfl := habove.unique hlineage
      refine ⟨other :: higher, .child ?_ ?_ (List.mem_of_getElem? hother) hhigher, ?_⟩
      · exact hremakes.isRoot.trans hchild
      · rw [hremakes.parent?, hparent, hothers.key]
      · rintro _ heq name hemits
        cases heq
        exact hothers.nearest?_cons_eq hemits (hn above rfl name hemits)

/-- Where the records have rows, so have the remade ones: they declare values which the catalog
allows, and their parents stand where they stood. -/
theorem exists_rows (h : Rebuilds catalog filter c d)
    (hrows : ∃ rows, c.rows catalog filter = .ok rows) :
    ∃ rows, d.rows catalog filter = .ok rows := by
  rw [exists_rows_iff] at hrows ⊢
  intro i remade hremade
  obtain ⟨record, hi⟩ := h.exists_record hremade
  obtain ⟨above, -, hremakes⟩ := h.remakes i record remade hi hremade
  have hw : WellFormed catalog (c.records.take i) record := hrows i record hi
  have hkeys : (d.records.take i).map Record.key = (c.records.take i).map Record.key := by
    rw [List.map_take, List.map_take, h.keys]
  refine ⟨?_, ?_, ?_⟩
  · -- a normalized value is allowed if the authored one is
    intro name value hvalue
    have hdeclared : declared? remade name = some value.normalized := by
      rw [declared?, hvalue, Option.map_some]
    obtain ⟨-, hrecord, -⟩ := (hremakes.declares _ _).1 hdeclared
    obtain ⟨authored, hauthored, hsame⟩ := Option.map_eq_some_iff.1 hrecord
    rw [← Catalog.allows_normalized, ← hsame, Catalog.allows_normalized]
    exact hw.allowed name authored hauthored
  · intro parent hparent
    rw [hkeys]
    exact hw.placed parent (hremakes.parent? ▸ hparent)
  · intro hroot
    rw [hremakes.parent?]
    exact hw.linked (hremakes.isRoot ▸ hroot)

end Rebuilds

/-! ## The rows of remade records -/

/-- The other row repeats the row, and its header flag as well if comments are emitted. -/
structure Repeats (catalog : Catalog) (filter : Property.Filter) (row other : Row) : Prop where
  key : other.key = row.key
  name? : other.name? = row.name?
  parent? : other.parent? = row.parent?
  properties : other.properties = row.properties
  header : catalog.Emits filter Property.commentName → other.header = row.header

/-- The minimal row of a remade record repeats that of the record. -/
theorem Remakes.repeats (h : Remakes catalog filter record above remade)
    (hn : ∀ name, catalog.Emits filter name → nearest? higher name = nearest? above name)
    (hrow : Minimal catalog filter record above row)
    (hother : Minimal catalog filter remade higher other) : Repeats catalog filter row other where
  key := by rw [hother.key, h.key, hrow.key]
  name? := by rw [hother.name?, hrow.name?, Record.name?, Record.name?, h.key]
  parent? := by rw [hother.parent?, h.parent?, hrow.parent?]
  properties := by
    apply Keyed.eq_of_keys_sublist catalog.nodup hother.order hrow.order
    intro name
    apply Option.ext
    intro value
    rw [hother.shows, hrow.shows, h.adds_iff (hn name), and_self_left]
  header := by
    intro hemits
    rw [Bool.eq_iff_iff, hother.header, hrow.header]
    simp only [h.adds_iff (hn Property.commentName), hemits, true_and]

/-- **Resolving is idempotent.** The records which the rows of a collection make, under any labels of
divisions, are a collection; it has rows under the same catalog and filter, one for each row in the
same order, with the same key, name, parent and properties, and with the same header flag if the
comment is emitted. -/
theorem rows_resolved_again (c : Collection) (catalog : Catalog) (filter : Property.Filter)
    {rows : List Row} (h : c.rows catalog filter = .ok rows) (division : Row → String) :
    ∃ (d : Collection) (again : List Row),
      Collection.ofRecords (rows.map fun row => row.record (division row)) = .ok d ∧
        d.rows catalog filter = .ok again ∧ again.length = rows.length ∧
          ∀ (i : Nat) (row : Row), rows[i]? = some row →
            ∃ other, again[i]? = some other ∧ Repeats catalog filter row other := by
  have hnodup : ((rows.map fun row => row.record (division row)).map Record.key).Nodup := by
    rw [map_key_records]
    exact rows_nodup h
  obtain ⟨d, hrecords, hd⟩ := Collection.exists_ofRecords hnodup
  have hrebuilds := rebuilds_of_rows h hd
  obtain ⟨again, hagain⟩ := hrebuilds.exists_rows ⟨rows, h⟩
  refine ⟨d, again, hrecords, hagain, ?_, ?_⟩
  · rw [(rows_eq_ok hagain).1, hrebuilds.length, (rows_eq_ok h).1]
  · intro i row hi
    -- the record of the row, and the record which the row makes
    have hlt : i < c.records.length := (rows_eq_ok h).1 ▸ (List.getElem?_eq_some_iff.1 hi).1
    have hrecord := List.getElem?_eq_getElem hlt
    obtain ⟨remade, hremade⟩ := hrebuilds.exists_remade hrecord
    obtain ⟨_, above, hrow, hl, hminimal⟩ := exists_minimal_row h hrecord
    obtain ⟨other, _, hother, hhigher, hominimal⟩ := exists_minimal_row hagain hremade
    rw [hi, Option.some.injEq] at hrow
    subst hrow
    -- their lineages are the only ones, and agree on what is emitted
    obtain ⟨_, habove, hremakes⟩ := hrebuilds.remakes i _ remade hrecord hremade
    cases habove.unique hl
    obtain ⟨higher, hlineage, hn⟩ := hrebuilds.exists_lineage hl hrecord hremade
    cases hlineage.unique hhigher
    exact ⟨other, hother, hremakes.repeats (hn above rfl) hminimal hominimal⟩

/-- The header of the family is a header again, with the browser which it overrides. -/
theorem rows_resolved_again_family :
    family.rows familyCatalog Flavor.lite = .ok familyRows ∧
      ∃ (d : Collection) (again : List Row) (other : Row),
        Collection.ofRecords (familyRows.map fun row => row.record "Chrome") = .ok d ∧
          d.rows familyCatalog Flavor.lite = .ok again ∧ again[2]? = some other ∧
            other.key = "Chrome" ∧ other.header = true ∧
              other.properties.get? "Browser" = some (.text "Chrome") := by
  obtain ⟨d, again, hd, hagain, -, hrows⟩ :=
    rows_resolved_again family familyCatalog Flavor.lite rows_family fun _ => "Chrome"
  obtain ⟨other, hother, hrepeats⟩ := hrows 2 _ rfl
  refine ⟨rows_family, d, again, other, hd, hagain, hother, hrepeats.key, ?_, ?_⟩
  · -- the lite flavor has the comment
    exact hrepeats.header ⟨Catalog.text.inLite, rfl, rfl, rfl, rfl⟩
  · rw [hrepeats.properties]
    rfl

end Inheritance

end AgentAtlas
