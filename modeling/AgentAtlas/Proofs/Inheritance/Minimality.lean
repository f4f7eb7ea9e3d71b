import AgentAtlas.Proofs.Inheritance.Headers
import Mathlib.Data.List.Perm.Basic

/-!
# Minimal rows

A record *adds* a value to the records above it if it declares the value and the nearest of them
which declares the property, if there is one, gives it another. A row is *minimal* for a record if
it shows, in catalog order, those values which the record adds and which the catalog and the filter
let into the output; its header flag says whether the record adds a comment which says something,
whether or not the row shows it (`Minimal`). There is one such row (`Minimal.unique`), and it is the
row which a collection has for the record (`rows_minimal`).
-/

set_option autoImplicit false

namespace AgentAtlas

/-! ## Maps in the order of a list -/

namespace Keyed

variable {κ α β : Type}

/-- Leaving keys out keeps the order of the rest. -/
theorem keys_filterMap_sublist (f : κ → α → Option β) (m : Keyed κ α) :
    (m.filterMap f).keys.Sublist m.keys := by
  simp only [keys, filterMap]
  induction m.entries with
  | nil => exact List.Sublist.slnil
  | cons entry rest ih =>
      rw [List.filterMap_cons]
      cases f entry.1 entry.2 with
      | none => exact ih.cons _
      | some value => exact ih.cons_cons _

variable [DecidableEq κ]

/-- The entries are the keys with what lookups find under them. -/
theorem entries_eq_filterMap_keys (m : Keyed κ α) :
    m.entries = m.keys.filterMap fun key => (m.get? key).map (key, ·) := by
  have hfound : ∀ entry ∈ m.entries, (m.get? entry.1).map (entry.1, ·) = some entry := by
    intro entry hentry
    rw [get?_eq_some_iff.2 hentry, Option.map_some]
  rw [keys, List.filterMap_map]
  conv_lhs => rw [← List.filterMap_some (l := m.entries)]
  exact List.filterMap_congr fun entry hentry => (hfound entry hentry).symm

/-- Two maps with the same values are equal if both have their keys in the order of one list. -/
theorem eq_of_keys_sublist {m n : Keyed κ α} {order : List κ} (horder : order.Nodup)
    (hm : m.keys.Sublist order) (hn : n.keys.Sublist order)
    (h : ∀ key, m.get? key = n.get? key) : m = n := by
  have hmem : ∀ key, key ∈ m.keys ↔ key ∈ n.keys := by
    intro key
    rw [← not_iff_not, ← get?_eq_none_iff, ← get?_eq_none_iff, h]
  have hperm : m.keys.Perm n.keys :=
    (List.perm_ext_iff_of_nodup (horder.sublist hm) (horder.sublist hn)).2 hmem
  -- the keys stand in one order in both maps, so they are the same list
  have hkeys : m.keys = n.keys := (horder.perm_iff_eq_of_sublist hm hn).1 hperm
  apply Keyed.ext
  rw [entries_eq_filterMap_keys m, entries_eq_filterMap_keys n, hkeys]
  simp only [h]

end Keyed

/-! ## Minimal rows -/

/-- The catalog has the property for the output and not for internal use, and the filter admits it.
-/
def Catalog.Emits (catalog : Catalog) (filter : Property.Filter) (name : String) : Prop :=
  ∃ info, catalog.get? name = some info ∧ info.output = true ∧ info.extra = false ∧
    filter.admits name info = true

namespace Inheritance

variable {c : Collection} {catalog : Catalog} {filter : Property.Filter} {record : Record}
  {above : List Record} {inherited : Properties} {rows : List Row} {row other : Row} {name : String}
  {value : Property.Value}

/-- The record declares the value, and the nearest declaration above it, if any, is another. -/
def Adds (record : Record) (above : List Record) (name : String) (value : Property.Value) : Prop :=
  declared? record name = some value ∧ nearest? above name ≠ some value

/-- The row shows what the record adds to the records above it, as far as it is emitted. -/
structure Minimal (catalog : Catalog) (filter : Property.Filter) (record : Record)
    (above : List Record) (row : Row) : Prop where
  key : row.key = record.key
  name? : row.name? = record.name?
  parent? : row.parent? = record.parent?
  /-- The properties stand in catalog order. -/
  order : row.properties.keys.Sublist catalog.keys
  shows (name : String) (value : Property.Value) :
    row.properties.get? name = some value ↔ catalog.Emits filter name ∧ Adds record above name value
  /-- The flag goes by the comment also where the row does not show it. -/
  header : row.header = true ↔
    ∃ comment, Adds record above Property.commentName comment ∧ comment.isBlank = false

/-- A record leaves one minimal row. -/
theorem Minimal.unique (h : Minimal catalog filter record above row)
    (ho : Minimal catalog filter record above other) : row = other := by
  rw [Row.mk.injEq]
  refine ⟨h.key.trans ho.key.symm, h.name?.trans ho.name?.symm, h.parent?.trans ho.parent?.symm,
    ?_, ?_⟩
  · rw [Bool.eq_iff_iff, h.header, ho.header]
  · apply Keyed.eq_of_keys_sublist catalog.nodup h.order ho.order
    intro name
    apply Option.ext
    intro value
    rw [h.shows, ho.shows]

/-- Below no other record, a record adds what it declares. -/
theorem adds_nil_iff : Adds record [] name value ↔ declared? record name = some value := by
  simp [Adds, nearest?]

/-- The lineage of a root ends with it. -/
theorem Lineage.above_eq_nil (h : Lineage c record (record :: above))
    (hroot : record.isRoot = true) : above = [] := by
  cases h with
  | root => rfl
  | child hchild => rw [hroot] at hchild; cases hchild

/-! ## The rows of a collection -/

theorem get?_shown_eq_some_iff {properties : Properties} :
    (shown catalog filter properties).get? name = some value ↔
      catalog.Emits filter name ∧ properties.get? name = some value := by
  simp only [shown, Keyed.get?_filterMap, Option.bind_eq_some_iff, Option.ite_none_right_eq_some,
    Property.Filter.shows, Bool.and_eq_true, Bool.not_eq_true', Catalog.Emits]
  constructor
  · rintro ⟨info, hinfo, ⟨⟨hout, hextra⟩, hadmits⟩, hvalue⟩
    exact ⟨⟨info, hinfo, hout, hextra, hadmits⟩, hvalue⟩
  · rintro ⟨⟨info, hinfo, hout, hextra, hadmits⟩, hvalue⟩
    exact ⟨info, hinfo, ⟨⟨hout, hextra⟩, hadmits⟩, hvalue⟩

theorem get?_added_own_eq_some_iff (hn : ∀ name, inherited.get? name = nearest? above name) :
    (added inherited (own record)).get? name = some value ↔ Adds record above name value := by
  rw [get?_added_own, hn, Option.filter_eq_some_iff, bne_iff_ne, Adds]

/-- The row of a record is minimal below the records which it inherits from. -/
theorem minimal_rowOf (hn : ∀ name, inherited.get? name = nearest? above name) :
    Minimal catalog filter record above (rowOf catalog filter inherited record) where
  key := rfl
  name? := rfl
  parent? := rfl
  order := Keyed.keys_filterMap_sublist _ catalog
  shows name value := by
    rw [rowOf, get?_shown_eq_some_iff, get?_added_own_eq_some_iff hn]
  header := by
    rw [header_rowOf_iff_declared hn]
    simp only [Adds, and_assoc]

/-- The row of a record is minimal below the rest of the record's lineage. -/
theorem exists_minimal_row (h : c.rows catalog filter = .ok rows) {i : Nat}
    (hi : c.records[i]? = some record) :
    ∃ row above, rows[i]? = some row ∧ Lineage c record (record :: above) ∧
      Minimal catalog filter record above row := by
  obtain ⟨inherited, hin, hrow⟩ := (rows_eq_ok h).2 i record hi
  obtain ⟨above, hl, hn⟩ := hin.exists_above (List.take_subset i c.records)
  exact ⟨_, above, hrow, hl, minimal_rowOf hn⟩

/-- **The rows of a collection are minimal.** There is one row for each record, in the order of the
records. It has the key, the name and the parent of its record, and it shows in catalog order those
properties of the output which the record declares differently from the nearest declaration above it
on its lineage; the row of a root shows all which the root declares. The header flag says whether
the record adds a comment which says something. -/
theorem rows_minimal (c : Collection) (catalog : Catalog) (filter : Property.Filter)
    {rows : List Row} (h : c.rows catalog filter = .ok rows) :
    rows.length = c.records.length ∧
      ∀ (i : Nat) (record : Record), c.records[i]? = some record →
        ∃ (row : Row) (above : List Record), rows[i]? = some row ∧
          Lineage c record (record :: above) ∧ Minimal catalog filter record above row ∧
            (record.isRoot = true → ∀ name value, row.properties.get? name = some value ↔
              catalog.Emits filter name ∧ declared? record name = some value) := by
  refine ⟨(rows_eq_ok h).1, ?_⟩
  intro i record hi
  obtain ⟨row, above, hrow, hl, hm⟩ := exists_minimal_row h hi
  refine ⟨row, above, hrow, hl, hm, ?_⟩
  intro hroot name value
  -- nothing stands above a root
  obtain rfl := hl.above_eq_nil hroot
  rw [hm.shows, adds_nil_iff]

/-! ## A family of browsers -/

/-- A catalog with a property of the full flavor and one for internal use. -/
def familyCatalog : Catalog :=
  Keyed.ofList [("Comment", Catalog.text.inLite), ("Browser", Catalog.text.inLite),
    ("Frames", Catalog.flag), ("Browser_Maker", Catalog.text.asExtra)]

/-- The abstract root, a root linked to it, a header which overrides a value of the abstract root,
and two versions below the header: one restores that value, the other has a blank comment. -/
def family : Collection where
  definitions := .empty
  records := [
    Record.make defaultProperties "Chrome" (Keyed.ofList [("Browser", .text "Default"),
      ("Frames", .flag false), ("Comment", .text "Defaults")]),
    (Record.make defaultBrowser "Chrome" (Keyed.ofList [("Browser", .text "Default")])).under
      defaultProperties,
    (Record.make "Chrome" "Chrome" (Keyed.ofList [("Browser_Maker", .text "Any"),
      ("Browser", .text "Chrome"), ("Comment", .text " Chrome ")])).under defaultProperties,
    (Record.make "Chrome/62*" "Chrome" (Keyed.ofList [("Frames", .text " false"),
      ("Browser", .text "Default "), ("Comment", .text "Chrome")])).under "Chrome",
    (Record.make "Chrome/63*" "Chrome" (Keyed.ofList [("Comment", .text " ")])).under "Chrome"]
  nodup := by decide +kernel

/-- The rows of the family in the lite flavor. -/
def familyRows : List Row := [
  ⟨defaultProperties, none, none, true,
    Keyed.ofList [("Comment", .text "Defaults"), ("Browser", .text "Default")]⟩,
  ⟨defaultBrowser, some "*", some defaultProperties, false,
    Keyed.ofList [("Browser", .text "Default")]⟩,
  ⟨"Chrome", some "Chrome", some defaultProperties, true,
    Keyed.ofList [("Comment", .text "Chrome"), ("Browser", .text "Chrome")]⟩,
  ⟨"Chrome/62*", some "Chrome/62*", some "Chrome", false,
    Keyed.ofList [("Browser", .text "Default")]⟩,
  ⟨"Chrome/63*", some "Chrome/63*", some "Chrome", false, Keyed.ofList [("Comment", .text "")]⟩]

theorem rows_family : family.rows familyCatalog Flavor.lite = .ok familyRows := by
  rfl

/-- The row of the first version shows the restored value, which differs from the one right above it
and agrees with the one at the root. The second version adds a comment, and yet is no header. -/
theorem rows_minimal_family :
    family.rows familyCatalog Flavor.lite = .ok familyRows ∧
      (∃ record row above, family.records[3]? = some record ∧ familyRows[3]? = some row ∧
        Lineage family record (record :: above) ∧
          Minimal familyCatalog Flavor.lite record above row ∧
            Adds record above "Browser" (.text "Default")) ∧
      ∃ record row above, family.records[4]? = some record ∧ familyRows[4]? = some row ∧
        Lineage family record (record :: above) ∧
          Minimal familyCatalog Flavor.lite record above row ∧
            Adds record above "Comment" (.text "") ∧ row.header = false := by
  obtain ⟨-, hrow⟩ := rows_minimal family familyCatalog Flavor.lite rows_family
  refine ⟨rows_family, ?_, ?_⟩
  · obtain ⟨row, above, hi, hl, hm, -⟩ := hrow 3 _ rfl
    refine ⟨_, row, above, rfl, hi, hl, hm, ?_⟩
    obtain rfl := Option.some.inj hi
    exact ((hm.shows "Browser" (.text "Default")).1 rfl).2
  · obtain ⟨row, above, hi, hl, hm, -⟩ := hrow 4 _ rfl
    refine ⟨_, row, above, rfl, hi, hl, hm, ?_⟩
    obtain rfl := Option.some.inj hi
    exact ⟨((hm.shows "Comment" (.text "")).1 rfl).2, rfl⟩

end Inheritance

end AgentAtlas
