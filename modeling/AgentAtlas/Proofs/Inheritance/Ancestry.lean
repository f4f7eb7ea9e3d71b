import AgentAtlas.Proofs.Inheritance.Minimality

/-!
# Rows and ancestry

A minimal row says nothing of the collection but the lineage of its record, and there is one such
row. So two collections which have a record of a key with one lineage have one row for it, wherever
the record stands in them and whatever else they hold; in particular a collection keeps its rows in
every collection which has all its records (`rows_agree_on_lineages`).
-/

set_option autoImplicit false

namespace AgentAtlas.Inheritance

variable {c d : Collection} {catalog : Catalog} {filter : Property.Filter} {record : Record}
  {above lineage : List Record} {rows others : List Row}

/-- The lineage of the record of a key. -/
def LineageOf (c : Collection) (key : String) (lineage : List Record) : Prop :=
  ∃ record ∈ c.records, record.key = key ∧ Lineage c record lineage

/-- A lineage begins with its record. -/
theorem Lineage.exists_eq_cons (h : Lineage c record lineage) :
    ∃ above, lineage = record :: above := by
  cases h with
  | root => exact ⟨[], rfl⟩
  | child => exact ⟨_, rfl⟩

/-- A lineage stays one where there are more records. -/
theorem Lineage.mono (hsub : c.records ⊆ d.records) (h : Lineage c record lineage) :
    Lineage d record lineage := by
  induction h with
  | root hroot => exact .root hroot
  | child hchild hparent hmem _ ih => exact .child hchild hparent (hsub hmem) ih

/-- A record has one row in two collections in which it has one lineage. -/
theorem exists_common_row (hc : c.rows catalog filter = .ok rows)
    (hd : d.rows catalog filter = .ok others) {i j : Nat} (hi : c.records[i]? = some record)
    (hj : d.records[j]? = some record) (hl : Lineage c record lineage)
    (hm : Lineage d record lineage) :
    ∃ row, row.key = record.key ∧ rows[i]? = some row ∧ others[j]? = some row := by
  obtain ⟨row, above, hrow, habove, hminimal⟩ := exists_minimal_row hc hi
  obtain ⟨other, higher, hother, hhigher, hominimal⟩ := exists_minimal_row hd hj
  -- a record has one lineage in each of the collections
  obtain rfl := habove.unique hl
  obtain heq := hhigher.unique hm
  rw [List.cons.injEq] at heq
  obtain rfl := heq.2
  obtain rfl := hminimal.unique hominimal
  exact ⟨row, hminimal.key, hrow, hother⟩

/-- **A row depends on the lineage of its record alone.** Where two collections have rows under one
catalog and one filter, a key with the same lineage in both has the same row in both, each at the
position of the key. So the rows of a collection are among those of every other one which has all
its records, in whatever order and among whatever others. -/
theorem rows_agree_on_lineages (c d : Collection) (catalog : Catalog) (filter : Property.Filter)
    {rows others : List Row} (hc : c.rows catalog filter = .ok rows)
    (hd : d.rows catalog filter = .ok others) :
    (∀ key lineage, LineageOf c key lineage → LineageOf d key lineage →
      ∃ (i j : Nat) (row : Row), c.indexOf? key = some i ∧ d.indexOf? key = some j ∧
        row.key = key ∧ rows[i]? = some row ∧ others[j]? = some row) ∧
    (c.records ⊆ d.records → rows ⊆ others) := by
  constructor
  · rintro key lineage ⟨record, hr, rfl, hl⟩ ⟨record', hr', hkey, hm⟩
    -- both lineages begin with the record, so it is one
    obtain ⟨above, rfl⟩ := hl.exists_eq_cons
    obtain ⟨_, heq⟩ := hm.exists_eq_cons
    rw [List.cons.injEq] at heq
    obtain ⟨rfl, -⟩ := heq
    obtain ⟨i, hi⟩ := List.mem_iff_getElem?.1 hr
    obtain ⟨j, hj⟩ := List.mem_iff_getElem?.1 hr'
    obtain ⟨row, hrow⟩ := exists_common_row hc hd hi hj hl hm
    refine ⟨i, j, row, ?_, ?_, hrow⟩
    · exact Collection.indexOf?_eq_some_iff.2 ⟨record, hi, rfl⟩
    · exact Collection.indexOf?_eq_some_iff.2 ⟨record, hj, rfl⟩
  · intro hsub row hmem
    obtain ⟨i, hi⟩ := List.mem_iff_getElem?.1 hmem
    have hlt : i < c.records.length := (rows_eq_ok hc).1 ▸ (List.getElem?_eq_some_iff.1 hi).1
    have hrecord := List.getElem?_eq_getElem hlt
    obtain ⟨_, above, -, hl, -⟩ := exists_minimal_row hc hrecord
    obtain ⟨j, hj⟩ := List.mem_iff_getElem?.1 (hsub (List.getElem_mem hlt))
    obtain ⟨other, -, hrow, hother⟩ := exists_common_row hc hd hrecord hj hl (hl.mono hsub)
    rw [hi, Option.some.injEq] at hrow
    subst hrow
    exact List.mem_of_getElem? hother

/-! ## Another family -/

/-- The family in another order, with a browser which is not in it and without the root which
matches every user agent. -/
def otherFamily : Collection where
  definitions := .empty
  records := [
    family.records[0],
    (Record.make "Opera" "Opera" (Keyed.ofList [("Browser", .text "Opera")])).under
      defaultProperties,
    family.records[2],
    (Record.make "Opera/9*" "Opera" (Keyed.ofList [("Browser", .text "Default")])).under "Opera",
    family.records[3]]
  nodup := by decide +kernel

/-- The rows of the other family in the lite flavor. -/
def otherFamilyRows : List Row := [
  ⟨defaultProperties, none, none, true,
    Keyed.ofList [("Comment", .text "Defaults"), ("Browser", .text "Default")]⟩,
  ⟨"Opera", some "Opera", some defaultProperties, false,
    Keyed.ofList [("Browser", .text "Opera")]⟩,
  ⟨"Chrome", some "Chrome", some defaultProperties, true,
    Keyed.ofList [("Comment", .text "Chrome"), ("Browser", .text "Chrome")]⟩,
  ⟨"Opera/9*", some "Opera/9*", some "Opera", false,
    Keyed.ofList [("Browser", .text "Default")]⟩,
  ⟨"Chrome/62*", some "Chrome/62*", some "Chrome", false,
    Keyed.ofList [("Browser", .text "Default")]⟩]

theorem rows_otherFamily : otherFamily.rows familyCatalog Flavor.lite = .ok otherFamilyRows := by
  rfl

/-- The version has one lineage in both families, and its row stands at position 3 in the one and at
position 4 in the other. -/
theorem rows_agree_on_lineages_version :
    family.rows familyCatalog Flavor.lite = .ok familyRows ∧
      otherFamily.rows familyCatalog Flavor.lite = .ok otherFamilyRows ∧
        ∃ lineage row, LineageOf family "Chrome/62*" lineage ∧
          LineageOf otherFamily "Chrome/62*" lineage ∧
            familyRows[3]? = some row ∧ otherFamilyRows[4]? = some row := by
  have hfamily : LineageOf family "Chrome/62*"
      [family.records[3], family.records[2], family.records[0]] :=
    ⟨_, List.getElem_mem _, rfl, .child rfl rfl (List.getElem_mem _)
      (.child rfl rfl (List.getElem_mem _) (.root rfl))⟩
  have hother : LineageOf otherFamily "Chrome/62*"
      [otherFamily.records[4], otherFamily.records[2], otherFamily.records[0]] :=
    ⟨_, List.getElem_mem _, rfl, .child rfl rfl (List.getElem_mem _)
      (.child rfl rfl (List.getElem_mem _) (.root rfl))⟩
  obtain ⟨hagree, -⟩ := rows_agree_on_lineages family otherFamily familyCatalog Flavor.lite
    rows_family rows_otherFamily
  obtain ⟨i, j, row, hi, hj, -, hrow, hsame⟩ := hagree "Chrome/62*" _ hfamily hother
  have hplace : family.indexOf? "Chrome/62*" = some 3 := rfl
  have hplace' : otherFamily.indexOf? "Chrome/62*" = some 4 := rfl
  rw [hplace, Option.some.injEq] at hi
  rw [hplace', Option.some.injEq] at hj
  subst hi hj
  exact ⟨rows_family, rows_otherFamily, _, row, hfamily, hother, hrow, hsame⟩

end AgentAtlas.Inheritance
