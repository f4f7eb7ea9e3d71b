import AgentAtlas.Inheritance
import Mathlib.Data.List.Basic

/-!
# Reduction before filtering

What a record inherits and whether it heads a group is settled before a filter is asked. So a filter
has no say in whether the records of a collection reduce, nor in the fault if they do not, and a row
under a filter is the row without one, less the properties which do not pass (`rows_eq_map`).
-/

set_option autoImplicit false

namespace AgentAtlas

open Property (Filter)

/-- The filter which every property passes. -/
def Property.Filter.everything : Filter := ⟨fun _ _ => true⟩

/-- Whether a property of the catalog passes a filter. -/
def Catalog.passes (catalog : Catalog) (filter : Filter) (name : String) : Bool :=
  (catalog.get? name).any (filter.admits name)

/-- The row with the properties of some names only. -/
def Row.restrict (keep : String → Bool) (row : Row) : Row :=
  { row with properties := row.properties.filter fun name _ => keep name }

namespace Inheritance

variable (c : Collection) (catalog : Catalog) (filter : Filter)

/-- The properties which rows show under a filter are those which pass, of all they could show. -/
theorem shown_eq_filter (properties : Properties) :
    shown catalog filter properties =
      (shown catalog .everything properties).filter fun name _ => catalog.passes filter name := by
  apply Keyed.ext
  simp only [shown, Keyed.filterMap, Keyed.filter, List.filter_filterMap]
  apply List.filterMap_congr
  intro e he
  have hinfo : catalog.get? e.1 = some e.2 := Keyed.get?_eq_some_iff.2 he
  have hpasses : catalog.passes filter e.1 = filter.admits e.1 e.2 := by
    rw [Catalog.passes, hinfo, Option.any_some]
  have hfilter : ∀ found : Option Property.Value,
      (found.map (e.1, ·)).filter (fun d => catalog.passes filter d.1) =
        if filter.admits e.1 e.2 then found.map (e.1, ·) else none := by
    intro found
    cases found <;> simp [hpasses, Option.filter_some]
  rw [hfilter]
  -- the filter is one of three conditions, and the other two are asked on both sides
  simp only [Filter.shows, Filter.everything, Bool.and_true]
  by_cases h : filter.admits e.1 e.2 = true <;> simp [h]

/-- A row under a filter is the row without one, less what does not pass. -/
theorem rowOf_eq_restrict (inherited : Properties) (record : Record) :
    rowOf catalog filter inherited record =
      (rowOf catalog .everything inherited record).restrict (catalog.passes filter) := by
  rw [rowOf, shown_eq_filter]
  rfl

/-- A filter changes nothing in the reading of records but the properties of their rows. The
induction is on the records; what is known of earlier ones never depends on the filter. -/
theorem rowsFrom_eq_map (records : List Record) (known : Known) :
    rowsFrom c catalog filter known records =
      (rowsFrom c catalog .everything known records).map
        (List.map (Row.restrict (catalog.passes filter))) := by
  induction records generalizing known with
  | nil => rfl
  | cons record rest ih =>
      rw [rowsFrom, rowsFrom]
      cases checkProperties catalog record with
      | error fault => rfl
      | ok checked =>
          cases inherited c known record with
          | error fault => rfl
          | ok above =>
              simp only [bind, Except.bind, ih, rowOf_eq_restrict catalog filter]
              cases rowsFrom c catalog .everything
                ((record.key, above.overlay (own record)) :: known) rest <;> rfl

/-- The rows of a collection under a filter are its rows without one, less what does not pass. -/
theorem rows_eq_map :
    c.rows catalog filter =
      (c.rows catalog .everything).map (List.map (Row.restrict (catalog.passes filter))) :=
  rowsFrom_eq_map c catalog filter c.records []

end Inheritance

end AgentAtlas
