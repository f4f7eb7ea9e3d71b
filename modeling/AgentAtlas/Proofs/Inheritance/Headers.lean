import AgentAtlas.Proofs.Inheritance.Lineage

/-!
# Which records head a group

A record heads a group if it declares a comment which says something and which the records above it
do not already declare (`Heads`). The header flag of its row says exactly that, whatever the filter
(`header_rowOf_iff`): the comment counts even where the row does not show it.
-/

set_option autoImplicit false

namespace AgentAtlas.Inheritance

variable {c : Collection} {catalog : Catalog} {filter : Property.Filter}

/-- The record declares a comment which says something and differs from the nearest one above. -/
def Heads (c : Collection) (record : Record) : Prop :=
  ∃ above comment, Lineage c record (record :: above) ∧
    declared? record Property.commentName = some comment ∧ comment.isBlank = false ∧
      nearest? above Property.commentName ≠ some comment

theorem isHeader_iff {properties : Properties} :
    isHeader properties = true ↔
      ∃ comment, properties.get? Property.commentName = some comment ∧
        comment.isBlank = false := by
  rw [isHeader]
  cases properties.get? Property.commentName <;> simp

/-- The header flag of a row goes by the comment which the record declares differently from the
records above it. -/
theorem header_rowOf_iff_declared {record : Record} {above : List Record} {inherited : Properties}
    (hn : ∀ name, inherited.get? name = nearest? above name) :
    (rowOf catalog filter inherited record).header = true ↔
      ∃ comment, declared? record Property.commentName = some comment ∧
        nearest? above Property.commentName ≠ some comment ∧ comment.isBlank = false := by
  rw [rowOf, isHeader_iff]
  simp only [get?_added_own, hn, Option.filter_eq_some_iff, bne_iff_ne, and_assoc]

/-- The header flag of a row says whether the record heads a group. -/
theorem header_rowOf_iff {earlier : List Record} {record : Record} {inherited : Properties}
    (h : Inherits c earlier record inherited) (hsub : earlier ⊆ c.records) :
    (rowOf catalog filter inherited record).header = true ↔ Heads c record := by
  obtain ⟨above, hl, hn⟩ := h.exists_above hsub
  rw [header_rowOf_iff_declared hn]
  constructor
  · rintro ⟨comment, hd, hne, hb⟩
    exact ⟨above, comment, hl, hd, hb, hne⟩
  · rintro ⟨above', comment, hl', hd, hb, hne⟩
    -- a record has one lineage
    obtain rfl := (List.cons.inj (hl.unique hl')).2
    exact ⟨comment, hd, hne, hb⟩

end AgentAtlas.Inheritance
