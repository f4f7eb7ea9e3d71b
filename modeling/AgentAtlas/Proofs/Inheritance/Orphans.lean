import AgentAtlas.Proofs.Inheritance.Acceptance

/-!
# Orphans

The reader refuses a record as an *orphan* if it has no parent and is not a root, or if its parent
does not exist or does not come before it (`Orphaned`). It never does so without a reason: a record
which is refused as an orphan has no parent at a smaller position (`rows_orphaned`).
-/

set_option autoImplicit false

namespace AgentAtlas.Inheritance

variable {c : Collection} {catalog : Catalog} {filter : Property.Filter}

/-- The fault refuses the record of a key for its parent. -/
inductive Orphaned (key : String) : Fault → Prop
  | missing : Orphaned key (.structural (.parentMissing key))
  | unknown {parent : String} : Orphaned key (.structural (.parentUnknown parent key))
  | late {parent : String} : Orphaned key (.structural (.parentLate parent key))

/-- A record which is blamed as an orphan is blamed for its parent, since no property makes it one.
-/
theorem Flaw.parentFlaw_of_orphaned {earlier : List Record} {keys : List String} {record : Record}
    {cause : StructuralFault} {key : String} (h : Flaw catalog earlier keys record cause)
    (horphan : Orphaned key (.structural cause)) :
    record.key = key ∧ ParentFlaw earlier keys record cause := by
  cases h with
  | property _ hflaw => cases hflaw <;> cases horphan
  | parent _ hflaw =>
      refine ⟨?_, hflaw⟩
      cases hflaw <;> cases horphan <;> rfl

/-- A parent which a record is blamed for was not read before. -/
theorem ParentFlaw.unread {earlier : List Record} {keys : List String} {record : Record}
    {cause : StructuralFault} {parent : String} (h : ParentFlaw earlier keys record cause)
    (hparent : record.parent? = some parent) : parent ∉ earlier.map Record.key := by
  cases h with
  | missing _ hnone => rw [hnone] at hparent; cases hparent
  | unknown hsome hunread _ => rwa [← Option.some.inj (hsome.symm.trans hparent)]
  | late hsome hunread _ => rwa [← Option.some.inj (hsome.symm.trans hparent)]

/-- A record which is refused as an orphan has no parent at a smaller position. -/
theorem rows_orphaned {fault : Fault} {key : String} (h : c.rows catalog filter = .error fault)
    (horphan : Orphaned key fault) :
    ∃ i record, c.records[i]? = some record ∧ record.key = key ∧
      ∀ parent j, record.parent? = some parent → c.indexOf? parent = some j → i ≤ j := by
  obtain ⟨i, record, cause, rfl, hblamed⟩ := rows_eq_error_iff.1 h
  obtain ⟨hkey, hflaw⟩ := hblamed.flaw.parentFlaw_of_orphaned horphan
  refine ⟨i, record, hblamed.first.here, hkey, ?_⟩
  intro parent j hparent hindex
  obtain ⟨other, hother, rfl⟩ := Collection.indexOf?_eq_some_iff.1 hindex
  -- were it at a smaller position, it would be among the records before
  by_contra hlt
  apply hflaw.unread hparent
  apply List.mem_map_of_mem
  rw [← List.getElem?_take_of_lt (Nat.lt_of_not_le hlt)] at hother
  exact List.mem_of_getElem? hother

end AgentAtlas.Inheritance
