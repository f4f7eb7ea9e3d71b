import AgentAtlas.Proofs.Inheritance.Acceptance

/-!
# Reading records in other spellings

Reading compares values in their normalized form. What else it does with a value, the check against
a list and the link to a parent, goes by the trimmed text, and that is the text of the normalized
form (`trim_display`). The order of a record's own properties decides only which of several faults
is found first, and these are of one kind.

So records which say the same (`SaysTheSame`) have the same rows, or both lists of records are
refused with a fault of one kind (`sameOutcome_rowsFrom`). Results are compared as `SameOutcome`,
which goes through the steps of a reader one by one (`SameOutcome.bind`).
-/

set_option autoImplicit false

namespace AgentAtlas

/-! ## Values in other spellings -/

namespace Property

theorem Value.display_ofTrimmed (s : String) : (ofTrimmed s).display = s := by
  rw [ofTrimmed]
  split
  · rename_i h
    exact h.symm
  · split
    · rename_i h
      exact h.symm
    · rfl

/-- The trimmed text of a value is the text of its normalized form. -/
theorem Value.trim_display (v : Value) : Text.trim v.display = v.normalized.display := by
  cases v with
  | text s => exact (display_ofTrimmed _).symm
  | flag b => cases b <;> decide -- the texts of the flags have no blanks

end Property

/-- A catalog allows a value in every spelling or in none. -/
theorem Catalog.allows_normalized {catalog : Catalog} {name : String} {v : Property.Value} :
    catalog.Allows name v.normalized ↔ catalog.Allows name v := by
  simp only [Allows, Property.Value.trim_display, Property.Value.normalized_normalized]

/-! ## Results which differ in the details of a fault -/

/-- Both results are values which correspond, or both are faults of one kind. -/
inductive SameOutcome {α β : Type} (R : α → β → Prop) : Except Fault α → Except Fault β → Prop
  | ok {a : α} {b : β} : R a b → SameOutcome R (.ok a) (.ok b)
  | error {fault other : Fault} : fault.kind = other.kind →
      SameOutcome R (.error fault) (.error other)

namespace SameOutcome

variable {α β γ δ : Type} {R : α → β → Prop} {S : γ → δ → Prop}

theorem refl (x : Except Fault α) : SameOutcome Eq x x := by
  cases x with
  | error fault => exact .error rfl
  | ok a => exact .ok rfl

theorem eq_ok {a : α} {y : Except Fault α} (h : SameOutcome Eq (.ok a) y) : y = .ok a := by
  cases h with
  | ok heq => rw [heq]

/-- Steps with the same outcome, one after the other, have the same outcome. -/
theorem bind {x : Except Fault α} {y : Except Fault β} {f : α → Except Fault γ}
    {g : β → Except Fault δ} (h : SameOutcome R x y)
    (hnext : ∀ a b, R a b → SameOutcome S (f a) (g b)) : SameOutcome S (x >>= f) (y >>= g) := by
  cases h with
  | ok hab => exact hnext _ _ hab
  | error hkind => exact .error hkind

/-- Walks along corresponding lists have the same outcome if their steps do. -/
theorem foldlM {f : α → γ → Except Fault α} {g : β → δ → Except Fault β}
    (hstep : ∀ {a b x y}, R a b → S x y → SameOutcome R (f a x) (g b y)) {xs : List γ}
    {ys : List δ} (h : List.Forall₂ S xs ys) {a : α} {b : β} (hab : R a b) :
    SameOutcome R (xs.foldlM f a) (ys.foldlM g b) := by
  induction h generalizing a b with
  | nil => exact .ok hab
  | cons hxy _ ih =>
      rw [List.foldlM_cons, List.foldlM_cons]
      exact (hstep hab hxy).bind fun _ _ => ih

end SameOutcome

/-- Every lookup finds the same. -/
def SameLookups (p q : Properties) : Prop := ∀ name, p.get? name = q.get? name

namespace Inheritance

variable {catalog : Catalog} {filter : Property.Filter} {r s : Record} {c d : Collection}

/-- Two records have the same key and parent, and the same properties up to spelling and order. -/
structure SaysTheSame (r s : Record) : Prop where
  key : r.key = s.key
  parent? : r.parent? = s.parent?
  own : SameLookups (own r) (own s)

/-! ## The check of the properties -/

/-- The catalog takes a property of some value. -/
def Takes (catalog : Catalog) (name : String) (v : Property.Value) : Prop :=
  ∃ info, catalog.get? name = some info ∧ info.accepts v = true

theorem takes_iff_allows {name : String} {v : Property.Value} :
    Takes catalog name v ↔ catalog.Allows name v := by
  simp only [Takes, Catalog.Allows, accepts_iff]

/-- The properties of a record pass exactly if the catalog takes each of them, in its normalized
form. -/
theorem checkProperties_eq_ok_iff :
    checkProperties catalog r = .ok () ↔
      ∀ name v, (own r).get? name = some v → Takes catalog name v := by
  simp only [checkProperties_eq_ok_iff_allows, takes_iff_allows, Keyed.get?_eq_some_iff, own,
    Keyed.mapValues, List.mem_map, Prod.mk.injEq]
  constructor
  · rintro h name v ⟨e, he, rfl, rfl⟩
    exact Catalog.allows_normalized.2 (h e he)
  · intro h e he
    exact Catalog.allows_normalized.1 (h e.1 e.2.normalized ⟨e, he, rfl, rfl⟩)

theorem kind_of_checkProperties {fault : Fault} (h : checkProperties catalog r = .error fault) :
    fault.kind = .structural := by
  rcases checkProperties_cases catalog r with ⟨hok, -⟩ | ⟨_, _, cause, -, -, herror⟩
  · rw [hok] at h
    cases h
  · rw [herror] at h
    cases h
    rfl

theorem sameOutcome_checkProperties (h : SaysTheSame r s) :
    SameOutcome Eq (checkProperties catalog r) (checkProperties catalog s) := by
  have hiff : checkProperties catalog r = .ok () ↔ checkProperties catalog s = .ok () := by
    simp only [checkProperties_eq_ok_iff, h.own _]
  cases hr : checkProperties catalog r with
  | ok _ =>
      rw [hiff.1 hr]
      exact .ok rfl
  | error fault =>
      -- which property is refused goes by the order, but one is refused on the other side too
      cases hs : checkProperties catalog s with
      | ok _ =>
          rw [hiff.2 hs] at hr
          cases hr
      | error other =>
          exact .error ((kind_of_checkProperties hr).trans (kind_of_checkProperties hs).symm)

/-! ## What records inherit and add -/

/-- What is known of earlier records is known of both under the same keys. -/
def KnownAlike (known more : Known) : Prop :=
  ∀ key, Option.Rel SameLookups (known.lookup key) (more.lookup key)

theorem KnownAlike.cons {known more : Known} {p q : Properties} (h : KnownAlike known more)
    (key : String) (hpq : SameLookups p q) :
    KnownAlike ((key, p) :: known) ((key, q) :: more) := by
  intro other
  rw [Keyed.lookup_cons_eq_ite, Keyed.lookup_cons_eq_ite]
  split
  · exact .some hpq
  · exact h other

/-- A parent which is missing, unknown or late is a structural fault. -/
theorem sameOutcome_inherited {known more : Known} (hknown : KnownAlike known more)
    (h : SaysTheSame r s) :
    SameOutcome SameLookups (inherited c known r) (inherited d more s) := by
  have hroot : r.isRoot = s.isRoot := by rw [Record.isRoot, Record.isRoot, h.key]
  rw [inherited, inherited, h.parent?, hroot]
  cases s.parent? with
  | none =>
      cases s.isRoot with
      | true => exact .ok fun _ => rfl
      | false => exact .error rfl
  | some parent =>
      have hparent : SameOutcome SameLookups (ofParent c known r.key parent)
          (ofParent d more s.key parent) := by
        have hfound := hknown parent
        rw [ofParent, ofParent]
        generalize known.lookup parent = found, more.lookup parent = other at hfound ⊢
        cases hfound with
        | some hsame => exact .ok hsame
        | none =>
            -- late or unknown, on either side
            dsimp only
            split <;> split <;> exact .error rfl
      refine hparent.bind fun p q hpq => .ok ?_
      cases s.isRoot with
      | true => exact fun _ => rfl -- a root inherits nothing, whatever its parent has
      | false => exact hpq

/-- A row follows from the key and the parent of its record and from lookups. -/
theorem rowOf_congr {above higher : Properties} (habove : SameLookups above higher)
    (h : SaysTheSame r s) : rowOf catalog filter above r = rowOf catalog filter higher s := by
  have hadded : SameLookups (added above (own r)) (added higher (own s)) := by
    intro name
    rw [added, added, Keyed.get?_filter, Keyed.get?_filter, h.own name, habove name]
  rw [rowOf, rowOf, Row.mk.injEq]
  refine ⟨h.key, ?_, h.parent?, ?_, ?_⟩
  · rw [Record.name?, Record.name?, h.key]
  · rw [isHeader, isHeader, hadded]
  · simp only [shown, hadded _]

/-- Records which say the same have the same rows, or are refused with faults of one kind. The
induction is on the records; what is known of earlier ones stays alike. -/
theorem sameOutcome_rowsFrom {records others : List Record}
    (h : List.Forall₂ SaysTheSame records others) :
    ∀ {known more : Known}, KnownAlike known more →
      SameOutcome Eq (rowsFrom c catalog filter known records)
        (rowsFrom d catalog filter more others) := by
  induction h with
  | nil => exact fun _ => .ok rfl
  | @cons r s _ _ hrs _ ih =>
      intro known more hknown
      refine (sameOutcome_checkProperties hrs).bind fun _ _ _ => ?_
      refine (sameOutcome_inherited hknown hrs).bind fun above higher habove => ?_
      have hfull : SameLookups (above.overlay (own r)) (higher.overlay (own s)) := by
        intro name
        rw [Keyed.get?_overlay, Keyed.get?_overlay, hrs.own name, habove name]
      refine (ih (hrs.key ▸ hknown.cons r.key hfull)).bind fun below lower hbelow => .ok ?_
      rw [hbelow, rowOf_congr habove hrs]

end Inheritance

end AgentAtlas
