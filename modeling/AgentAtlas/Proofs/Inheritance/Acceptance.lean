import AgentAtlas.Inheritance
import AgentAtlas.Proofs.Sequencing

/-!
# Which collections have rows

A record is *well formed* after the earlier ones if the catalog allows each of its properties, a
parent which it names is the key of an earlier record, and it names a parent unless it is a root
(`WellFormed`). A collection has rows exactly if every record is well formed after those before it.

Otherwise the first record which is not is blamed, for its first property which the catalog does not
allow, or for its parent if there is none (`Flaw`). The filter has no say in this, nor has anything
in later records but their keys: a parent which is not among the earlier records is late if a record
has its key, and unknown if none has (`rows_accepted_or_blamed`).
-/

set_option autoImplicit false

namespace AgentAtlas

/-- The catalog has the property, and the trimmed text is in its list of values, if it has one. -/
def Catalog.Allows (catalog : Catalog) (name : String) (value : Property.Value) : Prop :=
  ∃ info, catalog.get? name = some info ∧
    ∀ allowed, info.kind = .oneOf allowed → Text.trim value.display ∈ allowed

namespace Inheritance

variable {c : Collection} {catalog : Catalog} {filter : Property.Filter} {earlier : List Record}
  {keys : List String} {known : Known} {record : Record} {cause other : StructuralFault}

/-! ## Well-formed records and flaws -/

/-- The record follows the rules, after the earlier ones. -/
structure WellFormed (catalog : Catalog) (earlier : List Record) (record : Record) : Prop where
  allowed (name : String) (value : Property.Value) :
    record.properties.get? name = some value → catalog.Allows name value
  placed (parent : String) : record.parent? = some parent → parent ∈ earlier.map Record.key
  linked : record.isRoot = false → record.parent? ≠ none

/-- What is wrong with a property of the record of a key. -/
inductive PropertyFlaw (catalog : Catalog) (key : String) :
    String × Property.Value → StructuralFault → Prop
  | unknown {name : String} {value : Property.Value} : catalog.get? name = none →
      PropertyFlaw catalog key (name, value) (.unknownProperty name key)
  | disallowed {name : String} {value : Property.Value} {info : Property.Info}
      {allowed : List String} : catalog.get? name = some info → info.kind = .oneOf allowed →
      Text.trim value.display ∉ allowed →
      PropertyFlaw catalog key (name, value) (.disallowedValue value.display name key)

/-- What is wrong with the parent of a record, in a collection with these keys. -/
inductive ParentFlaw (earlier : List Record) (keys : List String) (record : Record) :
    StructuralFault → Prop
  | missing : record.isRoot = false → record.parent? = none →
      ParentFlaw earlier keys record (.parentMissing record.key)
  | unknown {parent : String} : record.parent? = some parent →
      parent ∉ earlier.map Record.key → parent ∉ keys →
      ParentFlaw earlier keys record (.parentUnknown parent record.key)
  | late {parent : String} : record.parent? = some parent →
      parent ∉ earlier.map Record.key → parent ∈ keys →
      ParentFlaw earlier keys record (.parentLate parent record.key)

/-- What a record is blamed for: its first property which the catalog does not allow, or its parent
if all properties are allowed. -/
inductive Flaw (catalog : Catalog) (earlier : List Record) (keys : List String) (record : Record) :
    StructuralFault → Prop
  | property {i : Nat} {entry : String × Property.Value} {cause : StructuralFault} :
      FirstFailing (fun _ e => catalog.Allows e.1 e.2) record.properties.entries i entry →
      PropertyFlaw catalog record.key entry cause → Flaw catalog earlier keys record cause
  | parent {cause : StructuralFault} :
      (∀ e ∈ record.properties.entries, catalog.Allows e.1 e.2) →
      ParentFlaw earlier keys record cause → Flaw catalog earlier keys record cause

theorem PropertyFlaw.unique {key : String} {entry : String × Property.Value}
    (h : PropertyFlaw catalog key entry cause) (ho : PropertyFlaw catalog key entry other) :
    cause = other := by
  cases h with
  | unknown hnone =>
      cases ho with
      | unknown => rfl
      | disallowed hsome => rw [hnone] at hsome; cases hsome
  | disallowed hsome =>
      cases ho with
      | unknown hnone => rw [hnone] at hsome; cases hsome
      | disallowed => rfl

theorem ParentFlaw.unique (h : ParentFlaw earlier keys record cause)
    (ho : ParentFlaw earlier keys record other) : cause = other := by
  cases h with
  | missing _ hnone => cases ho <;> simp_all
  | unknown hsome _ hkeys => cases ho <;> simp_all
  | late hsome _ hkeys => cases ho <;> simp_all

/-- A parent flaw and a well-formed record do not go together. -/
theorem ParentFlaw.not_wellFormed (h : ParentFlaw earlier keys record cause) :
    ¬WellFormed catalog earlier record := by
  intro hw
  cases h with
  | missing hroot hnone => exact hw.linked hroot hnone
  | unknown hsome hunread _ => exact hunread (hw.placed _ hsome)
  | late hsome hunread _ => exact hunread (hw.placed _ hsome)

/-- A record is blamed for one thing. -/
theorem Flaw.unique (h : Flaw catalog earlier keys record cause)
    (ho : Flaw catalog earlier keys record other) : cause = other := by
  cases h with
  | property hfirst hflaw =>
      cases ho with
      | property hfirst' hflaw' =>
          obtain ⟨-, rfl⟩ := hfirst.unique hfirst'
          exact hflaw.unique hflaw'
      | parent hall _ => exact absurd (hall _ (List.mem_of_getElem? hfirst.here)) hfirst.fails
  | parent hall hflaw =>
      cases ho with
      | property hfirst _ => exact absurd (hall _ (List.mem_of_getElem? hfirst.here)) hfirst.fails
      | parent _ hflaw' => exact hflaw.unique hflaw'

/-! ## Reading one record -/

theorem accepts_iff {info : Property.Info} {value : Property.Value} :
    info.accepts value = true ↔
      ∀ allowed, info.kind = .oneOf allowed → Text.trim value.display ∈ allowed := by
  rw [Property.Info.accepts]
  cases info.kind <;> simp

/-- The check of a property passes if it is allowed, and tells what is wrong if not. -/
theorem check_allows_cases (catalog : Catalog) (key : String) (e : String × Property.Value) :
    (catalog.check key e.1 e.2 = .ok () ∧ catalog.Allows e.1 e.2) ∨
      ∃ fault, catalog.check key e.1 e.2 = .error fault ∧ ¬catalog.Allows e.1 e.2 ∧
        ∃ cause, fault = .structural cause ∧ PropertyFlaw catalog key e cause := by
  obtain ⟨name, value⟩ := e
  rw [Catalog.check, Catalog.require, Catalog.Allows]
  cases hinfo : catalog.get? name with
  | none => exact .inr ⟨_, rfl, by simp, _, rfl, .unknown hinfo⟩
  | some info =>
      dsimp only [bind, Except.bind]
      split
      · rename_i haccepts
        exact .inl ⟨rfl, info, rfl, accepts_iff.1 haccepts⟩
      · rename_i haccepts
        -- only a list of values refuses one
        have hlisted : ∃ allowed, info.kind = .oneOf allowed ∧
            Text.trim value.display ∉ allowed := by
          rw [accepts_iff] at haccepts
          push Not at haccepts
          exact haccepts
        obtain ⟨allowed, hkind, hnot⟩ := hlisted
        refine .inr ⟨_, rfl, ?_, _, rfl, .disallowed hinfo hkind hnot⟩
        rintro ⟨_, hsome, hall⟩
        obtain rfl := Option.some.inj hsome
        exact hnot (hall allowed hkind)

/-- The check of a record's properties stops at the first which is not allowed. -/
theorem checkProperties_cases (catalog : Catalog) (record : Record) :
    (checkProperties catalog record = .ok () ∧
        ∀ e ∈ record.properties.entries, catalog.Allows e.1 e.2) ∨
      ∃ i entry cause,
        FirstFailing (fun _ e => catalog.Allows e.1 e.2) record.properties.entries i entry ∧
          PropertyFlaw catalog record.key entry cause ∧
            checkProperties catalog record = .error (.structural cause) := by
  rcases forM_cases (check_allows_cases catalog record.key) record.properties.entries with
    ⟨hok, hall⟩ | ⟨i, entry, _, hfirst, herror, cause, rfl, hflaw⟩
  · exact .inl ⟨hok, hall⟩
  · exact .inr ⟨i, entry, cause, hfirst, hflaw, herror⟩

theorem checkProperties_eq_ok_iff_allows :
    checkProperties catalog record = .ok () ↔
      ∀ e ∈ record.properties.entries, catalog.Allows e.1 e.2 := by
  rcases checkProperties_cases catalog record with ⟨hok, hall⟩ | ⟨i, entry, cause, hfirst, -, herror⟩
  · exact iff_of_true hok hall
  · refine iff_of_false (by simp [herror]) ?_
    exact fun hall => hfirst.fails (hall entry (List.mem_of_getElem? hfirst.here))

/-- What is kept of the records read so far stands under their keys. -/
def Knows (known : Known) (earlier : List Record) : Prop :=
  ∀ key, known.lookup key = none ↔ key ∉ earlier.map Record.key

theorem knows_nil : Knows [] [] := by
  intro key
  simp

theorem Knows.step (h : Knows known earlier) (record : Record) (properties : Properties) :
    Knows ((record.key, properties) :: known) (earlier ++ [record]) := by
  intro key
  rw [Keyed.lookup_cons_eq_ite, List.map_append, List.mem_append, List.map_singleton,
    List.mem_singleton, not_or, ← h key]
  split <;> simp_all

theorem isSome_indexOf?_iff {key : String} :
    (c.indexOf? key).isSome = true ↔ key ∈ c.records.map Record.key := by
  rw [Collection.indexOf?, List.findIdx?_isSome]
  simp

/-- A record inherits if its parent was read before, or if it is a root without a parent. -/
theorem inherited_cases (hk : Knows known earlier) (record : Record) :
    (∃ above, inherited c known record = .ok above ∧
        (∀ parent, record.parent? = some parent → parent ∈ earlier.map Record.key) ∧
          (record.isRoot = false → record.parent? ≠ none)) ∨
      ∃ cause, ParentFlaw earlier (c.records.map Record.key) record cause ∧
        inherited c known record = .error (.structural cause) := by
  rw [inherited]
  cases hparent : record.parent? with
  | none =>
      cases hroot : record.isRoot with
      | true => exact .inl ⟨.empty, rfl, by simp, by simp⟩
      | false => exact .inr ⟨_, .missing hroot hparent, rfl⟩
  | some parent =>
      dsimp only
      rw [ofParent]
      cases hfound : known.lookup parent with
      | some properties =>
          have hread : parent ∈ earlier.map Record.key := by
            by_contra hunread
            rw [(hk parent).2 hunread] at hfound
            cases hfound
          exact .inl ⟨_, rfl, fun _ heq => Option.some.inj heq ▸ hread, by simp⟩
      | none =>
          have hunread := (hk parent).1 hfound
          -- the whole collection, with the records still to be read, tells late from unknown
          dsimp only
          split
          · rename_i hindex
            exact .inr ⟨_, .late hparent hunread (isSome_indexOf?_iff.1 hindex), rfl⟩
          · rename_i hindex
            exact .inr ⟨_, .unknown hparent hunread (mt isSome_indexOf?_iff.2 hindex), rfl⟩

/-- A record is read if it is well formed after the earlier ones, and blamed if not. -/
theorem reading_cases (hk : Knows known earlier) (catalog : Catalog) (record : Record) :
    (WellFormed catalog earlier record ∧
        ∃ above, (checkProperties catalog record >>= fun _ => inherited c known record) =
          .ok above) ∨
      ∃ cause, ¬WellFormed catalog earlier record ∧
        Flaw catalog earlier (c.records.map Record.key) record cause ∧
          (checkProperties catalog record >>= fun _ => inherited c known record) =
            .error (.structural cause) := by
  rcases checkProperties_cases catalog record with
    ⟨hchecked, hall⟩ | ⟨i, entry, cause, hfirst, hflaw, herror⟩
  · rw [hchecked]
    rcases inherited_cases hk record with ⟨above, habove, hplaced, hlinked⟩ | ⟨cause, hflaw, herror⟩
    · exact .inl ⟨⟨fun name value h => hall _ (Keyed.get?_eq_some_iff.1 h), hplaced, hlinked⟩,
        above, habove⟩
    · exact .inr ⟨cause, hflaw.not_wellFormed, .parent hall hflaw, herror⟩
  · -- the parent of a record with a bad property is not looked up
    rw [herror]
    refine .inr ⟨cause, ?_, .property hfirst hflaw, rfl⟩
    intro hw
    have hentry := Keyed.get?_eq_some_iff.2 (List.mem_of_getElem? hfirst.here)
    exact hfirst.fails (hw.allowed _ _ hentry)

/-! ## Reading all records -/

/-- The record at a place of a list is well formed after the earlier records and those of the list
before it. -/
def WellFormedFrom (catalog : Catalog) (earlier records : List Record) (i : Nat) (record : Record) :
    Prop :=
  WellFormed catalog (earlier ++ records.take i) record

theorem wellFormedFrom_zero {head : Record} {rest : List Record} :
    WellFormedFrom catalog earlier (head :: rest) 0 record ↔
      WellFormed catalog earlier record := by
  rw [WellFormedFrom, List.take_zero, List.append_nil]

theorem append_take_succ (earlier : List Record) (head : Record) (rest : List Record) (i : Nat) :
    earlier ++ (head :: rest).take (i + 1) = earlier ++ [head] ++ rest.take i := by
  simp

theorem wellFormedFrom_succ {head : Record} {rest : List Record} :
    (fun i => WellFormedFrom catalog earlier (head :: rest) (i + 1)) =
      WellFormedFrom catalog (earlier ++ [head]) rest := by
  funext i record
  rw [WellFormedFrom, WellFormedFrom, append_take_succ]

/-- The remaining records are read, each well formed after those before it, or the first which is
not is blamed. The induction is on the remaining records; what is kept of each one read makes it an
earlier record for the rest. -/
theorem rowsFrom_cases (catalog : Catalog) (filter : Property.Filter) (rest : List Record) :
    ∀ {earlier : List Record} {known : Known}, Knows known earlier →
      ((∃ rows, rowsFrom c catalog filter known rest = .ok rows) ∧
          ∀ i record, rest[i]? = some record → WellFormedFrom catalog earlier rest i record) ∨
        ∃ i record cause, FirstFailing (WellFormedFrom catalog earlier rest) rest i record ∧
          Flaw catalog (earlier ++ rest.take i) (c.records.map Record.key) record cause ∧
            rowsFrom c catalog filter known rest = .error (.structural cause) := by
  induction rest with
  | nil => exact fun _ => .inl ⟨⟨[], rfl⟩, by simp⟩
  | cons head rest ih =>
      intro earlier known hk
      -- what can fail at this record comes before everything else
      have hsteps : rowsFrom c catalog filter known (head :: rest) =
          ((checkProperties catalog head >>= fun _ => inherited c known head) >>= fun above =>
            rowsFrom c catalog filter ((head.key, above.overlay (own head)) :: known) rest >>=
              fun rows => .ok (rowOf catalog filter above head :: rows)) := by
        rw [bind_assoc]
        rfl
      rw [hsteps]
      rcases reading_cases hk catalog head with ⟨hw, above, habove⟩ | ⟨cause, hw, hflaw, herror⟩
      · rw [habove]
        have hhead : WellFormedFrom catalog earlier (head :: rest) 0 head :=
          wellFormedFrom_zero.2 hw
        rcases ih (hk.step head (above.overlay (own head))) with
          ⟨⟨rows, hrows⟩, hrest⟩ | ⟨i, record, cause, hfirst, hflaw, herror⟩
        · refine .inl ⟨⟨rowOf catalog filter above head :: rows, ?_⟩, ?_⟩
          · simp only [bind, Except.bind, hrows]
          · rw [← wellFormedFrom_succ] at hrest
            exact forall_getElem?_cons hhead hrest
        · rw [← wellFormedFrom_succ] at hfirst
          rw [← append_take_succ] at hflaw
          refine .inr ⟨i + 1, record, cause, .tail hhead hfirst, hflaw, ?_⟩
          simp only [bind, Except.bind, herror]
      · -- the first of the remaining records is blamed
        rw [herror]
        refine .inr ⟨0, head, cause, .head (mt wellFormedFrom_zero.1 hw), ?_, rfl⟩
        rw [List.take_zero, List.append_nil]
        exact hflaw

/-- The record at a place is well formed after those at smaller places. -/
def WellFormedAt (c : Collection) (catalog : Catalog) (i : Nat) (record : Record) : Prop :=
  WellFormed catalog (c.records.take i) record

/-- The first record which is not well formed, and what it is blamed for. -/
structure Blamed (c : Collection) (catalog : Catalog) (i : Nat) (record : Record)
    (cause : StructuralFault) : Prop where
  first : FirstFailing (WellFormedAt c catalog) c.records i record
  flaw : Flaw catalog (c.records.take i) (c.records.map Record.key) record cause

/-- A collection has rows, and all its records are well formed, or one is blamed. -/
theorem rows_cases (c : Collection) (catalog : Catalog) (filter : Property.Filter) :
    ((∃ rows, c.rows catalog filter = .ok rows) ∧
        ∀ i record, c.records[i]? = some record → WellFormedAt c catalog i record) ∨
      ∃ i record cause, Blamed c catalog i record cause ∧
        c.rows catalog filter = .error (.structural cause) := by
  rcases rowsFrom_cases (c := c) catalog filter c.records knows_nil with
    h | ⟨i, record, cause, hfirst, hflaw, herror⟩
  · exact .inl h
  · exact .inr ⟨i, record, cause, ⟨hfirst, hflaw⟩, herror⟩

theorem exists_rows_iff :
    (∃ rows, c.rows catalog filter = .ok rows) ↔
      ∀ i record, c.records[i]? = some record → WellFormedAt c catalog i record := by
  rcases rows_cases c catalog filter with ⟨hok, hall⟩ | ⟨i, record, cause, hblamed, herror⟩
  · exact iff_of_true hok hall
  · exact iff_of_false (by simp [herror]) hblamed.first.not_forall

/-- The fault of a collection without rows is what its first bad record is blamed for. -/
theorem rows_eq_error_iff {fault : Fault} :
    c.rows catalog filter = .error fault ↔
      ∃ i record cause, fault = .structural cause ∧ Blamed c catalog i record cause := by
  rcases rows_cases c catalog filter with ⟨⟨rows, hok⟩, hall⟩ | ⟨i, record, cause, hblamed, herror⟩
  · apply iff_of_false
    · simp [hok]
    · rintro ⟨i, record, cause, -, hblamed⟩
      exact hblamed.first.not_forall hall
  · rw [herror, Except.error.injEq]
    constructor
    · rintro rfl
      exact ⟨i, record, cause, rfl, hblamed⟩
    · rintro ⟨j, other, cause', rfl, hother⟩
      -- one record is the first, and it is blamed for one thing
      obtain ⟨rfl, rfl⟩ := hblamed.first.unique hother.first
      rw [hblamed.flaw.unique hother.flaw]

/-! ## What the blame depends on -/

/-- Later keys decide whether a parent is late or unknown, and nothing else. -/
theorem ParentFlaw.of_keys {others : List String} (h : ParentFlaw earlier keys record cause)
    (hkeys : ∀ parent, cause = .parentUnknown parent record.key ∨
      cause = .parentLate parent record.key → (parent ∈ others ↔ parent ∈ keys)) :
    ParentFlaw earlier others record cause := by
  cases h with
  | missing hroot hnone => exact .missing hroot hnone
  | @unknown parent hsome hunread hnot =>
      exact .unknown hsome hunread (mt (hkeys parent (.inl rfl)).1 hnot)
  | @late parent hsome hunread hmem =>
      exact .late hsome hunread ((hkeys parent (.inr rfl)).2 hmem)

theorem Flaw.of_keys {others : List String} (h : Flaw catalog earlier keys record cause)
    (hkeys : ∀ parent, cause = .parentUnknown parent record.key ∨
      cause = .parentLate parent record.key → (parent ∈ others ↔ parent ∈ keys)) :
    Flaw catalog earlier others record cause := by
  cases h with
  | property hfirst hflaw => exact .property hfirst hflaw
  | parent hall hflaw => exact .parent hall (hflaw.of_keys hkeys)

/-- The blamed record stays the same whatever follows it, and so does its fault unless the keys which
follow decide it. -/
theorem Blamed.of_take_eq {d : Collection} {i : Nat} (h : Blamed c catalog i record cause)
    (htake : d.records.take (i + 1) = c.records.take (i + 1))
    (hkeys : ∀ parent, cause = .parentUnknown parent record.key ∨
      cause = .parentLate parent record.key →
        (parent ∈ d.records.map Record.key ↔ parent ∈ c.records.map Record.key)) :
    Blamed d catalog i record cause := by
  have hplace : ∀ j, j ≤ i → d.records[j]? = c.records[j]? := by
    intro j hj
    rw [← List.getElem?_take_of_lt (Nat.lt_succ_of_le hj), htake,
      List.getElem?_take_of_lt (Nat.lt_succ_of_le hj)]
  have hearlier : ∀ j, j ≤ i → d.records.take j = c.records.take j := by
    intro j hj
    have hmin : min j (i + 1) = j := Nat.min_eq_left (Nat.le_succ_of_le hj)
    rw [← hmin, ← List.take_take, htake, List.take_take]
  refine ⟨⟨?_, ?_, ?_⟩, ?_⟩
  · rw [hplace i (Nat.le_refl i)]
    exact h.first.here
  · rw [WellFormedAt, hearlier i (Nat.le_refl i)]
    exact h.first.fails
  · intro j r hlt hr
    rw [hplace j (Nat.le_of_lt hlt)] at hr
    rw [WellFormedAt, hearlier j (Nat.le_of_lt hlt)]
    exact h.first.before j r hlt hr
  · rw [hearlier i (Nat.le_refl i)]
    exact h.flaw.of_keys hkeys

/-- **A collection has rows, or its first bad record is blamed.** It has rows exactly if each record
is well formed after those before it. Its fault otherwise is the structural one which the first
record that is not is blamed for. In any other collection which begins with the same records up to
the blamed one, and under any other filter, the fault is the same; only where it is about a parent
which was not read, the other collection has to agree on whether a record has the parent's key. -/
theorem rows_accepted_or_blamed (c : Collection) (catalog : Catalog) (filter : Property.Filter) :
    ((∃ rows, c.rows catalog filter = .ok rows) ↔
      ∀ i record, c.records[i]? = some record → WellFormedAt c catalog i record) ∧
    (∀ fault, c.rows catalog filter = .error fault ↔
      ∃ i record cause, fault = .structural cause ∧ Blamed c catalog i record cause) ∧
    ∀ i record cause, Blamed c catalog i record cause →
      ∀ (d : Collection) (other : Property.Filter),
        d.records.take (i + 1) = c.records.take (i + 1) →
          (∀ parent, cause = .parentUnknown parent record.key ∨
            cause = .parentLate parent record.key →
              (parent ∈ d.records.map Record.key ↔ parent ∈ c.records.map Record.key)) →
            d.rows catalog other = .error (.structural cause) := by
  refine ⟨exists_rows_iff, fun _ => rows_eq_error_iff, ?_⟩
  intro i record cause hblamed d other htake hkeys
  rw [rows_eq_error_iff]
  exact ⟨i, record, cause, rfl, hblamed.of_take_eq htake hkeys⟩

/-- A record with two faults is blamed for its property, and not for its parent, which comes later.
-/
example :
    Collection.rows
      { definitions := .empty
        records := [
          Record.make defaultProperties "Chrome" .empty,
          Record.make "Chrome/62*" "Chrome" (Keyed.ofList [("Parent", .text "Chrome"),
            ("Colour", .text "red")]),
          (Record.make "Chrome" "Chrome" .empty).under defaultProperties]
        nodup := by decide +kernel }
      (Keyed.ofList [("Comment", Catalog.text)]) Flavor.full =
        .error (.structural (.unknownProperty "Colour" "Chrome/62*")) := by
  rfl

end Inheritance

end AgentAtlas
