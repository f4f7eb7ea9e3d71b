import AgentAtlas.Division.Expansion
import AgentAtlas.Proofs.Sequencing
import Mathlib.Data.List.Nodup

/-!
# Adding to a collection

A collection takes a definition or a record exactly if the key is new (`addDefinition_cases`,
`add_cases`). Of a sequence of steps it takes the records in front, up to the first step that is a
fault or a record of a known key (`addSteps_cases`). So a division is taken as a whole exactly if
none of its steps is a fault and all keys are distinct and new (`exists_applyDivision_eq_ok_iff`),
and otherwise it is taken up to one certain step (`applyDivision_cases`).
-/

set_option autoImplicit false

namespace AgentAtlas.Collection

variable {c d : Collection}

/-! ## One definition, one record -/

/-- A definition is refused exactly if its kind has the key. -/
theorem addDefinition_cases (c : Collection) (kind : DefinitionKind) (key : String)
    (definition : Definition) :
    ((c.definitions.of kind).contains key = true ∧
      c.addDefinition kind key definition = .error (.duplicate (.definition kind) key)) ∨
    ((c.definitions.of kind).contains key = false ∧
      ∃ d, c.addDefinition kind key definition = .ok d ∧ d.records = c.records ∧
        d.definitions =
          c.definitions.replace kind ((c.definitions.of kind).insert key definition)) := by
  rw [addDefinition, Definitions.add]
  cases hknown : (c.definitions.of kind).contains key with
  | true => exact .inl ⟨rfl, rfl⟩
  | false => exact .inr ⟨rfl, _, rfl, rfl, rfl⟩

/-- A record is refused exactly if there is one of its key. -/
theorem add_cases (c : Collection) (record : Record) :
    (record.key ∈ c.records.map Record.key ∧
      c.add record = .error (.duplicate .division record.key)) ∨
    (record.key ∉ c.records.map Record.key ∧
      ∃ d, c.add record = .ok d ∧ d.definitions = c.definitions ∧
        d.records = c.records ++ [record]) := by
  rw [add]
  split
  · rename_i hknown
    exact .inl ⟨hknown, rfl⟩
  · rename_i hnew
    exact .inr ⟨hnew, _, rfl, rfl, rfl⟩

/-! ## Sequences of steps -/

/-- The one collection is the other with the records of the first steps, up to the remaining ones.
-/
structure Takes (c : Collection) (steps : List Step) (d : Collection) (added : List Record)
    (remaining : List Step) : Prop where
  steps : steps = added.map .ok ++ remaining
  definitions : d.definitions = c.definitions
  records : d.records = c.records ++ added

/-- The next step is not taken: it is a fault, or its key is known. -/
inductive Refused (keys : List String) : List Step → Fault → Prop
  | faulty {fault : Fault} {rest : List Step} : Refused keys (.error fault :: rest) fault
  | known {record : Record} {rest : List Step} : record.key ∈ keys →
      Refused keys (.ok record :: rest) (.duplicate .division record.key)

/-- What a collection takes of a sequence of steps: all of them, or those before one which it
refuses. -/
theorem addSteps_cases (c : Collection) (steps : List Step) :
    ∃ added remaining, Takes c steps (c.addSteps steps).1 added remaining ∧
      (c.addSteps steps).2.1 = added.length ∧
        ((remaining = [] ∧ (c.addSteps steps).2.2 = none) ∨
          ∃ fault, (c.addSteps steps).2.2 = some fault ∧
            Refused ((c.addSteps steps).1.records.map Record.key) remaining fault) := by
  induction steps generalizing c with
  | nil => exact ⟨[], [], ⟨rfl, rfl, (List.append_nil _).symm⟩, rfl, .inl ⟨rfl, rfl⟩⟩
  | cons step rest ih =>
      cases step with
      | error fault =>
          refine ⟨[], _, ⟨rfl, rfl, (List.append_nil _).symm⟩, rfl, .inr ⟨fault, rfl, ?_⟩⟩
          exact .faulty
      | ok record =>
          rcases add_cases c record with ⟨hknown, hadd⟩ | ⟨-, next, hadd, hdefinitions, hrecords⟩
          · rw [addSteps, hadd]
            refine ⟨[], _, ⟨rfl, rfl, (List.append_nil _).symm⟩, rfl, .inr ⟨_, rfl, ?_⟩⟩
            exact .known hknown
          · -- the record is taken, and the rest is added to what is there then
            obtain ⟨added, remaining, htakes, hcount, hend⟩ := ih next
            rw [addSteps, hadd]
            refine ⟨record :: added, remaining, ⟨?_, ?_, ?_⟩, congrArg (· + 1) hcount, hend⟩
            · rw [htakes.steps, List.map_cons, List.cons_append]
            · exact htakes.definitions.trans hdefinitions
            · exact htakes.records.trans (by rw [hrecords, List.append_assoc]; rfl)

/-! ## Divisions -/

variable {division : Division} {path : String}

/-- What a collection takes of a division: its whole sequence of records, or the part before a step
which it refuses. -/
theorem applyDivision_cases (c : Collection) (division : Division) (path : String) :
    ∃ added remaining, Takes c (division.steps c.definitions path)
        (c.applyDivision division path).1 added remaining ∧
      ((remaining = [] ∧ (c.applyDivision division path).2 = .ok added.length) ∨
        ∃ fault, (c.applyDivision division path).2 = .error fault ∧
          Refused ((c.applyDivision division path).1.records.map Record.key) remaining fault) := by
  obtain ⟨added, remaining, htakes, hcount, hend⟩ :=
    addSteps_cases c (division.steps c.definitions path)
  rw [applyDivision]
  generalize c.addSteps (division.steps c.definitions path) = outcome at htakes hcount hend
  obtain ⟨last, count, fault?⟩ := outcome
  refine ⟨added, remaining, ?_⟩
  rcases hend with ⟨hdone, hnone⟩ | ⟨fault, hsome, hrefused⟩
  · cases hnone
    exact ⟨htakes, .inl ⟨hdone, congrArg _ hcount⟩⟩
  · cases hsome
    exact ⟨htakes, .inr ⟨fault, rfl, hrefused⟩⟩

/-- A division is taken as a whole exactly if its steps are records with distinct and new keys. -/
theorem exists_applyDivision_eq_ok_iff :
    (∃ n, (c.applyDivision division path).2 = .ok n) ↔
      ∃ records : List Record, division.steps c.definitions path = records.map .ok ∧
        ((c.records ++ records).map Record.key).Nodup := by
  obtain ⟨added, remaining, htakes, hend⟩ := applyDivision_cases c division path
  constructor
  · rintro ⟨n, hn⟩
    rcases hend with ⟨rfl, -⟩ | ⟨fault, hfault, -⟩
    · refine ⟨added, by rw [htakes.steps, List.append_nil], ?_⟩
      rw [← htakes.records]
      exact (c.applyDivision division path).1.nodup
    · rw [hn] at hfault
      cases hfault
  · rintro ⟨records, hsteps, hnodup⟩
    rcases hend with ⟨-, hok⟩ | ⟨fault, -, hrefused⟩
    · exact ⟨_, hok⟩
    · -- a step which is refused is no record of a new key
      exfalso
      rw [htakes.steps] at hsteps
      obtain ⟨before, after, rfl, hbefore, hafter⟩ := List.map_eq_append_iff.1 hsteps.symm
      cases hrefused with
      | faulty =>
          obtain ⟨record, _, -, hrecord, -⟩ := List.map_eq_cons_iff.1 hafter
          cases hrecord
      | known hknown =>
          obtain ⟨record, _, rfl, hrecord, -⟩ := List.map_eq_cons_iff.1 hafter
          cases hrecord
          obtain rfl := List.map_injective_iff.2 (fun _ _ => Except.ok.inj) hbefore
          rw [← List.append_assoc, ← htakes.records, List.map_append, List.map_cons,
            List.nodup_middle, List.nodup_cons] at hnodup
          exact hnodup.1 (List.mem_append_left _ hknown)

end AgentAtlas.Collection
