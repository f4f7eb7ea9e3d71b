import AgentAtlas.Proofs.Collection.Adding
import Mathlib.Data.List.Induction

/-!
# Names and positions

A collection reads the position of a key off its records. A ledger has it written down: beside the
records it keeps a table of positions, enters each new record there, and asks only the table whether
a key is known. Calls change a ledger in place, so one that fails leaves a ledger too.

In a *sound* ledger the table and the records say the same. One call keeps a ledger sound
(`Sound.act`) and in step with a collection (`Matches.act`), hence so does every history of calls.
So after any history names and positions agree, whatever failed on the way, and a lookup finds what
was first defined (`consistent_after`).
-/

set_option autoImplicit false

namespace AgentAtlas

/-- What is asked of a collection: to take a definition, a record, or a whole division. -/
inductive Call where
  | define (kind : DefinitionKind) (key : String) (definition : Definition)
  | add (record : Record)
  | apply (division : Division) (path : String)

namespace Call

/-- The call adds one thing. -/
def IsSingle : Call → Prop
  | apply _ _ => False
  | _ => True

/-- The definition of a kind and key which the call brings. -/
def defined? (kind : DefinitionKind) (key : String) : Call → Option Definition
  | define k name definition => if k = kind ∧ name = key then some definition else none
  | _ => none

end Call

/-- The definition of a kind and key which a history brings first. -/
def firstDefined? (kind : DefinitionKind) (key : String) (calls : List Call) : Option Definition :=
  calls.findSome? fun call => call.defined? kind key

namespace Collection

/-- What an attempt leaves: the new collection, or the old one and the fault. -/
def attempt (c : Collection) : Except Fault Collection → Collection × Option Fault
  | .ok d => (d, none)
  | .error fault => (c, some fault)

/-- What a call leaves, with its fault if it fails. -/
def act (c : Collection) : Call → Collection × Option Fault
  | .define kind key definition => c.attempt (c.addDefinition kind key definition)
  | .add record => c.attempt (c.add record)
  | .apply division path =>
    match c.applyDivision division path with
    | (d, .ok _) => (d, none)
    | (d, .error fault) => (d, some fault)

/-- The collection after a history, from a new one on. -/
def after (calls : List Call) : Collection := calls.foldl (fun c call => (c.act call).1) empty

end Collection

/-- Definitions, records, and a table of the records' positions. -/
structure Ledger where
  definitions : Definitions
  records : List Record
  positions : Keyed String Nat

namespace Ledger

/-- Nothing entered. -/
def empty : Ledger := ⟨.empty, [], .empty⟩

/-- Enter a definition, unless its kind has the key. -/
def define (l : Ledger) (kind : DefinitionKind) (key : String) (definition : Definition) :
    Ledger × Option Fault :=
  if (l.definitions.of kind).contains key then (l, some (.duplicate (.definition kind) key))
  else
    ({ l with definitions :=
        l.definitions.replace kind ((l.definitions.of kind).insert key definition) }, none)

/-- Enter a record with its position, unless the table has its key. -/
def add (l : Ledger) (record : Record) : Ledger × Option Fault :=
  if l.positions.contains record.key then (l, some (.duplicate .division record.key))
  else
    ({ l with
        positions := l.positions.insert record.key l.records.length
        records := l.records ++ [record] }, none)

/-- Enter records up to the first fault. -/
def addSteps (l : Ledger) : List Step → Ledger × Option Fault
  | [] => (l, none)
  | .error fault :: _ => (l, some fault)
  | .ok record :: rest =>
    match l.add record with
    | (next, some fault) => (next, some fault)
    | (next, none) => next.addSteps rest

/-- What a call leaves, with its fault if it fails. -/
def act (l : Ledger) : Call → Ledger × Option Fault
  | .define kind key definition => l.define kind key definition
  | .add record => l.add record
  | .apply division path => l.addSteps (division.steps l.definitions path)

/-- The ledger after a history, from a new one on. -/
def after (calls : List Call) : Ledger := calls.foldl (fun l call => (l.act call).1) empty

variable {l m : Ledger} {c : Collection}

/-! ## What one call changes -/

/-- Every step which enters records does what entering one record does, again and again. -/
theorem addSteps_induction {P : Ledger → Ledger → Prop} (hrefl : ∀ l, P l l)
    (htrans : ∀ {k l m}, P k l → P l m → P k m) (hadd : ∀ l record, P l (l.add record).1)
    (l : Ledger) (steps : List Step) : P l (l.addSteps steps).1 := by
  induction steps generalizing l with
  | nil => exact hrefl l
  | cons step rest ih =>
      cases step with
      | error fault => exact hrefl l
      | ok record =>
          have hone := hadd l record
          rw [addSteps]
          generalize l.add record = outcome at hone ⊢
          obtain ⟨next, fault?⟩ := outcome
          cases fault? with
          | none => exact htrans hone (ih next)
          | some fault => exact hone

/-- Entering records leaves the definitions and the records before them. -/
structure Extends (l m : Ledger) : Prop where
  definitions : m.definitions = l.definitions
  records : l.records <+: m.records

theorem Extends.refl (l : Ledger) : Extends l l := ⟨rfl, List.prefix_refl _⟩

theorem Extends.trans {k : Ledger} (h : Extends k l) (h' : Extends l m) : Extends k m :=
  ⟨h'.definitions.trans h.definitions, h.records.trans h'.records⟩

theorem extends_add (l : Ledger) (record : Record) : Extends l (l.add record).1 := by
  rw [add]
  split
  · exact .refl l
  · exact ⟨rfl, List.prefix_append _ _⟩

theorem extends_addSteps (l : Ledger) (steps : List Step) : Extends l (l.addSteps steps).1 :=
  addSteps_induction Extends.refl Extends.trans extends_add l steps

/-- No call touches the records which are there. -/
theorem records_prefix_act (l : Ledger) (call : Call) : l.records <+: (l.act call).1.records := by
  cases call with
  | define kind key definition =>
      rw [act, define]
      split <;> exact List.prefix_refl _
  | add record => exact (extends_add l record).records
  | apply division path => exact (extends_addSteps l _).records

/-- A single addition which fails changes nothing. -/
theorem act_eq_self {call : Call} (hsingle : call.IsSingle) {fault : Fault}
    (h : (l.act call).2 = some fault) : (l.act call).1 = l := by
  cases call with
  | define kind key definition =>
      rw [act, define] at h ⊢
      split at h
      · rename_i hknown
        rw [if_pos hknown]
      · cases h
  | add record =>
      rw [act, add] at h ⊢
      split at h
      · rename_i hknown
        rw [if_pos hknown]
      · cases h
  | apply division path => exact hsingle.elim

/-- A lookup finds what was there, and else what the call brings. -/
theorem get?_definitions_act (l : Ledger) (call : Call) (kind : DefinitionKind) (key : String) :
    ((l.act call).1.definitions.of kind).get? key =
      ((l.definitions.of kind).get? key).or (call.defined? kind key) := by
  cases call with
  | define k name definition =>
      rw [act, define, Call.defined?]
      cases hknown : (l.definitions.of k).contains name with
      | true =>
          -- what the call brings is known already, so it is never looked at
          rw [if_pos rfl]
          split
          · rename_i hsame
            obtain ⟨rfl, rfl⟩ := hsame
            obtain ⟨old, hold⟩ := Option.isSome_iff_exists.1 hknown
            rw [hold, Option.some_or]
          · rw [Option.or_none]
      | false =>
          rw [if_neg Bool.false_ne_true, Definitions.of_replace]
          by_cases hkind : kind = k
          · subst hkind
            rw [if_pos rfl, Keyed.get?_insert]
            by_cases hkey : key = name
            · subst hkey
              have hnone : (l.definitions.of kind).get? key = none := by
                rw [← Option.not_isSome_iff_eq_none, Bool.not_eq_true]
                exact hknown
              rw [if_pos rfl, if_pos ⟨rfl, rfl⟩, hnone, Option.none_or]
            · rw [if_neg hkey, if_neg fun h => hkey h.2.symm, Option.or_none]
          · rw [if_neg hkind, if_neg fun h => hkind h.1.symm, Option.or_none]
  | add record =>
      rw [act, (extends_add l record).definitions]
      exact Option.or_none.symm
  | apply division path =>
      rw [act, (extends_addSteps l _).definitions]
      exact Option.or_none.symm

/-! ## Sound ledgers -/

/-- The table and the records say the same. -/
def Sound (l : Ledger) : Prop :=
  ∀ key i, l.positions.get? key = some i ↔ ∃ record, l.records[i]? = some record ∧ record.key = key

theorem sound_empty : Sound empty := by
  intro key i
  simp [empty]

/-- A key is in the table exactly if a record has it. -/
theorem Sound.contains_iff (h : Sound l) {key : String} :
    l.positions.contains key = true ↔ key ∈ l.records.map Record.key := by
  rw [Keyed.contains, Option.isSome_iff_exists, List.mem_map]
  constructor
  · rintro ⟨i, hi⟩
    obtain ⟨record, hrecord, hkey⟩ := (h key i).1 hi
    exact ⟨record, List.mem_of_getElem? hrecord, hkey⟩
  · rintro ⟨record, hmem, hkey⟩
    obtain ⟨i, hi⟩ := List.mem_iff_getElem?.1 hmem
    exact ⟨i, (h key i).2 ⟨record, hi, hkey⟩⟩

/-- In a sound ledger no two records share a key: each is where the table has the key. -/
theorem Sound.nodup (h : Sound l) : (l.records.map Record.key).Nodup := by
  rw [List.nodup_iff_getElem?_ne_getElem?]
  intro i j hij hj hsame
  rw [List.length_map] at hj
  have hi : i < l.records.length := Nat.lt_trans hij hj
  rw [List.getElem?_map, List.getElem?_map, List.getElem?_eq_getElem hi,
    List.getElem?_eq_getElem hj, Option.map_some, Option.map_some, Option.some.injEq] at hsame
  have hfirst := (h _ i).2 ⟨_, List.getElem?_eq_getElem hi, rfl⟩
  have hsecond := (h _ j).2 ⟨_, List.getElem?_eq_getElem hj, hsame.symm⟩
  rw [hfirst, Option.some.injEq] at hsecond
  omega

theorem getElem?_concat_iff {records : List Record} {record last : Record} {i : Nat} :
    (records ++ [last])[i]? = some record ↔
      records[i]? = some record ∨ (i = records.length ∧ last = record) := by
  by_cases hi : i < records.length
  · rw [List.getElem?_append_left hi]
    exact ⟨.inl, fun h => h.resolve_right fun hlast => Nat.ne_of_lt hi hlast.1⟩
  · rw [List.getElem?_append_right (Nat.le_of_not_lt hi), List.getElem?_singleton,
      List.getElem?_eq_none (Nat.le_of_not_lt hi)]
    split
    · have hlast : i = records.length := by omega
      simp [hlast]
    · have hne : i ≠ records.length := by omega
      simp [hne]

/-- A new record is entered at the end, where the table points to it. -/
theorem Sound.add (h : Sound l) (record : Record) : Sound (l.add record).1 := by
  rw [Ledger.add]
  split
  · exact h
  · rename_i hnew
    intro key i
    have hplaces : (∃ r, (l.records ++ [record])[i]? = some r ∧ r.key = key) ↔
        l.positions.get? key = some i ∨ (i = l.records.length ∧ record.key = key) := by
      rw [h key i]
      simp only [getElem?_concat_iff]
      constructor
      · rintro ⟨r, hold | ⟨hi, rfl⟩, hkey⟩
        · exact .inl ⟨r, hold, hkey⟩
        · exact .inr ⟨hi, hkey⟩
      · rintro (⟨r, hold, hkey⟩ | ⟨hi, hkey⟩)
        · exact ⟨r, .inl hold, hkey⟩
        · exact ⟨record, .inr ⟨hi, rfl⟩, hkey⟩
    rw [hplaces, Keyed.get?_insert]
    by_cases hkey : key = record.key
    · -- the table does not have the new key yet
      subst hkey
      rw [if_pos rfl, Option.not_isSome_iff_eq_none.1 hnew]
      simp [eq_comm]
    · rw [if_neg hkey]
      exact ⟨.inl, fun hor => hor.resolve_right fun hlast => hkey hlast.2.symm⟩

/-- A sound ledger stays sound, whatever is asked of it. -/
theorem Sound.act (h : Sound l) (call : Call) : Sound (l.act call).1 := by
  cases call with
  | define kind key definition =>
      rw [Ledger.act, define]
      split <;> exact h
  | add record => exact h.add record
  | apply division path =>
      exact addSteps_induction (P := fun l m => Sound l → Sound m) (fun _ h => h)
        (fun hkl hlm h => hlm (hkl h)) (fun _ record h => h.add record) l _ h

/-! ## In step with a collection -/

/-- A ledger holds what a collection holds. -/
structure Matches (l : Ledger) (c : Collection) : Prop where
  definitions : l.definitions = c.definitions
  records : l.records = c.records

/-- What is left in the ledger matches what is left in the collection, and the faults are the same.
-/
def SameEnd (outcome : Ledger × Option Fault) (other : Collection × Option Fault) : Prop :=
  outcome.1.Matches other.1 ∧ outcome.2 = other.2

theorem Matches.define (h : l.Matches c) (kind : DefinitionKind) (key : String)
    (definition : Definition) :
    SameEnd (l.define kind key definition) (c.act (.define kind key definition)) := by
  rw [Ledger.define, Collection.act, h.definitions]
  rcases Collection.addDefinition_cases c kind key definition with
    ⟨hknown, hadd⟩ | ⟨hnew, d, hadd, hrecords, hdefinitions⟩
  · rw [if_pos hknown, hadd]
    exact ⟨h, rfl⟩
  · rw [hnew, if_neg Bool.false_ne_true, hadd]
    exact ⟨⟨hdefinitions.symm, h.records.trans hrecords.symm⟩, rfl⟩

/-- The table knows the keys which the records have, so the same records are refused. -/
theorem Matches.add (hsound : Sound l) (h : l.Matches c) (record : Record) :
    SameEnd (l.add record) (c.attempt (c.add record)) := by
  rw [Ledger.add]
  rcases Collection.add_cases c record with
    ⟨hknown, hadd⟩ | ⟨hnew, d, hadd, hdefinitions, hrecords⟩
  · rw [← h.records, ← hsound.contains_iff] at hknown
    rw [if_pos hknown, hadd]
    exact ⟨h, rfl⟩
  · rw [← h.records, ← hsound.contains_iff] at hnew
    have hsame : l.records ++ [record] = d.records := by rw [hrecords, h.records]
    rw [if_neg hnew, hadd]
    exact ⟨⟨h.definitions.trans hdefinitions.symm, hsame⟩, rfl⟩

theorem Matches.addSteps (hsound : Sound l) (h : l.Matches c) (steps : List Step) :
    SameEnd (l.addSteps steps) ((c.addSteps steps).1, (c.addSteps steps).2.2) := by
  induction steps generalizing l c with
  | nil => exact ⟨h, rfl⟩
  | cons step rest ih =>
      cases step with
      | error fault => exact ⟨h, rfl⟩
      | ok record =>
          have hone := h.add hsound record
          have hnext := hsound.add record
          rw [Ledger.addSteps, Collection.addSteps]
          generalize l.add record = outcome at hone hnext ⊢
          obtain ⟨next, fault?⟩ := outcome
          cases hadd : c.add record with
          | error fault =>
              rw [hadd] at hone
              obtain ⟨hmatches, rfl⟩ := hone
              exact ⟨hmatches, rfl⟩
          | ok d =>
              rw [hadd] at hone
              obtain ⟨hmatches, rfl⟩ := hone
              exact ih hnext hmatches

/-- A sound ledger and a collection which match do so after every call, which fails on both sides
with the same fault or on none. -/
theorem Matches.act (hsound : Sound l) (h : l.Matches c) (call : Call) :
    SameEnd (l.act call) (c.act call) := by
  cases call with
  | define kind key definition => exact h.define kind key definition
  | add record => exact h.add hsound record
  | apply division path =>
      rw [Ledger.act, Collection.act, Collection.applyDivision, h.definitions]
      have hall := h.addSteps hsound (division.steps c.definitions path)
      generalize c.addSteps (division.steps c.definitions path) = outcome at hall ⊢
      obtain ⟨last, count, fault?⟩ := outcome
      cases fault? with
      | none => exact hall
      | some fault => exact hall

/-! ## Histories -/

theorem after_concat (calls : List Call) (call : Call) :
    after (calls ++ [call]) = ((after calls).act call).1 :=
  List.foldl_concat ..

/-- After any history the ledger is sound and matches the collection. -/
theorem sound_matches_after (calls : List Call) :
    Sound (after calls) ∧ (after calls).Matches (.after calls) := by
  induction calls using List.reverseRecOn with
  | nil => exact ⟨sound_empty, rfl, rfl⟩
  | append_singleton calls call ih =>
      obtain ⟨hsound, hmatches⟩ := ih
      rw [after_concat, Collection.after, List.foldl_concat]
      exact ⟨hsound.act call, (hmatches.act hsound call).1⟩

/-- After any history a lookup finds the definition which came first. -/
theorem get?_definitions_after (calls : List Call) (kind : DefinitionKind) (key : String) :
    ((after calls).definitions.of kind).get? key = firstDefined? kind key calls := by
  induction calls using List.reverseRecOn with
  | nil => cases kind <;> rfl
  | append_singleton calls call ih =>
      rw [after_concat, get?_definitions_act, ih, firstDefined?, firstDefined?,
        List.findSome?_append, List.findSome?_singleton]

/-- What holds of a ledger and of the collection beside it. -/
structure Consistent (calls : List Call) (l : Ledger) (c : Collection) : Prop where
  /-- The ledger holds what the collection holds. -/
  holds : l.Matches c
  /-- The collection finds a key where the table has it. -/
  found : ∀ key, c.indexOf? key = l.positions.get? key
  /-- The table has a key at a position exactly if the record there has it. -/
  placed : ∀ key i, l.positions.get? key = some i ↔
    ∃ record, l.records[i]? = some record ∧ record.key = key
  /-- No two records share a key. -/
  nodup : (l.records.map Record.key).Nodup
  /-- A definition is found as it was first brought under its kind and key. -/
  defined : ∀ kind key, l.definitions.find kind key =
    match firstDefined? kind key calls with
    | some definition => .ok definition
    | none => .error (.notFound (.definition kind) key)
  /-- The next call fails on both sides with the same fault, or on none. -/
  alike : ∀ call, (l.act call).2 = (c.act call).2
  /-- It leaves the records which are there in front. -/
  kept : ∀ call, l.records <+: (l.act call).1.records
  /-- A single addition which fails changes nothing at all. -/
  refused : ∀ call fault, call.IsSingle → (l.act call).2 = some fault → (l.act call).1 = l

/-- **Names and positions never disagree.** This holds after every history of calls, whichever of
them failed. -/
theorem consistent_after (calls : List Call) :
    Consistent calls (after calls) (.after calls) := by
  obtain ⟨hsound, hmatches⟩ := sound_matches_after calls
  refine ⟨hmatches, fun key => ?_, hsound, hsound.nodup, fun kind key => ?_,
    fun call => (hmatches.act hsound call).2, records_prefix_act _,
    fun call fault hsingle => act_eq_self hsingle⟩
  · apply Option.ext
    intro i
    rw [Collection.indexOf?_eq_some_iff, hsound key i, hmatches.records]
  · exact get?_definitions_after calls kind key ▸ rfl

end Ledger

end AgentAtlas
