import AgentAtlas.Fault
import AgentAtlas.Record

/-!
# The record collection

Everything loaded from a source: the keyed definitions of four kinds, and the records in the order
in which they were added. A key is unique within its kind and among the records; adding a known key
is refused and changes nothing. The position of a key is read off the records, so name and position
cannot disagree (`indexOf?_eq_some_iff`).
-/

set_option autoImplicit false

namespace AgentAtlas

/-- The definitions of the four kinds. -/
structure Definitions where
  platforms : Keyed String Definition
  engines : Keyed String Definition
  devices : Keyed String Definition
  browsers : Keyed String Definition
  deriving DecidableEq, Repr, Inhabited

namespace Definitions

/-- No definitions. -/
def empty : Definitions := ⟨.empty, .empty, .empty, .empty⟩

/-- The definitions of one kind. -/
def of (defs : Definitions) : DefinitionKind → Keyed String Definition
  | .platform => defs.platforms
  | .engine => defs.engines
  | .device => defs.devices
  | .browser => defs.browsers

/-- Other definitions of one kind. -/
def replace (defs : Definitions) (kind : DefinitionKind) (keyed : Keyed String Definition) :
    Definitions :=
  match kind with
  | .platform => { defs with platforms := keyed }
  | .engine => { defs with engines := keyed }
  | .device => { defs with devices := keyed }
  | .browser => { defs with browsers := keyed }

theorem of_replace (defs : Definitions) (kind other : DefinitionKind)
    (keyed : Keyed String Definition) :
    (defs.replace kind keyed).of other = if other = kind then keyed else defs.of other := by
  cases kind <;> cases other <;> rfl

/-- The definition under a key. -/
def find (defs : Definitions) (kind : DefinitionKind) (key : String) : Except Fault Definition :=
  match (defs.of kind).get? key with
  | some definition => .ok definition
  | none => .error (.notFound (.definition kind) key)

/-- Add a definition under a new key. -/
def add (defs : Definitions) (kind : DefinitionKind) (key : String) (definition : Definition) :
    Except Fault Definitions :=
  if (defs.of kind).contains key then .error (.duplicate (.definition kind) key)
  else .ok (defs.replace kind ((defs.of kind).insert key definition))

/-- The number of definitions of all kinds. -/
def count (defs : Definitions) : Nat :=
  defs.platforms.size + defs.engines.size + defs.devices.size + defs.browsers.size

end Definitions

/-- Definitions and records. -/
@[ext]
structure Collection where
  definitions : Definitions
  /-- The records, oldest first. -/
  records : List Record
  /-- No key occurs twice. -/
  nodup : (records.map Record.key).Nodup

namespace Collection

/-- Nothing loaded. -/
def empty : Collection := ⟨.empty, [], List.nodup_nil⟩

/-- The position of a key among the records. -/
def indexOf? (c : Collection) (key : String) : Option Nat :=
  c.records.findIdx? fun r => r.key == key

/-- The record of a key. -/
def find (c : Collection) (key : String) : Except Fault Record :=
  match c.records.find? fun r => r.key == key with
  | some record => .ok record
  | none => .error (.notFound .division key)

/-- Add a definition under a new key. -/
def addDefinition (c : Collection) (kind : DefinitionKind) (key : String)
    (definition : Definition) : Except Fault Collection := do
  return { c with definitions := ← c.definitions.add kind key definition }

/-- Add a record of a new key at the end. -/
def add (c : Collection) (record : Record) : Except Fault Collection :=
  if h : record.key ∈ c.records.map Record.key then .error (.duplicate .division record.key)
  else .ok
    { c with
      records := c.records ++ [record]
      nodup := by
        rw [List.map_append]
        exact List.nodup_append.2 ⟨c.nodup, by simp, fun a ha b hb e => by
          simp only [List.map_cons, List.map_nil, List.mem_singleton] at hb
          exact h (hb ▸ e ▸ ha)⟩ }

/-- A key is at a position exactly if the record there has it. -/
theorem indexOf?_eq_some_iff {c : Collection} {key : String} {i : Nat} :
    c.indexOf? key = some i ↔ ∃ r, c.records[i]? = some r ∧ r.key = key := by
  rw [indexOf?, List.findIdx?_eq_some_iff_getElem]
  constructor
  · rintro ⟨h, hk, -⟩
    exact ⟨c.records[i], List.getElem?_eq_getElem h, by simpa using hk⟩
  · rintro ⟨r, hr, rfl⟩
    obtain ⟨h, rfl⟩ := List.getElem?_eq_some_iff.1 hr
    refine ⟨h, by simp, fun j hj => ?_⟩
    intro he
    have hn := List.pairwise_iff_getElem.1 c.nodup j i (by simp; omega) (by simpa using h) hj
    simp only [List.getElem_map] at hn
    exact hn (by simpa using he)

end Collection

end AgentAtlas
