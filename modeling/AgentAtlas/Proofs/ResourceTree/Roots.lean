import AgentAtlas.Proofs.Repetition
import AgentAtlas.Proofs.ResourceTree.Loading
import Mathlib.Data.List.Nodup

/-!
# Where the roots come from

Every record of a loaded tree is contributed by one of its division files (`mem_records_iff`), and
those of the core files stand before all others (`exists_lt_of_mem`). So a core file leads with a
record of some key exactly if it authors the key (`leads_iff`).

Loading looks for the key of the abstract root only among all records, and not at all for that of
the default browser. Hence the roots come first exactly if the core files author them
(`load_roots_first_iff`), and a tree whose core file leaves out its root may load
(`abstract_root_late`).
-/

set_option autoImplicit false

namespace AgentAtlas

/-- A division authors a key as the name of a user agent or as one that a child expands to. -/
def Division.Authors (division : Division) (defs : Definitions) (key : String) : Prop :=
  ∃ agent ∈ division.agents, agent.name = key ∨
    ∃ child ∈ agent.children, ∃ expanded, child.expand defs agent.name = .ok expanded ∧
      key ∈ expanded.map Prod.fst

/-! ## Keys of steps -/

theorem Agent.key_of_record {agent : Agent} {defs : Definitions} {label : String} {record : Record}
    (h : agent.record defs label = .ok record) : record.key = agent.name := by
  obtain ⟨base, -, h⟩ := bind_eq_ok_iff.1 h
  cases h
  rfl

/-- The records of a child have the names which it expands to. -/
theorem Agent.exists_childStep_iff {agent : Agent} {child : Child} {defs : Definitions}
    {key : String} (label : String) :
    (∃ record, .ok record ∈ agent.childSteps defs label child ∧ record.key = key) ↔
      ∃ expanded, child.expand defs agent.name = .ok expanded ∧ key ∈ expanded.map Prod.fst := by
  rw [Agent.childSteps]
  cases child.expand defs agent.name with
  | error fault => simp
  | ok expanded =>
      simp only [List.mem_map, Except.ok.injEq, Prod.exists]
      constructor
      · rintro ⟨record, ⟨name, properties, hmem, rfl⟩, rfl⟩
        exact ⟨expanded, rfl, name, properties, hmem, rfl⟩
      · rintro ⟨_, rfl, name, properties, hmem, rfl⟩
        exact ⟨_, ⟨name, properties, hmem, rfl⟩, rfl⟩

theorem Agent.exists_step_iff {agent : Agent} {defs : Definitions} {label key : String} :
    (∃ record, .ok record ∈ agent.steps defs label ∧ record.key = key) ↔
      (∃ record, agent.record defs label = .ok record ∧ agent.name = key) ∨
        ∃ child ∈ agent.children, ∃ expanded, child.expand defs agent.name = .ok expanded ∧
          key ∈ expanded.map Prod.fst := by
  simp only [← exists_childStep_iff label, Agent.steps, List.mem_cons, List.mem_flatMap]
  constructor
  · rintro ⟨record, hown | ⟨child, hchild, hmem⟩, rfl⟩
    · exact .inl ⟨record, hown.symm, (key_of_record hown.symm).symm⟩
    · exact .inr ⟨child, hchild, record, hmem, rfl⟩
  · rintro (⟨record, hown, rfl⟩ | ⟨child, hchild, record, hmem, rfl⟩)
    · exact ⟨record, .inl hown.symm, key_of_record hown⟩
    · exact ⟨record, .inr ⟨child, hchild, hmem⟩, rfl⟩

/-- The records of a division without faults have the keys which it authors. -/
theorem Division.authors_iff {division : Division} {defs : Definitions} {path key : String}
    {records : List Record} (h : division.steps defs path = records.map .ok) :
    division.Authors defs key ↔ key ∈ records.map Record.key := by
  have hmem : key ∈ records.map Record.key ↔
      ∃ record, .ok record ∈ division.steps defs path ∧ record.key = key := by
    simp [h]
  rw [hmem]
  rw [Division.steps] at h ⊢
  cases hlabel : division.label? with
  | none =>
      -- a division without a label is faulty
      rw [hlabel] at h
      cases records <;> simp at h
  | some label =>
      rw [hlabel] at h
      have hown : ∀ agent ∈ division.agents, ∃ record, agent.record defs label = .ok record := by
        intro agent hagent
        have hstep : agent.record defs label ∈ records.map Except.ok := by
          rw [← h]
          exact List.mem_flatMap.2 ⟨agent, hagent, List.mem_cons_self⟩
        obtain ⟨record, -, hrecord⟩ := List.mem_map.1 hstep
        exact ⟨record, hrecord.symm⟩
      simp only [List.mem_flatMap]
      constructor
      · rintro ⟨agent, hagent, hkey⟩
        obtain ⟨own, hrecord⟩ := hown agent hagent
        obtain ⟨record, hmem, hkey⟩ :=
          Agent.exists_step_iff.2 (hkey.imp_left fun hname => ⟨own, hrecord, hname⟩)
        exact ⟨record, ⟨agent, hagent, hmem⟩, hkey⟩
      · rintro ⟨record, ⟨agent, hagent, hmem⟩, hkey⟩
        have hauthors := Agent.exists_step_iff.1 ⟨record, hmem, hkey⟩
        exact ⟨agent, hagent, hauthors.imp_left fun ⟨_, _, hname⟩ => hname⟩

namespace ResourceTree

variable {disk : Disk} {root path key : String} {c : Collection}

/-! ## Files and their records -/

/-- The records which a division file contributes. -/
def contributed (disk : Disk) (defs : Definitions) (path : String) : List Record :=
  (divisionsAt disk path).flatMap (recordsIn defs)

/-- A division file authors a key. -/
def Authors (disk : Disk) (defs : Definitions) (path key : String) : Prop :=
  ∃ division, readFile disk path Division.ofTree? = .ok division ∧ division.Authors defs key

/-- A file contributes a record of a key, and it precedes whatever user agents contribute. -/
def Leads (disk : Disk) (root : String) (c : Collection) (path key : String) : Prop :=
  ∃ i record, c.records[i]? = some record ∧ record.key = key ∧
    record ∈ contributed disk c.definitions path ∧
      ∀ agents ∈ agentFiles disk root, ∀ later ∈ contributed disk c.definitions agents,
        ∃ j : Nat, c.records[j]? = some later ∧ i < j

/-- The roots come first, each from its core file. -/
structure RootsFirst (disk : Disk) (root : String) (c : Collection) : Prop where
  abstract : Leads disk root c (Path.join root defaultPropertiesFile) defaultProperties
  browser : Leads disk root c (Path.join root defaultBrowserFile) defaultBrowser

theorem mem_contributed_iff {defs : Definitions} {record : Record} :
    record ∈ contributed disk defs path ↔
      ∃ division, readFile disk path Division.ofTree? = .ok division ∧
        record ∈ recordsIn defs (path, division) := by
  simp only [contributed, List.mem_flatMap, Prod.exists, mem_divisionsAt_iff]
  constructor
  · rintro ⟨_, division, ⟨rfl, hread⟩, hmem⟩
    exact ⟨division, hread, hmem⟩
  · rintro ⟨division, hread, hmem⟩
    exact ⟨path, division, ⟨rfl, hread⟩, hmem⟩

theorem mem_core_records_iff {defs : Definitions} {record : Record} :
    record ∈ (coreDivisions disk root).flatMap (recordsIn defs) ↔
      ∃ path ∈ coreFiles root, record ∈ contributed disk defs path := by
  rw [coreDivisions, List.flatMap_assoc, List.mem_flatMap]
  rfl

theorem mem_agent_records_iff {defs : Definitions} {record : Record} :
    record ∈ (agentDivisions disk root).flatMap (recordsIn defs) ↔
      ∃ path ∈ agentFiles disk root, record ∈ contributed disk defs path := by
  simp only [List.mem_flatMap, mem_agentDivisions_iff, contributed]
  constructor
  · rintro ⟨division, ⟨path, hpath, hdivision⟩, hmem⟩
    exact ⟨path, hpath, division, hdivision, hmem⟩
  · rintro ⟨path, hpath, division, hdivision, hmem⟩
    exact ⟨division, ⟨path, hpath, hdivision⟩, hmem⟩

/-- The records of a loaded tree are those which its division files contribute. -/
theorem mem_records_iff (h : load disk root = .ok c) {record : Record} :
    record ∈ c.records ↔
      ∃ path ∈ coreFiles root ++ agentFiles disk root,
        record ∈ contributed disk c.definitions path := by
  rw [records_of_load h, List.mem_append, mem_core_records_iff, mem_agent_records_iff]
  simp only [List.mem_append, or_and_right, exists_or]

/-- The records of a core file stand before those of the other files. -/
theorem exists_lt_of_mem (h : load disk root = .ok c) (hpath : path ∈ coreFiles root)
    {record : Record} (hmem : record ∈ contributed disk c.definitions path) :
    ∃ i, c.records[i]? = some record ∧
      ∀ agents ∈ agentFiles disk root, ∀ later ∈ contributed disk c.definitions agents,
        ∃ j : Nat, c.records[j]? = some later ∧ i < j := by
  have hnodup : c.records.Nodup := List.Nodup.of_map _ c.nodup
  rw [records_of_load h] at hnodup ⊢
  obtain ⟨i, hi, hrecord⟩ := List.mem_iff_getElem.1 (mem_core_records_iff.2 ⟨path, hpath, hmem⟩)
  refine ⟨i, ?_, fun agents hagents later hlater => ?_⟩
  · rw [List.getElem?_append_left hi, List.getElem?_eq_getElem hi, hrecord]
  · have hright := mem_agent_records_iff.2 ⟨agents, hagents, hlater⟩
    obtain ⟨j, hj⟩ := List.mem_iff_getElem?.1 (List.mem_append_right
      ((coreDivisions disk root).flatMap (recordsIn c.definitions)) hright)
    exact ⟨j, hj, Nat.lt_of_lt_of_le hi (length_le_of_mem_right hnodup hright hj)⟩

/-- A core file contributes records of exactly the keys which it authors. -/
theorem authors_iff_mem_contributed (h : load disk root = .ok c) (hpath : path ∈ coreFiles root) :
    Authors disk c.definitions path key ↔
      key ∈ (contributed disk c.definitions path).map Record.key := by
  have hdivision : ∀ {division}, readFile disk path Division.ofTree? = .ok division →
      (division.Authors c.definitions key ↔
        key ∈ (recordsIn c.definitions (path, division)).map Record.key) := by
    intro division hread
    have hmem : (path, division) ∈ coreDivisions disk root :=
      List.mem_flatMap.2 ⟨path, hpath, mem_divisionsAt_iff.2 ⟨rfl, hread⟩⟩
    exact Division.authors_iff (faultless_of_load h (List.mem_append_left _ hmem))
  simp only [List.mem_map, mem_contributed_iff]
  constructor
  · rintro ⟨division, hread, hauthors⟩
    obtain ⟨record, hmem, hkey⟩ := List.mem_map.1 ((hdivision hread).1 hauthors)
    exact ⟨record, ⟨division, hread, hmem⟩, hkey⟩
  · rintro ⟨record, ⟨division, hread, hmem⟩, rfl⟩
    exact ⟨division, hread, (hdivision hread).2 (List.mem_map_of_mem hmem)⟩

/-- A core file leads with exactly the keys which it authors. -/
theorem leads_iff (h : load disk root = .ok c) (hpath : path ∈ coreFiles root) :
    Leads disk root c path key ↔ Authors disk c.definitions path key := by
  rw [authors_iff_mem_contributed h hpath]
  constructor
  · rintro ⟨i, record, -, rfl, hmem, -⟩
    exact List.mem_map_of_mem hmem
  · intro hkey
    obtain ⟨record, hmem, hkey⟩ := List.mem_map.1 hkey
    obtain ⟨i, hi, hlater⟩ := exists_lt_of_mem h hpath hmem
    exact ⟨i, record, hi, hkey, hmem, hlater⟩

/-- **The roots come first exactly if the core files author them.** The key of the abstract root is
there in any case. -/
theorem load_roots_first_iff (h : load disk root = .ok c) :
    defaultProperties ∈ c.records.map Record.key ∧
      (RootsFirst disk root c ↔
        Authors disk c.definitions (Path.join root defaultPropertiesFile) defaultProperties ∧
          Authors disk c.definitions (Path.join root defaultBrowserFile) defaultBrowser) := by
  refine ⟨defaultProperties_mem_of_load h, ?_⟩
  rw [← leads_iff h (by simp [coreFiles]), ← leads_iff h (by simp [coreFiles])]
  exact ⟨fun hroots => ⟨hroots.abstract, hroots.browser⟩, fun hroots => ⟨hroots.1, hroots.2⟩⟩

/-- A file authors the names of its user agents. -/
theorem authors_of_name {defs : Definitions} (names : List String)
    (h : (readFile disk path Division.ofTree?).toOption.map (·.agents.map Agent.name) = some names)
    (hkey : key ∈ names) : Authors disk defs path key := by
  obtain ⟨division, hread, rfl⟩ := exists_eq_ok h
  obtain ⟨agent, hagent, hname⟩ := List.mem_map.1 hkey
  exact ⟨division, hread, agent, hagent, .inl hname⟩

/-- A small tree with the records of the abstract root's core file and of the user agents. -/
def rootTree (properties agents : List String) : Disk :=
  smallTree [] properties [defaultBrowser] agents

/-- With both roots in their core files a user agent comes third. -/
theorem load_roots_first_iff_own_roots :
    ∃ c, load (rootTree [defaultProperties] ["Agent"]) "/" = .ok c ∧
      c.records.map Record.key = [defaultProperties, defaultBrowser, "Agent"] ∧
      RootsFirst (rootTree [defaultProperties] ["Agent"]) "/" c := by
  have hload : (load (rootTree [defaultProperties] ["Agent"]) "/").toOption.map
      (·.records.map Record.key) = some [defaultProperties, defaultBrowser, "Agent"] := by
    decide +kernel
  obtain ⟨c, hc, hkeys⟩ := exists_eq_ok hload
  refine ⟨c, hc, hkeys, (load_roots_first_iff hc).2.2 ⟨?_, ?_⟩⟩
  · exact authors_of_name [defaultProperties] (by decide +kernel) List.mem_cons_self
  · exact authors_of_name [defaultBrowser] (by decide +kernel) List.mem_cons_self

/-- A tree loads with the abstract root among the user agents, behind the default browser. -/
theorem abstract_root_late :
    ∃ c, load (rootTree [] [defaultProperties]) "/" = .ok c ∧
      c.records.map Record.key = [defaultBrowser, defaultProperties] ∧
      ¬RootsFirst (rootTree [] [defaultProperties]) "/" c := by
  have hload : (load (rootTree [] [defaultProperties]) "/").toOption.map
      (·.records.map Record.key) = some [defaultBrowser, defaultProperties] := by
    decide +kernel
  have hagents : (readFile (rootTree [] [defaultProperties]) (Path.join "/" defaultPropertiesFile)
      Division.ofTree?).toOption.map Division.agents = some [] := by
    decide +kernel
  obtain ⟨c, hc, hkeys⟩ := exists_eq_ok hload
  refine ⟨c, hc, hkeys, fun hroots => ?_⟩
  -- the core file has no user agent which could be the root
  obtain ⟨division, hread, hnone⟩ := exists_eq_ok hagents
  obtain ⟨other, hother, agent, hagent, -⟩ :=
    (leads_iff hc List.mem_cons_self).1 hroots.abstract
  cases hread.symm.trans hother
  rw [hnone] at hagent
  cases hagent

end ResourceTree

end AgentAtlas
