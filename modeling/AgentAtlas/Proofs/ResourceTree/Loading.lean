import AgentAtlas.Json.Printer
import AgentAtlas.Source
import AgentAtlas.Proofs.Collection.Adding

/-!
# What loading a resource tree puts together

A loaded collection has two parts, and both follow from the files. Its definitions of a kind are
those of the kind's files, one file after the other (`entries_of_load`). Its records are those of
the divisions in the two core files, then those of the other divisions by their sort indices
(`records_of_load`).

Both are read off the steps: adding a file's definitions changes only the definitions (`Defines`),
adding a division's records changes only the records (`Applies`), and a walk along the files puts
the steps together (`stages_of_load`).
-/

set_option autoImplicit false

namespace AgentAtlas.ResourceTree

variable {disk : Disk} {root path : String} {kind other : DefinitionKind} {c d e : Collection}

/-! ## Where things are -/

/-- The definition files of a kind, in the order of their names. -/
def definitionFiles (disk : Disk) (root : String) (kind : DefinitionKind) : List String :=
  (jsonFiles disk (Path.join root (heading kind))).toOption.getD []

/-- The division files besides the core ones, in the order of their names. -/
def agentFiles (disk : Disk) (root : String) : List String :=
  (jsonFiles disk (Path.join root agentsDirectory)).toOption.getD []

/-- The core division files. -/
def coreFiles (root : String) : List String :=
  [defaultPropertiesFile, defaultBrowserFile].map (Path.join root)

/-- What a tree is read from, if everything it needs is there. -/
theorem eq_of_layout_eq_ok {found : Layout} (h : layout disk root = .ok found) :
    found = ⟨kinds.map fun kind => (kind, definitionFiles disk root kind), agentFiles disk root,
      coreFiles root⟩ := by
  rw [layout] at h
  obtain ⟨-, -, h⟩ := bind_eq_ok_iff.1 h
  obtain ⟨definitions, hdefinitions, h⟩ := bind_eq_ok_iff.1 h
  obtain ⟨divisions, hdivisions, h⟩ := bind_eq_ok_iff.1 h
  obtain ⟨-, -, h⟩ := bind_eq_ok_iff.1 h
  have hkinds : definitions = kinds.map fun kind => (kind, definitionFiles disk root kind) := by
    refine eq_map_of_forall₂ (fun kind files hfiles => ?_) (mapM_eq_ok_iff.1 hdefinitions)
    obtain ⟨paths, hpaths, hfiles⟩ := bind_eq_ok_iff.1 hfiles
    cases hfiles
    rw [definitionFiles, hpaths]
    rfl
  cases h
  rw [agentFiles, hdivisions, hkinds]
  rfl

/-! ## Definitions -/

/-- A definition of some kind under its key. -/
abbrev KindedDefinition := DefinitionKind × String × Definition

/-- The definitions of one kind. -/
def ofKind (kind : DefinitionKind) (added : List KindedDefinition) : List (String × Definition) :=
  added.filterMap fun a => if a.1 = kind then some a.2 else none

theorem ofKind_map (entries : List (String × Definition)) :
    ofKind kind (entries.map (other, ·)) = if other = kind then entries else [] := by
  rw [ofKind, List.filterMap_map]
  split <;> simp_all

/-- Of what is listed kind by kind, one kind is its own list. -/
theorem ofKind_kinds (listed : DefinitionKind → List (String × Definition)) :
    ofKind kind (kinds.flatMap fun k => (listed k).map (k, ·)) = listed kind := by
  have h : ∀ ks : List DefinitionKind, ofKind kind (ks.flatMap fun k => (listed k).map (k, ·)) =
      ks.flatMap fun k => if k = kind then listed k else [] := by
    intro ks
    rw [ofKind, List.filterMap_flatMap]
    exact List.flatMap_congr fun k _ => ofKind_map (listed k)
  rw [h]
  cases kind <;> simp [kinds]

/-- The one collection is the other with definitions added, each kind's behind those of the kind. -/
structure Defines (added : List KindedDefinition) (c d : Collection) : Prop where
  records : d.records = c.records
  entries : ∀ kind, (d.definitions.of kind).entries =
    (c.definitions.of kind).entries ++ ofKind kind added

theorem Defines.nil (c : Collection) : Defines [] c c :=
  ⟨rfl, fun _ => (List.append_nil _).symm⟩

theorem Defines.trans {added more : List KindedDefinition} (h : Defines added c d)
    (h' : Defines more d e) : Defines (added ++ more) c e where
  records := h'.records.trans h.records
  entries := fun kind => by
    rw [h'.entries, h.entries, List.append_assoc, ofKind, ofKind, ofKind, List.filterMap_append]

/-- An added definition has a new key and comes last among those of its kind. -/
theorem defines_of_addDefinition {entry : String × Definition}
    (h : c.addDefinition kind entry.1 entry.2 = .ok d) : Defines [(kind, entry)] c d := by
  obtain ⟨defs, hdefs, h⟩ := bind_eq_ok_iff.1 h
  cases h
  rw [Definitions.add] at hdefs
  split at hdefs
  · cases hdefs
  · rename_i hnew
    cases hdefs
    refine ⟨rfl, fun k => ?_⟩
    rw [Definitions.of_replace]
    by_cases hk : k = kind
    · subst hk
      have hkey : entry.1 ∉ (c.definitions.of k).keys := by
        rw [← Keyed.get?_eq_none_iff, ← Option.not_isSome_iff_eq_none]
        exact hnew
      rw [if_pos rfl, Keyed.entries_insert_of_not_mem hkey]
      simp [ofKind]
    · have hne : ¬kind = k := fun hkind => hk hkind.symm
      simp [hk, hne, ofKind]

/-- What a definition file holds under the heading of its kind. -/
def Holds (disk : Disk) (kind : DefinitionKind) (path : String)
    (definitions : Keyed String Definition) : Prop :=
  ∃ sections, readFile disk path Sections.ofTree? = .ok sections ∧
    sections.get? (heading kind) = some definitions

/-- The definitions of a file, none if it does not hold any. -/
def definitionsIn (disk : Disk) (kind : DefinitionKind) (path : String) : Keyed String Definition :=
  ((readFile disk path Sections.ofTree?).toOption.bind fun sections =>
    sections.get? (heading kind)).getD .empty

theorem Holds.eq_definitionsIn {definitions : Keyed String Definition}
    (h : Holds disk kind path definitions) : definitionsIn disk kind path = definitions := by
  obtain ⟨sections, hread, hget⟩ := h
  rw [definitionsIn, hread]
  simp [Except.toOption, hget]

/-- A file whose definitions are added holds some. -/
theorem holds_of_addDefinitions (h : addDefinitions disk kind c path = .ok d) :
    Holds disk kind path (definitionsIn disk kind path) ∧
      (definitionsIn disk kind path).entries.foldlM
        (fun c e => c.addDefinition kind e.1 e.2) c = .ok d := by
  obtain ⟨sections, hread, h⟩ := bind_eq_ok_iff.1 h
  cases hget : sections.get? (heading kind) with
  | none =>
      rw [hget] at h
      cases h
  | some definitions =>
      have hholds : Holds disk kind path definitions := ⟨sections, hread, hget⟩
      rw [hget] at h
      rw [hholds.eq_definitionsIn]
      exact ⟨hholds, h⟩

theorem defines_of_addDefinitions (h : addDefinitions disk kind c path = .ok d) :
    Defines ((definitionsIn disk kind path).entries.map (kind, ·)) c d := by
  rw [List.map_eq_flatMap]
  exact foldlM_flatMap (P := Defines) (g := fun entry => [(kind, entry)]) Defines.nil
    Defines.trans defines_of_addDefinition (holds_of_addDefinitions h).2

theorem defines_of_files {files : List String}
    (h : files.foldlM (addDefinitions disk kind) c = .ok d) :
    Defines (files.flatMap fun path => (definitionsIn disk kind path).entries.map (kind, ·)) c d :=
  foldlM_flatMap (P := Defines) (f := addDefinitions disk kind)
    (g := fun path => (definitionsIn disk kind path).entries.map (kind, ·)) Defines.nil
    Defines.trans defines_of_addDefinitions h

/-- The definitions of the files of a kind, one file after the other. -/
def definitionsOf (disk : Disk) (root : String) (kind : DefinitionKind) :
    List (String × Definition) :=
  (definitionFiles disk root kind).flatMap fun path => (definitionsIn disk kind path).entries

/-- Adding the files of every kind adds their definitions, and each file holds some. -/
theorem defines_of_definitionFiles
    (h : (kinds.map fun kind => (kind, definitionFiles disk root kind)).foldlM
      (fun c files => files.2.foldlM (addDefinitions disk files.1) c) c = .ok d) :
    (∀ kind, ∀ path ∈ definitionFiles disk root kind,
      Holds disk kind path (definitionsIn disk kind path)) ∧
    Defines (kinds.flatMap fun kind => (definitionsOf disk root kind).map (kind, ·)) c d := by
  constructor
  · intro kind path hpath
    have hkind : kind ∈ kinds := by cases kind <;> decide
    obtain ⟨_, _, hfiles⟩ := exists_step_of_foldlM h _ (List.mem_map_of_mem hkind)
    obtain ⟨_, _, hfile⟩ := exists_step_of_foldlM hfiles path hpath
    exact (holds_of_addDefinitions hfile).1
  · have hdefines := foldlM_flatMap (P := Defines)
      (g := fun files : DefinitionKind × List String => files.2.flatMap fun path =>
        (definitionsIn disk files.1 path).entries.map (files.1, ·))
      Defines.nil Defines.trans defines_of_files h
    simpa only [List.flatMap_map, definitionsOf, List.map_flatMap] using hdefines

/-! ## Records -/

/-- The records of a division, its faults left out. -/
def recordsIn (defs : Definitions) (division : String × Division) : List Record :=
  (division.2.steps defs division.1).filterMap Except.toOption

/-- The one collection is the other with the records of divisions added, and the divisions have no
faults. -/
structure Applies (divisions : List (String × Division)) (c d : Collection) : Prop where
  definitions : d.definitions = c.definitions
  records : d.records = c.records ++ divisions.flatMap (recordsIn c.definitions)
  faultless : ∀ division ∈ divisions,
    division.2.steps c.definitions division.1 = (recordsIn c.definitions division).map .ok

theorem Applies.nil (c : Collection) : Applies [] c c :=
  ⟨rfl, (List.append_nil _).symm, List.forall_mem_nil _⟩

theorem Applies.trans {divisions more : List (String × Division)} (h : Applies divisions c d)
    (h' : Applies more d e) : Applies (divisions ++ more) c e where
  definitions := h'.definitions.trans h.definitions
  records := by
    rw [h'.records, h.records, h.definitions, List.append_assoc, List.flatMap_append]
  faultless := List.forall_mem_append.2 ⟨h.faultless, h.definitions ▸ h'.faultless⟩

/-- A division which is added without a fault adds all its records. -/
theorem applies_of_addDivision {division : String × Division}
    (h : addDivision c division = .ok d) : Applies [division] c d := by
  rw [addDivision] at h
  obtain ⟨added, remaining, htakes, hend⟩ := c.applyDivision_cases division.2 division.1
  generalize c.applyDivision division.2 division.1 = outcome at h htakes hend
  obtain ⟨last, result⟩ := outcome
  rcases hend with ⟨rfl, rfl⟩ | ⟨fault, rfl, -⟩
  · cases h
    have hsteps : division.2.steps c.definitions division.1 = added.map .ok := by
      rw [htakes.steps, List.append_nil]
    have hadded : recordsIn c.definitions division = added := by
      rw [recordsIn, hsteps, List.filterMap_map]
      exact List.filterMap_some
    refine ⟨htakes.definitions, ?_, List.forall_mem_singleton.2 ?_⟩
    · rw [htakes.records, List.flatMap_singleton, hadded]
    · rw [hadded, hsteps]
  · cases h

/-- The division of a file, if the file can be read. -/
def divisionsAt (disk : Disk) (path : String) : List (String × Division) :=
  (readFile disk path Division.ofTree?).toOption.toList.map (path, ·)

theorem mem_divisionsAt_iff {division : String × Division} :
    division ∈ divisionsAt disk path ↔
      division.1 = path ∧ readFile disk path Division.ofTree? = .ok division.2 := by
  obtain ⟨p, division⟩ := division
  rw [divisionsAt]
  cases readFile disk path Division.ofTree? with
  | error fault => simp [Except.toOption]
  | ok read => simp [Except.toOption, eq_comm]

/-- The divisions of the core files, in their order. -/
def coreDivisions (disk : Disk) (root : String) : List (String × Division) :=
  (coreFiles root).flatMap (divisionsAt disk)

/-- The divisions of the other files, by their sort indices. -/
def agentDivisions (disk : Disk) (root : String) : List (String × Division) :=
  sortDivisions ((agentFiles disk root).flatMap (divisionsAt disk))

theorem mem_agentDivisions_iff {division : String × Division} :
    division ∈ agentDivisions disk root ↔
      ∃ path ∈ agentFiles disk root, division ∈ divisionsAt disk path := by
  rw [agentDivisions, sortDivisions, List.mem_mergeSort, List.mem_flatMap]

/-! ## The whole tree -/

/-- The steps of loading: the definitions, the divisions, each of which is read from its file, and a
look for the abstract root. -/
theorem stages_of_load (h : load disk root = .ok c) :
    ∃ defined,
      (∀ kind, ∀ path ∈ definitionFiles disk root kind,
        Holds disk kind path (definitionsIn disk kind path)) ∧
      Defines (kinds.flatMap fun kind => (definitionsOf disk root kind).map (kind, ·)) .empty
        defined ∧
      Applies (coreDivisions disk root ++ agentDivisions disk root) defined c ∧
      (∀ path ∈ coreFiles root ++ agentFiles disk root,
        ∃ division, readFile disk path Division.ofTree? = .ok division) ∧
      (c.indexOf? defaultProperties).isSome := by
  obtain ⟨found, hfound, h⟩ := bind_eq_ok_iff.1 h
  cases eq_of_layout_eq_ok hfound
  obtain ⟨defined, hdefined, h⟩ := bind_eq_ok_iff.1 h
  obtain ⟨core, hcore, h⟩ := bind_eq_ok_iff.1 h
  obtain ⟨divisions, hdivisions, h⟩ := bind_eq_ok_iff.1 h
  obtain ⟨loaded, hloaded, h⟩ := bind_eq_ok_iff.1 h
  obtain ⟨hholds, hdefines⟩ := defines_of_definitionFiles hdefined
  have hreadable : ∀ path ∈ coreFiles root ++ agentFiles disk root,
      ∃ division, readFile disk path Division.ofTree? = .ok division := by
    refine List.forall_mem_append.2 ⟨fun path hpath => ?_, fun path hpath => ?_⟩
    · obtain ⟨_, _, hstep⟩ := exists_step_of_foldlM hcore path hpath
      obtain ⟨division, hread, -⟩ := bind_eq_ok_iff.1 hstep
      exact ⟨division, hread⟩
    · obtain ⟨_, hstep⟩ := exists_of_mapM_eq_ok hdivisions path hpath
      obtain ⟨division, hread, -⟩ := bind_eq_ok_iff.1 hstep
      exact ⟨division, hread⟩
  have hcore : Applies (coreDivisions disk root) defined core := by
    refine foldlM_flatMap (P := Applies) Applies.nil Applies.trans (fun hstep => ?_) hcore
    obtain ⟨division, hread, hstep⟩ := bind_eq_ok_iff.1 hstep
    rw [divisionsAt, hread]
    exact applies_of_addDivision hstep
  have hread : divisions = (agentFiles disk root).flatMap (divisionsAt disk) := by
    refine eq_flatMap_of_forall₂ (fun path division hdivision => ?_) (mapM_eq_ok_iff.1 hdivisions)
    obtain ⟨read, hread, hdivision⟩ := bind_eq_ok_iff.1 hdivision
    cases hdivision
    rw [divisionsAt, hread]
    rfl
  have hagents : Applies (agentDivisions disk root) core loaded := by
    rw [agentDivisions, ← hread, ← List.flatMap_singleton' (sortDivisions divisions)]
    exact foldlM_flatMap (P := Applies) (g := fun x => [x]) Applies.nil Applies.trans
      applies_of_addDivision hloaded
  split at h
  · cases h
  · rename_i hsome
    cases h
    rw [Bool.not_eq_true, Option.isNone_eq_false_iff] at hsome
    exact ⟨defined, hholds, hdefines, hcore.trans hagents, hreadable, hsome⟩

/-- A loaded tree's definition files hold definitions under the headings of their kinds. -/
theorem holds_of_load (h : load disk root = .ok c) {kind : DefinitionKind}
    (hpath : path ∈ definitionFiles disk root kind) :
    Holds disk kind path (definitionsIn disk kind path) := by
  obtain ⟨-, hholds, -⟩ := stages_of_load h
  exact hholds kind path hpath

/-- The definitions of a loaded tree are those of its definition files, one file after the other. -/
theorem entries_of_load (h : load disk root = .ok c) (kind : DefinitionKind) :
    (c.definitions.of kind).entries = definitionsOf disk root kind := by
  obtain ⟨defined, -, hdefines, happlies, -⟩ := stages_of_load h
  rw [happlies.definitions, hdefines.entries, ofKind_kinds]
  cases kind <;> rfl

/-- The records of a loaded tree are those of its divisions, the core divisions first. -/
theorem records_of_load (h : load disk root = .ok c) :
    c.records = (coreDivisions disk root).flatMap (recordsIn c.definitions) ++
      (agentDivisions disk root).flatMap (recordsIn c.definitions) := by
  obtain ⟨defined, -, hdefines, happlies, -⟩ := stages_of_load h
  rw [happlies.records, hdefines.records, happlies.definitions, List.flatMap_append]
  rfl

/-- The divisions of a loaded tree have no faults. -/
theorem faultless_of_load (h : load disk root = .ok c) {division : String × Division}
    (hdivision : division ∈ coreDivisions disk root ++ agentDivisions disk root) :
    division.2.steps c.definitions division.1 = (recordsIn c.definitions division).map .ok := by
  obtain ⟨defined, -, -, happlies, -⟩ := stages_of_load h
  rw [happlies.definitions]
  exact happlies.faultless division hdivision

/-- The division files of a loaded tree can be read. -/
theorem readable_of_load (h : load disk root = .ok c)
    (hpath : path ∈ coreFiles root ++ agentFiles disk root) :
    ∃ division, readFile disk path Division.ofTree? = .ok division := by
  obtain ⟨-, -, -, -, hreadable, -⟩ := stages_of_load h
  exact hreadable path hpath

/-- A loaded tree has the abstract root. -/
theorem defaultProperties_mem_of_load (h : load disk root = .ok c) :
    defaultProperties ∈ c.records.map Record.key := by
  obtain ⟨-, -, -, -, -, hsome⟩ := stages_of_load h
  obtain ⟨i, hi⟩ := Option.isSome_iff_exists.1 hsome
  obtain ⟨record, hrecord, hkey⟩ := Collection.indexOf?_eq_some_iff.1 hi
  exact List.mem_map.2 ⟨record, List.mem_of_getElem? hrecord, hkey⟩

/-! ## Small trees -/

/-- A file with a JSON value of ASCII characters. -/
def valueFile (value : Json) : Entry := .file (value.compact.map fun c => UInt8.ofNat c.toNat)

/-- A definition file with definitions of nothing under the keys. -/
def definitionFile (kind : DefinitionKind) (keys : List String) : Entry :=
  valueFile (.object [(heading kind, .object (keys.map (·, .object [])))])

/-- A division file with user agents of the names, without properties or children. -/
def divisionFile (names : List String) : Entry :=
  valueFile (.object [("division", .string "Sample"),
    ("userAgents", .array (names.map fun name => .object [("userAgent", .string name)]))])

/-- A tree at the root of the system with one file in each directory: some platforms, the two core
divisions, and one more. -/
def smallTree (platforms properties browser agents : List String) : Disk where
  workingDirectory := []
  contents := ⟨[
    (["platforms"], .directory),
    (["platforms", "all.json"], definitionFile .platform platforms),
    (["engines"], .directory),
    (["engines", "all.json"], definitionFile .engine []),
    (["devices"], .directory),
    (["devices", "all.json"], definitionFile .device []),
    (["browsers"], .directory),
    (["browsers", "all.json"], definitionFile .browser []),
    (["core"], .directory),
    (["core", "default-properties.json"], divisionFile properties),
    (["core", "default-browser.json"], divisionFile browser),
    (["user-agents"], .directory),
    (["user-agents", "all.json"], divisionFile agents)], by
      simp only [List.map_cons, List.map_nil]
      decide⟩

end AgentAtlas.ResourceTree
