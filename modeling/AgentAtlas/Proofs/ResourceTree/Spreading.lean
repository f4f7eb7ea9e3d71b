import AgentAtlas.Proofs.Build.Agreement
import AgentAtlas.Proofs.ResourceTree.Ordering

/-!
# How definitions are spread over files

A definition is only ever looked up by its kind and key, so the division files of a tree expand to
the same records wherever the lookups are the same (`recordsIn_congr`), and a build reads no more of
the definitions than their number (`Source.build_congr`). Two loaded trees with the same division
files, the same configuration and the same definitions under the same keys have the same records and
the same builds, whatever files the definitions stand in and in whatever order
(`same_builds_of_same_definitions`).
-/

set_option autoImplicit false

namespace AgentAtlas

/-! ## Expanding under the same lookups -/

section Lookups

variable {defs others : Definitions} (h : ∀ kind key, defs.find kind key = others.find kind key)

include h

theorem Definitions.referred_congr (kind : DefinitionKind) (key? : Option String) :
    defs.referred kind key? = others.referred kind key? := by
  cases key? with
  | none => rfl
  | some key => rw [referred, referred, h]

theorem References.properties_congr (refs : References) :
    refs.properties defs = refs.properties others := by
  simp only [properties, Definitions.referred_congr h]

theorem Child.expand_congr (child : Child) (parent : String) :
    child.expand defs parent = child.expand others parent := by
  simp only [expand, h, References.properties_congr h]

theorem Agent.steps_congr (agent : Agent) (label : String) :
    agent.steps defs label = agent.steps others label := by
  have hchild : agent.childSteps defs label = agent.childSteps others label := by
    funext child
    rw [childSteps, childSteps, Child.expand_congr h]
  rw [steps, steps, record, record, References.properties_congr h, hchild]

/-- The records of a division follow from the lookups, and not from the path of its file. -/
theorem ResourceTree.recordsIn_congr {division other : String × Division}
    (hdivision : division.2 = other.2) : recordsIn defs division = recordsIn others other := by
  rw [recordsIn, recordsIn, Division.steps, Division.steps, hdivision]
  cases other.2.label? with
  | none => rfl -- only a fault, which tells the path
  | some label => simp only [Agent.steps_congr h]

theorem ResourceTree.flatMap_recordsIn_congr {divisions more : List (String × Division)}
    (hdivisions : divisions.map Prod.snd = more.map Prod.snd) :
    divisions.flatMap (recordsIn defs) = more.flatMap (recordsIn others) := by
  have hbare : ∀ (defs : Definitions) (divisions : List (String × Division)),
      divisions.flatMap (recordsIn defs) =
        (divisions.map Prod.snd).flatMap fun division => recordsIn defs ("", division) := by
    intro defs divisions
    rw [List.flatMap_map]
    exact List.flatMap_congr fun division _ => recordsIn_congr (fun _ _ => rfl) rfl
  rw [hbare, hbare, hdivisions]
  exact List.flatMap_congr fun division _ => recordsIn_congr h rfl

end Lookups

/-! ## Building from the same records -/

section Records

variable {c d : Collection} {catalog : Catalog} {filter : Property.Filter}
  (h : c.records = d.records)

include h

theorem Inheritance.rowsFrom_congr (known : Inheritance.Known) (records : List Record) :
    rowsFrom c catalog filter known records = rowsFrom d catalog filter known records := by
  have hinherited : inherited c = inherited d := by
    obtain ⟨_, _, _⟩ := c
    obtain ⟨_, _, _⟩ := d
    cases h
    rfl
  induction records generalizing known with
  | nil => rfl
  | cons record rest ih => simp only [rowsFrom, hinherited, ih]

/-- The artifact follows from the records. -/
theorem Collection.artifact_congr : c.artifact catalog filter = d.artifact catalog filter := by
  rw [artifact, artifact, rows, rows, Inheritance.rowsFrom_congr h, h]

/-- What a build reports follows from the configuration, the records and the number of definitions.
-/
theorem Source.build_congr {source other : Source} (hconfig : source.config = other.config)
    (hc : source.collection = .ok c) (hd : other.collection = .ok d)
    (hcount : c.definitions.count = d.definitions.count) (options : BuildOptions) :
    source.build catalog options = other.build catalog options := by
  have hstats : Stats.of c = Stats.of d := by
    funext artifact
    rw [Stats.of, Stats.of, h, hcount]
  rw [build, build, hconfig, compile_eq_artifact source catalog hc,
    compile_eq_artifact other catalog hd, Collection.artifact_congr h]
  cases other.config with
  | error fault => rfl
  | ok config =>
      cases d.artifact catalog options.flavor with
      | error fault => rfl
      | ok artifact =>
          dsimp only [bind, Except.bind, Except.map]
          rw [hstats]

end Records

namespace ResourceTree

variable {disk other : Disk} {root base : String} {c d : Collection}

/-! ## Trees with the same division files -/

/-- Two trees have the same division files: the same two core files, and besides them files of the
same names and contents. -/
structure SameDivisions (disk : Disk) (root : String) (other : Disk) (base : String) : Prop where
  core : ∀ name ∈ [defaultPropertiesFile, defaultBrowserFile],
    disk.read (Path.join root name) = other.read (Path.join base name)
  names : ∀ name, name ∈ descriptionNames disk (agentsPath root) ↔
    name ∈ descriptionNames other (agentsPath base)
  agents : ∀ name ∈ descriptionNames disk (agentsPath root),
    disk.read (Path.join (agentsPath root) name) = other.read (Path.join (agentsPath base) name)

theorem toOption_describe {α : Type} (path place : String) (ofTree? : Json.Tree → Option α)
    (content : Bytes) :
    (describe path ofTree? content).toOption = (describe place ofTree? content).toOption := by
  rw [describe, describe]
  split
  · rfl
  · split
    · rfl
    · split <;> rfl

/-- What can be read from a file follows from its content. -/
theorem toOption_readFile_congr {α : Type} {path place : String}
    (h : disk.read path = other.read place) (ofTree? : Json.Tree → Option α) :
    (readFile disk path ofTree?).toOption = (readFile other place ofTree?).toOption := by
  rw [readFile, readFile, h]
  cases other.read place with
  | error cause => rfl
  | ok content => exact toOption_describe path place ofTree? content

theorem map_snd_coreDivisions (h : SameDivisions disk root other base) :
    (coreDivisions disk root).map Prod.snd = (coreDivisions other base).map Prod.snd := by
  have hplain : ∀ disk path, (divisionsAt disk path).map Prod.snd =
      (readFile disk path Division.ofTree?).toOption.toList := by
    intro disk path
    rw [divisionsAt, List.map_map]
    exact List.map_id _
  simp only [coreDivisions, coreFiles, List.map_flatMap, List.flatMap_map, hplain]
  refine List.flatMap_congr fun name hname => ?_
  rw [toOption_readFile_congr (h.core name hname)]

theorem namedDivisions_congr (h : SameDivisions disk root other base) :
    namedDivisions disk root = namedDivisions other base := by
  have hperm : (descriptionNames disk (agentsPath root)).Perm
      (descriptionNames other (agentsPath base)) :=
    (List.perm_ext_iff_of_nodup ((disk.nodup_names _).filter _)
      ((other.nodup_names _).filter _)).2 h.names
  rw [namedDivisions, namedDivisions, ← sortNames_eq_of_perm hperm]
  refine List.filterMap_congr fun name hname => ?_
  rw [toOption_readFile_congr (h.agents name (List.mem_mergeSort.1 hname))]

/-- **How definitions are spread over files does not matter.** Loaded trees with the same division
files, the same configuration and the same definitions under the same keys have the same records, in
the same order, and the same builds. -/
theorem same_builds_of_same_definitions (hc : load disk root = .ok c) (hd : load other base = .ok d)
    (hdivisions : SameDivisions disk root other base)
    (hconfig : config disk root = config other base)
    (hdefinitions : ∀ kind entry,
      entry ∈ definitionsOf disk root kind ↔ entry ∈ definitionsOf other base kind) :
    c.records = d.records ∧ ∀ catalog options,
      (Source.ofTree disk root).build catalog options =
        (Source.ofTree other base).build catalog options := by
  simp only [← entries_of_load hc, ← entries_of_load hd] at hdefinitions
  have hfind : ∀ kind key, c.definitions.find kind key = d.definitions.find kind key := by
    intro kind key
    rw [Definitions.find, Definitions.find, Keyed.get?_congr (hdefinitions kind)]
  have hsize : ∀ kind, (c.definitions.of kind).size = (d.definitions.of kind).size := by
    intro kind
    -- no key occurs twice, so the one list of entries is the other in some order
    have hc := List.Nodup.of_map _ (c.definitions.of kind).nodup
    have hd := List.Nodup.of_map _ (d.definitions.of kind).nodup
    exact ((List.perm_ext_iff_of_nodup hc hd).2 (hdefinitions kind)).length_eq
  have hrecords : c.records = d.records := by
    -- the divisions are the same up to the paths of their files
    have hagents : (agentDivisions disk root).map Prod.snd =
        (agentDivisions other base).map Prod.snd := by
      rw [agentDivisions_of_load hc, agentDivisions_of_load hd, namedDivisions_congr hdivisions,
        List.map_map, List.map_map]
      rfl
    rw [records_of_load hc, records_of_load hd,
      flatMap_recordsIn_congr hfind (map_snd_coreDivisions hdivisions),
      flatMap_recordsIn_congr hfind hagents]
  refine ⟨hrecords, fun catalog options => ?_⟩
  apply Source.build_congr hrecords hconfig hc hd
  have hplatforms := hsize .platform
  have hengines := hsize .engine
  have hdevices := hsize .device
  have hbrowsers := hsize .browser
  simp only [Definitions.of] at hplatforms hengines hdevices hbrowsers
  rw [Definitions.count, Definitions.count, hplatforms, hengines, hdevices, hbrowsers]

/-- A platform under a key, which is also its match text and a property. -/
def platform (key : String) : String × Json :=
  (key, .object [("match", .string key), ("properties", .object [("Platform", .string key)])])

/-- A user agent on one platform, with a child on two. -/
def platformAgent : Json :=
  .object [("userAgent", .string "Agent"), ("platform", .string "a"),
    ("properties", .object [("Parent", .string defaultProperties)]),
    ("children", .array [.object [("match", .string "Agent #PLATFORM#"),
      ("platforms", .array [.string "b", .string "a"])]])]

/-- A tree with platforms in files of some names. -/
def spreadTree (files : List (String × List String)) : Disk :=
  files.foldl (fun disk file => disk.put ["platforms", file.1]
      (valueFile (.object [("platforms", .object (file.2.map platform))])))
    ((smallTree [] [defaultProperties] [defaultBrowser] []).put ["user-agents", "all.json"]
      (valueFile (.object [("division", .string "Sample"),
        ("userAgents", .array [platformAgent])])))

/-- Two platforms in one file. -/
def joinedTree : Disk := spreadTree [("all.json", ["a", "b"])]

/-- The same platforms in files of their own, the second one first. -/
def dividedTree : Disk := spreadTree [("all.json", ["b"]), ("more.json", ["a"])]

theorem same_builds_of_divided_platforms :
    ∃ c d, load joinedTree "/" = .ok c ∧ load dividedTree "/" = .ok d ∧
      c.definitions.platforms.keys = ["a", "b"] ∧ d.definitions.platforms.keys = ["b", "a"] ∧
      c.records = d.records ∧ ∀ catalog options,
        (Source.ofTree joinedTree "/").build catalog options =
          (Source.ofTree dividedTree "/").build catalog options := by
  have hjoined : (load joinedTree "/").toOption.map (·.definitions.platforms.keys) =
      some ["a", "b"] := by
    simp only [load, layout, jsonFiles, sortNames_eq_insertionSort, sortDivisions_eq_insertionSort]
    decide +kernel
  have hdivided : (load dividedTree "/").toOption.map (·.definitions.platforms.keys) =
      some ["b", "a"] := by
    simp only [load, layout, jsonFiles, sortNames_eq_insertionSort, sortDivisions_eq_insertionSort]
    decide +kernel
  have hperm : ∀ kind,
      (definitionsOf joinedTree "/" kind).Perm (definitionsOf dividedTree "/" kind) := by
    intro kind
    simp only [definitionsOf, definitionFiles, jsonFiles, sortNames_eq_insertionSort]
    cases kind <;> decide +kernel
  have hdivisions : SameDivisions joinedTree "/" dividedTree "/" := by
    have hnames : descriptionNames joinedTree (agentsPath "/") =
        descriptionNames dividedTree (agentsPath "/") := by
      decide +kernel
    exact ⟨by decide +kernel, fun name => by rw [hnames], by decide +kernel⟩
  obtain ⟨c, hc, hkeys⟩ := exists_eq_ok hjoined
  obtain ⟨d, hd, hmore⟩ := exists_eq_ok hdivided
  have hconfig : config joinedTree "/" = config dividedTree "/" := by decide +kernel
  exact ⟨c, d, hc, hd, hkeys, hmore, same_builds_of_same_definitions hc hd hdivisions hconfig
    fun kind _ => (hperm kind).mem_iff⟩

end ResourceTree

end AgentAtlas
