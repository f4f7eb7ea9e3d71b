import AgentAtlas.Proofs.Disk.Listing
import AgentAtlas.Proofs.ResourceTree.Loading
import AgentAtlas.Proofs.Sorting
import Mathlib.Data.String.Basic

/-!
# The order in which a resource tree is loaded

The records of a loaded tree are those of its two core divisions, then those of the other divisions
by their sort indices and, within one index, by the names of their files (`InOrder`). The order in
which the disk lists a directory counts for nothing, neither for what is loaded nor for the fault of
a tree which cannot be loaded (`load_in_order`).

The file names are sorted before the divisions are, so it counts that the second sort is stable
(`sortDivisions_before`).
-/

set_option autoImplicit false

namespace AgentAtlas.ResourceTree

variable {disk other : Disk} {root directory : String} {c : Collection}

/-! ## File names -/

/-- The names of the files in a directory which describe something, in the disk's order. -/
def descriptionNames (disk : Disk) (directory : String) : List String :=
  (disk.names directory).filter fun name =>
    isDescription name && disk.isFile (Path.join directory name)

theorem sortNames_sorted (names : List String) : (sortNames names).Pairwise (· ≤ ·) :=
  List.pairwise_mergeSort' (· ≤ ·) names

theorem sortNames_eq_insertionSort (names : List String) :
    sortNames names = names.insertionSort (· ≤ ·) :=
  List.mergeSort_eq_insertionSort (· ≤ ·) names

/-- Sorted names are the same in whatever order they came. -/
theorem sortNames_eq_of_perm {names others : List String} (h : names.Perm others) :
    sortNames names = sortNames others := by
  have hperm : (sortNames names).Perm (sortNames others) :=
    (List.mergeSort_perm _ _).trans (h.trans (List.mergeSort_perm _ _).symm)
  exact hperm.eq_of_pairwise (fun a b _ _ => le_antisymm) (sortNames_sorted names)
    (sortNames_sorted others)

/-- Names of which none is repeated stand strictly one after the other. -/
theorem sortNames_strict {names : List String} (h : names.Nodup) :
    (sortNames names).Pairwise (· < ·) := by
  have hnodup : (sortNames names).Nodup := (List.mergeSort_perm _ _).nodup_iff.2 h
  exact ((sortNames_sorted names).and hnodup).imp fun hab => lt_of_le_of_ne hab.1 hab.2

theorem jsonFiles_eq_bind (disk : Disk) (directory : String) :
    jsonFiles disk directory = (requireDirectory disk directory).bind fun _ =>
      if (descriptionNames disk directory).isEmpty then .error (.emptyDirectory directory)
      else .ok ((sortNames (descriptionNames disk directory)).map (Path.join directory)) := by
  rw [jsonFiles]
  cases requireDirectory disk directory with
  | error fault => rfl
  | ok _ =>
      rw [descriptionNames]
      dsimp only [Except.bind, bind]
      split <;> rfl

theorem eq_of_jsonFiles_eq_ok {files : List String} (h : jsonFiles disk directory = .ok files) :
    files = (sortNames (descriptionNames disk directory)).map (Path.join directory) := by
  rw [jsonFiles_eq_bind] at h
  obtain ⟨-, -, h⟩ := bind_eq_ok_iff.1 h
  split at h
  · cases h
  · exact (Except.ok.inj h).symm

/-! ## The divisions of a tree with the names of their files -/

/-- The directory of the division files besides the core ones. -/
def agentsPath (root : String) : String := Path.join root agentsDirectory

/-- A division under the path of its file. -/
def located (root : String) (agents : String × Division) : String × Division :=
  (Path.join (agentsPath root) agents.1, agents.2)

/-- The divisions besides the core ones, under the names of their files and in the order of these.
-/
def namedDivisions (disk : Disk) (root : String) : List (String × Division) :=
  (sortNames (descriptionNames disk (agentsPath root))).filterMap fun name =>
    (readFile disk (Path.join (agentsPath root) name) Division.ofTree?).toOption.map (name, ·)

theorem agentFiles_of_load (h : load disk root = .ok c) :
    agentFiles disk root =
      (sortNames (descriptionNames disk (agentsPath root))).map (Path.join (agentsPath root)) := by
  obtain ⟨_, hlayout, -⟩ := bind_eq_ok_iff.1 h
  -- the root and the definition files are looked for before these files
  obtain ⟨_, -, hlayout⟩ := bind_eq_ok_iff.1 hlayout
  obtain ⟨_, -, hlayout⟩ := bind_eq_ok_iff.1 hlayout
  obtain ⟨files, hfiles, -⟩ := bind_eq_ok_iff.1 hlayout
  rw [agentFiles, hfiles, agentsPath, ← eq_of_jsonFiles_eq_ok hfiles]
  rfl

/-- Each file's division is there. -/
theorem map_fst_namedDivisions (h : load disk root = .ok c) :
    (namedDivisions disk root).map Prod.fst =
      sortNames (descriptionNames disk (agentsPath root)) := by
  rw [namedDivisions, List.map_filterMap]
  refine (List.filterMap_congr fun name hname => ?_).trans List.filterMap_some
  -- every one of the files can be read, so none of the names is left out
  have hpath : Path.join (agentsPath root) name ∈ coreFiles root ++ agentFiles disk root := by
    rw [agentFiles_of_load h]
    exact List.mem_append_right _ (List.mem_map_of_mem hname)
  obtain ⟨division, hread⟩ := readable_of_load h hpath
  rw [hread]
  rfl

theorem readFile_of_mem_namedDivisions {division : String × Division}
    (h : division ∈ namedDivisions disk root) :
    readFile disk (located root division).1 Division.ofTree? = .ok division.2 := by
  obtain ⟨name, -, h⟩ := List.mem_filterMap.1 h
  obtain ⟨read, hread, rfl⟩ := Option.map_eq_some_iff.1 h
  exact toOption_eq_some_iff.1 hread

/-- The divisions of the tree under their paths are these by their sort indices. -/
theorem agentDivisions_of_load (h : load disk root = .ok c) :
    agentDivisions disk root =
      (sortDivisions (namedDivisions disk root)).map (located root) := by
  have hlocated : (agentFiles disk root).flatMap (divisionsAt disk) =
      (namedDivisions disk root).map (located root) := by
    rw [agentFiles_of_load h, List.flatMap_map, namedDivisions, List.map_filterMap,
      List.filterMap_eq_flatMap_toList]
    refine List.flatMap_congr fun name _ => ?_
    rw [divisionsAt]
    cases readFile disk (Path.join (agentsPath root) name) Division.ofTree? <;> rfl
  rw [agentDivisions, hlocated]
  exact (List.map_mergeSort (f := located root) fun _ _ _ _ => rfl).symm

/-- Whether one division comes before another, each under the name of its file. -/
def Before (a b : String × Division) : Prop :=
  a.2.sortIndex < b.2.sortIndex ∨ a.2.sortIndex = b.2.sortIndex ∧ a.1 < b.1

/-- By their sort indices, divisions under names in order stand one before the other. -/
theorem sortDivisions_before {divisions : List (String × Division)}
    (h : (divisions.map Prod.fst).Pairwise (· < ·)) :
    (sortDivisions divisions).Pairwise Before := by
  apply (pairwise_stableSort ?_ ?_ (List.pairwise_map.1 h)).imp
  · rintro a b ⟨hle, hname⟩
    rcases lt_or_eq_of_le hle with hlt | heq
    · exact .inl hlt
    · -- of one index, the names decide
      exact .inr ⟨heq, hname heq.ge⟩
  · exact fun a b c => le_trans
  · exact fun a b => le_total a.2.sortIndex b.2.sortIndex

theorem sortDivisions_eq_insertionSort (divisions : List (String × Division)) :
    sortDivisions divisions =
      divisions.insertionSort fun a b => a.2.sortIndex ≤ b.2.sortIndex := by
  apply stableSort_eq_insertionSort
  · exact fun a b c => le_trans
  · exact fun a b => le_total a.2.sortIndex b.2.sortIndex

/-! ## Disks which list their directories in other orders -/

section Relisted

variable (h : disk.Relisted other)

include h

theorem readFile_relisted {α : Type} (path : String) (ofTree? : Json.Tree → Option α) :
    readFile other path ofTree? = readFile disk path ofTree? := by
  simp only [readFile, h.read_eq]

theorem jsonFiles_relisted (directory : String) :
    jsonFiles other directory = jsonFiles disk directory := by
  -- sorting the names takes the disk's order away, and there is a name in either order or in none
  have hnames : (descriptionNames other directory).Perm (descriptionNames disk directory) := by
    simp only [descriptionNames, h.isFile_eq]
    exact (h.names_perm directory).filter _
  rw [jsonFiles_eq_bind, jsonFiles_eq_bind, requireDirectory, requireDirectory, h.isDirectory_eq,
    sortNames_eq_of_perm hnames, hnames.isEmpty_eq]

theorem layout_relisted (root : String) : layout other root = layout disk root := by
  have hfile : requireFile other = requireFile disk := by
    funext path
    rw [requireFile, requireFile, h.isFile_eq]
  simp only [layout, requireDirectory, h.isDirectory_eq, jsonFiles_relisted h, hfile]

/-- What is loaded, or why nothing is, does not depend on how the disk lists directories. -/
theorem load_relisted (root : String) : load other root = load disk root := by
  have hadd : addDefinitions other = addDefinitions disk := by
    funext kind c path
    rw [addDefinitions, addDefinitions, readFile_relisted h]
  simp only [load, layout_relisted h, hadd, readFile_relisted h]

end Relisted

/-! ## The order of the records -/

/-- A collection has its records in the order of a tree's division files. -/
structure InOrder (disk : Disk) (root : String) (c : Collection) (properties browser : Division)
    (agents : List (String × Division)) : Prop where
  /-- The definitions are those of all four directories. -/
  definitions : ∀ kind, (c.definitions.of kind).entries = definitionsOf disk root kind
  readProperties :
    readFile disk (Path.join root defaultPropertiesFile) Division.ofTree? = .ok properties
  readBrowser : readFile disk (Path.join root defaultBrowserFile) Division.ofTree? = .ok browser
  /-- Every other division file stands once under its name, and nothing else does. -/
  names : (agents.map Prod.fst).Perm (descriptionNames disk (agentsPath root))
  readAgents : ∀ agent ∈ agents,
    readFile disk (located root agent).1 Division.ofTree? = .ok agent.2
  order : agents.Pairwise Before
  /-- The records are the steps of the files, none of which is a fault. -/
  records : ((Path.join root defaultPropertiesFile, properties) ::
    (Path.join root defaultBrowserFile, browser) :: agents.map (located root)).flatMap
      (fun file => file.2.steps c.definitions file.1) = c.records.map .ok

/-- **What is loaded follows from what the tree holds.** The records of a loaded tree stand in the
order of its division files, and a disk which holds the same and lists it in another order gives the
same collection or the same fault. -/
theorem load_in_order (disk : Disk) (root : String) :
    (∀ c, load disk root = .ok c →
      ∃ properties browser agents, InOrder disk root c properties browser agents) ∧
    ∀ other, disk.Relisted other → load other root = load disk root := by
  refine ⟨fun c h => ?_, fun other hother => load_relisted hother root⟩
  have hcore : ∀ name ∈ [defaultPropertiesFile, defaultBrowserFile],
      ∃ division, readFile disk (Path.join root name) Division.ofTree? = .ok division :=
    fun name hname => readable_of_load h (List.mem_append_left _ (List.mem_map_of_mem hname))
  obtain ⟨properties, hproperties⟩ := hcore _ List.mem_cons_self
  obtain ⟨browser, hbrowser⟩ := hcore _ (List.mem_cons_of_mem _ List.mem_cons_self)
  have hcoreDivisions : coreDivisions disk root =
      [(Path.join root defaultPropertiesFile, properties),
        (Path.join root defaultBrowserFile, browser)] := by
    simp [coreDivisions, coreFiles, divisionsAt, hproperties, hbrowser, Except.toOption]
  have hperm := List.mergeSort_perm (namedDivisions disk root)
    fun a b => a.2.sortIndex ≤ b.2.sortIndex
  refine ⟨properties, browser, sortDivisions (namedDivisions disk root), ?_⟩
  constructor
  case definitions => exact entries_of_load h
  case readProperties => exact hproperties
  case readBrowser => exact hbrowser
  case names =>
    refine (hperm.map Prod.fst).trans ?_
    rw [map_fst_namedDivisions h]
    exact List.mergeSort_perm _ _
  case readAgents =>
    intro agent hagent
    exact readFile_of_mem_namedDivisions (hperm.mem_iff.1 hagent)
  case order =>
    apply sortDivisions_before
    rw [map_fst_namedDivisions h]
    exact sortNames_strict ((disk.nodup_names _).filter _)
  case records =>
    -- the records are those of the same files, so it is enough that no step of a file is a fault
    rw [← agentDivisions_of_load h, records_of_load h, ← List.flatMap_append, List.map_flatMap,
      hcoreDivisions]
    apply List.flatMap_congr
    intro division hdivision
    apply faultless_of_load h
    rwa [hcoreDivisions]

/-- A division file with a sort index and a user agent. -/
def indexedFile (sortIndex : Int) (name : String) : Entry :=
  valueFile (.object [("division", .string "Sample"), ("sortIndex", .number (.integer sortIndex)),
    ("userAgents", .array [.object [("userAgent", .string name)]])])

/-- A tree in which the indices are in another order than the names, and the names in another order
than the disk's. -/
def indexedTree : Disk :=
  [("third", 5), ("second", 1), ("first", 1)].foldl (fun disk agent =>
      disk.put ["user-agents", agent.1 ++ ".json"] (indexedFile agent.2 agent.1))
    (smallTree [] [defaultProperties] [defaultBrowser] [])

/-- The same tree, listed backwards. -/
def backwardTree : Disk :=
  { indexedTree with
    contents := ⟨indexedTree.contents.entries.reverse, by
      rw [List.map_reverse, List.nodup_reverse]
      exact indexedTree.contents.nodup⟩ }

theorem load_in_order_backward :
    (∃ c, load indexedTree "/" = .ok c ∧ load backwardTree "/" = .ok c ∧
      c.records.map Record.key =
        [defaultProperties, defaultBrowser, "first", "second", "third"] ∧
      ∃ properties browser agents, InOrder indexedTree "/" c properties browser agents) ∧
    indexedTree.Relisted backwardTree ∧
    backwardTree.names "/user-agents" ≠ indexedTree.names "/user-agents" := by
  have hload : (load indexedTree "/").toOption.map (·.records.map Record.key) =
      some [defaultProperties, defaultBrowser, "first", "second", "third"] := by
    simp only [load, layout, jsonFiles, sortNames_eq_insertionSort, sortDivisions_eq_insertionSort]
    decide +kernel
  obtain ⟨c, hc, hkeys⟩ := exists_eq_ok hload
  have hrelisted : indexedTree.Relisted backwardTree := .of_perm rfl (List.reverse_perm _)
  obtain ⟨horder, hsame⟩ := load_in_order indexedTree "/"
  refine ⟨⟨c, hc, ?_, hkeys, horder c hc⟩, hrelisted, by decide +kernel⟩
  rw [hsame backwardTree hrelisted, hc]

end AgentAtlas.ResourceTree
