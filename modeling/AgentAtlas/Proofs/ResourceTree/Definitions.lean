import AgentAtlas.Proofs.Repetition
import AgentAtlas.Proofs.ResourceTree.Loading
import Mathlib.Data.List.Nodup

/-!
# Written and loaded definitions

An object of a JSON text may name a member twice, and reading it as a map keeps the last of them.
So a definition file can write a definition which is never loaded: in a section which another one of
the same heading follows, or under a key which the section names again. What is left of a file are
the keys of its last section, each once (`kept`), and the definitions of a loaded tree have exactly
these keys, file by file (`keys_of_load`). Between files no key is lost: a tree in which two files
keep one does not load (`kept_disjoint`).

Hence every written definition is loaded exactly if no file has such a repetition
(`load_complete_iff`), and a tree with one may load (`repeated_platform_lost`).
-/

set_option autoImplicit false

namespace AgentAtlas

open Json (Tree)

namespace Json.Tree

/-- The names in an object, as often as they are written. -/
def names (t : Tree) : List String := (t.members?.getD []).map Prod.fst

/-- The names in the members under a heading, one list for each time the heading is written. -/
def sectionsUnder (heading : String) (t : Tree) : List (List String) :=
  ((t.members?.getD []).filter fun f => f.1 = heading).map fun f => f.2.names

variable {α : Type} {read : Tree → Option α} {t : Tree} {m : Keyed String α}

/-- A map is read member by member. -/
theorem exists_entries_of_map? (h : t.map? read = some m) :
    ∃ entries, List.Forall₂ (fun f e => f.1 = e.1 ∧ read f.2 = some e.2) (t.members?.getD [])
      entries ∧ m = Keyed.ofList entries := by
  obtain ⟨fields, hfields, h⟩ := Option.bind_eq_some_iff.1 h
  obtain ⟨entries, hentries, h⟩ := Option.bind_eq_some_iff.1 h
  cases h
  refine ⟨entries, ?_, rfl⟩
  rw [hfields]
  refine (mapM_eq_some_iff.1 hentries).imp fun f e he => ?_
  obtain ⟨v, hv, he⟩ := Option.bind_eq_some_iff.1 he
  cases he
  exact ⟨rfl, hv⟩

/-- The keys of a map are the names, each at its first place. -/
theorem keys_of_map? (h : t.map? read = some m) : m.keys = t.names.eraseDups := by
  obtain ⟨entries, hentries, rfl⟩ := exists_entries_of_map? h
  have hnames : t.names = entries.map Prod.fst := by
    rw [names, ← List.forall₂_eq_eq_eq, List.forall₂_map_left_iff, List.forall₂_map_right_iff]
    exact hentries.imp fun _ _ hfe => hfe.1
  rw [Keyed.keys_ofList, hnames]

/-- The value of a key in a map is that of the last member of this name. -/
theorem last_of_get?_map? (h : t.map? read = some m) {key : String} {value : α}
    (hget : m.get? key = some value) :
    ∃ f, ((t.members?.getD []).filter fun f => f.1 = key).getLast? = some f ∧
      read f.2 = some value := by
  obtain ⟨entries, hentries, rfl⟩ := exists_entries_of_map? h
  rw [Keyed.get?_ofList] at hget
  rw [← List.head?_reverse, ← List.filter_reverse]
  have hreverse := List.forall₂_reverse_iff.2 hentries
  -- from the end the last member is the first which a lookup comes to
  generalize (t.members?.getD []).reverse = fields at hreverse
  generalize entries.reverse = entries at hreverse hget
  induction hreverse with
  | nil => cases hget
  | @cons f e fields entries hfe _ ih =>
      rw [Keyed.lookup_cons_eq_ite] at hget
      by_cases hkey : f.1 = key
      · rw [if_pos (hfe.1 ▸ hkey.symm), Option.some.injEq] at hget
        refine ⟨f, ?_, hget ▸ hfe.2⟩
        rw [List.filter_cons_of_pos (by simpa using hkey), List.head?_cons]
      · rw [if_neg fun hk => hkey (hfe.1.trans hk.symm)] at hget
        rw [List.filter_cons_of_neg (by simpa using hkey)]
        exact ih hget

end Json.Tree

namespace ResourceTree

variable {disk : Disk} {root path : String} {kind : DefinitionKind} {c : Collection}

/-! ## What is written -/

/-- The keys in the sections of a definition file, section by section, as often as they are written.
-/
def writtenIn (disk : Disk) (kind : DefinitionKind) (path : String) : List (List String) :=
  match readFile disk path some with
  | .ok t => t.sectionsUnder (heading kind)
  | .error _ => []

/-- The keys which all definition files of a kind write, as often as they are written. -/
def authored (disk : Disk) (root : String) (kind : DefinitionKind) : List String :=
  (definitionFiles disk root kind).flatMap fun path => (writtenIn disk kind path).flatten

/-- The keys that reading keeps of some sections: those of the last, each once. -/
def kept (sections : List (List String)) : List String := (sections.getLastD []).eraseDups

/-- Sections of which reading drops nothing: only the last has keys, and none twice. -/
structure Plain (sections : List (List String)) : Prop where
  earlier : ∀ names ∈ sections.dropLast, names = []
  nodup : (sections.getLastD []).Nodup

instance : DecidablePred Plain := fun sections =>
  decidable_of_iff ((∀ names ∈ sections.dropLast, names = []) ∧ (sections.getLastD []).Nodup)
    ⟨fun h => ⟨h.1, h.2⟩, fun h => ⟨h.earlier, h.nodup⟩⟩

/-- A file is read from its tree. -/
theorem readFile_eq_ok_iff {α : Type} {ofTree? : Tree → Option α} {described : α} :
    readFile disk path ofTree? = .ok described ↔
      ∃ t, readFile disk path some = .ok t ∧ ofTree? t = some described := by
  rw [readFile, readFile]
  cases disk.read path with
  | error cause => simp
  | ok content =>
      simp only [describe]
      split
      · simp
      · split
        · simp
        · cases ht : Tree.ofChars? (asciiChars content) with
          | none => simp
          | some t => cases hd : ofTree? t <;> simp [hd]

/-- What a file holds has the keys that reading keeps. -/
theorem keys_of_holds {definitions : Keyed String Definition}
    (h : Holds disk kind path definitions) :
    definitions.keys = kept (writtenIn disk kind path) := by
  obtain ⟨sections, hread, hget⟩ := h
  obtain ⟨t, ht, hsections⟩ := readFile_eq_ok_iff.1 hread
  obtain ⟨f, hlast, hdefinitions⟩ := Tree.last_of_get?_map? hsections hget
  rw [Tree.keys_of_map? hdefinitions, writtenIn, ht, kept,
    List.getLastD_eq_getLast?]
  simp only [Tree.sectionsUnder, List.getLast?_map, hlast, Option.map_some, Option.getD_some]

/-- The keys of a loaded tree's definitions are those which reading keeps of its files. -/
theorem keys_of_load (h : load disk root = .ok c) (kind : DefinitionKind) :
    (c.definitions.of kind).keys =
      (definitionFiles disk root kind).flatMap fun path => kept (writtenIn disk kind path) := by
  rw [Keyed.keys, entries_of_load h, definitionsOf, List.map_flatMap]
  exact List.flatMap_congr fun path hpath => keys_of_holds (holds_of_load h hpath)

/-- Two files of one kind in a loaded tree have no key in common, as far as reading keeps it. -/
theorem kept_disjoint (h : load disk root = .ok c) (kind : DefinitionKind) :
    (definitionFiles disk root kind).Pairwise fun earlier later =>
      List.Disjoint (kept (writtenIn disk kind earlier)) (kept (writtenIn disk kind later)) := by
  have hnodup := (c.definitions.of kind).nodup
  rw [← Keyed.keys, keys_of_load h, List.nodup_flatMap] at hnodup
  exact hnodup.2

/-! ## What is lost -/

section Sections

variable {sections : List (List String)}

theorem kept_subperm (sections : List (List String)) :
    (kept sections).Subperm sections.flatten := by
  refine (eraseDups_subperm _).trans (List.Sublist.subperm ?_)
  rcases List.eq_nil_or_concat sections with rfl | ⟨earlier, last, rfl⟩
  · exact List.Sublist.slnil
  · simp

/-- Reading keeps as many keys as are written exactly of plain sections. -/
theorem length_kept_eq_iff :
    (kept sections).length = sections.flatten.length ↔ Plain sections := by
  have hflatten : sections.flatten.length =
      sections.dropLast.flatten.length + (sections.getLastD []).length := by
    rcases List.eq_nil_or_concat sections with rfl | ⟨earlier, last, rfl⟩
    · rfl
    · simp
  have hearlier : sections.dropLast.flatten.length = 0 ↔
      ∀ names ∈ sections.dropLast, names = [] := by
    rw [List.length_eq_zero_iff, List.flatten_eq_nil_iff]
  have hle := length_eraseDups_le (sections.getLastD [])
  rw [hflatten, kept]
  constructor
  · intro h
    exact ⟨hearlier.1 (by omega), length_eraseDups_eq_iff.1 (by omega)⟩
  · intro h
    rw [length_eraseDups_eq_iff.2 h.nodup, hearlier.2 h.earlier, Nat.zero_add]

/-- Of plain sections every key is kept. -/
theorem Plain.kept_perm (h : Plain sections) : (kept sections).Perm sections.flatten :=
  (kept_subperm sections).perm_of_length_le (Nat.le_of_eq (length_kept_eq_iff.2 h).symm)

end Sections

/-- Every definition which is written is loaded: in no kind is a key written twice, and there are as
many definitions as are written. -/
structure Complete (disk : Disk) (root : String) (c : Collection) : Prop where
  nodup : ∀ kind, (authored disk root kind).Nodup
  count : c.definitions.count = (kinds.flatMap (authored disk root)).length

/-- The definition files with their kinds. -/
def places (disk : Disk) (root : String) : List (DefinitionKind × String) :=
  kinds.flatMap fun kind => (definitionFiles disk root kind).map (kind, ·)

theorem mem_places_iff :
    (kind, path) ∈ places disk root ↔ path ∈ definitionFiles disk root kind := by
  have hkind : kind ∈ kinds := by cases kind <;> decide
  simp [places, hkind]

/-- What is listed kind by kind and file by file is listed place by place. -/
theorem flatMap_places (listed : DefinitionKind → String → List String) :
    (kinds.flatMap fun kind => (definitionFiles disk root kind).flatMap (listed kind)) =
      (places disk root).flatMap fun place => listed place.1 place.2 := by
  simp only [places, List.flatMap_assoc, List.flatMap_map]

/-- There are as many definitions as keys of all kinds. -/
theorem count_eq_length (defs : Definitions) :
    defs.count = (kinds.flatMap fun kind => (defs.of kind).keys).length := by
  simp [Definitions.count, kinds, Definitions.of, Keyed.size, Keyed.keys, Nat.add_assoc]

/-- A loaded tree has as many definitions as reading keeps keys. -/
theorem count_of_load (h : load disk root = .ok c) :
    c.definitions.count =
      ((places disk root).flatMap fun place => kept (writtenIn disk place.1 place.2)).length := by
  simp only [count_eq_length, keys_of_load h]
  rw [flatMap_places fun kind path => kept (writtenIn disk kind path)]

theorem authored_places :
    kinds.flatMap (authored disk root) =
      (places disk root).flatMap fun place => (writtenIn disk place.1 place.2).flatten :=
  flatMap_places fun kind path => (writtenIn disk kind path).flatten

/-- The keys of plain files are all loaded. -/
theorem keys_perm_authored (h : load disk root = .ok c)
    (hplain : ∀ path ∈ definitionFiles disk root kind, Plain (writtenIn disk kind path)) :
    (c.definitions.of kind).keys.Perm (authored disk root kind) := by
  rw [keys_of_load h]
  exact List.Perm.flatMap_left _ fun path hpath => (hplain path hpath).kept_perm

/-- **A loaded tree is complete exactly if the sections of its definition files are plain.** -/
theorem load_complete_iff (h : load disk root = .ok c) :
    Complete disk root c ↔
      ∀ kind, ∀ path ∈ definitionFiles disk root kind, Plain (writtenIn disk kind path) := by
  -- no file has more keys than it writes, so none has fewer if the numbers agree
  have hcount : c.definitions.count = (kinds.flatMap (authored disk root)).length ↔
      ∀ place ∈ places disk root, Plain (writtenIn disk place.1 place.2) := by
    rw [count_of_load h, authored_places, length_flatMap_eq_iff fun _ => (kept_subperm _).length_le]
    simp only [length_kept_eq_iff]
  have hplaces : (∀ place ∈ places disk root, Plain (writtenIn disk place.1 place.2)) ↔
      ∀ kind, ∀ path ∈ definitionFiles disk root kind, Plain (writtenIn disk kind path) := by
    simp only [Prod.forall, mem_places_iff]
  rw [hplaces] at hcount
  constructor
  · intro hcomplete
    exact hcount.1 hcomplete.count
  · intro hplain
    refine ⟨fun kind => ?_, hcount.2 hplain⟩
    exact (keys_perm_authored h (hplain kind)).nodup_iff.1 (c.definitions.of kind).nodup

/-- A small tree with platforms under the keys. -/
def platformTree (keys : List String) : Disk :=
  smallTree keys [defaultProperties] [defaultBrowser] []

/-- Two platforms under two keys are both loaded. -/
theorem load_complete_iff_two_platforms :
    ∃ c, load (platformTree ["a", "b"]) "/" = .ok c ∧ c.definitions.count = 2 ∧
      Complete (platformTree ["a", "b"]) "/" c := by
  have hload : (load (platformTree ["a", "b"]) "/").toOption.map (·.definitions.count) =
      some 2 := by decide +kernel
  obtain ⟨c, hc, hcount⟩ := exists_eq_ok hload
  refine ⟨c, hc, hcount, (load_complete_iff hc).2 fun kind => ?_⟩
  cases kind <;> decide +kernel

/-- Two platforms under one key are loaded as one. -/
theorem repeated_platform_lost :
    ∃ c, load (platformTree ["a", "a"]) "/" = .ok c ∧ c.definitions.count = 1 ∧
      ¬Complete (platformTree ["a", "a"]) "/" c := by
  have hload : (load (platformTree ["a", "a"]) "/").toOption.map (·.definitions.count) =
      some 1 := by decide +kernel
  have htwice : ¬(authored (platformTree ["a", "a"]) "/" .platform).Nodup := by decide +kernel
  obtain ⟨c, hc, hcount⟩ := exists_eq_ok hload
  exact ⟨c, hc, hcount, fun hcomplete => htwice (hcomplete.nodup .platform)⟩

end ResourceTree

end AgentAtlas
