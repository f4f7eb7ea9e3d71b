import AgentAtlas.Disk
import AgentAtlas.Proofs.Repetition
import Mathlib.Data.List.Dedup

/-!
# The order in which a disk lists directories

A disk lists a directory in the order of its contents, and nothing else shows that order: disks with
the same at every location (`Relisted`) list the same names (`Relisted.names_perm`), and what a path
leads to is the same on both. They may list each directory in an order of its own
(`exists_relisted`).
-/

set_option autoImplicit false

namespace AgentAtlas.Disk

variable {d e : Disk} {location : Location} {path name : String}

/-! ## Names in a directory -/

/-- The last name of a location which is right below another. -/
def nameBelow? (location below : Location) : Option String :=
  if below ≠ [] ∧ below.dropLast = location then below.getLast? else none

theorem nameBelow?_eq_some_iff {below : Location} :
    nameBelow? location below = some name ↔ below = location ++ [name] := by
  rw [nameBelow?]
  constructor
  · intro h
    split at h
    · rename_i hbelow
      rw [← hbelow.2, List.dropLast_append_getLast? name h]
    · cases h
  · rintro rfl
    rw [if_pos ⟨List.append_ne_nil_of_right_ne_nil _ (List.cons_ne_nil _ _), List.dropLast_concat⟩,
      List.getLast?_concat]

theorem get?_concat (d : Disk) (location : Location) (name : String) :
    d.get? (location ++ [name]) = d.contents.get? (location ++ [name]) :=
  if_neg (List.append_ne_nil_of_right_ne_nil _ (List.cons_ne_nil _ _))

/-- The names in a directory are the last ones of the locations right below it. -/
theorem mem_namesAt_iff : name ∈ d.namesAt location ↔ d.get? (location ++ [name]) ≠ none := by
  rw [get?_concat, Ne, Keyed.get?_eq_none_iff, not_not]
  apply List.mem_filterMap.trans
  constructor
  · rintro ⟨below, hbelow, hname⟩
    rwa [← nameBelow?_eq_some_iff.1 hname]
  · intro h
    exact ⟨location ++ [name], h, nameBelow?_eq_some_iff.2 rfl⟩

/-- No name is listed twice. -/
theorem nodup_namesAt (d : Disk) (location : Location) : (d.namesAt location).Nodup := by
  apply d.contents.nodup.filterMap
  intro below other name hbelow hother
  rw [nameBelow?_eq_some_iff.1 hbelow, nameBelow?_eq_some_iff.1 hother]

theorem nodup_names (d : Disk) (path : String) : (d.names path).Nodup := by
  rw [names]
  split
  · exact d.nodup_namesAt _
  · exact List.nodup_nil

/-! ## Disks with the same contents -/

/-- The other disk holds the same, in whatever order it lists its directories. -/
structure Relisted (d e : Disk) : Prop where
  workingDirectory : e.workingDirectory = d.workingDirectory
  get? : ∀ location, e.get? location = d.get? location

namespace Relisted

/-- The order of the contents does not matter. -/
theorem of_perm (hworking : e.workingDirectory = d.workingDirectory)
    (h : e.contents.entries.Perm d.contents.entries) : Relisted d e where
  workingDirectory := hworking
  get? := fun location => by
    rw [Disk.get?, Disk.get?, Keyed.get?_congr fun _ => h.mem_iff]

theorem followFrom_eq (h : Relisted d e) {names : List String} :
    e.followFrom location names = d.followFrom location names := by
  induction names generalizing location with
  | nil => rfl
  | cons name rest ih => simp only [followFrom, h.get?, ih]

theorem follow_eq (h : Relisted d e) : e.follow path = d.follow path := by
  rw [follow, follow, h.workingDirectory, h.followFrom_eq]

theorem at?_eq (h : Relisted d e) : e.at? path = d.at? path := by
  simp only [at?, h.follow_eq, h.get?]

theorem isDirectory_eq (h : Relisted d e) : e.isDirectory path = d.isDirectory path := by
  rw [isDirectory, isDirectory, h.at?_eq]

theorem isFile_eq (h : Relisted d e) : e.isFile path = d.isFile path := by
  rw [isFile, isFile, h.at?_eq]

theorem read_eq (h : Relisted d e) : e.read path = d.read path := by
  simp only [read, h.follow_eq, h.get?]

/-- The same names are listed, each once. -/
theorem names_perm (h : Relisted d e) (path : String) : (e.names path).Perm (d.names path) := by
  refine (List.perm_ext_iff_of_nodup (e.nodup_names path) (d.nodup_names path)).2 fun name => ?_
  rw [names, names, h.follow_eq]
  cases d.follow path with
  | error fault => exact Iff.rfl
  | ok location => rw [mem_namesAt_iff, mem_namesAt_iff, h.get?]

end Relisted

/-! ## Every order is that of a disk -/

/-- The locations which have something right below them. -/
def branchings (d : Disk) : List Location := (d.contents.keys.map List.dropLast).dedup

/-- What is right below a location under some names, in their order. -/
def below (d : Disk) (names : List String) (location : Location) : List (Location × Entry) :=
  names.filterMap fun name => (d.get? (location ++ [name])).map (location ++ [name], ·)

/-- Everything on a disk, directory by directory, each in an order of its own. -/
def relistedEntries (d : Disk) (order : Location → List String) : List (Location × Entry) :=
  d.branchings.flatMap fun above => d.below (order above) above

theorem mem_branchings (h : d.get? (location ++ [name]) ≠ none) : location ∈ d.branchings := by
  rw [get?_concat, Ne, Keyed.get?_eq_none_iff, not_not] at h
  exact List.mem_dedup.2 (List.mem_map.2 ⟨_, h, List.dropLast_concat⟩)

theorem mem_below_iff {names : List String} {entry : Location × Entry} :
    entry ∈ d.below names location ↔
      ∃ name ∈ names,
        d.get? (location ++ [name]) = some entry.2 ∧ entry.1 = location ++ [name] := by
  obtain ⟨l, v⟩ := entry
  simp only [below, List.mem_filterMap, Option.map_eq_some_iff, Prod.mk.injEq]
  constructor
  · rintro ⟨name, hname, v', hv, rfl, rfl⟩
    exact ⟨name, hname, hv, rfl⟩
  · rintro ⟨name, hname, hv, rfl⟩
    exact ⟨name, hname, v, hv, rfl, rfl⟩

section Order

variable {order : Location → List String} (h : ∀ l, (order l).Perm (d.namesAt l))

include h

theorem mem_order_iff {above : Location} : name ∈ order above ↔ d.get? (above ++ [name]) ≠ none :=
  (h above).mem_iff.trans mem_namesAt_iff

/-- No location is listed twice. -/
theorem nodup_relistedEntries : ((d.relistedEntries order).map Prod.fst).Nodup := by
  rw [relistedEntries, List.map_flatMap, List.nodup_flatMap]
  constructor
  · intro above _
    rw [below, List.map_filterMap]
    apply ((h above).nodup_iff.2 (d.nodup_namesAt above)).filterMap
    intro name other l hl hl'
    simp only [Option.mem_def, Option.map_map, Option.map_eq_some_iff] at hl hl'
    obtain ⟨_, -, rfl⟩ := hl
    obtain ⟨_, -, heq⟩ := hl'
    exact (List.cons.inj (List.append_cancel_left heq)).1.symm
  · -- a location tells what it is right below
    apply (List.nodup_dedup _).imp
    intro above other hne l hl hl'
    obtain ⟨entry, hentry, rfl⟩ := List.mem_map.1 hl
    obtain ⟨entry', hentry', heq⟩ := List.mem_map.1 hl'
    obtain ⟨_, -, -, hname⟩ := mem_below_iff.1 hentry
    obtain ⟨_, -, -, hname'⟩ := mem_below_iff.1 hentry'
    rw [hname, hname'] at heq
    exact hne (List.append_inj_left' heq rfl).symm

/-- The entries are those of the disk. -/
theorem mem_relistedEntries_iff {v : Entry} :
    (location ++ [name], v) ∈ d.relistedEntries order ↔ d.get? (location ++ [name]) = some v := by
  rw [relistedEntries, List.mem_flatMap]
  constructor
  · rintro ⟨_, -, hv⟩
    obtain ⟨_, -, hv, heq⟩ := mem_below_iff.1 hv
    exact (congrArg d.get? heq).trans hv
  · intro hv
    have hsome : d.get? (location ++ [name]) ≠ none := hv ▸ Option.some_ne_none v
    exact ⟨location, mem_branchings hsome,
      mem_below_iff.2 ⟨name, (mem_order_iff h).2 hsome, hv, rfl⟩⟩

/-- What is right below a location is listed there and nowhere else. -/
theorem names_below (above : Location) :
    (d.below (order above) above).filterMap (fun entry => nameBelow? location entry.1) =
      if above = location then order location else [] := by
  have hname : ∀ name ∈ order above, ((d.get? (above ++ [name])).map (above ++ [name], ·)).bind
      (fun entry => nameBelow? location entry.1) =
        if above = location then some name else none := by
    intro name hname
    obtain ⟨v, hv⟩ := Option.ne_none_iff_exists'.1 ((mem_order_iff h).1 hname)
    simp [hv, nameBelow?]
  rw [below, List.filterMap_filterMap, List.filterMap_congr hname]
  split
  · rename_i heq
    rw [heq, List.filterMap_some]
  · exact List.filterMap_eq_nil_iff.2 fun _ _ => rfl

/-- Each directory can be listed in any order of its names. -/
theorem exists_relisted : ∃ e, Relisted d e ∧ ∀ l, e.namesAt l = order l := by
  refine ⟨⟨⟨d.relistedEntries order, nodup_relistedEntries h⟩, d.workingDirectory⟩,
    ⟨rfl, fun location => ?_⟩, fun location => ?_⟩
  · rcases location.eq_nil_or_concat' with rfl | ⟨above, name, rfl⟩
    · rfl
    · apply Option.ext
      intro v
      rw [get?_concat, Keyed.get?_eq_some_iff]
      exact mem_relistedEntries_iff h
  · apply List.filterMap_map.trans
    apply List.filterMap_flatMap.trans
    apply (List.flatMap_congr fun above _ => names_below h above).trans
    by_cases hlocation : location ∈ d.branchings
    · exact flatMap_ite_eq (List.nodup_dedup _) hlocation _
    · -- nothing is right below the location, so there is nothing to be listed
      have hempty : order location = [] := by
        apply List.eq_nil_iff_forall_not_mem.2
        intro name hname
        exact hlocation (mem_branchings ((mem_order_iff h).1 hname))
      rw [hempty]
      exact List.flatMap_eq_nil_iff.2 fun above _ => ite_self []

end Order

end AgentAtlas.Disk
