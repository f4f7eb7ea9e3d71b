import AgentAtlas.Pattern.Compression
import AgentAtlas.Proofs.Repetition
import Mathlib.Data.List.Nodup
import Mathlib.Data.Finset.Card

/-!
# The groups of a list of patterns

The group of a skeleton holds the patterns with runs which have that skeleton, in their order. The
compressed entries are one for each pattern without runs and one for each group which has a member
(`mem_compress_iff`), as many groups as there are skeletons (`length_skeletons`). An entry leads to
rows of its own patterns and to no others (`exists_index_of_mem_positions`).
-/

set_option autoImplicit false

namespace AgentAtlas.Pattern

/-- A pattern without runs has no scan. -/
theorem scan?_eq_none_iff {p : Pattern} : scan? p = none ↔ runs p = [] := by
  rw [scan?]
  split <;> simp_all

/-- The scan of a pattern with runs is its skeleton and its runs. -/
theorem scan?_eq_some_iff {p : Pattern} {s : Scan} :
    scan? p = some s ↔ runs p ≠ [] ∧ s = ⟨skeleton p, runs p⟩ := by
  rw [scan?]
  split
  · rename_i h
    simp [h]
  · rename_i hr
    rw [Option.some.injEq]
    constructor
    · rintro rfl
      exact ⟨hr, rfl⟩
    · exact fun h => h.2.symm

/-- The patterns with runs which have a skeleton, in order. -/
def group (patterns : List Numbered) (skeleton : List Char) : List Numbered :=
  patterns.filter fun n => (scan? n.pattern).map Scan.skeleton == some skeleton

/-- A pattern as a member of its group. -/
def Numbered.member (n : Numbered) : Member := ⟨n.index, n.pattern, runs n.pattern⟩

variable {patterns : List Numbered}

theorem mem_group_iff {s : List Char} {n : Numbered} :
    n ∈ group patterns s ↔ n ∈ patterns ∧ runs n.pattern ≠ [] ∧ skeleton n.pattern = s := by
  rw [group, List.mem_filter, beq_iff_eq, Option.map_eq_some_iff]
  simp only [scan?_eq_some_iff]
  constructor
  · rintro ⟨hm, -, ⟨hr, rfl⟩, rfl⟩
    exact ⟨hm, hr, rfl⟩
  · rintro ⟨hm, hr, rfl⟩
    exact ⟨hm, _, ⟨hr, rfl⟩, rfl⟩

theorem group_sublist (patterns : List Numbered) (s : List Char) :
    (group patterns s).Sublist patterns :=
  List.filter_sublist

/-- The members which are collected under a skeleton are those of its group. -/
theorem membersOf_slotted (patterns : List Numbered) (s : List Char) :
    membersOf s (slotted patterns) = (group patterns s).map Numbered.member := by
  induction patterns with
  | nil => rfl
  | cons n rest ih =>
      rw [slotted, membersOf, group] at ih ⊢
      cases hs : scan? n.pattern with
      | none =>
          -- a pattern without runs is collected nowhere
          simpa [hs] using ih
      | some scan =>
          obtain ⟨-, rfl⟩ := scan?_eq_some_iff.1 hs
          by_cases h : skeleton n.pattern = s
          · -- the pattern is a member, and the others follow it
            simp only [List.filterMap_cons, hs, Option.map_some, List.filter_cons, h, beq_self_eq_true,
              if_true, List.map_cons, ih]
            rfl
          · simpa [hs, h] using ih

/-- A skeleton occurs among the patterns exactly if its group has a member. -/
theorem mem_skeletons_iff {s : List Char} :
    s ∈ skeletons patterns ↔ ∃ n, n ∈ group patterns s := by
  rw [skeletons, List.mem_eraseDups, List.mem_map, slotted]
  simp only [List.mem_filterMap, mem_group_iff, Option.map_eq_some_iff, scan?_eq_some_iff]
  constructor
  · rintro ⟨-, ⟨n, hm, -, ⟨hr, rfl⟩, rfl⟩, rfl⟩
    exact ⟨n, hm, hr, rfl⟩
  · rintro ⟨n, hm, hr, rfl⟩
    exact ⟨_, ⟨n, hm, _, ⟨hr, rfl⟩, rfl⟩, rfl⟩

theorem nodup_skeletons (patterns : List Numbered) : (skeletons patterns).Nodup :=
  nodup_eraseDups _

/-- There are as many groups as skeletons of patterns with runs. -/
theorem length_skeletons (patterns : List Numbered) :
    (skeletons patterns).length =
      (patterns.filterMap fun n => (scan? n.pattern).map Scan.skeleton).toFinset.card := by
  rw [← List.toFinset_card_of_nodup (nodup_skeletons patterns)]
  congr 1
  ext s
  simp only [List.mem_toFinset, mem_skeletons_iff, mem_group_iff, List.mem_filterMap,
    Option.map_eq_some_iff, scan?_eq_some_iff]
  constructor
  · rintro ⟨n, hm, hr, rfl⟩
    exact ⟨n, hm, _, ⟨hr, rfl⟩, rfl⟩
  · rintro ⟨n, hm, -, ⟨hr, rfl⟩, rfl⟩
    exact ⟨n, hm, hr, rfl⟩

/-- The entry of a group with a member. -/
def entryOf? (patterns : List Numbered) (s : List Char) : Option Entry :=
  match group patterns s with
  | [] => none
  | n :: others => some (groupEntry s n.member (others.map Numbered.member))

theorem entryOf?_eq_some_iff {s : List Char} {e : Entry} :
    entryOf? patterns s = some e ↔ ∃ n others, group patterns s = n :: others ∧
      e = groupEntry s n.member (others.map Numbered.member) := by
  rw [entryOf?]
  cases group patterns s with
  | nil => simp
  | cons n others => simp [eq_comm]

/-- The entries of single patterns, in order. -/
def singles (patterns : List Numbered) : List Entry :=
  (patterns.filter fun n => (scan? n.pattern).isNone).map fun n => .single n.pattern n.index

/-- The compressed entries: patterns without runs, then one entry for each skeleton. -/
theorem compress_eq (patterns : List Numbered) :
    compress patterns = singles patterns ++ (skeletons patterns).filterMap (entryOf? patterns) := by
  have hsingles : (patterns.filterMap fun n => if (scan? n.pattern).isNone then
      some (Entry.single n.pattern n.index) else none) = singles patterns := by
    rw [singles, ← List.filterMap_eq_map, List.filterMap_filter]
    rfl
  rw [compress, hsingles]
  congr 1
  apply List.filterMap_congr
  intro s _
  rw [membersOf_slotted, entryOf?]
  cases group patterns s <;> rfl

/-- An entry belongs to one pattern without runs or to one group. -/
theorem mem_compress_iff {e : Entry} :
    e ∈ compress patterns ↔
      (∃ n ∈ patterns, scan? n.pattern = none ∧ e = .single n.pattern n.index) ∨
        ∃ s n others, group patterns s = n :: others ∧
          e = groupEntry s n.member (others.map Numbered.member) := by
  rw [compress_eq, List.mem_append, List.mem_filterMap, singles]
  simp only [List.mem_map, List.mem_filter, Option.isNone_iff_eq_none, entryOf?_eq_some_iff]
  refine or_congr ?_ ?_
  · constructor
    · rintro ⟨n, ⟨hm, hs⟩, rfl⟩
      exact ⟨n, hm, hs, rfl⟩
    · rintro ⟨n, hm, hs, rfl⟩
      exact ⟨n, ⟨hm, hs⟩, rfl⟩
  · constructor
    · rintro ⟨s, -, h⟩
      exact ⟨s, h⟩
    · rintro ⟨s, n, others, hg, he⟩
      exact ⟨s, mem_skeletons_iff.2 ⟨n, hg ▸ List.mem_cons_self⟩, n, others, hg, he⟩

/-- No entry is left exactly if there was no pattern. -/
theorem compress_eq_nil_iff : compress patterns = [] ↔ patterns = [] := by
  constructor
  · intro h
    apply List.eq_nil_iff_forall_not_mem.2
    intro n hn
    have hentry : ∃ e, e ∈ compress patterns := by
      cases hs : scan? n.pattern with
      | none => exact ⟨_, mem_compress_iff.2 (.inl ⟨n, hn, hs, rfl⟩)⟩
      | some scan =>
          -- the group of the pattern has a first member
          have hmem : n ∈ group patterns (skeleton n.pattern) :=
            mem_group_iff.2 ⟨hn, (scan?_eq_some_iff.1 hs).1, rfl⟩
          obtain ⟨first, others, hg⟩ := List.exists_cons_of_ne_nil (List.ne_nil_of_mem hmem)
          exact ⟨_, mem_compress_iff.2 (.inr ⟨_, first, others, hg, rfl⟩)⟩
    obtain ⟨e, he⟩ := hentry
    rw [h] at he
    cases he
  · rintro rfl
    rfl

/-! ## Positions -/

/-- The rows which a target leads to. -/
def Target.positions : Target → List Nat
  | .row index => [index]
  | .variants table => table.entries.map Prod.snd

/-- The entries of a map of a list are among the list's. -/
theorem mem_of_mem_entries_ofList {κ α : Type} [DecidableEq κ] {entries : List (κ × α)}
    {e : κ × α} (h : e ∈ (Keyed.ofList entries).entries) : e ∈ entries := by
  obtain ⟨key, value⟩ := e
  rw [← Keyed.get?_eq_some_iff, Keyed.get?_ofList, List.lookup_eq_some_iff] at h
  obtain ⟨before, after, hsplit, -⟩ := h
  rw [← List.mem_reverse, hsplit]
  exact List.mem_append_right _ List.mem_cons_self

/-- The entry of a group leads to rows of its members. -/
theorem index_of_mem_positions_groupEntry {s : List Char} {first : Member}
    {others : List Member} {i : Nat} (h : i ∈ (groupEntry s first others).target.positions) :
    ∃ m ∈ first :: others, m.index = i := by
  rw [groupEntry] at h
  dsimp only at h
  split at h
  · -- one row, that of the last member
    rw [Entry.target, Target.positions, List.mem_singleton] at h
    rw [List.getLastD_cons] at h
    exact ⟨_, List.getLastD_mem_cons, h.symm⟩
  · -- the row of a variant
    rw [Entry.target, Target.positions, List.mem_map] at h
    obtain ⟨e, he, rfl⟩ := h
    obtain ⟨m, hm, rfl⟩ := List.mem_map.1 (mem_of_mem_entries_ofList he)
    exact ⟨m, hm, rfl⟩

/-- An entry leads to rows of the patterns which were compressed. -/
theorem exists_index_of_mem_positions {e : Entry} (he : e ∈ compress patterns) {i : Nat}
    (hi : i ∈ e.target.positions) : ∃ n ∈ patterns, n.index = i := by
  rcases mem_compress_iff.1 he with ⟨n, hn, -, rfl⟩ | ⟨s, n, others, hg, rfl⟩
  · rw [Entry.target, Target.positions, List.mem_singleton] at hi
    exact ⟨n, hn, hi.symm⟩
  · obtain ⟨m, hm, rfl⟩ := index_of_mem_positions_groupEntry hi
    rw [← List.map_cons, ← hg] at hm
    obtain ⟨k, hk, rfl⟩ := List.mem_map.1 hm
    exact ⟨k, (mem_group_iff.1 hk).1, rfl⟩

end AgentAtlas.Pattern
