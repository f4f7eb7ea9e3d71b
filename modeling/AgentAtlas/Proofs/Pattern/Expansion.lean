import AgentAtlas.Proofs.Pattern.Variants
import AgentAtlas.Table

/-!
# What a table of patterns stands for

A key with a row stands for itself, and a key with variants for its slots filled with the runs of
each of them. A table of compressed patterns of different names stands for the patterns which went
into it, each with its row, but for the groups of two, of which only the first pattern is left and
leads to the second row (`Leads`, `faithful_ofList_compress`).

No two entries have one key: a scan of the key finds the pattern itself for a pattern without runs,
which has no slot, and the skeleton for a group, which has one (`roots_compress`).
-/

set_option autoImplicit false

namespace AgentAtlas.Pattern

/-- What a key with its target stands for: patterns, each with a row. -/
def Target.expand (key : Pattern) : Target → List (Pattern × Nat)
  | .row index => [(key, index)]
  | .variants table => table.entries.map fun v => (fill key (variantRuns v.1), v.2)

/-- What a table stands for. -/
def expansion (table : Table String Target) : List (Pattern × Nat) :=
  table.entries.flatMap fun e => e.2.expand e.1.toList

/-- What an entry stands for. -/
def Entry.expand (e : Entry) : List (Pattern × Nat) := e.target.expand e.key.toList

/-- A pattern which is left in a table leads to a row. -/
inductive Leads (patterns : List Numbered) : Pattern → Nat → Prop
  /-- A pattern without runs leads to its own row. -/
  | plain {n : Numbered} : n ∈ patterns → scan? n.pattern = none →
      Leads patterns n.pattern n.index
  /-- The only pattern of a group leads to its own row. -/
  | alone {s : List Char} {n : Numbered} : group patterns s = [n] →
      Leads patterns n.pattern n.index
  /-- The first pattern of two leads to the row of the second. -/
  | pair {s : List Char} {first second : Numbered} : group patterns s = [first, second] →
      Leads patterns first.pattern second.index
  /-- Every pattern of three or more leads to its own row. -/
  | many {s : List Char} {n : Numbered} : 3 ≤ (group patterns s).length →
      n ∈ group patterns s → Leads patterns n.pattern n.index

/-- The members of a group with the rows to which they lead. -/
def groupPairs : List Numbered → List (Pattern × Nat)
  | [first, second] => [(first.pattern, second.index)]
  | members => members.map fun n => (n.pattern, n.index)

/-- The patterns without runs. -/
def plains (patterns : List Numbered) : List Numbered :=
  patterns.filter fun n => (scan? n.pattern).isNone

/-- The patterns which are left with the rows to which they lead. -/
def pairs (patterns : List Numbered) : List (Pattern × Nat) :=
  (plains patterns).map (fun n => (n.pattern, n.index)) ++
    (skeletons patterns).flatMap fun s => groupPairs (group patterns s)

/-- A table which loses, invents and overwrites nothing, but for the groups of two. -/
structure Faithful (patterns : List Numbered) (table : Table String Target) : Prop where
  /-- The table stands for the patterns which are left, with their rows. -/
  mem_expansion_iff : ∀ p i, (p, i) ∈ expansion table ↔ Leads patterns p i
  /-- It stands for no pattern twice. -/
  nodup_expansion : ((expansion table).map Prod.fst).Nodup
  /-- It has a key for every pattern without runs and for every skeleton. -/
  size_eq : table.size = (patterns.filter fun n => (scan? n.pattern).isNone).length +
    (patterns.filterMap fun n => (scan? n.pattern).map Scan.skeleton).toFinset.card

variable {patterns : List Numbered}

theorem mem_plains_iff {n : Numbered} :
    n ∈ plains patterns ↔ n ∈ patterns ∧ scan? n.pattern = none := by
  rw [plains, List.mem_filter, Option.isNone_iff_eq_none]

/-! ## Entries -/

theorem expand_single (p : Pattern) (i : Nat) : (Entry.single p i).expand = [(p, i)] := by
  rw [Entry.expand, Entry.key, Entry.target, Target.expand, String.toList_ofList]

theorem expand_collapsed (p : Pattern) (i : Nat) : (Entry.collapsed p i).expand = [(p, i)] := by
  rw [Entry.expand, Entry.key, Entry.target, Target.expand, String.toList_ofList]

/-- The entry of three or more stands for all of them. -/
theorem Kin.expand_grouped {s : List Char} {first : Numbered} {others : List Numbered}
    (h : Kin s (first :: others)) (ho : others ≠ []) :
    (Entry.grouped (groupKey first others) (variantsOf first others)).expand =
      (first :: others).map fun n => (n.pattern, n.index) := by
  rw [Entry.expand, Entry.key, Entry.target, Target.expand, String.toList_ofList,
    Keyed.entries_ofList (h.nodup_variantNames ho), variantsOf, List.map_map]
  apply List.map_congr_left
  intro n hn
  rw [Function.comp_apply, h.variantRuns_variantName ho hn, h.fill_groupKey hn]

theorem Kin.expand_groupEntry {s : List Char} {first : Numbered} {others : List Numbered}
    (h : Kin s (first :: others)) :
    (groupEntry s first.member (others.map Numbered.member)).expand =
      groupPairs (first :: others) := by
  rcases others with - | ⟨second, - | ⟨third, rest⟩⟩
  · rw [groupEntry_of_short (by simp), expand_collapsed]
    rfl
  · -- the second member is the last one
    rw [groupEntry_of_short (by simp), expand_collapsed]
    rfl
  · rw [groupEntry_of_long (h.skeleton_eq first List.mem_cons_self) (by simp),
      h.expand_grouped (by simp)]
    rfl

/-- A group is left with some of its patterns, each once. -/
theorem groupPairs_sublist (members : List Numbered) :
    ((groupPairs members).map Prod.fst).Sublist (members.map Numbered.pattern) := by
  fun_cases groupPairs members with
  | case1 first second => exact (List.nil_sublist _).cons_cons _
  | case2 members _ =>
      rw [List.map_map]
      exact List.Sublist.refl _

theorem mem_of_mem_groupPairs {s : List Char} {p : Pattern}
    (h : p ∈ (groupPairs (group patterns s)).map Prod.fst) :
    ∃ n ∈ patterns, runs n.pattern ≠ [] ∧ skeleton n.pattern = s ∧ n.pattern = p := by
  obtain ⟨n, hm, rfl⟩ := List.mem_map.1 ((groupPairs_sublist _).subset h)
  obtain ⟨hp, hr, hs⟩ := mem_group_iff.1 hm
  exact ⟨n, hp, hr, hs, rfl⟩

/-- What a group is left with, by the number of its members. -/
theorem mem_groupPairs_iff {members : List Numbered} {p : Pattern} {i : Nat} :
    (p, i) ∈ groupPairs members ↔
      (∃ n, members = [n] ∧ p = n.pattern ∧ i = n.index) ∨
        (∃ first second, members = [first, second] ∧ p = first.pattern ∧ i = second.index) ∨
          (3 ≤ members.length ∧ ∃ n ∈ members, p = n.pattern ∧ i = n.index) := by
  rcases members with - | ⟨first, - | ⟨second, - | ⟨third, rest⟩⟩⟩
  · simp [groupPairs]
  · simp [groupPairs]
  · simp [groupPairs]
  · simp only [groupPairs, List.mem_map, Prod.mk.injEq, List.cons.injEq, reduceCtorEq, and_false,
      false_and, exists_false, false_or, List.length_cons, Nat.le_add_left, true_and]
    simp only [eq_comm]

/-- Patterns lead to rows exactly as far as they are left. -/
theorem mem_pairs_iff {p : Pattern} {i : Nat} : (p, i) ∈ pairs patterns ↔ Leads patterns p i := by
  rw [pairs, List.mem_append, List.mem_map, List.mem_flatMap]
  constructor
  · rintro (⟨n, hm, he⟩ | ⟨s, -, hm⟩)
    · obtain ⟨rfl, rfl⟩ := Prod.mk.inj he
      obtain ⟨hp, hs⟩ := mem_plains_iff.1 hm
      exact .plain hp hs
    · rcases mem_groupPairs_iff.1 hm with ⟨n, hg, rfl, rfl⟩ | ⟨m, n, hg, rfl, rfl⟩ |
        ⟨hlen, n, hn, rfl, rfl⟩
      · exact .alone hg
      · exact .pair hg
      · exact .many hlen hn
  · -- a group which leads anywhere has a member, so its skeleton occurs
    have hgroup : ∀ {s : List Char}, (p, i) ∈ groupPairs (group patterns s) →
        ∃ s ∈ skeletons patterns, (p, i) ∈ groupPairs (group patterns s) := by
      intro s hm
      obtain ⟨n, hp, -⟩ := List.mem_map.1
        ((groupPairs_sublist _).subset (List.mem_map_of_mem (f := Prod.fst) hm))
      exact ⟨s, mem_skeletons_iff.2 ⟨n, hp⟩, hm⟩
    intro h
    cases h with
    | @plain n hm hs => exact .inl ⟨n, mem_plains_iff.2 ⟨hm, hs⟩, rfl⟩
    | alone hg => exact .inr (hgroup (mem_groupPairs_iff.2 (.inl ⟨_, hg, rfl, rfl⟩)))
    | pair hg =>
        exact .inr (hgroup (mem_groupPairs_iff.2 (.inr (.inl ⟨_, _, hg, rfl, rfl⟩))))
    | many hlen hm =>
        exact .inr (hgroup (mem_groupPairs_iff.2 (.inr (.inr ⟨hlen, _, hm, rfl, rfl⟩))))

/-- Different patterns are left once each. -/
theorem nodup_pairs (hd : (patterns.map Numbered.pattern).Nodup) :
    ((pairs patterns).map Prod.fst).Nodup := by
  rw [pairs, List.map_append, List.map_flatMap, List.map_map, List.nodup_append,
    List.nodup_flatMap]
  refine ⟨hd.sublist (List.filter_sublist.map _), ⟨?_, ?_⟩, ?_⟩
  · intro s _
    exact hd.sublist ((groupPairs_sublist _).trans ((group_sublist patterns s).map _))
  · -- a pattern has one skeleton, so it is in one group
    refine (nodup_skeletons patterns).imp fun {s t} hne p hs ht => hne ?_
    obtain ⟨m, -, -, hms, rfl⟩ := mem_of_mem_groupPairs hs
    obtain ⟨n, -, -, hnt, he⟩ := mem_of_mem_groupPairs ht
    rw [← hms, ← hnt, he]
  · -- a pattern of a group has runs
    rintro p hp q hq rfl
    obtain ⟨m, hm, rfl⟩ := List.mem_map.1 hp
    obtain ⟨s, -, hs⟩ := List.mem_flatMap.1 hq
    obtain ⟨n, -, hr, -, he⟩ := mem_of_mem_groupPairs hs
    rw [he] at hr
    exact hr (scan?_eq_none_iff.1 (mem_plains_iff.1 hm).2)

/-! ## Keys -/

/-- What a scan finds in the key of an entry. -/
def Entry.root (e : Entry) : List Char := skeleton e.key.toList

theorem root_single {p : Pattern} (h : scan? p = none) (i : Nat) :
    (Entry.single p i).root = p := by
  rw [Entry.root, Entry.key, String.toList_ofList, skeleton, ← slottedOf,
    slottedOf_eq_charsOf (scan?_eq_none_iff.1 h), charsOf_parts]

/-- A scan of a group's key finds its skeleton. -/
theorem Kin.root_groupEntry {s : List Char} {first : Numbered} {others : List Numbered}
    (h : Kin s (first :: others)) :
    (groupEntry s first.member (others.map Numbered.member)).root = s := by
  have hs := h.skeleton_eq first List.mem_cons_self
  by_cases ho : others.length ≤ 1
  · rw [groupEntry_of_short ho, Entry.root, Entry.key, String.toList_ofList, hs]
  · rw [groupEntry_of_long hs (Nat.lt_of_not_le ho), Entry.root, Entry.key,
      String.toList_ofList, h.skeleton_groupKey]

variable (hn : ∀ n ∈ patterns, ∃ name, n.pattern = ofName name)
  (hd : (patterns.map Numbered.pattern).Nodup)
include hn hd

/-- Scans of the keys find the patterns without runs and the skeletons of the groups. -/
theorem roots_compress :
    (compress patterns).map Entry.root =
      (plains patterns).map Numbered.pattern ++ skeletons patterns := by
  have hplain : (singles patterns).map Entry.root = (plains patterns).map Numbered.pattern := by
    rw [singles, ← plains, List.map_map]
    exact List.map_congr_left fun n hm => root_single (mem_plains_iff.1 hm).2 n.index
  -- every skeleton has a member, so every group has an entry
  have hgroup : ∀ s ∈ skeletons patterns, (entryOf? patterns s).map Entry.root = some s := by
    intro s hs
    obtain ⟨n, hm⟩ := mem_skeletons_iff.1 hs
    have hkin := kin_group hn hd s
    rw [entryOf?]
    cases hg : group patterns s with
    | nil =>
        rw [hg] at hm
        cases hm
    | cons first others =>
        rw [hg] at hkin
        rw [Option.map_some, hkin.root_groupEntry]
  rw [compress_eq, List.map_append, hplain, List.map_filterMap, List.filterMap_congr hgroup,
    List.filterMap_some]

/-- No two entries have one key. -/
theorem nodup_keys_compress : ((compress patterns).map Entry.key).Nodup := by
  have hroots : ((compress patterns).map Entry.root).Nodup := by
    rw [roots_compress hn hd, List.nodup_append]
    refine ⟨hd.sublist (List.filter_sublist.map _), nodup_skeletons patterns, ?_⟩
    -- a pattern of a name has no slot, and a skeleton has one
    rintro p hp s hs rfl
    obtain ⟨m, hm, rfl⟩ := List.mem_map.1 hp
    obtain ⟨n, hg⟩ := mem_skeletons_iff.1 hs
    obtain ⟨-, hr, hsk⟩ := mem_group_iff.1 hg
    obtain ⟨name, hname⟩ := hn m (mem_plains_iff.1 hm).1
    apply not_slot_infix_ofName name
    rw [← hname, ← hsk]
    exact slot_infix_slottedOf hr
  refine List.Nodup.of_map (fun key => skeleton key.toList) ?_
  rw [List.map_map]
  exact hroots

/-- The compressed entries stand for what is left of the patterns. -/
theorem expand_compress : (compress patterns).flatMap Entry.expand = pairs patterns := by
  have hplain : (singles patterns).flatMap Entry.expand =
      (plains patterns).map fun n => (n.pattern, n.index) := by
    rw [singles, List.flatMap_map, ← plains]
    simp only [expand_single, ← List.map_eq_flatMap]
  rw [compress_eq, List.flatMap_append, hplain, pairs, List.filterMap_eq_flatMap_toList,
    List.flatMap_assoc]
  congr 1
  apply List.flatMap_congr
  intro s _
  have hkin := kin_group hn hd s
  rw [entryOf?]
  cases hg : group patterns s with
  | nil => rfl
  | cons first others =>
      rw [hg] at hkin
      rw [Option.toList_some, List.flatMap_singleton, hkin.expand_groupEntry]

/-! ## Tables -/

/-- The table of compressed patterns of different names is faithful to them. -/
theorem faithful_ofList_compress :
    Faithful patterns (Table.ofList ((compress patterns).map fun e => (e.key, e.target))) := by
  have hkeys : (((compress patterns).map fun e => (e.key, e.target)).map Prod.fst).Nodup := by
    rw [List.map_map]
    exact nodup_keys_compress hn hd
  have hperm := Table.ofList_perm hkeys
  have hexpand : (expansion (Table.ofList
      ((compress patterns).map fun e => (e.key, e.target)))).Perm (pairs patterns) := by
    rw [← expand_compress hn hd, expansion]
    -- the table reorders the entries and keeps each
    refine (hperm.flatMap_right _).trans ?_
    rw [List.flatMap_map]
    exact List.Perm.refl _
  constructor
  · intro p i
    rw [hexpand.mem_iff, mem_pairs_iff]
  · exact (hexpand.map Prod.fst).nodup_iff.2 (nodup_pairs hd)
  · have hlen := congrArg List.length (roots_compress hn hd)
    rw [List.length_map, List.length_append, List.length_map, length_skeletons] at hlen
    rw [Table.size, hperm.length_eq, List.length_map, hlen, plains]

end AgentAtlas.Pattern
