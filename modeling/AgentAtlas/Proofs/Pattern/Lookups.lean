import AgentAtlas.Proofs.Pattern.Variants
import AgentAtlas.Proofs.Sequencing

/-!
# Lookups while a group is compressed

To make the entry of a group, runs and flags are looked up by slot: the first member of the group,
the run of each member in each slot of the first one, and a flag and a run for each slot of the
skeleton. `groupEntry` leaves out what is not there. `compressGroup?` fails instead, and so do the
lookups which it is made of.

A lookup beyond the end would need a skeleton with more slots than some member has runs. Where no
pattern contains the text of a slot, every member has as many runs as its skeleton has slots
(`length_runs_of_mem`), so no lookup fails (`compress?_eq_some`). A slot written out in a pattern
does make one fail.
-/

set_option autoImplicit false

namespace AgentAtlas.Pattern

/-! ## Compressing with lookups that fail -/

/-- Whether all members agree with the first one on a slot. Every run is looked up. -/
def agreement? (first : Member) (members : List Member) (i : Nat) : Option Bool :=
  first.runs[i]?.bind fun run => (members.mapM fun m => m.runs[i]?).map (·.all (· == run))

/-- For each slot of the first member, whether all members agree with it. -/
def agreements? (first : Member) (members : List Member) : Option (List Bool) :=
  (List.range first.runs.length).mapM (agreement? first members)

/-- A piece of a skeleton behind what fills the slot before it. The first piece has no slot before
it. -/
def filledPiece? (agreed : List Bool) (first : Member) : List Char × Nat → Option (List Char)
  | (piece, 0) => some piece
  | (piece, i + 1) =>
    agreed[i]?.bind fun kept => first.runs[i]?.map fun run => (if kept then run else slot) ++ piece

/-- The skeleton with the agreed runs filled in. -/
def foldedSkeleton? (skeleton : List Char) (agreed : List Bool) (first : Member) :
    Option (List Char) :=
  ((Text.split slot skeleton).zipIdx.mapM (filledPiece? agreed first)).map List.flatten

/-- The entry of a group, whose members are in order. -/
def compressGroup? (skeleton : List Char) (members : List Member) : Option Entry :=
  members[0]?.bind fun first =>
    if members.length ≤ 2 then some (.collapsed first.pattern (members.getLastD first).index)
    else
      (agreements? first members).bind fun agreed =>
        (foldedSkeleton? skeleton agreed first).map fun key =>
          .grouped key (members.map fun m => (variantName agreed m, m.index))

/-- The entries of patterns in row order. -/
def compress? (patterns : List Numbered) : Option (List Entry) :=
  ((skeletons patterns).mapM fun s => compressGroup? s (membersOf s (slotted patterns))).map
    (singles patterns ++ ·)

/-! ## No lookup fails -/

theorem agreement?_eq_some {first : Member} {members : List Member} {i : Nat}
    (hi : i < first.runs.length) (h : ∀ m ∈ members, m.runs.length = first.runs.length) :
    agreement? first members i = some (members.all fun m => m.runs[i]? == first.runs[i]?) := by
  have hruns : (members.mapM fun m => m.runs[i]?) =
      some (members.map fun m => m.runs[i]?.getD []) := by
    apply mapM_eq_some_map
    intro m hm
    rw [List.getElem?_eq_getElem (h m hm ▸ hi), Option.getD_some]
  rw [agreement?, hruns, List.getElem?_eq_getElem hi, Option.bind_some, Option.map_some,
    Option.some.injEq, List.all_map, Bool.eq_iff_iff, List.all_eq_true, List.all_eq_true]
  apply forall₂_congr
  intro m hm
  rw [Function.comp_apply, List.getElem?_eq_getElem (h m hm ▸ hi), Option.getD_some, beq_iff_eq,
    beq_iff_eq, Option.some.injEq]

theorem agreements?_eq_some {first : Member} {members : List Member}
    (h : ∀ m ∈ members, m.runs.length = first.runs.length) :
    agreements? first members = some (agreements first members) := by
  apply mapM_eq_some_map
  intro i hi
  exact agreement?_eq_some (List.mem_range.1 hi) h

/-- One filling for each piece but the first. -/
theorem interleave_cons (piece : List Char) {pieces fillings : List (List Char)}
    (h : pieces.length = fillings.length) :
    interleave (piece :: pieces) fillings =
      piece ++ (List.zipWith (· ++ ·) fillings pieces).flatten := by
  induction pieces generalizing piece fillings with
  | nil =>
      rw [List.eq_nil_of_length_eq_zero h.symm]
      simp [interleave, Text.join]
  | cons next pieces ih =>
      obtain ⟨filling, fillings, rfl⟩ := List.exists_cons_of_length_eq_add_one h.symm
      rw [interleave, ih next (Nat.succ.inj h), List.zipWith_cons_cons, List.flatten_cons]
      simp

theorem foldedSkeleton?_eq_some {s : List Char} {agreed : List Bool} {first : Member}
    (hruns : first.runs.length = slotCount s) (hagreed : agreed.length = slotCount s) :
    foldedSkeleton? s agreed first = some (foldedSkeleton s agreed first) := by
  have hlen := length_split_slot s
  obtain ⟨piece, pieces, hpieces⟩ := List.exists_cons_of_length_eq_add_one hlen
  rw [hpieces, List.length_cons, Nat.add_right_cancel_iff] at hlen
  -- the slots are filled as they are by the fillings of all of them
  have hfilled : ((pieces.zipIdx 1).mapM (filledPiece? agreed first)) =
      some (List.zipWith (· ++ ·)
        (List.zipWith (fun run kept => if kept then run else slot) first.runs agreed) pieces) := by
    rw [mapM_eq_some_iff, List.forall₂_iff_get]
    constructor
    · simp [hlen, hruns, hagreed]
    · intro i hi hi'
      simp only [List.length_zipIdx] at hi
      simp [filledPiece?, Nat.add_comm 1 i, show i < agreed.length by omega,
        show i < first.runs.length by omega]
  rw [foldedSkeleton?, foldedSkeleton, fill, hpieces, interleave_cons, List.zipIdx_cons,
    List.mapM_cons, hfilled]
  · rfl
  · rw [List.length_zipWith, hruns, hagreed, hlen, Nat.min_self]

theorem compressGroup?_eq_some {s : List Char} {first : Member} {others : List Member}
    (h : ∀ m ∈ first :: others, m.runs.length = slotCount s) :
    compressGroup? s (first :: others) = some (groupEntry s first others) := by
  have hfirst := h first List.mem_cons_self
  have hagreed := agreements?_eq_some fun m hm => (h m hm).trans hfirst.symm
  have hkey : foldedSkeleton? s (agreements first (first :: others)) first =
      some (foldedSkeleton s (agreements first (first :: others)) first) := by
    apply foldedSkeleton?_eq_some hfirst
    rw [length_agreements, hfirst]
  rw [compressGroup?, groupEntry, List.getElem?_cons_zero, Option.bind_some]
  dsimp only
  split
  · rfl
  · rw [hagreed, Option.bind_some, hkey, Option.map_some]

/-! ## Groups of patterns without slots -/

variable {patterns : List Numbered}

/-- Every member of a group has as many runs as the skeleton has slots. -/
theorem length_runs_of_mem (h : ∀ n ∈ patterns, ¬ slot <:+: n.pattern) {s : List Char} {m : Member}
    (hm : m ∈ membersOf s (slotted patterns)) : m.runs.length = slotCount s := by
  rw [membersOf_slotted] at hm
  obtain ⟨n, hn, rfl⟩ := List.mem_map.1 hm
  obtain ⟨hmem, -, rfl⟩ := mem_group_iff.1 hn
  exact (slotCount_skeleton (h n hmem)).symm

/-- No lookup fails while patterns without slots are compressed. -/
theorem compress?_eq_some (h : ∀ n ∈ patterns, ¬ slot <:+: n.pattern) :
    compress? patterns = some (compress patterns) := by
  -- a skeleton has a group with a first member, so each has its entry
  have hgroup : ∀ s ∈ skeletons patterns, ∃ e,
      compressGroup? s (membersOf s (slotted patterns)) = some e ∧
        entryOf? patterns s = some e := by
    intro s hs
    obtain ⟨n, hn⟩ := mem_skeletons_iff.1 hs
    obtain ⟨first, others, hg⟩ := List.exists_cons_of_ne_nil (List.ne_nil_of_mem hn)
    refine ⟨_, ?_, entryOf?_eq_some_iff.2 ⟨first, others, hg, rfl⟩⟩
    have hmembers : membersOf s (slotted patterns) =
        first.member :: others.map Numbered.member := by
      rw [membersOf_slotted, hg, List.map_cons]
    rw [hmembers]
    apply compressGroup?_eq_some
    intro m hm
    exact length_runs_of_mem h (hmembers ▸ hm)
  have hentries : Nonempty Entry := ⟨.single [] 0⟩
  choose! entry hentry using hgroup
  rw [compress?, mapM_eq_some_map fun s hs => (hentry s hs).1, Option.map_some, compress_eq,
    List.filterMap_congr fun s hs => (hentry s hs).2, List.filterMap_eq_map']

/-- While patterns are compressed, no lookup goes beyond an end. -/
structure InBounds (patterns : List Numbered) : Prop where
  /-- Every member of a group has as many runs as the skeleton has slots. -/
  runs : ∀ s, ∀ m ∈ membersOf s (slotted patterns), m.runs.length = slotCount s
  /-- The entries are the same with lookups that fail beyond an end. -/
  lookups : compress? patterns = some (compress patterns)

theorem inBounds_of_not_slot (h : ∀ n ∈ patterns, ¬ slot <:+: n.pattern) : InBounds patterns where
  runs _ _ hm := length_runs_of_mem h hm
  lookups := compress?_eq_some h

-- a skeleton of two slots, whose members have one run
example : compress? [⟨0, "^1(\\d+)$".toList⟩, ⟨1, "^2(\\d+)$".toList⟩, ⟨2, "^3(\\d+)$".toList⟩] =
    none := by
  decide

end AgentAtlas.Pattern
