import AgentAtlas.Proofs.Pattern.Folding
import AgentAtlas.Proofs.Pattern.Groups

/-!
# Variants of a group

Different patterns of names with one skeleton are *kin*. They have equally many runs, so folding the
slots of agreement gives one key for all of them, and each pattern is the key filled with the runs
of its variant (`Kin.fill_groupKey`). If there are two or more, some slot is without agreement, so
the runs can be read off the name of the variant (`Kin.variantRuns_variantName`) and no two variants
have one name (`Kin.nodup_variantNames`).
-/

set_option autoImplicit false

namespace AgentAtlas.Pattern

/-- The runs which the name of a variant holds. -/
def variantRuns (variant : String) : List (List Char) :=
  Text.split variantDelimiter (variant.toList.drop 1)

/-- The slots on which the patterns of a group agree. -/
def agreedSlots (first : Numbered) (others : List Numbered) : List Bool :=
  agreements first.member ((first :: others).map Numbered.member)

/-- The key of a group: the skeleton with the agreed runs filled in. -/
def groupKey (first : Numbered) (others : List Numbered) : List Char :=
  folded first.pattern (agreedSlots first others)

/-- The variants of a group in order, each with the row of its member. -/
def variantsOf (first : Numbered) (others : List Numbered) : List (String × Nat) :=
  (first :: others).map fun n => (variantName (agreedSlots first others) n.member, n.index)

/-- A group of one or two leads from its first pattern to its last row. -/
theorem groupEntry_of_short {s : List Char} {first : Numbered} {others : List Numbered}
    (h : others.length ≤ 1) :
    groupEntry s first.member (others.map Numbered.member) =
      .collapsed first.pattern (others.getLastD first).index := by
  rw [groupEntry, if_pos (by simpa using h), List.getLastD_cons, List.getLastD_map]
  rfl

/-- A group of three or more is its key with its variants. -/
theorem groupEntry_of_long {s : List Char} {first : Numbered} {others : List Numbered}
    (hs : skeleton first.pattern = s) (h : 1 < others.length) :
    groupEntry s first.member (others.map Numbered.member) =
      .grouped (groupKey first others) (variantsOf first others) := by
  subst hs
  rw [groupEntry, if_neg (by simpa using h), variantsOf, ← List.map_cons]
  dsimp only
  rw [List.map_map]
  rfl

theorem length_agreements (first : Member) (members : List Member) :
    (agreements first members).length = first.runs.length := by
  rw [agreements, List.length_map, List.length_range]

/-- In a slot of agreement every member has the run of the first one. -/
theorem eq_of_agreements {first m : Member} {members : List Member} {i : Nat} (hm : m ∈ members)
    (h : (agreements first members)[i]? = some true) : m.runs[i]? = first.runs[i]? := by
  rw [agreements, List.getElem?_map, Option.map_eq_some_iff] at h
  obtain ⟨j, hj, hall⟩ := h
  obtain ⟨hlt, rfl⟩ := List.getElem?_eq_some_iff.1 hj
  rw [List.getElem_range] at hall
  exact beq_iff_eq.1 (List.all_eq_true.1 hall m hm)

/-- Patterns fold to one text if they have one skeleton and agree on the kept runs. -/
theorem folded_eq_of_agree {p q : Pattern} {flags : List Bool} (hs : skeleton p = skeleton q)
    (hlen : (runs p).length = (runs q).length)
    (h : ∀ i : Nat, flags[i]? = some true → (runs p)[i]? = (runs q)[i]?) :
    folded p flags = folded q flags := by
  rw [folded, folded, hs]
  congr 1
  apply List.ext_getElem?
  intro i
  rw [List.getElem?_zipWith, List.getElem?_zipWith]
  cases hflag : flags[i]? with
  | none => cases (runs p)[i]? <;> cases (runs q)[i]? <;> rfl
  | some kept =>
      cases kept with
      | true => rw [h i hflag]
      | false =>
          -- a slot stands there for either run, if there is one
          by_cases hi : i < (runs p).length
          · rw [List.getElem?_eq_getElem hi, List.getElem?_eq_getElem (hlen ▸ hi)]
            rfl
          · rw [List.getElem?_eq_none (by omega), List.getElem?_eq_none (by omega)]

/-- How many runs are left depends on the flags and the number of runs only. -/
theorem length_varying_eq (flags : List Bool) {rs ss : List (List Char)}
    (h : rs.length = ss.length) : (varying flags rs).length = (varying flags ss).length := by
  induction flags generalizing rs ss with
  | nil => cases rs <;> cases ss <;> rfl
  | cons flag flags ih =>
      cases rs with
      | nil => rw [List.eq_nil_of_length_eq_zero h.symm]
      | cons r rs =>
          cases ss with
          | nil => cases h
          | cons s ss =>
              rw [varying_cons, varying_cons]
              cases flag with
              | true => exact ih (Nat.succ.inj h)
              | false => exact congrArg Nat.succ (ih (Nat.succ.inj h))

theorem mem_of_mem_varying {flags : List Bool} {rs : List (List Char)} {r : List Char}
    (h : r ∈ varying flags rs) : r ∈ rs := by
  rw [varying, List.mem_map] at h
  obtain ⟨⟨run, flag⟩, hm, rfl⟩ := h
  exact (List.of_mem_zip (List.mem_filter.1 hm).1).1

/-- Texts without the delimiter are read off their join. -/
theorem split_join_of_bar {pieces : List (List Char)} (hne : pieces ≠ [])
    (hbar : ∀ piece ∈ pieces, '|' ∉ piece) :
    Text.split variantDelimiter (Text.join variantDelimiter pieces) = pieces := by
  apply Text.split_join (by simp) hne
  intro piece hm hs
  exact hbar piece hm (hs.subset List.mem_cons_self)

/-! ## Kin -/

/-- Different patterns of names with one skeleton. -/
structure Kin (s : List Char) (members : List Numbered) : Prop where
  exists_name : ∀ n ∈ members, ∃ name, n.pattern = ofName name
  skeleton_eq : ∀ n ∈ members, skeleton n.pattern = s
  nodup : (members.map Numbered.pattern).Nodup

/-- A group of different patterns of names is kin. -/
theorem kin_group {patterns : List Numbered} (hn : ∀ n ∈ patterns, ∃ name, n.pattern = ofName name)
    (hd : (patterns.map Numbered.pattern).Nodup) (s : List Char) : Kin s (group patterns s) where
  exists_name := by
    intro n hm
    exact hn n (mem_group_iff.1 hm).1
  skeleton_eq := by
    intro n hm
    exact (mem_group_iff.1 hm).2.2
  nodup := hd.sublist ((group_sublist patterns s).map _)

namespace Kin

variable {s : List Char} {members others : List Numbered} {first m n : Numbered}

/-- Kin have equally many runs. -/
theorem length_runs_eq (h : Kin s members) (hm : m ∈ members) (hn : n ∈ members) :
    (runs m.pattern).length = (runs n.pattern).length := by
  obtain ⟨name, hname⟩ := h.exists_name m hm
  obtain ⟨other, hother⟩ := h.exists_name n hn
  -- both are as many as the slots of the skeleton
  rw [← slotCount_skeleton (hname ▸ not_slot_infix_ofName name),
    ← slotCount_skeleton (hother ▸ not_slot_infix_ofName other), h.skeleton_eq m hm,
    h.skeleton_eq n hn]

variable (h : Kin s (first :: others))
include h

/-- Every slot has a flag. -/
theorem length_agreedSlots (hn : n ∈ first :: others) :
    (agreedSlots first others).length = (runs n.pattern).length := by
  rw [agreedSlots, length_agreements, Numbered.member]
  exact h.length_runs_eq List.mem_cons_self hn

/-- The pattern of every member folds to the key. -/
theorem folded_eq_groupKey (hn : n ∈ first :: others) :
    folded n.pattern (agreedSlots first others) = groupKey first others := by
  apply folded_eq_of_agree
  · exact (h.skeleton_eq n hn).trans (h.skeleton_eq first List.mem_cons_self).symm
  · exact h.length_runs_eq hn List.mem_cons_self
  · intro i hi
    exact eq_of_agreements (List.mem_map_of_mem (f := Numbered.member) hn) hi

/-- The runs of a variant fill the key up to the pattern. -/
theorem fill_groupKey (hn : n ∈ first :: others) :
    fill (groupKey first others) (varying (agreedSlots first others) (runs n.pattern)) =
      n.pattern := by
  obtain ⟨name, hname⟩ := h.exists_name n hn
  have hlen := h.length_agreedSlots hn
  rw [← h.folded_eq_groupKey hn]
  rw [hname] at hlen ⊢
  exact fill_folded hlen

/-- A scan of the key finds the skeleton of the group. -/
theorem skeleton_groupKey : skeleton (groupKey first others) = s := by
  obtain ⟨name, hname⟩ := h.exists_name first List.mem_cons_self
  rw [groupKey, hname, skeleton_folded, ← hname, h.skeleton_eq first List.mem_cons_self]

/-- Two or more kin disagree on some slot. -/
theorem varying_ne_nil (ho : others ≠ []) (hn : n ∈ first :: others) :
    varying (agreedSlots first others) (runs n.pattern) ≠ [] := by
  intro hnil
  -- without runs to fill in, every member would be the key itself
  have hkey : ∀ m ∈ first :: others, m.pattern = fill (groupKey first others) [] := by
    intro m hm
    have hlen := length_varying_eq (agreedSlots first others) (h.length_runs_eq hm hn)
    rw [hnil] at hlen
    rw [← List.eq_nil_of_length_eq_zero hlen, h.fill_groupKey hm]
  -- but the first two members are different
  obtain ⟨second, rest, rfl⟩ := List.exists_cons_of_ne_nil ho
  have hd := h.nodup
  rw [List.map_cons, List.nodup_cons] at hd
  apply hd.1
  rw [hkey first (by simp), ← hkey second (by simp)]
  exact List.mem_map_of_mem List.mem_cons_self

/-- The runs of a variant are not empty and free of the delimiter. -/
theorem of_mem_varying (hn : n ∈ first :: others) {run : List Char}
    (hrun : run ∈ varying (agreedSlots first others) (runs n.pattern)) :
    run ≠ [] ∧ '|' ∉ run := by
  obtain ⟨name, hname⟩ := h.exists_name n hn
  rw [hname] at hrun
  obtain ⟨hne, hds⟩ := digits_of_mem_runs (mem_of_mem_varying hrun)
  refine ⟨hne, ?_⟩
  intro hbar
  exact absurd (hds '|' hbar) (by decide)

/-- The runs of a variant are read off its name. -/
theorem variantRuns_variantName (ho : others ≠ []) (hn : n ∈ first :: others) :
    variantRuns (variantName (agreedSlots first others) n.member) =
      varying (agreedSlots first others) (runs n.pattern) := by
  rw [variantRuns, variantName, String.toList_ofList]
  apply split_join_of_bar (h.varying_ne_nil ho hn)
  intro run hrun
  exact (h.of_mem_varying hn hrun).2

/-- No two variants have one name. -/
theorem nodup_variantNames (ho : others ≠ []) :
    ((variantsOf first others).map Prod.fst).Nodup := by
  -- read off and filled in, the names give the patterns, which are different
  have hread : ((variantsOf first others).map Prod.fst).map
      (fun v => fill (groupKey first others) (variantRuns v)) =
        (first :: others).map Numbered.pattern := by
    rw [variantsOf, List.map_map, List.map_map]
    apply List.map_congr_left
    intro n hn
    rw [Function.comp_apply, Function.comp_apply, h.variantRuns_variantName ho hn,
      h.fill_groupKey hn]
  exact List.Nodup.of_map _ (hread ▸ h.nodup)

end Kin

end AgentAtlas.Pattern
