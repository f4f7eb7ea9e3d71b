import Mathlib.Data.List.Nodup
import Mathlib.Data.List.Sort

/-!
# Stable sorting

Sorting by a comparison which does not tell all elements apart keeps the order of those it does not
tell apart (`pairwise_stableSort`). Inserting one element after the other does the same
(`stableSort_eq_insertionSort`), and can be evaluated where the sort by merging cannot.
-/

set_option autoImplicit false

namespace AgentAtlas

variable {α : Type} {r : α → α → Prop} [DecidableRel r]

/-- An element is inserted before the first one it may stand before. -/
theorem orderedInsert_append {a : α} {before after : List α} (hbefore : ∀ b ∈ before, ¬r a b)
    (hafter : ∀ b ∈ after, r a b) :
    (before ++ after).orderedInsert r a = before ++ a :: after := by
  induction before with
  | nil =>
      cases after with
      | nil => rfl
      | cons b after => exact List.orderedInsert_cons_of_le r after (hafter b List.mem_cons_self)
  | cons b before ih =>
      rw [List.forall_mem_cons] at hbefore
      rw [List.cons_append, List.orderedInsert_of_not_le r _ hbefore.1, ih hbefore.2,
        List.cons_append]

theorem decide_trans (htrans : ∀ a b c, r a b → r b c → r a c) (a b c : α) :
    decide (r a b) = true → decide (r b c) = true → decide (r a c) = true := by
  intro hab hbc
  exact decide_eq_true (htrans a b c (of_decide_eq_true hab) (of_decide_eq_true hbc))

theorem decide_total (htotal : ∀ a b, r a b ∨ r b a) (a b : α) :
    (decide (r a b) || decide (r b a)) = true := by
  rcases htotal a b with hab | hba
  · rw [decide_eq_true hab, Bool.true_or]
  · rw [decide_eq_true hba, Bool.or_true]

/-- A sorted list stands in the order of the comparison, and where this says nothing as before. -/
theorem pairwise_stableSort (htrans : ∀ a b c, r a b → r b c → r a c)
    (htotal : ∀ a b, r a b ∨ r b a) {R : α → α → Prop} {xs : List α} (h : xs.Pairwise R) :
    (xs.mergeSort (r · ·)).Pairwise fun a b => r a b ∧ (r b a → R a b) := by
  -- sorted together with their places, elements which are alike stand by their places
  have hsorted := List.pairwise_mergeSort (List.zipIdxLE_trans (decide_trans htrans))
    (List.zipIdxLE_total (decide_total htotal)) xs.zipIdx
  have hperm := List.mergeSort_perm xs.zipIdx (List.zipIdxLE (r · ·))
  have hplaces : ((xs.zipIdx.mergeSort (List.zipIdxLE (r · ·))).map Prod.snd).Nodup := by
    rw [(hperm.map Prod.snd).nodup_iff, List.zipIdx_map_snd]
    exact List.nodup_range'
  rw [← List.mergeSort_zipIdx, List.pairwise_map]
  refine (hsorted.and (List.pairwise_map.1 hplaces)).imp_of_mem ?_
  rintro ⟨a, i⟩ ⟨b, j⟩ ha hb ⟨hle, hne⟩
  have ha : xs[i]? = some a := List.mem_zipIdx_iff_getElem?.1 (hperm.mem_iff.1 ha)
  have hb : xs[j]? = some b := List.mem_zipIdx_iff_getElem?.1 (hperm.mem_iff.1 hb)
  rw [List.zipIdxLE] at hle
  split at hle
  · rename_i hab
    refine ⟨of_decide_eq_true hab, fun hba => ?_⟩
    rw [if_pos (decide_eq_true hba), decide_eq_true_eq] at hle
    obtain ⟨hi, rfl⟩ := List.getElem?_eq_some_iff.1 ha
    obtain ⟨hj, rfl⟩ := List.getElem?_eq_some_iff.1 hb
    exact List.pairwise_iff_getElem.1 h i j hi hj (Nat.lt_of_le_of_ne hle hne)
  · cases hle

/-- Sorting by merging is sorting by insertion. -/
theorem stableSort_eq_insertionSort (htrans : ∀ a b c, r a b → r b c → r a c)
    (htotal : ∀ a b, r a b ∨ r b a) (xs : List α) :
    xs.mergeSort (r · ·) = xs.insertionSort r := by
  induction xs with
  | nil => exact List.mergeSort_nil
  | cons a xs ih =>
      obtain ⟨before, after, hcons, hrest, hbefore⟩ :=
        List.mergeSort_cons (decide_trans htrans) (decide_total htotal) a xs
      have hsorted :=
        List.pairwise_mergeSort (decide_trans htrans) (decide_total htotal) (a :: xs)
      rw [hcons, List.pairwise_append, List.pairwise_cons] at hsorted
      rw [List.insertionSort_cons, ← ih, hcons, hrest]
      refine (orderedInsert_append (fun b hb => ?_) fun b hb => ?_).symm
      · simpa using hbefore b hb
      · exact of_decide_eq_true (hsorted.2.1.1 b hb)

end AgentAtlas
