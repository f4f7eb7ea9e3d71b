import Mathlib.Data.List.Nodup
import Mathlib.Data.List.Perm.Subperm

/-!
# Lists without repetitions

Erasing repetitions leaves a list without any, and as long as it was exactly if it had none
(`length_eraseDups_eq_iff`). In a list without repetitions every element has its own part
(`length_le_of_mem_right`) and its own place (`flatMap_ite_eq`).
-/

set_option autoImplicit false

namespace AgentAtlas

variable {α : Type} [BEq α] [LawfulBEq α] {l : List α}

/-- A list from which repeats are erased has none. -/
theorem nodup_eraseDups (l : List α) : l.eraseDups.Nodup := by
  induction h : l.length using Nat.strongRecOn generalizing l with
  | ind n ih =>
      cases l with
      | nil => exact List.nodup_nil
      | cons a l =>
          rw [List.eraseDups_cons, List.nodup_cons]
          constructor
          · simp
          · -- the rest of the list loses `a`, so it is shorter
            apply ih _ ?_ _ rfl
            have hle := List.length_filter_le (fun b => !b == a) l
            rw [List.length_cons] at h
            omega

theorem eraseDups_subperm (l : List α) : l.eraseDups.Subperm l :=
  (nodup_eraseDups l).subperm fun _ ha => List.mem_eraseDups.1 ha

theorem length_eraseDups_le (l : List α) : l.eraseDups.length ≤ l.length :=
  (eraseDups_subperm l).length_le

/-- A list keeps its length exactly if it has no repetitions. -/
theorem length_eraseDups_eq_iff : l.eraseDups.length = l.length ↔ l.Nodup := by
  constructor
  · intro h
    have hperm := (eraseDups_subperm l).perm_of_length_le (Nat.le_of_eq h.symm)
    exact hperm.nodup_iff.1 (nodup_eraseDups l)
  · intro h
    have hle : l.length ≤ l.eraseDups.length :=
      (h.subperm fun _ ha => List.mem_eraseDups.2 ha).length_le
    exact Nat.le_antisymm (length_eraseDups_le l) hle

omit [BEq α] [LawfulBEq α] in
/-- Where no part is longer than another, the parts are as long together exactly if each is. -/
theorem length_flatMap_eq_iff {β γ : Type} {short long : β → List γ}
    (hle : ∀ x, (short x).length ≤ (long x).length) (xs : List β) :
    (xs.flatMap short).length = (xs.flatMap long).length ↔
      ∀ x ∈ xs, (short x).length = (long x).length := by
  have hall : ∀ xs : List β, (xs.flatMap short).length ≤ (xs.flatMap long).length := by
    intro xs
    induction xs with
    | nil => exact Nat.le_refl 0
    | cons x xs ih =>
        have hx := hle x
        simp only [List.flatMap_cons, List.length_append]
        omega
  induction xs with
  | nil => simp
  | cons x xs ih =>
      have hx := hle x
      have hxs := hall xs
      rw [List.forall_mem_cons, List.flatMap_cons, List.flatMap_cons, List.length_append,
        List.length_append]
      constructor
      · intro h
        exact ⟨by omega, ih.1 (by omega)⟩
      · rintro ⟨hhead, htail⟩
        rw [hhead, ih.2 htail]

omit [BEq α] [LawfulBEq α] in
/-- In two lists without repetitions, what is in the second stands behind the first. -/
theorem length_le_of_mem_right {first second : List α} (h : (first ++ second).Nodup) {a : α}
    (ha : a ∈ second) {i : Nat} (hi : (first ++ second)[i]? = some a) : first.length ≤ i := by
  refine Nat.le_of_not_lt fun hlt => ?_
  rw [List.getElem?_append_left hlt] at hi
  exact (List.nodup_append.1 h).2.2 a (List.mem_of_getElem? hi) a ha rfl

omit [BEq α] [LawfulBEq α] in
/-- In a list without repetitions only one place is that of an element. -/
theorem flatMap_ite_eq [DecidableEq α] {γ : Type} {a : α} (h : l.Nodup) (ha : a ∈ l)
    (part : List γ) : (l.flatMap fun b => if b = a then part else []) = part := by
  obtain ⟨before, after, rfl⟩ := List.append_of_mem ha
  have hother : ∀ others : List α, a ∉ others →
      (others.flatMap fun b => if b = a then part else []) = [] := by
    intro others hothers
    refine List.flatMap_eq_nil_iff.2 fun b hb => if_neg ?_
    rintro rfl
    exact hothers hb
  rw [List.nodup_middle, List.nodup_cons, List.mem_append, not_or] at h
  rw [List.flatMap_append, List.flatMap_cons, hother before h.1.1, hother after h.1.2, if_pos rfl,
    List.nil_append, List.append_nil]

end AgentAtlas
