import AgentAtlas.Proofs.Text.Pieces

/-!
# Replacing every occurrence

Replacing goes through a text from left to right: where the separator starts it is replaced as a
whole, and any other character is kept (`Replaced`). Cutting at the separator and joining with the
substitute comes to the same (`replace_eq_iff`).
-/

set_option autoImplicit false

namespace AgentAtlas.Text

/-- The second text is the first one with the separator replaced wherever it starts, going from left
to right. -/
inductive Replaced (sep substitute : List Char) : List Char → List Char → Prop
  | nil : Replaced sep substitute [] []
  | here {s t : List Char} : Replaced sep substitute s t →
      Replaced sep substitute (sep ++ s) (substitute ++ t)
  | past {c : Char} {s t : List Char} : ¬sep <+: c :: s → Replaced sep substitute s t →
      Replaced sep substitute (c :: s) (c :: t)

variable {sep : List Char}

theorem replace_nil (sep substitute : List Char) : replace sep substitute [] = [] := rfl

theorem replace_append_sep (hs : sep ≠ []) (substitute s : List Char) :
    replace sep substitute (sep ++ s) = substitute ++ replace sep substitute s := by
  rw [replace, split, splitFrom_append_sep hs, join_cons (splitFrom_ne_nil _ _ _),
    List.nil_append]
  rfl

theorem replace_cons {c : Char} {s : List Char} (h : ¬sep <+: c :: s) (substitute : List Char) :
    replace sep substitute (c :: s) = c :: replace sep substitute s := by
  rw [replace, split, splitFrom, if_neg fun hp => h (List.isPrefixOf_iff_prefix.1 hp),
    join_consHead _ _ (splitFrom_ne_nil _ _ _)]
  rfl

/-- A text is replaced by what replacing computes, and by nothing else. The induction is on the
length of the text, as an occurrence is left behind in one step. -/
theorem replace_eq_iff (hs : sep ≠ []) {substitute s t : List Char} :
    replace sep substitute s = t ↔ Replaced sep substitute s t := by
  constructor
  · rintro rfl
    induction h : s.length using Nat.strongRecOn generalizing s with
    | ind n ih =>
        cases s with
        | nil => exact .nil
        | cons c r =>
            by_cases hp : sep <+: c :: r
            · obtain ⟨rest, hrest⟩ := hp
              have hshort : rest.length < n := by
                have hpos := List.length_pos_iff.2 hs
                rw [← h, ← hrest, List.length_append]
                omega
              rw [← hrest, replace_append_sep hs]
              exact .here (ih _ hshort rfl)
            · rw [replace_cons hp]
              exact .past hp (ih r.length (by rw [← h]; exact Nat.lt_succ_self _) rfl)
  · intro h
    induction h with
    | nil => exact replace_nil sep substitute
    | here _ ih => rw [replace_append_sep hs, ih]
    | past hp _ ih => rw [replace_cons hp, ih]

end AgentAtlas.Text
