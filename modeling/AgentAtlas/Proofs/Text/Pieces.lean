import AgentAtlas.Text.Separated

/-!
# Cutting joined pieces apart

Joining pieces by a separator and cutting at the separator gives the pieces back, if no piece
contains the separator and the first character of the separator does not come again in it
(`split_join`). The second condition keeps an occurrence from reaching out of a piece into the
separator behind it. It also keeps two occurrences from overlapping, so that a text is cut at all of
them (`length_split`).
-/

set_option autoImplicit false

namespace AgentAtlas.Text

/-- Characters which belong to an occurrence already cut at are left out. -/
theorem splitFrom_eq_drop (sep : List Char) (skip : Nat) (s : List Char) :
    splitFrom sep skip s = splitFrom sep 0 (s.drop skip) := by
  induction s generalizing skip with
  | nil => cases skip <;> rfl
  | cons c r ih =>
      cases skip with
      | zero => rfl
      | succ n => exact ih n

/-- Cutting goes on behind a separator. -/
theorem splitFrom_append_sep {sep : List Char} (hs : sep ≠ []) (r : List Char) :
    splitFrom sep 0 (sep ++ r) = [] :: splitFrom sep 0 r := by
  obtain ⟨a, t, rfl⟩ := List.exists_cons_of_ne_nil hs
  have hprefix : (a :: t).isPrefixOf (a :: (t ++ r)) = true :=
    List.isPrefixOf_iff_prefix.2 (List.prefix_append (a :: t) r)
  rw [List.cons_append, splitFrom, if_pos hprefix, splitFrom_eq_drop]
  simp

/-- Put characters in front of the first piece. -/
def prependHead (piece : List Char) (pieces : List (List Char)) : List (List Char) :=
  piece.foldr consHead pieces

theorem prependHead_cons (piece head : List Char) (pieces : List (List Char)) :
    prependHead piece (head :: pieces) = (piece ++ head) :: pieces := by
  induction piece with
  | nil => rfl
  | cons c piece ih =>
      rw [prependHead, List.foldr_cons, ← prependHead, ih]
      rfl

variable {a : Char} {t : List Char}

/-- A separator which starts inside a piece without it would have to end beyond the piece, where
only the separator itself goes on. -/
theorem not_prefix_append {piece rest : List Char} (ha : a ∉ t) (hne : piece ≠ [])
    (hp : ¬ (a :: t) <+: piece) (hrest : rest = [] ∨ ∃ r, rest = (a :: t) ++ r) :
    ¬ (a :: t) <+: piece ++ rest := by
  intro h
  rcases hrest with rfl | ⟨r, rfl⟩
  · rw [List.append_nil] at h
    exact hp h
  · rcases List.prefix_or_prefix_of_prefix h (List.prefix_append piece _) with hsep | hpiece
    · exact hp hsep
    · -- the piece is a beginning of the separator, so `a` comes again behind it
      obtain ⟨d, hd⟩ := hpiece
      obtain ⟨c, piece', rfl⟩ := List.exists_cons_of_ne_nil hne
      rw [List.cons_append, List.cons.injEq] at hd
      obtain ⟨rfl, rfl⟩ := hd
      cases d with
      | nil =>
          -- the piece is the whole separator
          apply hp
          simp
      | cons x d =>
          obtain ⟨w, hw⟩ := h
          simp only [List.cons_append, List.append_assoc, List.cons.injEq, true_and,
            List.append_cancel_left_eq] at hw
          apply ha
          rw [hw.1]
          simp

/-- Cutting goes through a piece without the separator. -/
theorem splitFrom_append_piece (rest : List Char) {piece : List Char} (ha : a ∉ t)
    (hp : ¬ (a :: t) <:+: piece) (hrest : rest = [] ∨ ∃ r, rest = (a :: t) ++ r) :
    splitFrom (a :: t) 0 (piece ++ rest) = prependHead piece (splitFrom (a :: t) 0 rest) := by
  induction piece with
  | nil => rfl
  | cons c piece ih =>
      rw [List.infix_cons_iff, not_or] at hp
      -- no separator starts at the first character of the piece
      have hno : (a :: t).isPrefixOf (c :: (piece ++ rest)) = false := by
        rw [Bool.eq_false_iff, ne_eq, List.isPrefixOf_iff_prefix]
        exact not_prefix_append ha (List.cons_ne_nil c piece) hp.1 hrest
      rw [List.cons_append, splitFrom, hno, ih hp.2]
      rfl

/-- Cutting joined pieces apart gives the pieces. -/
theorem split_join (ha : a ∉ t) {pieces : List (List Char)} (hne : pieces ≠ [])
    (hp : ∀ piece ∈ pieces, ¬ (a :: t) <:+: piece) :
    split (a :: t) (join (a :: t) pieces) = pieces := by
  induction pieces with
  | nil => exact absurd rfl hne
  | cons piece pieces ih =>
      have hpiece := hp piece List.mem_cons_self
      cases pieces with
      | nil =>
          have h := splitFrom_append_piece [] ha hpiece (.inl rfl)
          rw [List.append_nil] at h
          rw [join, split, h, splitFrom, prependHead_cons, List.append_nil]
      | cons next pieces =>
          have hrest := ih (List.cons_ne_nil next pieces) fun p hm => hp p (List.mem_cons_of_mem _ hm)
          rw [join_cons (List.cons_ne_nil next pieces), split, List.append_assoc,
            splitFrom_append_piece _ ha hpiece (.inr ⟨_, rfl⟩),
            splitFrom_append_sep (List.cons_ne_nil a t), ← split, hrest, prependHead_cons,
            List.append_nil]

/-! ## Counting occurrences -/

/-- The number of positions at which a separator occurs in a text. -/
def occurrences (sep s : List Char) : Nat :=
  (List.range s.length).countP fun i => sep.isPrefixOf (s.drop i)

theorem occurrences_cons (sep : List Char) (c : Char) (r : List Char) :
    occurrences sep (c :: r) =
      occurrences sep r + if sep.isPrefixOf (c :: r) then 1 else 0 := by
  rw [occurrences, List.length_cons, List.range_succ_eq_map, List.countP_cons, List.countP_map]
  rfl

/-- No separator starts among characters which are not its first one. -/
theorem occurrences_append {s : List Char} (h : a ∉ s) (r : List Char) :
    occurrences (a :: t) (s ++ r) = occurrences (a :: t) r := by
  induction s with
  | nil => rfl
  | cons c s ih =>
      rw [List.mem_cons, not_or] at h
      have hno : (a :: t).isPrefixOf (c :: (s ++ r)) = false := by
        rw [Bool.eq_false_iff, ne_eq, List.isPrefixOf_iff_prefix, List.cons_prefix_cons]
        exact fun hp => h.1 hp.1
      rw [List.cons_append, occurrences_cons, ih h.2, hno]
      rfl

/-- A text is cut at every occurrence of the separator. -/
theorem length_split (ha : a ∉ t) (s : List Char) :
    (split (a :: t) s).length = occurrences (a :: t) s + 1 := by
  -- where an occurrence has been cut at, no other starts before its end
  have hskip : ∀ skip, (splitFrom (a :: t) skip s).length =
      occurrences (a :: t) (s.drop skip) + 1 := by
    induction s with
    | nil => intro skip; cases skip <;> rfl
    | cons c r ih =>
        intro skip
        cases skip with
        | succ n => exact ih n
        | zero =>
            rw [splitFrom, List.drop_zero, occurrences_cons]
            by_cases hp : (a :: t).isPrefixOf (c :: r) = true
            · obtain ⟨rest, hrest⟩ := List.isPrefixOf_iff_prefix.1 hp
              obtain ⟨rfl, rfl⟩ := List.cons.inj hrest
              rw [if_pos hp, if_pos hp, List.length_cons, ih]
              simp [occurrences_append ha]
            · obtain ⟨piece, pieces, hr⟩ :=
                List.exists_cons_of_ne_nil (splitFrom_ne_nil (a :: t) 0 r)
              have hlen := ih 0
              rw [hr] at hlen
              rw [if_neg hp, if_neg hp, hr]
              exact hlen
  exact hskip 0

/-! ## A text behind the last piece -/

/-- What contains no separator goes on with the last piece. -/
theorem exists_split_append {suffix : List Char} (h : a ∉ suffix) (s : List Char) :
    ∃ front last, split [a] s = front ++ [last] ∧
      split [a] (s ++ suffix) = front ++ [last ++ suffix] := by
  induction s with
  | nil =>
      have hpiece : ¬ [a] <:+: suffix := fun hsub => h (hsub.mem List.mem_cons_self)
      refine ⟨[], [], rfl, ?_⟩
      exact split_join List.not_mem_nil (List.cons_ne_nil suffix [])
        (List.forall_mem_singleton.2 hpiece)
  | cons c s ih =>
      obtain ⟨front, last, hs, hsuffix⟩ := ih
      unfold split at hs hsuffix ⊢
      rw [List.cons_append, splitFrom, splitFrom]
      by_cases hc : a = c
      · have hyes : ∀ r, [a].isPrefixOf (c :: r) = true := by
          simp [List.isPrefixOf, hc]
        rw [hyes, hyes, if_pos rfl, if_pos rfl]
        exact ⟨[] :: front, last, congrArg _ hs, congrArg _ hsuffix⟩
      · have hno : ∀ r, [a].isPrefixOf (c :: r) = false := by
          simp [List.isPrefixOf, hc]
        rw [hno, hno, hs, hsuffix]
        cases front with
        | nil => exact ⟨[], c :: last, rfl, rfl⟩
        | cons piece front => exact ⟨(c :: piece) :: front, last, rfl, rfl⟩

end AgentAtlas.Text
