import AgentAtlas.Pattern.Digits
import AgentAtlas.Proofs.Text.Pieces

/-!
# Slots and what fills them

Parts fall into the pieces between their runs. With a slot in place of every run they are the pieces
joined by the slot, so a text of parts which does not itself contain the slot has exactly the slots
put in for its runs, and filling them gives the parts with other texts in place of the runs
(`fill_slotted`). Filling in the runs gives the text back (`fill_slotted_runs`).
-/

set_option autoImplicit false

namespace AgentAtlas.Pattern

/-- The runs among parts, in order. -/
def runsOf (ps : List Part) : List (List Char) := ps.filterMap Part.run?

/-- The text of parts. -/
def charsOf (ps : List Part) : List Char := ps.flatMap Part.chars

/-- The text of parts with a slot for every run. -/
def slottedOf (ps : List Part) : List Char := ps.flatMap Part.slotted

@[simp] theorem runsOf_nil : runsOf [] = [] := rfl
@[simp] theorem runsOf_fixed (c : Char) (ps : List Part) :
    runsOf (.fixed c :: ps) = runsOf ps := rfl
@[simp] theorem runsOf_run (digits : List Char) (ps : List Part) :
    runsOf (.run digits :: ps) = digits :: runsOf ps := rfl
@[simp] theorem charsOf_nil : charsOf [] = [] := rfl
@[simp] theorem charsOf_fixed (c : Char) (ps : List Part) :
    charsOf (.fixed c :: ps) = c :: charsOf ps := rfl
@[simp] theorem charsOf_run (digits : List Char) (ps : List Part) :
    charsOf (.run digits :: ps) = digits ++ charsOf ps := rfl
@[simp] theorem slottedOf_nil : slottedOf [] = [] := rfl
@[simp] theorem slottedOf_fixed (c : Char) (ps : List Part) :
    slottedOf (.fixed c :: ps) = c :: slottedOf ps := rfl
@[simp] theorem slottedOf_run (digits : List Char) (ps : List Part) :
    slottedOf (.run digits :: ps) = slot ++ slottedOf ps := rfl

theorem charsOf_parts (p : Pattern) : charsOf (parts p) = p := flatMap_chars_partsFrom 0 p

/-- Parts without runs have no slots. -/
theorem slottedOf_eq_charsOf {ps : List Part} (h : runsOf ps = []) :
    slottedOf ps = charsOf ps := by
  induction ps with
  | nil => rfl
  | cons p ps ih =>
      cases p with
      | fixed c => rw [slottedOf_fixed, charsOf_fixed, ih h]
      | run digits => cases h

/-- Parts with runs have a slot. -/
theorem slot_infix_slottedOf {ps : List Part} (h : runsOf ps ≠ []) : slot <:+: slottedOf ps := by
  induction ps with
  | nil => exact absurd rfl h
  | cons p ps ih =>
      cases p with
      | fixed c => exact (ih h).trans (List.suffix_cons c _).isInfix
      | run digits => exact ⟨[], slottedOf ps, rfl⟩

/-- The texts between the runs. -/
def pieces : List Part → List (List Char)
  | [] => [[]]
  | .fixed c :: ps => Text.consHead c (pieces ps)
  | .run _ :: ps => [] :: pieces ps

theorem pieces_ne_nil (ps : List Part) : pieces ps ≠ [] := by
  cases ps with
  | nil => simp [pieces]
  | cons p ps =>
      cases p with
      | run digits => simp [pieces]
      | fixed c =>
          rw [pieces]
          cases pieces ps <;> simp [Text.consHead]

/-- There is one piece more than runs. -/
theorem length_pieces (ps : List Part) : (pieces ps).length = (runsOf ps).length + 1 := by
  induction ps with
  | nil => rfl
  | cons p ps ih =>
      cases p with
      | run digits => rw [pieces, List.length_cons, ih, runsOf_run, List.length_cons]
      | fixed c =>
          obtain ⟨piece, rest, h⟩ := List.exists_cons_of_ne_nil (pieces_ne_nil ps)
          rw [h] at ih
          rw [pieces, h, Text.consHead, runsOf_fixed, ← ih]
          rfl

/-- Slots between the pieces stand for the runs. -/
theorem join_slot_pieces (ps : List Part) : Text.join slot (pieces ps) = slottedOf ps := by
  induction ps with
  | nil => rfl
  | cons p ps ih =>
      cases p with
      | fixed c => rw [pieces, Text.join_consHead _ _ (pieces_ne_nil ps), ih, slottedOf_fixed]
      | run digits =>
          rw [pieces, Text.join_cons (pieces_ne_nil ps), ih, slottedOf_run, List.nil_append]

/-- The first piece begins the text, and every piece lies within it. -/
theorem pieces_within (ps : List Part) :
    (∀ piece, (pieces ps).head? = some piece → piece <+: charsOf ps) ∧
      ∀ piece ∈ pieces ps, piece <:+: charsOf ps := by
  induction ps with
  | nil => simp [pieces]
  | cons p ps ih =>
      obtain ⟨piece, rest, h⟩ := List.exists_cons_of_ne_nil (pieces_ne_nil ps)
      rw [h] at ih
      cases p with
      | fixed c =>
          -- the character lengthens the first piece, which still begins the text
          rw [pieces, h, Text.consHead, charsOf_fixed]
          have hhead : c :: piece <+: c :: charsOf ps :=
            List.cons_prefix_cons.2 ⟨rfl, ih.1 piece rfl⟩
          constructor
          · rintro q hq
            rw [List.head?_cons, Option.some.injEq] at hq
            exact hq ▸ hhead
          · intro q hq
            rcases List.mem_cons.1 hq with rfl | hq
            · exact hhead.isInfix
            · exact (ih.2 q (List.mem_cons_of_mem _ hq)).trans (List.suffix_cons c _).isInfix
      | run digits =>
          -- a run ends the piece before it, so a new and empty one comes first
          rw [pieces, h, charsOf_run]
          constructor
          · rintro q hq
            rw [List.head?_cons, Option.some.injEq] at hq
            exact hq ▸ List.nil_prefix
          · intro q hq
            rcases List.mem_cons.1 hq with rfl | hq
            · exact List.nil_infix
            · exact (ih.2 q hq).trans (List.suffix_append digits _).isInfix

/-- Parts with texts in place of the runs, in order. -/
def refill : List Part → List (List Char) → List Char
  | [], _ => []
  | .fixed c :: ps, fillings => c :: refill ps fillings
  | .run _ :: ps, filling :: fillings => filling ++ refill ps fillings
  | .run _ :: ps, [] => slot ++ refill ps []

theorem refill_nil (ps : List Part) : refill ps [] = slottedOf ps := by
  induction ps with
  | nil => rfl
  | cons p ps ih => cases p <;> simp [refill, ih]

/-- Each run in its own place gives the text. -/
theorem refill_runsOf (ps : List Part) : refill ps (runsOf ps) = charsOf ps := by
  induction ps with
  | nil => rfl
  | cons p ps ih => cases p <;> simp [refill, ih]

theorem interleave_consHead (c : Char) {pieces : List (List Char)} (h : pieces ≠ [])
    (fillings : List (List Char)) :
    interleave (Text.consHead c pieces) fillings = c :: interleave pieces fillings := by
  obtain ⟨piece, rest, rfl⟩ := List.exists_cons_of_ne_nil h
  cases fillings with
  | nil =>
      rw [Text.consHead, interleave, interleave]
      · exact Text.join_consHead slot c h
      all_goals simp
  | cons filling fillings => simp [Text.consHead, interleave]

/-- Fillings between the pieces stand in place of the runs. -/
theorem interleave_pieces (ps : List Part) :
    ∀ {fillings : List (List Char)}, fillings.length ≤ (runsOf ps).length →
      interleave (pieces ps) fillings = refill ps fillings := by
  induction ps with
  | nil =>
      intro fillings h
      rw [List.eq_nil_of_length_eq_zero (Nat.le_zero.1 h)]
      rfl
  | cons p ps ih =>
      intro fillings h
      cases p with
      | fixed c => rw [pieces, interleave_consHead c (pieces_ne_nil ps), ih h, refill]
      | run digits =>
          cases fillings with
          | nil =>
              -- the slots left over stay slots
              rw [refill_nil, ← join_slot_pieces]
              rw [interleave]
              simp
          | cons filling fillings =>
              rw [runsOf_run, List.length_cons, List.length_cons] at h
              rw [pieces, interleave, ih (by omega), refill, List.nil_append]

/-- The slots put in for the runs are the only ones: cutting at slots gives the pieces. -/
theorem split_slotted {ps : List Part} (h : ¬ slot <:+: charsOf ps) :
    Text.split slot (slottedOf ps) = pieces ps := by
  rw [← join_slot_pieces]
  apply Text.split_join
  · -- the parenthesis which opens a slot does not come again in it
    decide
  · exact pieces_ne_nil ps
  · intro piece hm hs
    exact h (hs.trans ((pieces_within ps).2 piece hm))

/-- The number of slots in a skeleton. -/
def slotCount (skeleton : List Char) : Nat := Text.occurrences slot skeleton

/-- There is one piece more between the slots of a skeleton than it has slots. -/
theorem length_split_slot (skeleton : List Char) :
    (Text.split slot skeleton).length = slotCount skeleton + 1 := by
  apply Text.length_split
  decide

/-- A skeleton has as many slots as the pattern has runs. -/
theorem slotCount_skeleton {p : Pattern} (h : ¬ slot <:+: p) :
    slotCount (skeleton p) = (runs p).length := by
  have hcount := length_split_slot (slottedOf (parts p))
  rw [split_slotted (by rwa [charsOf_parts]), length_pieces] at hcount
  exact (Nat.succ.inj hcount).symm

/-- Filling the slots of parts puts other texts in place of the runs. -/
theorem fill_slotted {ps : List Part} (h : ¬ slot <:+: charsOf ps) {fillings : List (List Char)}
    (hlen : fillings.length ≤ (runsOf ps).length) :
    fill (slottedOf ps) fillings = refill ps fillings := by
  rw [fill, split_slotted h, interleave_pieces ps hlen]

/-- Filling in the runs gives the text of the parts. -/
theorem fill_slotted_runs {ps : List Part} (h : ¬ slot <:+: charsOf ps) :
    fill (slottedOf ps) (runsOf ps) = charsOf ps := by
  rw [fill_slotted h (Nat.le_refl _), refill_runsOf]

end AgentAtlas.Pattern
