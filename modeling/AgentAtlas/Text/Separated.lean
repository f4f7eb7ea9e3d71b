/-!
# Texts between separators

`split sep s` cuts a text at the leftmost occurrences of a separator, none overlapping the one
before; replacing every occurrence is joining the pieces with another text. A separator occurs in a
text exactly if the text has it as an infix (`occurs_iff_infix`).
-/

set_option autoImplicit false

namespace AgentAtlas.Text

/-- Put a character in front of the first piece. -/
def consHead (c : Char) : List (List Char) → List (List Char)
  | [] => [[c]]
  | piece :: pieces => (c :: piece) :: pieces

/-- Cut at a separator; the first `skip` characters belong to an occurrence already cut at. -/
def splitFrom (sep : List Char) : Nat → List Char → List (List Char)
  | _, [] => [[]]
  | skip + 1, _ :: r => splitFrom sep skip r
  | 0, c :: r =>
    if sep.isPrefixOf (c :: r) then [] :: splitFrom sep (sep.length - 1) r
    else consHead c (splitFrom sep 0 r)

/-- The pieces of a text between the leftmost occurrences of a separator. -/
def split (sep s : List Char) : List (List Char) := splitFrom sep 0 s

/-- The pieces with a separator between each two. -/
def join (sep : List Char) : List (List Char) → List Char
  | [] => []
  | [piece] => piece
  | piece :: pieces => piece ++ sep ++ join sep pieces

/-- Whether a separator occurs in a text. -/
def occurs (sep : List Char) : List Char → Bool
  | [] => sep.isEmpty
  | c :: r => sep.isPrefixOf (c :: r) || occurs sep r

/-- A text with every occurrence of `sep` replaced, from left to right. -/
def replace (sep substitute s : List Char) : List Char := join substitute (split sep s)

theorem splitFrom_ne_nil (sep : List Char) (skip : Nat) (s : List Char) :
    splitFrom sep skip s ≠ [] := by
  induction s generalizing skip with
  | nil => simp [splitFrom]
  | cons c r ih =>
    cases skip with
    | succ n => exact ih n
    | zero =>
      rw [splitFrom]
      split
      · simp
      · cases h : splitFrom sep 0 r <;> simp [consHead]

theorem join_cons {sep piece : List Char} {pieces : List (List Char)} (h : pieces ≠ []) :
    join sep (piece :: pieces) = piece ++ sep ++ join sep pieces := by
  cases pieces with
  | nil => exact absurd rfl h
  | cons _ _ => rfl

theorem join_consHead (sep : List Char) (c : Char) {pieces : List (List Char)} (h : pieces ≠ []) :
    join sep (consHead c pieces) = c :: join sep pieces := by
  cases pieces with
  | nil => exact absurd rfl h
  | cons piece pieces => cases pieces <;> simp [consHead, join]

theorem occurs_iff_infix {sep s : List Char} : occurs sep s = true ↔ sep <:+: s := by
  induction s with
  | nil => simp [occurs]
  | cons c r ih => rw [occurs, Bool.or_eq_true, ih, List.isPrefixOf_iff_prefix, List.infix_cons_iff]

end AgentAtlas.Text
