import AgentAtlas.Pattern
import AgentAtlas.Text.Separated

/-!
# Digit runs of a pattern

The maximal runs of digits in a pattern are its *slots*. Digits that belong to an escape are no run:
a backslash takes the next character with it, and before `x` up to two hexadecimal digits more.
Replacing each run by the capture group `(\d+)` gives the *skeleton*; filling the runs back into the
skeleton gives the pattern.
-/

set_option autoImplicit false

namespace AgentAtlas.Pattern

/-- The capture group that stands for a run of digits. -/
def slot : List Char := ['(', '\\', 'd', '+', ')']

/-- A part of a pattern: a character, or a maximal run of digits outside of escapes. -/
inductive Part where
  | fixed (c : Char)
  | run (digits : List Char)
  deriving DecidableEq, Repr

namespace Part

/-- A part as it stands in the pattern. -/
def chars : Part → List Char
  | fixed c => [c]
  | run digits => digits

/-- A part with a slot for the run. -/
def slotted : Part → List Char
  | fixed c => [c]
  | run _ => slot

/-- The run, if the part is one. -/
def run? : Part → Option (List Char)
  | fixed _ => none
  | run digits => some digits

end Part

/-- How many of the characters after a backslash belong to its escape. A line feed belongs to none.
-/
def escapeLength : List Char → Nat
  | [] => 0
  | '\n' :: _ => 0
  | 'x' :: high :: low :: _ =>
    if Glob.isHexDigit high then if Glob.isHexDigit low then 3 else 2 else 1
  | 'x' :: high :: [] => if Glob.isHexDigit high then 2 else 1
  | _ :: _ => 1

/-- Put a digit in front: into the run that starts there, or as a run of its own. -/
def consDigit (c : Char) : List Part → List Part
  | .run digits :: parts => .run (c :: digits) :: parts
  | parts => .run [c] :: parts

/-- The parts of a pattern whose first `escaped` characters belong to an escape. -/
def partsFrom : Nat → List Char → List Part
  | _, [] => []
  | escaped + 1, c :: r => .fixed c :: partsFrom escaped r
  | 0, c :: r =>
    if c = '\\' then .fixed c :: partsFrom (escapeLength r) r
    else if c.isDigit then consDigit c (partsFrom 0 r)
    else .fixed c :: partsFrom 0 r

/-- The parts of a pattern. -/
def parts (p : Pattern) : List Part := partsFrom 0 p

/-- A pattern split around its runs. -/
structure Scan where
  skeleton : List Char
  runs : List (List Char)
  deriving DecidableEq, Repr

/-- The runs of a pattern in order. -/
def runs (p : Pattern) : List (List Char) := (parts p).filterMap Part.run?

/-- The pattern with a slot for every run. -/
def skeleton (p : Pattern) : List Char := (parts p).flatMap Part.slotted

/-- The skeleton and the runs of a pattern which has any. -/
def scan? (p : Pattern) : Option Scan :=
  match runs p with
  | [] => none
  | rs => some ⟨skeleton p, rs⟩

/-- Fillings between pieces, one after each piece but the last. -/
def interleave : List (List Char) → List (List Char) → List Char
  | piece :: pieces, filling :: fillings => piece ++ filling ++ interleave pieces fillings
  | pieces, _ => Text.join slot pieces

/-- A skeleton with its slots filled in order. -/
def fill (skeleton : List Char) (fillings : List (List Char)) : List Char :=
  interleave (Text.split slot skeleton) fillings

theorem flatMap_chars_consDigit (c : Char) (ps : List Part) :
    (consDigit c ps).flatMap Part.chars = c :: ps.flatMap Part.chars := by
  unfold consDigit
  split <;> simp [Part.chars]

/-- The parts hold the whole pattern. -/
theorem flatMap_chars_partsFrom (escaped : Nat) (p : List Char) :
    (partsFrom escaped p).flatMap Part.chars = p := by
  induction p generalizing escaped with
  | nil => cases escaped <;> rfl
  | cons c r ih =>
    cases escaped with
    | succ n => simp [partsFrom, Part.chars, ih]
    | zero =>
      rw [partsFrom]
      split
      · simp [Part.chars, ih]
      · split
        · rw [flatMap_chars_consDigit, ih]
        · simp [Part.chars, ih]

end AgentAtlas.Pattern
