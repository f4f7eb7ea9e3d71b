import AgentAtlas.Decimal.Layout

/-!
# Number literals

A literal is kept as written (`Numeral`), and read on demand. An integer literal of 64 bits is its
integer. Every other literal is a magnitude of the binary64 format: the leading digits which fit 64
bits, rounded, then multiplied or divided once by a power of ten, the further digits counting as a
power of ten only (`Numeral.magnitude?`). A magnitude beyond the format has no reading; one below it
is zero.
-/

set_option autoImplicit false

namespace AgentAtlas.Json

/-- A number literal. -/
structure Numeral where
  negative : Bool
  /-- The digits before the point; never none, and no zero before another digit. -/
  whole : List Char
  /-- The digits after the point, none where there is no point. -/
  fraction : List Char
  /-- The exponent, where there is one. -/
  exponent? : Option Int
  deriving DecidableEq, Repr

/-- A number: an integer of 64 bits, or a magnitude with a sign. -/
inductive Number where
  | integer (n : Int)
  | real (negative : Bool) (magnitude : Binary64)
  deriving DecidableEq, Repr

def digitValue (c : Char) : Nat := c.toNat - '0'.toNat

/-- The natural which digits write. -/
def ofDigits (digits : List Char) : Nat := digits.foldl (fun n c => 10 * n + digitValue c) 0

/-! ## From text -/

/-- Leading digits, at least one, and the rest. -/
def digits? (s : List Char) : Option (List Char × List Char) :=
  match s.takeWhile Char.isDigit with
  | [] => none
  | digits => some (digits, s.dropWhile Char.isDigit)

/-- The fraction, if a point comes next. -/
def fraction? : List Char → Option (List Char × List Char)
  | '.' :: r => digits? r
  | s => some ([], s)

/-- The digits of an exponent with its sign. -/
def signedDigits? : List Char → Option (Int × List Char)
  | '-' :: r => (digits? r).map fun (ds, rest) => (-(ofDigits ds : Int), rest)
  | '+' :: r => (digits? r).map fun (ds, rest) => ((ofDigits ds : Int), rest)
  | r => (digits? r).map fun (ds, rest) => ((ofDigits ds : Int), rest)

/-- The exponent, if its mark comes next. -/
def exponent? : List Char → Option (Option Int × List Char)
  | 'e' :: r => (signedDigits? r).map fun (e, rest) => (some e, rest)
  | 'E' :: r => (signedDigits? r).map fun (e, rest) => (some e, rest)
  | s => some (none, s)

/-- The digits before the point: a zero stands alone. -/
def whole? (s : List Char) : Option (List Char × List Char) :=
  match digits? s with
  | some ('0' :: _ :: _, _) => none
  | found => found

/-- A literal without its sign, and the rest. -/
def unsigned? (negative : Bool) (s : List Char) : Option (Numeral × List Char) := do
  let (whole, afterWhole) ← whole? s
  let (fraction, afterFraction) ← fraction? afterWhole
  let (exponent, rest) ← exponent? afterFraction
  return (⟨negative, whole, fraction, exponent⟩, rest)

/-- A literal at the start of a text, and the rest. -/
def numeral? : List Char → Option (Numeral × List Char)
  | '-' :: r => unsigned? true r
  | s => unsigned? false s

theorem length_of_digits? {s ds rest : List Char} (h : digits? s = some (ds, rest)) :
    rest.length < s.length := by
  unfold digits? at h
  have hl : (s.takeWhile Char.isDigit).length + (s.dropWhile Char.isDigit).length = s.length := by
    rw [← List.length_append, List.takeWhile_append_dropWhile]
  cases ht : s.takeWhile Char.isDigit with
  | nil => rw [ht] at h; cases h
  | cons d t =>
    rw [ht] at h hl
    cases h
    simp only [List.length_cons] at hl
    omega

theorem length_of_whole? {s ds rest : List Char} (h : whole? s = some (ds, rest)) :
    rest.length < s.length := by
  unfold whole? at h
  split at h
  · cases h
  · exact length_of_digits? h

theorem length_of_fraction? {s ds rest : List Char} (h : fraction? s = some (ds, rest)) :
    rest.length ≤ s.length := by
  unfold fraction? at h
  split at h
  · have := length_of_digits? h
    simp only [List.length_cons]
    omega
  · cases h; exact Nat.le_refl _

theorem length_of_signedDigits? {s rest : List Char} {e : Int}
    (h : signedDigits? s = some (e, rest)) : rest.length ≤ s.length := by
  unfold signedDigits? at h
  split at h <;> obtain ⟨⟨ds, r⟩, hd, he⟩ := Option.map_eq_some_iff.1 h <;>
    have := length_of_digits? hd <;> cases he <;> grind

theorem length_of_exponent? {s rest : List Char} {e : Option Int}
    (h : exponent? s = some (e, rest)) : rest.length ≤ s.length := by
  unfold exponent? at h
  split at h
  · obtain ⟨⟨e', r⟩, hd, he⟩ := Option.map_eq_some_iff.1 h
    have := length_of_signedDigits? hd
    cases he
    grind
  · obtain ⟨⟨e', r⟩, hd, he⟩ := Option.map_eq_some_iff.1 h
    have := length_of_signedDigits? hd
    cases he
    grind
  · cases h; exact Nat.le_refl _

theorem length_of_unsigned? {negative : Bool} {s rest : List Char} {n : Numeral}
    (h : unsigned? negative s = some (n, rest)) : rest.length < s.length := by
  simp only [unsigned?, bind, Option.bind_eq_some_iff, Prod.exists] at h
  obtain ⟨w, r₁, h₁, f, r₂, h₂, e, r₃, h₃, h⟩ := h
  cases h
  have := length_of_whole? h₁
  have := length_of_fraction? h₂
  have := length_of_exponent? h₃
  omega

/-- A literal takes at least one character. -/
theorem length_of_numeral? {s rest : List Char} {n : Numeral}
    (h : numeral? s = some (n, rest)) : rest.length < s.length := by
  unfold numeral? at h
  split at h
  · have := length_of_unsigned? h
    simp only [List.length_cons]
    omega
  · exact length_of_unsigned? h

/-! ## Reading -/

/-- The first natural of more than 64 bits. -/
def wordLimit : Nat := powerOfTwo 64

/-- Append digits to a natural while it fits 64 bits, and count the appended ones. -/
def absorb (n : Nat) : List Char → Nat × Nat
  | [] => (n, 0)
  | c :: r =>
    let next := 10 * n + digitValue c
    if next < wordLimit then
      let (total, taken) := absorb next r
      (total, taken + 1)
    else (n, 0)

/-- The greatest power of ten which is one magnitude. -/
def greatestPower : Nat := 308

/-- A magnitude times a power of ten: one rounded operation, or repeated division by the greatest
power while the exponent is too low for one. -/
def scale (x : Binary64) (exponent : Int) : Option Binary64 :=
  if x.isZero then some x
  else if greatestPower < exponent then none
  else if 0 ≤ exponent then do x.mul? (← Binary64.nearest? (powerOfTen exponent.toNat) 1)
  else if -greatestPower ≤ exponent then do
    x.div? (← Binary64.nearest? (powerOfTen (-exponent).toNat) 1)
  else do
    let lowered ← x.div? (← Binary64.nearest? (powerOfTen greatestPower) 1)
    scale lowered (exponent + greatestPower)
termination_by (-exponent).toNat
decreasing_by
  simp only [greatestPower] at *
  omega

namespace Numeral

/-- The magnitude of a literal, as far as the format reaches. -/
def magnitude? (n : Numeral) : Option Binary64 :=
  let (whole, takenWhole) := absorb 0 n.whole
  let (significand, takenFraction) := absorb whole n.fraction
  let dropped : Int := n.whole.length - takenWhole
  do
    let x ← Binary64.nearest? significand 1
    scale x (dropped - takenFraction + n.exponent?.getD 0)

/-- The integer of an integer literal of 64 bits. The literal `-0` is none. -/
def integer? (n : Numeral) : Option Int :=
  if n.fraction = [] ∧ n.exponent? = none then
    let m := ofDigits n.whole
    if n.negative then if 0 < m ∧ m ≤ wordLimit / 2 then some (-m) else none
    else if m < wordLimit then some m else none
  else none

/-- The number of a literal. -/
def number? (n : Numeral) : Option Number :=
  match n.integer? with
  | some i => some (.integer i)
  | none => n.magnitude?.map (.real n.negative)

end Numeral

/-! ## To text -/

/-- Numbers have a point from the fifth place behind it to the sixteenth before it, and
`.0` where they are whole. -/
def numberLayout : Decimal.Layout := ⟨-5, 15, ['.', '0'], 'e', ['+']⟩

/-- The text of a number. -/
def Number.chars : Number → List Char
  | .integer n => Decimal.intChars n
  | .real negative x => Decimal.binary64Chars numberLayout negative x

end AgentAtlas.Json
