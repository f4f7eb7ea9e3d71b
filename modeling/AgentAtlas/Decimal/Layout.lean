import AgentAtlas.Decimal.Shortest

/-!
# Decimals as text

A layout says which decimals are written with a point alone and how the others carry their exponent.
The exponent that decides is the one of the leading digit.
-/

set_option autoImplicit false

namespace AgentAtlas.Decimal

/-- How decimals are written. -/
structure Layout where
  /-- The least exponent of a leading digit which is written with a point alone. -/
  positionalFrom : Int
  /-- The greatest such exponent. -/
  positionalTo : Int
  /-- What follows a whole number. -/
  wholeTail : List Char
  /-- What stands before an exponent. -/
  exponentMark : Char
  /-- The sign of an exponent which is not negative. -/
  exponentPlus : List Char

/-- The digits of a natural. -/
def digitChars (n : Nat) : List Char := Nat.toDigits 10 n

/-- The text of a natural. -/
def natText (n : Nat) : String := String.ofList (digitChars n)

/-- A whole number with its sign. -/
def intChars (n : Int) : List Char :=
  if n < 0 then '-' :: digitChars n.natAbs else digitChars n.natAbs

def zeros (n : Nat) : List Char := List.replicate n '0'

/-- Digits with a point alone. -/
def positional (layout : Layout) (digits : List Char) (exponent : Int) : List Char :=
  let whole := digits.length + exponent
  if 0 ≤ exponent then digits ++ zeros exponent.toNat ++ layout.wholeTail
  else if 0 < whole then digits.take whole.toNat ++ '.' :: digits.drop whole.toNat
  else '0' :: '.' :: zeros (-whole).toNat ++ digits

/-- One digit before the point, and the exponent written out. -/
def scientific (layout : Layout) (digits : List Char) (leading : Int) : List Char :=
  let mantissa := match digits with
    | d :: rest@(_ :: _) => d :: '.' :: rest
    | _ => digits
  let sign := if leading < 0 then ['-'] else layout.exponentPlus
  mantissa ++ layout.exponentMark :: sign ++ digitChars leading.natAbs

/-- The text of a decimal. -/
def chars (layout : Layout) (d : Decimal) : List Char :=
  let digits := digitChars d.digits
  let leading := d.exponent + digits.length - 1
  if layout.positionalFrom ≤ leading ∧ leading ≤ layout.positionalTo then
    positional layout digits d.exponent
  else scientific layout digits leading

/-- The text of a magnitude with its sign: the shortest decimal, or zero. -/
def binary64Chars (layout : Layout) (negative : Bool) (x : Binary64) : List Char :=
  let magnitude := if x.isZero then '0' :: layout.wholeTail else chars layout (shortest x)
  if negative then '-' :: magnitude else magnitude

end AgentAtlas.Decimal
