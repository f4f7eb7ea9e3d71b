/-!
# Magnitudes of the binary64 format

A finite magnitude of the format is `mantissa · 2 ^ exponent` with fewer than 54 bits and a bounded
exponent. Every operation takes the exact quotient of two naturals to the nearest magnitude
(`nearest?`), a half to the even neighbour, so multiplication and division are exact arithmetic
followed by one rounding. Above the greatest magnitude there is no answer.
-/

set_option autoImplicit false

namespace AgentAtlas

/-- The natural `2 ^ n`. -/
def powerOfTwo (n : Nat) : Nat := Nat.pow 2 n

/-- The natural `10 ^ n`. -/
def powerOfTen (n : Nat) : Nat := Nat.pow 10 n

/-- The magnitude `mantissa · 2 ^ exponent`. -/
structure Binary64 where
  mantissa : Nat
  exponent : Int
  deriving DecidableEq, Repr, Inhabited

namespace Binary64

/-- The bits of a mantissa. -/
def precision : Nat := 53

/-- The exponent of the least magnitudes. -/
def leastExponent : Int := -1074

/-- The exponent of the greatest magnitudes. -/
def greatestExponent : Int := 971

def zero : Binary64 := ⟨0, leastExponent⟩

def isZero (x : Binary64) : Bool := x.mantissa == 0

/-- The magnitude is `numerator / denominator`. -/
def numerator (x : Binary64) : Nat := x.mantissa * powerOfTwo x.exponent.toNat

/-- The magnitude is `numerator / denominator`. -/
def denominator (x : Binary64) : Nat := powerOfTwo (-x.exponent).toNat

/-- The natural nearest to a quotient, a half to the even one. -/
def roundHalfEven (num den : Nat) : Nat :=
  let q := num / den
  let twice := 2 * (num % den)
  if twice < den then q else if den < twice then q + 1 else q + q % 2

/-- The exponent at which a quotient has `precision` bits before the point, or the least one. -/
def gridExponent (num den : Nat) : Int :=
  let guess : Int := (num.log2 : Int) - den.log2 - (precision - 1)
  let exponent :=
    if num * powerOfTwo (-guess).toNat < powerOfTwo (precision - 1) * (den * powerOfTwo guess.toNat)
    then guess - 1
    else guess
  max exponent leastExponent

/-- The magnitude nearest to `num / den`, a half to the even mantissa; none above the greatest. -/
def nearest? (num den : Nat) : Option Binary64 :=
  if num = 0 then some zero
  else
    let exponent := gridExponent num den
    let mantissa :=
      roundHalfEven (num * powerOfTwo (-exponent).toNat) (den * powerOfTwo exponent.toNat)
    let carried : Binary64 :=
      if mantissa = powerOfTwo precision then ⟨powerOfTwo (precision - 1), exponent + 1⟩
      else ⟨mantissa, exponent⟩
    if carried.exponent ≤ greatestExponent then some carried else none

/-- The rounded product. -/
def mul? (x y : Binary64) : Option Binary64 :=
  nearest? (x.numerator * y.numerator) (x.denominator * y.denominator)

/-- The rounded quotient. -/
def div? (x y : Binary64) : Option Binary64 :=
  nearest? (x.numerator * y.denominator) (x.denominator * y.numerator)

end Binary64

end AgentAtlas
