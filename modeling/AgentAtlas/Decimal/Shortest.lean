import AgentAtlas.Decimal.Binary64

/-!
# The shortest decimal of a magnitude

Of the decimals which round to a magnitude, the one on the coarsest grid of powers of ten; of two
on that grid the nearer one, of two equally near the even one. `Grid` holds the magnitude and
the interval which rounds to it, in units common with one power of ten, so that the search
compares naturals.
-/

set_option autoImplicit false

namespace AgentAtlas

/-- The decimal `digits · 10 ^ exponent`. -/
structure Decimal where
  digits : Nat
  exponent : Int
  deriving DecidableEq, Repr, Inhabited

namespace Decimal

/-- A magnitude beside the multiples of one power of ten. -/
structure Grid where
  /-- The distance between two points of the grid. -/
  step : Nat
  /-- The magnitude. -/
  value : Nat
  /-- The lower end of the interval which rounds to the magnitude. -/
  lower : Nat
  /-- The upper end of that interval. -/
  upper : Nat
  /-- Whether the ends belong to the interval. -/
  closed : Bool

/-- The grid of `10 ^ exponent` around a magnitude, all in quarters of the last mantissa bit. The
gap below a power of two is half the gap above. -/
def gridOf (x : Binary64) (exponent : Int) : Grid :=
  let unit := powerOfTwo (x.exponent - 2).toNat * powerOfTen (-exponent).toNat
  let narrow :=
    x.mantissa = powerOfTwo (Binary64.precision - 1) ∧ Binary64.leastExponent < x.exponent
  { step := powerOfTen exponent.toNat * powerOfTwo (2 - x.exponent).toNat
    value := 4 * x.mantissa * unit
    lower := (4 * x.mantissa - if narrow then 1 else 2) * unit
    upper := (4 * x.mantissa + 2) * unit
    closed := x.mantissa % 2 == 0 }

namespace Grid

/-- Whether a point of the grid rounds to the magnitude. -/
def hits (g : Grid) (point : Nat) : Bool :=
  if g.closed then g.lower ≤ point * g.step && point * g.step ≤ g.upper
  else g.lower < point * g.step && point * g.step < g.upper

/-- The point of the grid which rounds to the magnitude and is nearest to it. Only the two
neighbours of the magnitude can be it. -/
def best? (g : Grid) : Option Nat :=
  let below := g.value / g.step
  let above := below + 1
  match g.hits below, g.hits above with
  | false, false => none
  | true, false => some below
  | false, true => some above
  | true, true =>
    let toBelow := g.value - below * g.step
    let toAbove := above * g.step - g.value
    if toBelow < toAbove then some below
    else if toAbove < toBelow then some above
    else some (below + below % 2)

end Grid

/-- A power of ten above the magnitude. -/
def ceilingExponent (x : Binary64) : Int :=
  let bits : Int := x.mantissa.log2 + x.exponent + 1
  if 0 ≤ bits then bits * 30103 / 100000 + 1 else bits * 30102 / 100000 + 2

/-- Search `fuel` grids downwards for the first with a hit. -/
def searchFrom (x : Binary64) (exponent : Int) : Nat → Decimal
  | 0 => ⟨0, exponent⟩
  | fuel + 1 =>
    match (gridOf x exponent).best? with
    | some point => ⟨point, exponent⟩
    | none => searchFrom x (exponent - 1) fuel

/-- Seventeen digits always suffice, and the search starts at most four grids too high. -/
def searchDepth : Nat := 24

/-- The shortest decimal which rounds to a magnitude other than zero. -/
def shortest (x : Binary64) : Decimal := searchFrom x (ceilingExponent x) searchDepth

end Decimal

end AgentAtlas
