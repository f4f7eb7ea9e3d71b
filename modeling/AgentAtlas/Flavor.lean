/-!
# Flavors and tiers

A flavor is how much of each row an artifact keeps. A property has a tier, the smallest flavor which
includes it, so a property of the lite flavor is in the standard one too, and all are in the full
one (`includes_mono`).
-/

set_option autoImplicit false

namespace AgentAtlas

/-- How much of each row an artifact keeps. -/
inductive Flavor where
  | full
  | standard
  | lite
  deriving DecidableEq, Repr, Inhabited

namespace Flavor

def name : Flavor → String
  | .full => "full"
  | .standard => "standard"
  | .lite => "lite"

/-- The flavor of a name, in any case of its letters. -/
def ofName? (s : String) : Option Flavor :=
  match s.toLower with
  | "full" => some .full
  | "standard" => some .standard
  | "lite" => some .lite
  | _ => none

/-- The text which refuses a name. -/
def refusal (s : String) : String := "unknown flavor: " ++ s.toLower

/-- How far down a flavor reaches. -/
def rank : Flavor → Nat
  | .full => 0
  | .standard => 1
  | .lite => 2

/-- Whether the flavor includes the properties of a tier. -/
def includes (flavor tier : Flavor) : Bool := flavor.rank ≤ tier.rank

/-- A smaller flavor includes nothing that a larger one leaves out. -/
theorem includes_mono {smaller larger tier : Flavor} (h : larger.rank ≤ smaller.rank)
    (hi : smaller.includes tier = true) : larger.includes tier = true := by
  simp only [includes, decide_eq_true_eq] at *
  omega

end Flavor

end AgentAtlas
