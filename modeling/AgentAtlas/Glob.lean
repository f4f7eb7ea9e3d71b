/-!
# User-agent names as globs

A name is read as a sequence of tokens: `*` stands for any run of characters, `?` for one character,
a backslash with `x` and two hexadecimal digits for the character of that code, and every other
character for itself, a lone backslash too. `Glob.chars` writes tokens back (`chars_tokens`).

Specific names come first: longer ones in bytes, and of equally long ones those with more characters
besides the wildcards. Names that agree in both keep their order.
-/

set_option autoImplicit false

namespace AgentAtlas.Glob

/-- A part of a name. -/
inductive Token where
  /-- Any run of characters. -/
  | any
  /-- Any one character. -/
  | one
  /-- The character with the code of two hexadecimal digits. -/
  | code (high low : Char)
  /-- The character itself. -/
  | literal (c : Char)
  deriving DecidableEq, Repr

/-- A hexadecimal digit in either case. -/
def isHexDigit (c : Char) : Bool :=
  ('0' ≤ c && c ≤ '9') || ('a' ≤ c && c ≤ 'f') || ('A' ≤ c && c ≤ 'F')

/-- The tokens of a name. -/
def tokens : List Char → List Token
  | [] => []
  | '*' :: r => .any :: tokens r
  | '?' :: r => .one :: tokens r
  | '\\' :: 'x' :: high :: low :: r =>
    if isHexDigit high && isHexDigit low then .code high low :: tokens r
    else .literal '\\' :: tokens ('x' :: high :: low :: r)
  | c :: r => .literal c :: tokens r
termination_by structural name => name

/-- A token as it stands in a name. -/
def Token.chars : Token → List Char
  | any => ['*']
  | one => ['?']
  | code high low => ['\\', 'x', high, low]
  | literal c => [c]

/-- Tokens as a name. -/
def chars (ts : List Token) : List Char := ts.flatMap Token.chars

/-- The tokens hold the whole name. -/
theorem chars_tokens (name : List Char) : chars (tokens name) = name := by
  fun_induction tokens name <;> simp_all [chars, Token.chars]

/-! ## Specificity -/

def isWildcard (c : Char) : Bool := c == '*' || c == '?'

/-- Whether a name has a wildcard. -/
def hasWildcard (name : String) : Bool := name.toList.any isWildcard

/-- The number of characters besides the wildcards. -/
def fixedCount (name : String) : Nat := (name.toList.filter fun c => !isWildcard c).length

/-- Whether a name may stand before another: it is longer in bytes, or as long and with no fewer
characters besides the wildcards. -/
def atLeastAsSpecific (a b : String) : Bool :=
  b.utf8ByteSize < a.utf8ByteSize ||
    (a.utf8ByteSize == b.utf8ByteSize && fixedCount b ≤ fixedCount a)

theorem atLeastAsSpecific_total (a b : String) :
    (atLeastAsSpecific a b || atLeastAsSpecific b a) = true := by
  simp only [atLeastAsSpecific, Bool.or_eq_true, Bool.and_eq_true, decide_eq_true_eq, beq_iff_eq]
  omega

theorem atLeastAsSpecific_trans (a b c : String) (h₁ : atLeastAsSpecific a b = true)
    (h₂ : atLeastAsSpecific b c = true) : atLeastAsSpecific a c = true := by
  simp only [atLeastAsSpecific, Bool.or_eq_true, Bool.and_eq_true, decide_eq_true_eq,
    beq_iff_eq] at *
  omega

/-- Entries with specific names first; equally specific ones keep their order. -/
def sortBySpecificity {α : Type} (name : α → String) (entries : List α) : List α :=
  entries.mergeSort fun a b => atLeastAsSpecific (name a) (name b)

end AgentAtlas.Glob
