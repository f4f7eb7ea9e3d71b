import AgentAtlas.Glob

/-!
# Patterns

A pattern is an anchored regular expression of a small language: `.` and `.*`, codes `\xHH`,
characters with a meaning of their own behind a backslash, and all other characters plain. The
pattern of a name is written token by token between the anchors.
-/

set_option autoImplicit false

namespace AgentAtlas

/-- The text of a regular expression. -/
abbrev Pattern := List Char

namespace Pattern

/-- The characters which stand for themselves only behind a backslash. -/
def special : List Char :=
  ['\\', '.', '+', '*', '?', '(', ')', '|', '[', ']', '{', '}', '^', '$', '#', '&', '-', '~']

/-- A character as the expression which matches it. -/
def escape (c : Char) : List Char := if special.contains c then ['\\', c] else [c]

/-- The expression of a token. -/
def ofToken : Glob.Token → List Char
  | .any => ['.', '*']
  | .one => ['.']
  | .code high low => ['\\', 'x', high, low]
  | .literal c => escape c

/-- The expression of tokens, without anchors. -/
def ofTokens (ts : List Glob.Token) : List Char := ts.flatMap ofToken

/-- The pattern of a name. -/
def ofName (name : String) : Pattern := '^' :: ofTokens (Glob.tokens name.toList) ++ ['$']

end Pattern

end AgentAtlas
