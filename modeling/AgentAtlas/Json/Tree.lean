import AgentAtlas.Json.Numeral
import AgentAtlas.Json.Quoted

/-!
# The tree of a text

`Tree` is a JSON text as written: literals keep their digits and escapes, objects keep repeated
names. A text has a tree exactly if it is well formed, at any depth; whether its strings name texts
and its numbers have readings is asked later and only where they are used.

The reader cuts off one token after the other (`Token.next?`) and hands it to a machine
(`State.step`) whose stack holds the containers that are still open.
-/

set_option autoImplicit false

namespace AgentAtlas.Json

/-- A JSON text as written. -/
inductive Tree where
  | null
  | bool (b : Bool)
  | number (n : Numeral)
  | string (pieces : List Piece)
  | array (items : List Tree)
  | object (members : List (List Piece × Tree))
  deriving Repr, Inhabited

/-! ## Tokens -/

/-- A token: a punctuation mark, a string or another value without parts. -/
inductive Token where
  | openArray | closeArray | openObject | closeObject | comma | colon
  | string (pieces : List Piece)
  | atom (value : Tree)

/-- The characters which may stand between tokens. -/
def isSpace (c : Char) : Bool := c == ' ' || c == '\t' || c == '\n' || c == '\r'

/-- The token at the start of a text, and the rest. -/
def Token.next? : List Char → Option (Token × List Char)
  | '[' :: r => some (.openArray, r)
  | ']' :: r => some (.closeArray, r)
  | '{' :: r => some (.openObject, r)
  | '}' :: r => some (.closeObject, r)
  | ',' :: r => some (.comma, r)
  | ':' :: r => some (.colon, r)
  | '"' :: r => (readPieces r).map fun (pieces, rest) => (.string pieces, rest)
  | 'n' :: 'u' :: 'l' :: 'l' :: r => some (.atom .null, r)
  | 't' :: 'r' :: 'u' :: 'e' :: r => some (.atom (.bool true), r)
  | 'f' :: 'a' :: 'l' :: 's' :: 'e' :: r => some (.atom (.bool false), r)
  | s => (numeral? s).map fun (n, rest) => (.atom (.number n), rest)

/-- A token takes at least one character. -/
theorem Token.length_of_next? {s rest : List Char} {t : Token} (h : next? s = some (t, rest)) :
    rest.length < s.length := by
  unfold next? at h
  split at h
  case h_7 =>
    obtain ⟨⟨ps, r⟩, hr, he⟩ := Option.map_eq_some_iff.1 h
    cases he
    have := length_of_readPieces hr
    simp only [List.length_cons]
    omega
  case h_11 =>
    obtain ⟨⟨n, r⟩, hr, he⟩ := Option.map_eq_some_iff.1 h
    cases he
    exact length_of_numeral? hr
  all_goals cases h; simp only [List.length_cons]; omega

/-! ## The machine -/

/-- A container which is still open, with what it holds so far, latest first. -/
inductive Frame where
  | array (items : List Tree)
  /-- An object whose member `key` waits for its value. -/
  | member (members : List (List Piece × Tree)) (key : List Piece)

/-- What the machine waits for, over the open containers. -/
inductive State where
  /-- A value; `mayClose` right after an opening bracket. -/
  | value (mayClose : Bool) (stack : List Frame)
  /-- A member's name; `mayClose` right after an opening brace. -/
  | name (mayClose : Bool) (members : List (List Piece × Tree)) (stack : List Frame)
  /-- The colon after a name. -/
  | colon (members : List (List Piece × Tree)) (key : List Piece) (stack : List Frame)
  /-- The mark after a value, or the end of the text. -/
  | after (value : Tree) (stack : List Frame)

/-- One token. -/
def State.step : State → Token → Option State
  | .value _ stack, .atom v => some (.after v stack)
  | .value _ stack, .string s => some (.after (.string s) stack)
  | .value _ stack, .openArray => some (.value true (.array [] :: stack))
  | .value _ stack, .openObject => some (.name true [] stack)
  | .value true (.array [] :: stack), .closeArray => some (.after (.array []) stack)
  | .name _ members stack, .string key => some (.colon members key stack)
  | .name true [] stack, .closeObject => some (.after (.object []) stack)
  | .colon members key stack, .colon => some (.value false (.member members key :: stack))
  | .after v (.array items :: stack), .comma => some (.value false (.array (v :: items) :: stack))
  | .after v (.array items :: stack), .closeArray =>
    some (.after (.array (v :: items).reverse) stack)
  | .after v (.member members key :: stack), .comma =>
    some (.name false ((key, v) :: members) stack)
  | .after v (.member members key :: stack), .closeObject =>
    some (.after (.object ((key, v) :: members).reverse) stack)
  | _, _ => none

/-- Every token of a text. -/
def State.run (state : State) (s : List Char) : Option State :=
  match s with
  | [] => some state
  | c :: r =>
    if isSpace c then state.run r
    else
      match _h : Token.next? (c :: r) with
      | none => none
      | some (t, rest) =>
        match state.step t with
        | none => none
        | some next => next.run rest
termination_by s.length
decreasing_by
  · simp
  · exact Token.length_of_next? _h

/-- The tree of a text, if the text is well formed. -/
def Tree.ofChars? (s : List Char) : Option Tree :=
  match (State.value false []).run s with
  | some (.after v []) => some v
  | _ => none

end AgentAtlas.Json
