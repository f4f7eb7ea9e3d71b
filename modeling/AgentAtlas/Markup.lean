/-!
# Formats of property texts

Property names and texts go into a row either as they are or with the five characters which have a
meaning in markup written as entities.
-/

set_option autoImplicit false

namespace AgentAtlas

/-- How property names and texts are written. -/
inductive Format where
  | json
  | xml
  deriving DecidableEq, Repr, Inhabited

/-- The entity of a character which has one. -/
def Markup.entity? : Char → Option (List Char)
  | '&' => some "&amp;".toList
  | '<' => some "&lt;".toList
  | '>' => some "&gt;".toList
  | '"' => some "&quot;".toList
  | '\'' => some "&#039;".toList
  | _ => none

/-- A text with its entities. -/
def Markup.escape (s : List Char) : List Char := s.flatMap fun c => (entity? c).getD [c]

namespace Format

def name : Format → String
  | .json => "json"
  | .xml => "xml"

/-- The format of a name, in any case of its letters. -/
def ofName? (s : String) : Option Format :=
  match s.toLower with
  | "json" => some .json
  | "xml" => some .xml
  | _ => none

/-- The text which refuses a name. -/
def refusal (s : String) : String := "unknown formatter: " ++ s.toLower

/-- A property name or text as the format writes it. -/
def text (format : Format) (s : String) : String :=
  match format with
  | .json => s
  | .xml => String.ofList (Markup.escape s.toList)

end Format

end AgentAtlas
