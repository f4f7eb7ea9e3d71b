import AgentAtlas.Json.Shape
import AgentAtlas.Text.Blank

/-!
# Property values

A value is a flag or a text, as authored. Two spellings say the same when their normalized forms
agree: a text loses the blanks at its ends, and the exact texts `true` and `false` are the flags.
Normalizing twice is normalizing once (`normalized_normalized`).
-/

set_option autoImplicit false

namespace AgentAtlas.Property

/-- A property value as authored. -/
inductive Value where
  | flag (b : Bool)
  | text (s : String)
  deriving DecidableEq, Repr, Inhabited

namespace Value

/-- The value as text. -/
def display : Value → String
  | .flag true => "true"
  | .flag false => "false"
  | .text s => s

/-- The value of a trimmed text: the texts of the flags are flags. -/
def ofTrimmed (s : String) : Value :=
  if s = "true" then .flag true else if s = "false" then .flag false else .text s

/-- The form by which values are compared. -/
def normalized : Value → Value
  | .flag b => .flag b
  | .text s => ofTrimmed (Text.trim s)

/-- Whether the value says nothing: `false`, or a text of blanks. -/
def isBlank : Value → Bool
  | .flag b => !b
  | .text s => (Text.trim s).isEmpty

/-- The value of a flag, a number or a string; a number stands for its text. -/
def ofTree? : Json.Tree → Option Value
  | .bool b => some (.flag b)
  | .number n => n.number?.map fun number => .text (String.ofList number.chars)
  | .string pieces => (Json.text? pieces).map .text
  | _ => none

theorem normalized_ofTrimmed (s : String) :
    (ofTrimmed (Text.trim s)).normalized = ofTrimmed (Text.trim s) := by
  unfold ofTrimmed
  split
  · rfl
  · split
    · rfl
    · rename_i ht hf
      simp [normalized, ofTrimmed, ht, hf]

/-- Normalizing twice is normalizing once. -/
@[simp] theorem normalized_normalized (v : Value) : v.normalized.normalized = v.normalized := by
  cases v with
  | flag b => rfl
  | text s => exact normalized_ofTrimmed s

end Value

end Property

/-- The properties of a record or a definition, in the order in which they were given. -/
abbrev Properties := Keyed String Property.Value

namespace Property

/-- The property which names a record's parent. -/
def parentName : String := "Parent"

/-- The property which marks a record as the head of a group. -/
def commentName : String := "Comment"

end AgentAtlas.Property
