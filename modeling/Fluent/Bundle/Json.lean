import Fluent.Bundle.Value

/-!
# Variables from JSON

A JSON object gives variables by the names of its fields. Texts, flags and numbers within the range
of doubles become variables of their kinds; other values can be referred to but not shown.
-/

namespace Fluent

/-- A JSON value. A number beyond the range of doubles is infinite. -/
inductive Json where
  | null
  | flag (value : Bool)
  | number (value : Float)
  | text (value : String)
  | array (items : List Json)
  | object (fields : List (String × Json))

/-- The variable that a JSON value stands for. -/
def Json.toVariable : Json → Variable
  | .flag value => .flag value
  | .number value => if value.isFinite then .number value else .object
  | .text value => .string value
  | _ => .object

/-- The variables that a JSON value gives; none unless it is an object. -/
def Variables.ofJson : Json → Variables
  | .object fields => Table.ofPairs (fields.map fun field => (field.1, field.2.toVariable))
  | _ => ∅

end Fluent
