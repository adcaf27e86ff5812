import Fluent.Format.Options
import Fluent.Message.Pattern

/-!
# Values

What expressions evaluate to, and what callers hand in for variables.
-/

namespace Fluent

open Format (Options)

/-- What an expression evaluates to. `none` stands for what could not be evaluated and shows the
name of what was meant, if there is one. Dates count milliseconds since the epoch. -/
inductive Value where
  | none (name : Option String)
  | string (text : String)
  | symbol (text : String)
  | number (value : Float) (options : Options)
  | date (millis : Int64) (options : Options)
  deriving DecidableEq

/-- Whether a value stands for what could not be evaluated. -/
def Value.isNone : Value → Bool
  | .none _ => true
  | _ => false

/-- The value that a variant key is matched by. -/
def VariantKey.toValue : VariantKey → Value
  | .number literal => .number literal.value ∅
  | .keyword name => .symbol name

/-- What a caller hands in for a variable. Flags and other objects are accepted but cannot be
shown. -/
inductive Variable where
  | string (text : String)
  | number (value : Float)
  | flag (value : Bool)
  | date (millis : Int64)
  | value (value : Value)
  | object
  deriving DecidableEq

/-- The name of the kind of a variable. -/
def Variable.kind : Variable → String
  | .string _ => "string"
  | .number _ => "number"
  | .flag _ => "boolean"
  | .date _ => "datetime"
  | .value _ => "fluent"
  | .object => "object"

/-- The variables of a call, by name. -/
abbrev Variables : Type := Table Variable

end Fluent
