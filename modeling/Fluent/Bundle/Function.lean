import Fluent.Bundle.Value
import Fluent.Refusal
import Fluent.Text.Space

/-!
# Functions

A function turns positional and named values into a value, or refuses. `NUMBER` and `DATETIME` are
always known; they put options on a number or a date.
-/

namespace Fluent

open Format (OptionValue Options)

/-- What an expression can call. -/
abbrev Function : Type := List Value → Table Value → Except Refusal Value

namespace Function

/-- The option that a named value stands for, if it stands for one. -/
def optionOf? : Value → Option OptionValue
  | .string text => some (.text text)
  | .symbol text => some (.text text)
  | .number value _ => some (.number value)
  | _ => none

/-- The options that named values stand for; the others are left out. -/
def optionsOf (named : Table Value) : Options := named.filterMap fun _ value => optionOf? value

/-- Why `NUMBER` refuses. -/
def notNumeric : Refusal := .invalidInput "NUMBER expects a numeric argument"

/-- Why `DATETIME` refuses. -/
def notDate : Refusal := .invalidInput "DATETIME expects a date argument"

/-- The number that a text stands for, white space around it aside. -/
def numberOfText (text : String) : Except Refusal Float :=
  match Number.readFloat? (Text.trim text.toList) with
  | some value => .ok value
  | none => .error notNumeric

/-- `NUMBER(value, ...options)`: a number, or a text that stands for one, with the named options put
over its own. -/
def number : Function := fun positional named =>
  match positional.head? with
  | some (.number value options) => .ok (.number value (options.merge (optionsOf named)))
  | some (.string text) => do return .number (← numberOfText text) (optionsOf named)
  | some (.symbol text) => do return .number (← numberOfText text) (optionsOf named)
  | _ => .error notNumeric

/-- `DATETIME(value, ...options)`: a date, or a finite number of milliseconds without its fraction,
with the named options put over its own. -/
def datetime : Function := fun positional named =>
  match positional.head? with
  | some (.date millis options) => .ok (.date millis (options.merge (optionsOf named)))
  | some (.number value options) =>
    if value.isFinite then
      .ok (.date (Int64.ofInt (Number.toWhole value)) (options.merge (optionsOf named)))
    else .error notDate
  | _ => .error notDate

/-- The functions that are always known. -/
def builtin? (name : String) : Option Function :=
  if name = "NUMBER" then some number else if name = "DATETIME" then some datetime else none

end Function

end Fluent
