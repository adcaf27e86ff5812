import Fluent.Bundle.Evaluation

/-!
# Formatting

A bundle formats a message, or one pattern such as an attribute. `Bundle.resolve` evaluates whatever
it is given; `Bundle.format` has no text for an entry without a value and takes plain text as it
is.
-/

namespace Fluent

open Format (Formatters)

/-- What a bundle can format: an entry, with the id under which the bundle holds it, if it does; or
a pattern and its place. -/
inductive Target where
  | entry (id : Option String) (entry : Entry)
  | pattern (place : Place) (pattern : Pattern)

namespace Bundle

/-- The message with the given id, to be formatted. -/
def messageTarget? (bundle : Bundle) (id : String) : Option Target :=
  (bundle.message? id).map (.entry (some id))

/-- The attribute of a message, to be formatted. -/
def attributeTarget? (bundle : Bundle) (id name : String) : Option Target := do
  let entry ← bundle.message? id
  let pattern ← entry.attribute? name
  return .pattern ⟨some id, some name, []⟩ pattern

end Bundle

/-- The value of a target. -/
def Scope.targetValue (scope : Scope) : Target → Evaluation Value
  | .entry id entry => scope.entryValue (scope.expansion deepestExpansion) id entry
  | .pattern place pattern => scope.expansion deepestExpansion place pattern

/-- The text of a target. -/
def Scope.targetText (scope : Scope) (target : Target) : Evaluation String := do
  scope.write (← scope.targetValue target)

/-- What formatting gives: the text, the problems with the new ones at the end, and the formatters
built so far. -/
structure Formatted (τ : Type) where
  text : τ
  problems : List Problem
  formatters : Formatters

namespace Bundle

/-- The text of a target. Problems are added to those given. -/
def resolve (bundle : Bundle) (bindings : Option Variables) (target : Target)
    (problems : List Problem) : Formatted String :=
  let (text, progress) := (Scope.mk bundle bindings).targetText target
    { problems, formatters := bundle.formatters, expanding := [] }
  { text, problems := progress.problems, formatters := progress.formatters }

/-- The text of a target, none for an entry without a value. Problems are added to those given. -/
def format (bundle : Bundle) (bindings : Option Variables) (target : Target)
    (problems : List Problem) : Formatted (Option String) :=
  let literal (text : String) : Formatted (Option String) :=
    { text := some (bundle.transformed text), problems, formatters := bundle.formatters }
  let resolved (target : Target) : Formatted (Option String) :=
    let formatted := bundle.resolve bindings target problems
    { formatted with text := some formatted.text }
  match target with
  | .entry _ (.text text) => literal text
  | .pattern _ (.text text) => literal text
  | .entry _ (.node none _) => { text := none, problems, formatters := bundle.formatters }
  | .entry _ (.node (some (.text text)) _) => literal text
  | .entry id (.node (some pattern) _) => resolved (.pattern ⟨id, none, []⟩ pattern)
  | .pattern place pattern => resolved (.pattern place pattern)

end Bundle

end Fluent
