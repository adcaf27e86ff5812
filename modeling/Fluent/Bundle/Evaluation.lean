import Fluent.Bundle.Basic

/-!
# Evaluation

A pattern is evaluated part by part. What cannot be evaluated is reported and shown by its name, and
evaluation goes on. Two guards keep it finite: a pattern that is still being expanded is not
expanded again, and no more than `deepestExpansion` patterns are expanded inside one another.

Every pattern of a bundle has a place, which tells it from all others, equal ones included. The
functions on expressions take the expansion of nested patterns as an argument, `expand`, and
`expansion` closes the circle.
-/

namespace Fluent

open Format (Formatters)

/-- The most patterns expanded inside one another. -/
def deepestExpansion : Nat := 100

/-- The most characters that a placeable shows. -/
def longestPlaceable : Nat := 2500

/-- Starts a run of text whose direction is its own. -/
def isolateStart : String := "\u2068"

/-- Ends a run of text whose direction is its own. -/
def isolateEnd : String := "\u2069"

/-- Where a pattern or an expression stands: the id of the entry that holds it, if it is one of the
bundle's; the attribute of that entry, unless it belongs to the value; and the positions that lead
to it, the innermost first. -/
structure Place where
  owner : Option String
  attributeName : Option String
  route : List Nat
  deriving DecidableEq, Repr

/-- The place of a part. -/
def Place.child (place : Place) (position : Nat) : Place :=
  { place with route := position :: place.route }

/-- The place of a variant. The first child of a select expression is its selector. -/
def Place.variant (place : Place) (position : Nat) : Place := place.child (position + 1)

/-- What an evaluation has done so far: the problems reported, the formatters built and the places
of the patterns that are being expanded. -/
structure Progress where
  problems : List Problem
  formatters : Formatters
  expanding : List Place

/-- A step of an evaluation. -/
abbrev Evaluation : Type → Type := StateM Progress

namespace Evaluation

/-- Reports a problem. -/
def report (problem : EvaluationProblem) : Evaluation Unit :=
  modify fun progress => { progress with problems := progress.problems ++ [.evaluation problem] }

/-- A step that only needs the formatters. -/
def withFormatters {α : Type} (step : StateM Formatters α) : Evaluation α := fun progress =>
  let (result, formatters) := step progress.formatters
  (result, { progress with formatters })

/-- The pattern at a place is being expanded. -/
def enter (place : Place) : Evaluation Unit :=
  modify fun progress => { progress with expanding := place :: progress.expanding }

/-- The pattern at a place is no longer being expanded. -/
def leave (place : Place) : Evaluation Unit :=
  modify fun progress => { progress with expanding := progress.expanding.erase place }

end Evaluation

open Evaluation

/-- What expressions are evaluated against. -/
structure Scope where
  bundle : Bundle
  bindings : Option Variables

namespace Scope

/-- The text of a value. -/
def write (scope : Scope) (value : Value) : Evaluation String :=
  withFormatters (value.write scope.bundle)

/-- The value of a variable. -/
def variableValue (scope : Scope) (name : String) : Evaluation Value :=
  match scope.bindings.bind fun bindings => bindings[name]? with
  | none => do
    report (.unknownVariable name)
    return .none (some name)
  | some (.string text) => pure (.string text)
  | some (.number value) => pure (.number value ∅)
  | some (.date millis) => pure (.date millis ∅)
  | some (.value value) => pure value
  | some other => do
    report (.unsupportedVariableType name other.kind)
    return .none (some name)

/-- The value of what is found under an id, or the id itself, with a report, if nothing is. -/
def referenceValue (scope : Scope) (id : String) (found : Entry → Evaluation Value) :
    Evaluation Value :=
  match scope.bundle.entryOf? id with
  | some entry => found entry
  | none => do
    report (match EntryKind.ofId id with
      | .term => .unknownTerm id
      | .message => .unknownMessage id)
    return .none (some id)

/-- The first variant that a value selects, counted from `position`. -/
def selected? (scope : Scope) (selector : Value) :
    Nat → List Variant → Evaluation (Option (Nat × Variant))
  | _, [] => pure none
  | position, variant :: rest => do
    if ← withFormatters (variant.key.toValue.selectedBy scope.bundle selector) then
      return some (position, variant)
    else scope.selected? selector (position + 1) rest

section

variable (scope : Scope) (expand : Place → Pattern → Evaluation Value)

/-- The value of an entry: its text or its pattern. -/
def entryValue (id : Option String) : Entry → Evaluation Value
  | .text text => pure (.string (scope.bundle.transformed text))
  | .node (some pattern) _ => expand ⟨id, none, []⟩ pattern
  | .node none _ => do
    report .noValue
    return .none none

/-- The value of an attribute; that of its entry, with a report, if there is no such attribute. -/
def attributeValue (id name : String) : Evaluation Value :=
  scope.referenceValue id fun entry =>
    match entry.attribute? name with
    | some pattern => expand ⟨some id, some name, []⟩ pattern
    | none => do
      report (.unknownAttribute name)
      scope.entryValue expand (some id) entry

/-- The value of the variant of an entry that a key selects; that of the entry, with a report, if
there is no such variant. -/
def variantValue (id : String) (key : VariantKey) : Evaluation Value :=
  scope.referenceValue id fun entry => do
    let list := (entry.pattern?.bind Pattern.variantList?).elim [] Prod.fst
    match ← scope.selected? key.toValue 0 list with
    | some (position, variant) =>
      expand ((Place.child ⟨some id, none, []⟩ 0).variant position) variant.value
    | none =>
      report (.unknownVariant (← scope.write key.toValue))
      scope.entryValue expand (some id) entry

/-- The value of the default among the variants of the expression at a place. -/
def defaultValue (place : Place) (variants : List Variant) (standard : Option Nat) :
    Evaluation Value :=
  match standard.bind fun position => variants[position]?.map (position, ·) with
  | some (position, variant) => expand (place.variant position) variant.value
  | none => do
    report .noDefault
    return .none none

mutual

/-- The value of the expression at a place. -/
def expressionValue (place : Place) : Expression → Evaluation Value
  | .number literal => pure (.number literal.value ∅)
  | .string text => pure (.string (scope.bundle.transformed text))
  | .variableRef name => scope.variableValue name
  | .entryRef id => scope.referenceValue id (scope.entryValue expand (some id))
  | .attributeRef id name => scope.attributeValue expand id name
  | .variantRef id key => scope.variantValue expand id key
  | .call name arguments =>
    match scope.bundle.function? name with
    | none => do
      report (.unknownFunction name)
      return .none (some (name ++ "()"))
    | some function => do
      let (positional, named) ← argumentValues place 0 arguments
      match function positional named with
      | .ok value => return value
      | .error refusal =>
        report (.functionFailed name refusal)
        return .none none
  | .select selector variants standard => do
    let value ← expressionValue (place.child 0) selector
    if value.isNone then defaultValue expand place variants standard
    else
      match ← scope.selected? value 0 variants with
      | some (position, variant) => expand (place.variant position) variant.value
      | none => defaultValue expand place variants standard
  | .variantList variants standard => defaultValue expand place variants standard

/-- The values of arguments, the positional ones in order and the named ones by name; of two with
one name the later is kept. `position` is that of the first argument in the call. -/
def argumentValues (place : Place) (position : Nat) :
    List Argument → Evaluation (List Value × Table Value)
  | [] => pure ([], ∅)
  | .positional expression :: rest => do
    let value ← expressionValue (place.child position) expression
    let (positional, named) ← argumentValues place (position + 1) rest
    return (value :: positional, named)
  | .named name expression :: rest => do
    let value ← expressionValue (place.child position) expression
    let (positional, named) ← argumentValues place (position + 1) rest
    return (positional, named.insertIfNew name value)

end

/-- What a placeable shows of a text: no more than its first `longestPlaceable` characters, with a
report if there are more. -/
def shown (text : String) : Evaluation String :=
  if longestPlaceable < text.length then do
    report (.tooManyCharacters text.length longestPlaceable)
    return String.ofList (text.toList.take longestPlaceable)
  else pure text

/-- The text of the parts of a pattern, `position` being that of the first one. -/
def partsText (isolate : Bool) (place : Place) (position : Nat) :
    List Element → Evaluation String
  | [] => pure ""
  | .text text :: rest => do
    let others ← partsText isolate place (position + 1) rest
    return scope.bundle.transformed text ++ others
  | .placeable expression :: rest => do
    let value ← scope.expressionValue expand (place.child position) expression
    let text ← shown (← scope.write value)
    let others ← partsText isolate place (position + 1) rest
    return (if isolate then isolateStart ++ text ++ isolateEnd else text) ++ others

/-- Whether the placeables among the parts of a pattern stand between direction marks. -/
def isolates (parts : List Element) : Bool := scope.bundle.options.isolating && 1 < parts.length

/-- The value of a pattern with parts, by evaluating them. -/
def partsValue (place : Place) (parts : List Element) : Evaluation Value := do
  enter place
  let text ← scope.partsText expand (scope.isolates parts) place 0 parts
  leave place
  return .string text

end

/-- The value of the pattern at a place, with room for so many patterns inside one another. -/
def expansion (scope : Scope) : Nat → Place → Pattern → Evaluation Value
  | _, _, .text text => pure (.string (scope.bundle.transformed text))
  | room, place, .elements parts => do
    if place ∈ (← get).expanding then
      report .cyclic
      return .none none
    else
      match room with
      | 0 =>
        report (.tooDeeplyNested deepestExpansion)
        return .none none
      | room + 1 => scope.partsValue (scope.expansion room) place parts

end Scope

end Fluent
