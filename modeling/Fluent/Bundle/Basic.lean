import Fluent.Bundle.Function
import Fluent.Bundle.Problem
import Fluent.Format.Formatters
import Fluent.Grammar.Resource

/-!
# Bundles

A bundle holds the messages and terms of one chain of locales and what is needed to evaluate them.
Resources are added one after the other. The first resource to define an id keeps it; a later
definition is reported.
-/

namespace Fluent

open Format (Backend Formatters Options)

/-- How a bundle evaluates. Functions of a bundle go before those that are always known. With
`isolating` set, the placeables of a mixed pattern stand between direction marks. The transform is
applied to literal text. -/
structure BundleOptions where
  functions : Table Function := ∅
  isolating : Bool := true
  transform : Option (String → String) := none
  backend : Backend := .basic

/-- The entries of one chain of locales, how they are evaluated, and the formatters built so far. -/
structure Bundle where
  locales : List LanguageTag
  options : BundleOptions
  messages : Table Entry
  terms : Table Entry
  formatters : Formatters

namespace Bundle

/-- A bundle without entries. -/
def empty (locales : List LanguageTag) (options : BundleOptions) : Bundle where
  locales
  options
  messages := ∅
  terms := ∅
  formatters := .empty

/-- The entry with the given id, a message or a term. -/
def entryOf? (bundle : Bundle) (id : String) : Option Entry :=
  match EntryKind.ofId id with
  | .term => bundle.terms[id]?
  | .message => bundle.messages[id]?

/-- The message with the given id. -/
def message? (bundle : Bundle) (id : String) : Option Entry := bundle.messages[id]?

/-- The ids of the messages, in order. -/
def messageIds (bundle : Bundle) : List String := bundle.messages.keys

/-- The bundle with one more entry, whose id is new. -/
def insert (bundle : Bundle) (id : String) (entry : Entry) : Bundle :=
  match EntryKind.ofId id with
  | .term => { bundle with terms := bundle.terms.insert id entry }
  | .message => { bundle with messages := bundle.messages.insert id entry }

/-- Adds entries one after the other; those whose ids are taken are reported instead. -/
def addEntries (bundle : Bundle) : List (String × Entry) → Bundle × List Problem
  | [] => (bundle, [])
  | (id, entry) :: rest =>
    if (bundle.entryOf? id).isSome then
      let (bundle, problems) := bundle.addEntries rest
      (bundle, .overriding (EntryKind.ofId id) id :: problems)
    else (bundle.insert id entry).addEntries rest

/-- Adds the entries of a resource in the order of their ids. The faults of the resource are
reported first. -/
def addResource (bundle : Bundle) (resource : Grammar.Resource) : Bundle × List Problem :=
  let (bundle, problems) := bundle.addEntries resource.entries.toList
  (bundle, resource.errors.map .grammar ++ problems)

/-- Adds the entries of a text. -/
def addMessages (bundle : Bundle) (source : String) : Bundle × List Problem :=
  bundle.addResource (.parse source)

/-- The text after the transform of the bundle. -/
def transformed (bundle : Bundle) (text : String) : String :=
  match bundle.options.transform with
  | some transform => transform text
  | none => text

/-- The function of the given name: the bundle's own, or else one that is always known. -/
def function? (bundle : Bundle) (name : String) : Option Function :=
  bundle.options.functions[name]? <|> Function.builtin? name

end Bundle

/-- The text of a value: the name of what could not be evaluated, or three question marks; a text or
symbol as it is; a number or date as the bundle writes it. -/
def Value.write (bundle : Bundle) : Value → StateM Formatters String
  | .none name => pure (if name.getD "" = "" then "???" else name.getD "")
  | .string text => pure text
  | .symbol text => pure text
  | .number value options =>
    Formatters.writeNumber bundle.options.backend bundle.locales value options
  | .date millis options =>
    Formatters.writeDate bundle.options.backend bundle.locales millis options

/-- Whether a value, as the key of a variant, is selected by another. Numbers are selected by equal
numbers; a symbol by the same symbol or text, and by numbers of the plural category it names. -/
def Value.selectedBy (bundle : Bundle) (key selector : Value) : StateM Formatters Bool :=
  match key, selector with
  | .number key _, .number selector _ => pure (key == selector)
  | .symbol key, .symbol selector => pure (key == selector)
  | .symbol key, .string selector => pure (key == selector)
  | .symbol key, .number selector options => do
    let category ← Formatters.pluralCategory bundle.options.backend bundle.locales selector options
    return category.name == key
  | _, _ => pure false

end Fluent
