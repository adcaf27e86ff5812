import Fluent.Bundle.Format

/-!
# Evaluations step by step

An evaluation as a finite derivation, without a bound on its depth. A pattern with parts is expanded
unless a guard, which sees the places that are being expanded, refuses it. The path of a derivation
names the patterns around it that are being expanded, the innermost first.

* `Runs`: the derivations, with a condition that holds before and after each of their steps;
* `Runs.deterministic`: there is at most one outcome.
-/

namespace Fluent

/-- What is evaluated. -/
inductive Task where
  | pattern (place : Place) (pattern : Pattern)
  | parts (isolate : Bool) (place : Place) (position : Nat) (parts : List Element)
  | entry (id : Option String) (entry : Entry)
  | expression (place : Place) (expression : Expression)
  | standard (place : Place) (variants : List Variant) (standard : Option Nat)
  | arguments (place : Place) (position : Nat) (arguments : List Argument)

/-- What an evaluation comes to. -/
inductive Outcome where
  | value (value : Value)
  | text (text : String)
  | arguments (positional : List Value) (named : Table Value)

namespace Progress

/-- The progress with one more problem. -/
def reported (progress : Progress) (problem : EvaluationProblem) : Progress :=
  { progress with problems := progress.problems ++ [.evaluation problem] }

/-- The progress with the pattern at a place being expanded. -/
def entered (progress : Progress) (place : Place) : Progress :=
  { progress with expanding := place :: progress.expanding }

/-- The progress with the pattern at a place no longer being expanded. -/
def left (progress : Progress) (place : Place) : Progress :=
  { progress with expanding := progress.expanding.erase place }

end Progress

/-- The id of the entry that an expression refers to. -/
def Expression.referent? : Expression → Option String
  | .entryRef id => some id
  | .attributeRef id _ => some id
  | .variantRef id _ => some id
  | _ => none

/-- The problem of an id that nothing is found under. -/
def unknownEntry (id : String) : EvaluationProblem :=
  match EntryKind.ofId id with
  | .term => .unknownTerm id
  | .message => .unknownMessage id

/-- The variants of an entry that starts with a variant list. -/
def Entry.variants (entry : Entry) : List Variant :=
  (entry.pattern?.bind Pattern.variantList?).elim [] Prod.fst

/-- The default variant, with its position. -/
def standardVariant? (variants : List Variant) (standard : Option Nat) : Option (Nat × Variant) :=
  standard.bind fun position => variants[position]?.map (position, ·)

/-- Why a pattern is not expanded inside those that are: it is one of them, or they are too many. -/
def refusal? (expanding : List Place) (place : Place) : Option EvaluationProblem :=
  if place ∈ expanding then some .cyclic
  else if deepestExpansion ≤ expanding.length then some (.tooDeeplyNested deepestExpansion)
  else none

/-- The text of a value in a placeable. -/
def Scope.placeableText (scope : Scope) (value : Value) : Evaluation String := do
  shown (← scope.write value)

section

variable (scope : Scope) (guard : List Place → Place → Option EvaluationProblem)
  (M : List Place → Progress → Prop)

/-- A task is evaluated from one state to another, with an outcome. `M` holds of the path and the
state before and after each step. -/
inductive Runs : List Place → Task → Progress → Outcome → Progress → Prop
  | patternText {path place text start} (before : M path start) :
    Runs path (.pattern place (.text text)) start
      (.value (.string (scope.bundle.transformed text))) start
  | patternRefused {path place parts start problem} (before : M path start)
    (refused : guard start.expanding place = some problem)
    (after : M path (start.reported problem)) :
    Runs path (.pattern place (.elements parts)) start (.value (.none none))
      (start.reported problem)
  | patternExpanded {path place parts start text inside} (before : M path start)
    (free : guard start.expanding place = none)
    (inner : Runs (place :: path) (.parts (scope.isolates parts) place 0 parts)
      (start.entered place) (.text text) inside)
    (after : M path (inside.left place)) :
    Runs path (.pattern place (.elements parts)) start (.value (.string text)) (inside.left place)
  | partsNil {path isolate place position start} (before : M path start) :
    Runs path (.parts isolate place position []) start (.text "") start
  | partsText {path isolate place position text parts start others finish}
    (next : Runs path (.parts isolate place (position + 1) parts) start (.text others) finish) :
    Runs path (.parts isolate place position (.text text :: parts)) start
      (.text (scope.bundle.transformed text ++ others)) finish
  | partsPlaceable {path isolate place position expression parts start value after text written
      others finish}
    (inner : Runs path (.expression (place.child position) expression) start (.value value) after)
    (shows : scope.placeableText value after = (text, written))
    (next : Runs path (.parts isolate place (position + 1) parts) written (.text others) finish) :
    Runs path (.parts isolate place position (.placeable expression :: parts)) start
      (.text ((if isolate then isolateStart ++ text ++ isolateEnd else text) ++ others)) finish
  | entryText {path id text start} (before : M path start) :
    Runs path (.entry id (.text text)) start
      (.value (.string (scope.bundle.transformed text))) start
  | entryPattern {path id pattern attributes start value finish}
    (inner : Runs path (.pattern ⟨id, none, []⟩ pattern) start (.value value) finish) :
    Runs path (.entry id (.node (some pattern) attributes)) start (.value value) finish
  | entryEmpty {path id attributes start} (before : M path start)
    (after : M path (start.reported .noValue)) :
    Runs path (.entry id (.node none attributes)) start (.value (.none none))
      (start.reported .noValue)
  | number {path place literal start} (before : M path start) :
    Runs path (.expression place (.number literal)) start (.value (.number literal.value ∅)) start
  | string {path place text start} (before : M path start) :
    Runs path (.expression place (.string text)) start
      (.value (.string (scope.bundle.transformed text))) start
  | variableRef {path place name start value finish} (before : M path start)
    (found : scope.variableValue name start = (value, finish)) (after : M path finish) :
    Runs path (.expression place (.variableRef name)) start (.value value) finish
  | unknown {path place expression id start} (refers : expression.referent? = some id)
    (absent : scope.bundle.entryOf? id = none) (before : M path start)
    (after : M path (start.reported (unknownEntry id))) :
    Runs path (.expression place expression) start (.value (.none (some id)))
      (start.reported (unknownEntry id))
  | entryRef {path place id entry start value finish}
    (found : scope.bundle.entryOf? id = some entry)
    (inner : Runs path (.entry (some id) entry) start (.value value) finish) :
    Runs path (.expression place (.entryRef id)) start (.value value) finish
  | attributeRef {path place id name entry pattern start value finish}
    (found : scope.bundle.entryOf? id = some entry) (has : entry.attribute? name = some pattern)
    (inner : Runs path (.pattern ⟨some id, some name, []⟩ pattern) start (.value value) finish) :
    Runs path (.expression place (.attributeRef id name)) start (.value value) finish
  | attributeMissing {path place id name entry start value finish}
    (found : scope.bundle.entryOf? id = some entry) (lacks : entry.attribute? name = none)
    (before : M path start)
    (inner : Runs path (.entry (some id) entry) (start.reported (.unknownAttribute name))
      (.value value) finish) :
    Runs path (.expression place (.attributeRef id name)) start (.value value) finish
  | variantRef {path place id key entry start position variant chosen value finish}
    (found : scope.bundle.entryOf? id = some entry) (before : M path start)
    (has : scope.selected? key.toValue 0 entry.variants start = (some (position, variant), chosen))
    (inner : Runs path (.pattern ((Place.child ⟨some id, none, []⟩ 0).variant position)
      variant.value) chosen (.value value) finish) :
    Runs path (.expression place (.variantRef id key)) start (.value value) finish
  | variantMissing {path place id key entry start chosen text written value finish}
    (found : scope.bundle.entryOf? id = some entry) (before : M path start)
    (lacks : scope.selected? key.toValue 0 entry.variants start = (none, chosen))
    (names : scope.write key.toValue chosen = (text, written))
    (inner : Runs path (.entry (some id) entry) (written.reported (.unknownVariant text))
      (.value value) finish) :
    Runs path (.expression place (.variantRef id key)) start (.value value) finish
  | callUnknown {path place name arguments start}
    (absent : scope.bundle.function? name = none) (before : M path start)
    (after : M path (start.reported (.unknownFunction name))) :
    Runs path (.expression place (.call name arguments)) start
      (.value (.none (some (name ++ "()")))) (start.reported (.unknownFunction name))
  | call {path place name arguments function start positional named value finish}
    (found : scope.bundle.function? name = some function)
    (inner : Runs path (.arguments place 0 arguments) start (.arguments positional named) finish)
    (gives : function positional named = .ok value) :
    Runs path (.expression place (.call name arguments)) start (.value value) finish
  | callRefused {path place name arguments function start positional named refusal finish}
    (found : scope.bundle.function? name = some function)
    (inner : Runs path (.arguments place 0 arguments) start (.arguments positional named) finish)
    (gives : function positional named = .error refusal)
    (after : M path (finish.reported (.functionFailed name refusal))) :
    Runs path (.expression place (.call name arguments)) start (.value (.none none))
      (finish.reported (.functionFailed name refusal))
  | select {path place selector variants standard start key read position variant chosen value
      finish}
    (inner : Runs path (.expression (place.child 0) selector) start (.value key) read)
    (known : key.isNone = false)
    (has : scope.selected? key 0 variants read = (some (position, variant), chosen))
    (next : Runs path (.pattern (place.variant position) variant.value) chosen (.value value)
      finish) :
    Runs path (.expression place (.select selector variants standard)) start (.value value) finish
  | selectStandard {path place selector variants standard start key read chosen value finish}
    (inner : Runs path (.expression (place.child 0) selector) start (.value key) read)
    (known : key.isNone = false) (lacks : scope.selected? key 0 variants read = (none, chosen))
    (next : Runs path (.standard place variants standard) chosen (.value value) finish) :
    Runs path (.expression place (.select selector variants standard)) start (.value value) finish
  | selectNone {path place selector variants standard start key read value finish}
    (inner : Runs path (.expression (place.child 0) selector) start (.value key) read)
    (unknown : key.isNone = true)
    (next : Runs path (.standard place variants standard) read (.value value) finish) :
    Runs path (.expression place (.select selector variants standard)) start (.value value) finish
  | variantList {path place variants standard start value finish}
    (next : Runs path (.standard place variants standard) start (.value value) finish) :
    Runs path (.expression place (.variantList variants standard)) start (.value value) finish
  | standard {path place variants standard position variant start value finish}
    (has : standardVariant? variants standard = some (position, variant))
    (inner : Runs path (.pattern (place.variant position) variant.value) start (.value value)
      finish) :
    Runs path (.standard place variants standard) start (.value value) finish
  | standardMissing {path place variants standard start}
    (lacks : standardVariant? variants standard = none) (before : M path start)
    (after : M path (start.reported .noDefault)) :
    Runs path (.standard place variants standard) start (.value (.none none))
      (start.reported .noDefault)
  | argumentsNil {path place position start} (before : M path start) :
    Runs path (.arguments place position []) start (.arguments [] ∅) start
  | argumentPositional {path place position expression arguments start value read positional named
      finish}
    (inner : Runs path (.expression (place.child position) expression) start (.value value) read)
    (next : Runs path (.arguments place (position + 1) arguments) read (.arguments positional named)
      finish) :
    Runs path (.arguments place position (.positional expression :: arguments)) start
      (.arguments (value :: positional) named) finish
  | argumentNamed {path place position name expression arguments start value read positional named
      finish}
    (inner : Runs path (.expression (place.child position) expression) start (.value value) read)
    (next : Runs path (.arguments place (position + 1) arguments) read (.arguments positional named)
      finish) :
    Runs path (.arguments place position (.named name expression :: arguments)) start
      (.arguments positional (named.insertIfNew name value)) finish

end

section

variable {scope : Scope} {guard : List Place → Place → Option EvaluationProblem}
  {M M' : List Place → Progress → Prop} {path : List Place} {task : Task} {start finish : Progress}
  {outcome : Outcome}

theorem Runs.after (run : Runs scope guard M path task start outcome finish) : M path finish := by
  induction run <;> assumption

theorem Runs.deterministic (run : Runs scope guard M path task start outcome finish)
    {outcome' finish'} (other : Runs scope guard M' path task start outcome' finish') :
    outcome' = outcome ∧ finish' = finish := by
  -- The rules of one task exclude one another by their conditions, and where one rule applies
  -- twice, what it runs first agrees, so that what it runs next starts from the same state.
  induction run generalizing outcome' finish' <;> cases other <;> grind [Expression.referent?]

end

end Fluent
