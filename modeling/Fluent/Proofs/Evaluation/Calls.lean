import Fluent.Proofs.Evaluation.Derivation
import Mathlib.Logic.Relation

/-!
# Parts of evaluations

The evaluation of a task comes to other tasks, each with the patterns around it and the state that
it starts from.

* `Calls`: what is evaluated as a part of a task;
* `Runs.calls`, `Runs.reaches`: what is evaluated inside an evaluation comes to an end before it.
-/

namespace Fluent

/-- The expression of an argument. -/
def Argument.expression : Argument → Expression
  | .positional value => value
  | .named _ value => value

/-- A task to be done, with the patterns around it and the state it starts from. -/
structure Frame where
  path : List Place
  task : Task
  start : Progress

section

variable (scope : Scope) (guard : List Place → Place → Option EvaluationProblem)

/-- A run of which nothing is asked. -/
abbrev Completes : List Place → Task → Progress → Outcome → Progress → Prop :=
  Runs scope guard fun _ _ => True

/-- What the evaluation of a task evaluates as a part of it. What comes first has been evaluated
when what comes next is. -/
inductive Calls : Frame → Frame → Prop
  | pattern {path place parts start} (free : guard start.expanding place = none) :
    Calls ⟨path, .pattern place (.elements parts), start⟩
      ⟨place :: path, .parts (scope.isolates parts) place 0 parts, start.entered place⟩
  | partsText {path isolate place position text parts start} :
    Calls ⟨path, .parts isolate place position (.text text :: parts), start⟩
      ⟨path, .parts isolate place (position + 1) parts, start⟩
  | placeable {path isolate place position expression parts start} :
    Calls ⟨path, .parts isolate place position (.placeable expression :: parts), start⟩
      ⟨path, .expression (place.child position) expression, start⟩
  | partsPlaceable {path isolate place position expression parts start value after text written}
    (inner : Completes scope guard path (.expression (place.child position) expression) start
      (.value value) after)
    (shows : scope.placeableText value after = (text, written)) :
    Calls ⟨path, .parts isolate place position (.placeable expression :: parts), start⟩
      ⟨path, .parts isolate place (position + 1) parts, written⟩
  | entry {path id pattern attributes start} :
    Calls ⟨path, .entry id (.node (some pattern) attributes), start⟩
      ⟨path, .pattern ⟨id, none, []⟩ pattern, start⟩
  | entryRef {path place id entry start} (found : scope.bundle.entryOf? id = some entry) :
    Calls ⟨path, .expression place (.entryRef id), start⟩ ⟨path, .entry (some id) entry, start⟩
  | attributeRef {path place id name entry pattern start}
    (found : scope.bundle.entryOf? id = some entry) (has : entry.attribute? name = some pattern) :
    Calls ⟨path, .expression place (.attributeRef id name), start⟩
      ⟨path, .pattern ⟨some id, some name, []⟩ pattern, start⟩
  | attributeMissing {path place id name entry start}
    (found : scope.bundle.entryOf? id = some entry) (lacks : entry.attribute? name = none) :
    Calls ⟨path, .expression place (.attributeRef id name), start⟩
      ⟨path, .entry (some id) entry, start.reported (.unknownAttribute name)⟩
  | variantRef {path place id key entry start position variant chosen}
    (found : scope.bundle.entryOf? id = some entry)
    (has : scope.selected? key.toValue 0 entry.variants start =
      (some (position, variant), chosen)) :
    Calls ⟨path, .expression place (.variantRef id key), start⟩
      ⟨path, .pattern ((Place.child ⟨some id, none, []⟩ 0).variant position) variant.value, chosen⟩
  | variantMissing {path place id key entry start chosen text written}
    (found : scope.bundle.entryOf? id = some entry)
    (lacks : scope.selected? key.toValue 0 entry.variants start = (none, chosen))
    (names : scope.write key.toValue chosen = (text, written)) :
    Calls ⟨path, .expression place (.variantRef id key), start⟩
      ⟨path, .entry (some id) entry, written.reported (.unknownVariant text)⟩
  | call {path place name arguments function start}
    (found : scope.bundle.function? name = some function) :
    Calls ⟨path, .expression place (.call name arguments), start⟩
      ⟨path, .arguments place 0 arguments, start⟩
  | selector {path place selector variants standard start} :
    Calls ⟨path, .expression place (.select selector variants standard), start⟩
      ⟨path, .expression (place.child 0) selector, start⟩
  | select {path place selector variants standard start key read position variant chosen}
    (inner : Completes scope guard path (.expression (place.child 0) selector) start (.value key)
      read)
    (known : key.isNone = false)
    (has : scope.selected? key 0 variants read = (some (position, variant), chosen)) :
    Calls ⟨path, .expression place (.select selector variants standard), start⟩
      ⟨path, .pattern (place.variant position) variant.value, chosen⟩
  | selectStandard {path place selector variants standard start key read chosen}
    (inner : Completes scope guard path (.expression (place.child 0) selector) start (.value key)
      read)
    (known : key.isNone = false) (lacks : scope.selected? key 0 variants read = (none, chosen)) :
    Calls ⟨path, .expression place (.select selector variants standard), start⟩
      ⟨path, .standard place variants standard, chosen⟩
  | selectNone {path place selector variants standard start key read}
    (inner : Completes scope guard path (.expression (place.child 0) selector) start (.value key)
      read)
    (unknown : key.isNone = true) :
    Calls ⟨path, .expression place (.select selector variants standard), start⟩
      ⟨path, .standard place variants standard, read⟩
  | variantList {path place variants standard start} :
    Calls ⟨path, .expression place (.variantList variants standard), start⟩
      ⟨path, .standard place variants standard, start⟩
  | standard {path place variants standard position variant start}
    (has : standardVariant? variants standard = some (position, variant)) :
    Calls ⟨path, .standard place variants standard, start⟩
      ⟨path, .pattern (place.variant position) variant.value, start⟩
  | argument {path place position argument arguments start} :
    Calls ⟨path, .arguments place position (argument :: arguments), start⟩
      ⟨path, .expression (place.child position) argument.expression, start⟩
  | arguments {path place position argument arguments start value read}
    (inner : Completes scope guard path (.expression (place.child position) argument.expression)
      start (.value value) read) :
    Calls ⟨path, .arguments place position (argument :: arguments), start⟩
      ⟨path, .arguments place (position + 1) arguments, read⟩

end

/-- A run with a condition is one without. -/
theorem Runs.completes {scope : Scope} {guard : List Place → Place → Option EvaluationProblem}
    {M : List Place → Progress → Prop} {path : List Place} {task : Task} {start finish : Progress}
    {outcome : Outcome} (run : Runs scope guard M path task start outcome finish) :
    Completes scope guard path task start outcome finish := by
  -- The same rule applies, with nothing to hold before and after it.
  induction run <;> grind [Runs]

/-! ## Evaluations inside others -/

/-- A preorder in which states go up as evaluations go on. -/
structure Rises (scope : Scope) (guard : List Place → Place → Option EvaluationProblem)
    (R : Progress → Progress → Prop) : Prop where
  refl : ∀ start, R start start
  trans : ∀ {start middle finish}, R start middle → R middle finish → R start finish
  run : ∀ {path task start outcome finish}, Completes scope guard path task start outcome finish →
    R start finish
  shown : ∀ {value start text written}, scope.placeableText value start = (text, written) →
    R start written
  selected : ∀ {key position variants start selection chosen},
    scope.selected? key position variants start = (selection, chosen) → R start chosen
  reported : ∀ start problem, R start (start.reported problem)
  left : ∀ inside place, R inside (inside.left place)

section

variable {scope : Scope} {guard : List Place → Place → Option EvaluationProblem}
  {R : Progress → Progress → Prop} {frame inner : Frame} {path : List Place} {task : Task}
  {start finish : Progress} {outcome : Outcome}

/-- What is evaluated as a part of a task comes to an end, and the task goes up from there. -/
theorem Runs.calls (rises : Rises scope guard R)
    (run : Completes scope guard path task start outcome finish)
    (calls : Calls scope guard ⟨path, task, start⟩ inner) :
    ∃ result last, Completes scope guard inner.path inner.task inner.start result last ∧
      R last finish := by
  -- The rule that the task was evaluated by is the one that the part belongs to: what the part
  -- starts from has been found by the same run.
  have deterministic {path task start outcome finish outcome' finish'}
      (run : Completes scope guard path task start outcome finish)
      (other : Completes scope guard path task start outcome' finish') :=
    run.deterministic other
  have refl := rises.refl
  cases calls with
  | pattern free =>
    cases run with
    | patternRefused _ refused => cases free.symm.trans refused
    | patternExpanded _ _ inner => exact ⟨_, _, inner, rises.left _ _⟩
  | placeable =>
    cases run with
    | partsPlaceable inner shows next =>
      exact ⟨_, _, inner, rises.trans (rises.shown shows) (rises.run next)⟩
  | call found =>
    cases run with
    | unknown refers => cases refers
    | callUnknown absent => cases absent.symm.trans found
    | call found' inner => exact ⟨_, _, inner, refl _⟩
    | callRefused found' inner => exact ⟨_, _, inner, rises.reported _ _⟩
  | selector =>
    cases run with
    | unknown refers => cases refers
    | select inner _ has next =>
      exact ⟨_, _, inner, rises.trans (rises.selected has) (rises.run next)⟩
    | selectStandard inner _ lacks next =>
      exact ⟨_, _, inner, rises.trans (rises.selected lacks) (rises.run next)⟩
    | selectNone inner _ next => exact ⟨_, _, inner, rises.run next⟩
  | argument =>
    cases run with
    | argumentPositional inner next => exact ⟨_, _, inner, rises.run next⟩
    | argumentNamed inner next => exact ⟨_, _, inner, rises.run next⟩
  | arguments before =>
    cases run with
    | argumentPositional inner next =>
      obtain ⟨-, rfl⟩ := inner.deterministic before
      exact ⟨_, _, next, refl _⟩
    | argumentNamed inner next =>
      obtain ⟨-, rfl⟩ := inner.deterministic before
      exact ⟨_, _, next, refl _⟩
  | _ => cases run <;> grind [Expression.referent?]

/-- So does all that is evaluated inside it. -/
theorem Runs.reaches (rises : Rises scope guard R)
    (run : Completes scope guard frame.path frame.task frame.start outcome finish)
    (reaches : Relation.ReflTransGen (Calls scope guard) frame inner) :
    ∃ result last, Completes scope guard inner.path inner.task inner.start result last ∧
      R last finish := by
  induction reaches with
  | refl => exact ⟨outcome, finish, run, rises.refl finish⟩
  | tail _ calls ih =>
    obtain ⟨result, last, before, above⟩ := ih
    obtain ⟨result', last', inside, above'⟩ := before.calls rises calls
    exact ⟨result', last', inside, rises.trans above' above⟩

end

end Fluent
