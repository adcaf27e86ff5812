import Mathlib
import Fluent.Proofs.Evaluation.Transform

/-!
# Choices whatever the transform

Where the transform of a bundle leaves alone the literal texts that selectors are evaluated from,
every select expression chooses the same variant with it as without it.

* `Chooses`, `Decides`: the choices of an evaluation, each with the tasks on the way to it;
* `Decides.matched`: with another transform, the same choices;
* `choices_transformed`: with a transform and without it.
-/

namespace Fluent

open Evaluation
open Format (Faithful)
open Relation (ReflTransGen)

section

variable (scope : Scope) (guard : List Place → Place → Option EvaluationProblem)

/-- The choice that a select expression makes: the position of a variant, or none if it is up to the
default. -/
inductive Chooses : Frame → Option Nat → Prop
  | variant {path place selector variants standard start key read position variant chosen}
    (inner : Completes scope guard path (.expression (place.child 0) selector) start (.value key)
      read)
    (known : key.isNone = false)
    (has : scope.selected? key 0 variants read = (some (position, variant), chosen)) :
    Chooses ⟨path, .expression place (.select selector variants standard), start⟩ (some position)
  | standard {path place selector variants standard start key read chosen}
    (inner : Completes scope guard path (.expression (place.child 0) selector) start (.value key)
      read)
    (known : key.isNone = false) (lacks : scope.selected? key 0 variants read = (none, chosen)) :
    Chooses ⟨path, .expression place (.select selector variants standard), start⟩ none
  | unknown {path place selector variants standard start key read}
    (inner : Completes scope guard path (.expression (place.child 0) selector) start (.value key)
      read)
    (unknown : key.isNone = true) :
    Chooses ⟨path, .expression place (.select selector variants standard), start⟩ none

/-- The evaluation of a task comes to another by way of these tasks, the last one included. -/
inductive ComesTo : Frame → List Task → Frame → Prop
  | here {frame} : ComesTo frame [] frame
  | inside {frame next last tasks} (calls : Calls scope guard frame next)
    (comes : ComesTo next tasks last) : ComesTo frame (next.task :: tasks) last

/-- The evaluation of a task comes to a select expression, by way of these tasks, and makes this
choice there. -/
def Decides (frame : Frame) (tasks : List Task) (choice : Option Nat) : Prop :=
  ∃ last, ComesTo scope guard frame tasks last ∧ Chooses scope guard last choice

end

section

variable {scope : Scope} {guard : List Place → Place → Option EvaluationProblem}
  {frame next next' last last' : Frame} {tasks : List Task} {choice choice' : Option Nat}

/-- The tasks tell apart what a task evaluates as its parts. -/
theorem Calls.deterministic (calls : Calls scope guard frame next)
    (other : Calls scope guard frame next') (same : next'.task = next.task) : next' = next := by
  have unique {path task start outcome finish outcome' finish'}
      (run : Completes scope guard path task start outcome finish)
      (run' : Completes scope guard path task start outcome' finish') :
      outcome' = outcome ∧ finish' = finish := run.deterministic run'
  cases calls <;> cases other <;> grind

theorem ComesTo.cons {task : Task} (comes : ComesTo scope guard frame (task :: tasks) last) :
    ∃ next, next.task = task ∧ Calls scope guard frame next ∧ ComesTo scope guard next tasks last := by
  generalize same : task :: tasks = all at comes
  cases comes with
  | here => cases same
  | inside calls comes =>
    obtain ⟨rfl, rfl⟩ := List.cons.inj same
    exact ⟨_, rfl, calls, comes⟩

theorem ComesTo.deterministic (comes : ComesTo scope guard frame tasks last)
    (other : ComesTo scope guard frame tasks last') : last' = last := by
  induction comes with
  | here =>
    cases other
    rfl
  | inside calls _ ih =>
    obtain ⟨next', same, calls', rest⟩ := other.cons
    obtain rfl := calls.deterministic calls' same
    exact ih rest

theorem Chooses.deterministic (chooses : Chooses scope guard frame choice)
    (other : Chooses scope guard frame choice') : choice' = choice := by
  have unique {path task start outcome finish outcome' finish'}
      (run : Completes scope guard path task start outcome finish)
      (run' : Completes scope guard path task start outcome' finish') :
      outcome' = outcome ∧ finish' = finish := run.deterministic run'
  cases chooses <;> cases other <;> grind

/-- The tasks on the way to a choice tell it apart. -/
theorem Decides.deterministic (decides : Decides scope guard frame tasks choice)
    (other : Decides scope guard frame tasks choice') : choice' = choice := by
  obtain ⟨last, comes, chooses⟩ := decides
  obtain ⟨last', comes', chooses'⟩ := other
  obtain rfl := comes.deterministic comes'
  exact chooses.deterministic chooses'

end

/-! ## Other transforms -/

section

variable {base : Scope} {given given' : Option (String → String)}
  {guard : List Place → Place → Option EvaluationProblem} {strict : Prop} {frame : Frame}
  {path : List Place} {task : Task} {start start' : Progress}

/-- A select expression makes the same choice with another transform. -/
theorem Chooses.matched {choice : Option Nat}
    (chooses : Chooses (base.transforming given) guard ⟨path, task, start⟩ choice)
    (steady : Steady (base.transforming given) (base.transforming given') guard strict
      ⟨path, task, start⟩)
    (plain' : ∀ request, Asks (base.transforming given') guard ⟨path, task, start'⟩ request →
      request.options.Plain)
    (matched : Matched base.bundle start start') :
    Chooses (base.transforming given') guard ⟨path, task, start'⟩ choice := by
  cases chooses with
  | variant inner known has =>
    obtain ⟨read', run', matched'⟩ := inner.selector_matched steady plain' matched
    obtain ⟨chosen', has', -⟩ := selected_carried (fun request consults =>
      steady.plain request (Demands.select inner known consults).asks) matched' has
    exact .variant run' known has'
  | standard inner known lacks =>
    obtain ⟨read', run', matched'⟩ := inner.selector_matched steady plain' matched
    obtain ⟨chosen', lacks', -⟩ := selected_carried (fun request consults =>
      steady.plain request (Demands.select inner known consults).asks) matched' lacks
    exact .standard run' known lacks'
  | unknown inner unknown =>
    obtain ⟨read', run', -⟩ := inner.selector_matched steady plain' matched
    exact .unknown run' unknown

/-- The choices of an evaluation are made with another transform as well. -/
theorem Decides.matched {tasks : List Task} {choice : Option Nat}
    (decides : Decides (base.transforming given) guard frame tasks choice)
    (steady : Steady (base.transforming given) (base.transforming given') guard strict frame)
    (plain' : ∀ request, Asks (base.transforming given') guard ⟨frame.path, frame.task, start'⟩
      request → request.options.Plain)
    (matched : Matched base.bundle frame.start start') :
    Decides (base.transforming given') guard ⟨frame.path, frame.task, start'⟩ tasks choice := by
  obtain ⟨last, comes, chooses⟩ := decides
  induction comes generalizing start' with
  | here => exact ⟨_, .here, chooses.matched steady plain' matched⟩
  | inside calls comes ih =>
    obtain ⟨next', calls', matched'⟩ := calls.matched steady plain' matched
    obtain ⟨last', comes', chooses'⟩ := ih (steady.of_calls calls)
      (fun request asks => plain' request (Asks.of_calls calls' request asks)) matched' chooses
    have comes'' := ComesTo.inside calls' comes'
    exact ⟨last', comes'', chooses'⟩

end

/-- Whatever is written out, a select expression makes the same choice with a transform as without
it, if the transform leaves alone the literal texts that selectors are evaluated from, and if the
options of the formatters asked for have plain names. -/
theorem choices_transformed (bundle : Bundle) (bindings : Option Variables) (target : Target)
    (problems : List Problem) (transform : String → String)
    (faithful : Faithful bundle.options.backend bundle.locales bundle.formatters)
    (plain : ∀ given ∈ [none, some transform], ∀ request,
      Asks ((Scope.mk bundle bindings).transforming given) refusal?
        ⟨[], target.task, bundle.start problems⟩ request → request.options.Plain)
    (literal : ∀ given ∈ [none, some transform], ∀ inner text,
      InSelector ((Scope.mk bundle bindings).transforming given) refusal?
        ⟨[], target.task, bundle.start problems⟩ inner →
      inner.task.literal? = some text → transform text = text)
    (tasks : List Task) (choice : Option Nat) :
    (Decides ((Scope.mk bundle bindings).transforming (some transform)) refusal?
        ⟨[], target.task, bundle.start problems⟩ tasks choice ↔
      Decides ((Scope.mk bundle bindings).transforming none) refusal?
        ⟨[], target.task, bundle.start problems⟩ tasks choice) ∧
    ∀ choice', Decides ((Scope.mk bundle bindings).transforming none) refusal?
      ⟨[], target.task, bundle.start problems⟩ tasks choice →
        Decides ((Scope.mk bundle bindings).transforming none) refusal?
          ⟨[], target.task, bundle.start problems⟩ tasks choice' → choice' = choice := by
  refine ⟨?_, fun choice' decides other => decides.deterministic other⟩
  have matched : Matched bundle (bundle.start problems) (bundle.start problems) :=
    ⟨rfl, faithful, faithful⟩
  have absent : none ∈ [none, some transform] := List.mem_cons_self
  have present : some transform ∈ [none, some transform] := List.mem_cons_of_mem _ List.mem_cons_self
  constructor
  · intro decides
    have steady : Steady ((Scope.mk bundle bindings).transforming (some transform))
        ((Scope.mk bundle bindings).transforming none) refusal? False
        ⟨[], target.task, bundle.start problems⟩ :=
      ⟨plain _ present, fun inner within text h => (literal _ present inner text within h).symm,
        nofun⟩
    exact decides.matched steady (plain _ absent) matched
  · intro decides
    have steady : Steady ((Scope.mk bundle bindings).transforming none)
        ((Scope.mk bundle bindings).transforming (some transform)) refusal? False
        ⟨[], target.task, bundle.start problems⟩ :=
      ⟨plain _ absent, fun inner within text h => literal _ absent inner text within h, nofun⟩
    exact decides.matched steady (plain _ present) matched

/-- A choice by a variable. -/
def variableChoice : Expression :=
  .select (.variableRef "n") [.mk (.keyword "one") (.text "One")] (some 0)

/-- What it is evaluated against. -/
def variableScope : Scope := ⟨.empty [] {}, some (.ofPairs [("n", .string "one")])⟩

/-- What an evaluation of the choice comes to. -/
inductive Choosing : Task → Prop
  | pattern {place} : Choosing (.pattern place (.elements [.placeable variableChoice]))
  | parts {isolate place position parts} (one : ∀ part ∈ parts, part = .placeable variableChoice) :
    Choosing (.parts isolate place position parts)
  | choice {place} : Choosing (.expression place variableChoice)
  | selector {place} : Choosing (.expression place (.variableRef "n"))
  | standard {place} : Choosing (.standard place [.mk (.keyword "one") (.text "One")] (some 0))
  | chosen {place} : Choosing (.pattern place (.text "One"))

section

variable {given : Option (String → String)} {frame next : Frame}

/-- The one variant is the only one to be selected. -/
theorem selected_one {scope : Scope} {key : Value} {name : String} {value : Pattern} {start chosen}
    {selection : Nat × Variant}
    (has : scope.selected? key 0 [.mk (.keyword name) value] start = (some selection, chosen)) :
    selection = (0, .mk (.keyword name) value) := by
  rcases tested : withFormatters ((Variant.mk (.keyword name) value).key.toValue.selectedBy
    scope.bundle key) start with ⟨selects, after⟩
  rw [Scope.selected_cons 0 tested] at has
  cases selects with
  | true => exact (Option.some_inj.mp (Prod.mk.inj has).1).symm
  | false => cases has

theorem Choosing.calls {scope : Scope} (held : Choosing frame.task)
    (calls : Calls scope refusal? frame next) : Choosing next.task := by
  obtain ⟨path, task, start⟩ := frame
  cases held with
  | pattern =>
    cases calls
    exact .parts fun part one => List.mem_singleton.mp one
  | parts one =>
    cases calls with
    | partsText => cases one _ List.mem_cons_self
    | placeable =>
      cases one _ List.mem_cons_self
      exact .choice
    | partsPlaceable => exact .parts fun part more => one part (List.mem_cons_of_mem _ more)
  | choice =>
    cases calls with
    | selector => exact .selector
    | select inner known has =>
      cases selected_one has
      exact .chosen
    | selectStandard => exact .standard
    | selectNone => exact .standard
  | selector => cases calls
  | standard =>
    cases calls with
    | standard has =>
      cases has
      exact .chosen
  | chosen => cases calls

theorem variableScope_value (given : Option (String → String)) (start : Progress) :
    (variableScope.transforming given).variableValue "n" start = (.string "one", start) := by
  have bound : (variableScope.bindings.bind fun bindings => bindings["n"]?) =
      some (.string "one") := by cbv
  have unfolded : (variableScope.transforming given).variableValue "n" =
      variableScope.variableValue "n" := rfl
  rw [unfolded, Scope.variableValue, bound]
  rfl

/-- The choice is a text. -/
theorem variableChoice_text {scope : Scope} {path place start value finish}
    (run : Completes scope refusal? path (.expression place variableChoice) start (.value value)
      finish) : ∃ text, value = .string text := by
  have text {place start finish} (run : Completes scope refusal? path (.pattern place (.text "One"))
      start (.value value) finish) : ∃ text, value = .string text := by
    cases run
    exact ⟨_, rfl⟩
  have standard {place start finish} (run : Completes scope refusal? path
      (.standard place [.mk (.keyword "one") (.text "One")] (some 0)) start (.value value) finish) :
      ∃ text, value = .string text := by
    cases run with
    | standard has inner =>
      cases has
      exact text inner
    | standardMissing lacks => cases lacks
  cases run with
  | unknown refers => cases refers
  | select _ _ has next =>
    cases selected_one has
    exact text next
  | selectStandard _ _ _ next => exact standard next
  | selectNone _ _ next => exact standard next

theorem Choosing.asks_nothing (held : Choosing frame.task) (request : Format.Request) :
    ¬Demands (variableScope.transforming given) refusal? frame request := by
  intro demands
  cases demands with
  | shown inner writes =>
    cases held with
    | parts one =>
      cases one _ List.mem_cons_self
      obtain ⟨text, rfl⟩ := variableChoice_text inner
      cases writes
  | variantRef | variantMissing => cases held
  | select inner known consults =>
    cases held with
    | choice =>
      cases inner with
      | unknown refers => cases refers
      | variableRef _ found =>
        cases (variableScope_value given _).symm.trans found
        obtain asked | ⟨-, none⟩ := consults
        · cases asked
        · exact none

theorem Choosing.reached {scope : Scope} (held : Choosing frame.task)
    (reaches : ReflTransGen (Calls scope refusal?) frame next) : Choosing next.task := by
  induction reaches with
  | refl => exact held
  | tail _ calls ih => exact ih.calls calls

/-- There is no literal text in the selector. -/
theorem Choosing.in_selector {inner : Frame} (held : Choosing frame.task)
    (within : InSelector (variableScope.transforming given) refusal? frame inner) :
    inner.task.literal? = none := by
  obtain ⟨path, place, selector, variants, standard, start, reaches, inside⟩ := within
  have choice := held.reached reaches
  cases choice with
  | choice =>
    obtain rfl | ⟨next, calls, -⟩ := Relation.ReflTransGen.cases_head inside
    · rfl
    · cases calls

end

/-- A choice by a variable is the same with a transform. -/
theorem choices_transformed_variable :
    Decides (variableScope.transforming (some String.toUpper)) refusal?
        ⟨[], .pattern ⟨some "a", none, []⟩ (.elements [.placeable variableChoice]),
          variableScope.bundle.start []⟩
        [.parts false ⟨some "a", none, []⟩ 0 [.placeable variableChoice],
          .expression ⟨some "a", none, [0]⟩ variableChoice] (some 0) ∧
      Decides (variableScope.transforming none) refusal?
        ⟨[], .pattern ⟨some "a", none, []⟩ (.elements [.placeable variableChoice]),
          variableScope.bundle.start []⟩
        [.parts false ⟨some "a", none, []⟩ 0 [.placeable variableChoice],
          .expression ⟨some "a", none, [0]⟩ variableChoice] (some 0) := by
  have root : Choosing (.pattern ⟨some "a", none, []⟩ (.elements [.placeable variableChoice])) :=
    .pattern
  have chosen : Decides (variableScope.transforming none) refusal?
      ⟨[], .pattern ⟨some "a", none, []⟩ (.elements [.placeable variableChoice]),
        variableScope.bundle.start []⟩
      [.parts false ⟨some "a", none, []⟩ 0 [.placeable variableChoice],
        .expression ⟨some "a", none, [0]⟩ variableChoice] (some 0) :=
    ⟨_, .inside (.pattern rfl) (.inside .placeable .here),
      .variant (.variableRef trivial (variableScope_value none _) trivial) rfl rfl⟩
  refine ⟨(choices_transformed variableScope.bundle variableScope.bindings
    (.pattern ⟨some "a", none, []⟩ (.elements [.placeable variableChoice])) [] String.toUpper
    Format.faithful_empty ?_ ?_ _ _).1.mpr chosen, chosen⟩
  · rintro given - request ⟨inner, reaches, demands⟩
    exact ((root.reached reaches).asks_nothing request demands).elim
  · intro given _ inner text within literal
    cases (root.in_selector within).symm.trans literal

/-- A choice by a quoted string. -/
def quotedChoice : Expression :=
  .select (.string "x") [.mk (.keyword "x") (.text "Yes"), .mk (.keyword "y") (.text "No")] (some 1)

/-- A transform makes a select expression switch to another variant when its selector is a quoted
string. -/
theorem choices_transformed_quoted :
    ¬∀ (bundle : Bundle) (bindings : Option Variables) (target : Target) (problems : List Problem)
      (transform : String → String) (tasks : List Task) (choice : Option Nat),
      Decides ((Scope.mk bundle bindings).transforming (some transform)) refusal?
          ⟨[], target.task, bundle.start problems⟩ tasks choice ↔
        Decides ((Scope.mk bundle bindings).transforming none) refusal?
          ⟨[], target.task, bundle.start problems⟩ tasks choice := by
  intro h
  have chosen := h (.empty [] {}) none (.pattern ⟨some "a", none, []⟩ (.elements [.placeable quotedChoice]))
    [] String.toUpper
    [.parts false ⟨some "a", none, []⟩ 0 [.placeable quotedChoice],
      .expression ⟨some "a", none, [0]⟩ quotedChoice] (some 0)
  obtain ⟨last, comes, chooses⟩ := chosen.mpr ⟨_, .inside (.pattern rfl) (.inside .placeable .here),
    .variant (.string trivial) rfl rfl⟩
  obtain ⟨first, -, -, comes⟩ := comes.cons
  obtain ⟨⟨path, task, start⟩, same, -, comes⟩ := comes.cons
  obtain rfl : task = _ := same
  cases comes
  cases chooses with
  | variant inner known has =>
    cases inner with
    | unknown refers => cases refers
    | string =>
      have upper : String.toUpper "x" = "X" := by cbv
      rw [Scope.selected_transforming] at has
      change (Scope.mk (.empty [] {}) none).selected? (.string (String.toUpper "x")) 0 _ start =
        _ at has
      rw [upper] at has
      have lacks : (Scope.mk (.empty [] {}) none).selected? (.string "X") 0
          [.mk (.keyword "x") (.text "Yes"), .mk (.keyword "y") (.text "No")] start =
            (none, start) := rfl
      cases lacks.symm.trans has

end Fluent
