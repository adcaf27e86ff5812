import Fluent.Proofs.Evaluation.Balance

/-!
# Termination

Evaluation follows a derivation, which is finite, whatever the entries of the bundle refer to. All
along it the places that are being expanded are those of the patterns around, each of them once and
no more than `deepestExpansion` of them. The patterns around determine how much room is left, so a
derivation is found by induction on the room and, inside it, on expressions.

* `expansion_follows`: patterns are expanded as derivations prescribe;
* `resolve_derivation`: so is what a bundle formats.
-/

namespace Fluent

/-- The places being expanded are those of the path, each of them once, and there is no more of them
than the bound. -/
structure Tracked (path : List Place) (progress : Progress) : Prop where
  expanding : progress.expanding = path
  distinct : path.Nodup
  bounded : path.length ≤ deepestExpansion

/-- The task of finding the value of a target. -/
def Target.task : Target → Task
  | .entry id held => .entry id held
  | .pattern place held => .pattern place held

namespace Tracked

variable {path : List Place} {progress : Progress}

theorem reported (tracked : Tracked path progress) (problem : EvaluationProblem) :
    Tracked path (progress.reported problem) :=
  ⟨tracked.expanding, tracked.distinct, tracked.bounded⟩

theorem step {α : Type} {step : Evaluation α} (tracked : Tracked path progress)
    (balanced : step.Balanced) : Tracked path (step progress).2 :=
  ⟨(balanced progress).trans tracked.expanding, tracked.distinct, tracked.bounded⟩

theorem entered {place : Place} (tracked : Tracked path progress) (fresh : place ∉ path)
    (room : path.length < deepestExpansion) :
    Tracked (place :: path) (progress.entered place) where
  expanding := congrArg (place :: ·) tracked.expanding
  distinct := List.nodup_cons.mpr ⟨fresh, tracked.distinct⟩
  bounded := room

theorem left {place : Place} (tracked : Tracked (place :: path) progress) :
    Tracked path (progress.left place) where
  expanding := by
    simp only [Progress.left, tracked.expanding, List.erase_cons_head]
  distinct := (List.nodup_cons.mp tracked.distinct).2
  bounded := Nat.le_of_succ_le tracked.bounded

end Tracked

open Evaluation

namespace Scope

variable (scope : Scope)

/-- A step that does what derivations of a task prescribe, from wherever the path is tracked. -/
def Follows (path : List Place) (task : Task) {α : Type} (outcome : α → Outcome)
    (step : Evaluation α) : Prop :=
  ∀ start, Tracked path start →
    Runs scope refusal? Tracked path task start (outcome (step start).1) (step start).2

section

variable {path : List Place}

theorem runs_bind {α β : Type} {task : Task} {outcome : β → Outcome} {step : Evaluation α}
    {next : α → Evaluation β} {start before after : Progress} {value : α}
    (gives : step before = (value, after))
    (rest : Runs scope refusal? Tracked path task start (outcome (next value after).1)
      (next value after).2) :
    Runs scope refusal? Tracked path task start (outcome ((step >>= next) before).1)
      ((step >>= next) before).2 := by
  have same : (step >>= next) before = next (step before).1 (step before).2 := rfl
  rw [same, gives]
  exact rest

theorem placeableText_balanced (value : Value) : (scope.placeableText value).Balanced :=
  (scope.write_balanced value).bind shown_balanced

theorem variableValue_follows (place : Place) (name : String) :
    scope.Follows path (.expression place (.variableRef name)) .value (scope.variableValue name) :=
  fun _ tracked => .variableRef tracked rfl (tracked.step (scope.variableValue_balanced name))

theorem referenceValue_follows {place : Place} {expression : Expression} {id : String}
    {found : Entry → Evaluation Value} (refers : expression.referent? = some id)
    (follows : ∀ entry, scope.bundle.entryOf? id = some entry →
      scope.Follows path (.expression place expression) .value (found entry)) :
    scope.Follows path (.expression place expression) .value (scope.referenceValue id found) := by
  unfold referenceValue
  split
  · exact follows _ ‹_›
  · exact fun _ tracked => .unknown refers ‹_› tracked (tracked.reported _)

variable {expand : Place → Pattern → Evaluation Value}

section

variable (follows : ∀ place pattern,
  scope.Follows path (.pattern place pattern) .value (expand place pattern))

include follows

theorem entryValue_follows (id : Option String) (entry : Entry) :
    scope.Follows path (.entry id entry) .value (scope.entryValue expand id entry) := by
  intro start tracked
  unfold entryValue
  split
  · exact .entryText tracked
  · exact .entryPattern (follows _ _ start tracked)
  · exact .entryEmpty tracked (tracked.reported _)

theorem entryRef_follows (place : Place) (id : String) :
    scope.Follows path (.expression place (.entryRef id)) .value
      (scope.referenceValue id (scope.entryValue expand (some id))) := by
  refine scope.referenceValue_follows rfl fun entry found start tracked => ?_
  exact .entryRef found (scope.entryValue_follows follows _ _ start tracked)

theorem attributeValue_follows (place : Place) (id name : String) :
    scope.Follows path (.expression place (.attributeRef id name)) .value
      (scope.attributeValue expand id name) := by
  refine scope.referenceValue_follows rfl fun entry found => ?_
  split
  · exact fun start tracked => .attributeRef found ‹_› (follows _ _ start tracked)
  · exact fun start tracked => .attributeMissing found ‹_› tracked
      (scope.entryValue_follows follows _ _ _ (tracked.reported _))

theorem variantValue_follows (place : Place) (id : String) (key : VariantKey) :
    scope.Follows path (.expression place (.variantRef id key)) .value
      (scope.variantValue expand id key) := by
  refine scope.referenceValue_follows rfl fun entry found start tracked => ?_
  have chosen := tracked.step (scope.selected_balanced key.toValue 0 entry.variants)
  rcases chooses : scope.selected? key.toValue 0 entry.variants start with ⟨selection, after⟩
  rw [chooses] at chosen
  refine scope.runs_bind chooses ?_
  cases selection with
  | some selection =>
    exact .variantRef found tracked chooses (follows _ _ after chosen)
  | none =>
    have written := chosen.step (scope.write_balanced key.toValue)
    exact .variantMissing found tracked chooses rfl
      (scope.entryValue_follows follows _ _ _ (written.reported _))

theorem defaultValue_follows (place : Place) (variants : List Variant) (standard : Option Nat) :
    scope.Follows path (.standard place variants standard) .value
      (defaultValue expand place variants standard) := by
  unfold defaultValue
  split
  · exact fun start tracked => .standard ‹_› (follows _ _ start tracked)
  · exact fun start tracked => .standardMissing ‹_› tracked (tracked.reported _)

end

mutual

theorem expressionValue_follows
    (follows : ∀ place pattern,
      scope.Follows path (.pattern place pattern) .value (expand place pattern))
    (place : Place) : ∀ expression,
      scope.Follows path (.expression place expression) .value
        (scope.expressionValue expand place expression)
  | .number _ => fun _ tracked => .number tracked
  | .string _ => fun _ tracked => .string tracked
  | .variableRef name => scope.variableValue_follows place name
  | .entryRef id => scope.entryRef_follows follows place id
  | .attributeRef id name => scope.attributeValue_follows follows place id name
  | .variantRef id key => scope.variantValue_follows follows place id key
  | .call name arguments => by
    unfold expressionValue
    split
    · exact fun _ tracked => .callUnknown ‹_› tracked (tracked.reported _)
    · rename_i function found
      intro start tracked
      have inner := argumentValues_follows follows place 0 arguments start tracked
      rcases gives : scope.argumentValues expand place 0 arguments start with
        ⟨⟨positional, named⟩, after⟩
      rw [gives] at inner
      refine scope.runs_bind gives ?_
      cases returns : function positional named with
      | ok value => simpa only [returns] using .call found inner returns
      | error refusal =>
        simpa only [returns] using .callRefused found inner returns (inner.after.reported _)
  | .select selector variants standard => by
    intro start tracked
    have inner := expressionValue_follows follows (place.child 0) selector start tracked
    unfold expressionValue
    rcases gives : scope.expressionValue expand (place.child 0) selector start with ⟨value, read⟩
    rw [gives] at inner
    refine scope.runs_bind gives ?_
    have standardRuns := scope.defaultValue_follows follows place variants standard
    split
    · exact .selectNone inner ‹_› (standardRuns read inner.after)
    · have known : value.isNone = false := eq_false_of_ne_true ‹_›
      have chosen := inner.after.step (scope.selected_balanced value 0 variants)
      rcases chooses : scope.selected? value 0 variants read with ⟨selection, after⟩
      rw [chooses] at chosen
      refine scope.runs_bind chooses ?_
      cases selection with
      | some selection => exact .select inner known chooses (follows _ _ after chosen)
      | none => exact .selectStandard inner known chooses (standardRuns after chosen)
  | .variantList variants standard => fun start tracked =>
    .variantList (scope.defaultValue_follows follows place variants standard start tracked)

theorem argumentValues_follows
    (follows : ∀ place pattern,
      scope.Follows path (.pattern place pattern) .value (expand place pattern))
    (place : Place) (position : Nat) : ∀ arguments,
      scope.Follows path (.arguments place position arguments)
        (fun (positional, named) => .arguments positional named)
        (scope.argumentValues expand place position arguments)
  | [] => fun _ tracked => .argumentsNil tracked
  | .positional expression :: rest => fun start tracked =>
    have inner := expressionValue_follows follows (place.child position) expression start tracked
    .argumentPositional inner
      (argumentValues_follows follows place (position + 1) rest _ inner.after)
  | .named _ expression :: rest => fun start tracked =>
    have inner := expressionValue_follows follows (place.child position) expression start tracked
    .argumentNamed inner
      (argumentValues_follows follows place (position + 1) rest _ inner.after)

end

section

variable (follows : ∀ place pattern,
  scope.Follows path (.pattern place pattern) .value (expand place pattern))

include follows

theorem partsText_follows (isolate : Bool) (place : Place) (position : Nat)
    (parts : List Element) :
    scope.Follows path (.parts isolate place position parts) .text
      (scope.partsText expand isolate place position parts) := by
  induction parts generalizing position with
  | nil => exact fun _ tracked => .partsNil tracked
  | cons part rest ih =>
    intro start tracked
    cases part with
    | text text => exact .partsText (ih (position + 1) start tracked)
    | placeable expression =>
      have inner := scope.expressionValue_follows follows (place.child position) expression start
        tracked
      rcases gives : scope.expressionValue expand (place.child position) expression start with
        ⟨value, after⟩
      rw [gives] at inner
      have written := inner.after.step (scope.placeableText_balanced value)
      refine scope.runs_bind gives ?_
      exact .partsPlaceable inner rfl (ih (position + 1) _ written)

end

end

theorem refused_again {expanding : List Place} {place : Place} (again : place ∈ expanding) :
    refusal? expanding place = some .cyclic := if_pos again

theorem refused_full {expanding : List Place} {place : Place} (fresh : place ∉ expanding)
    (full : deepestExpansion ≤ expanding.length) :
    refusal? expanding place = some (.tooDeeplyNested deepestExpansion) := by
  rw [refusal?, if_neg fresh, if_pos full]

theorem not_refused {expanding : List Place} {place : Place} (fresh : place ∉ expanding)
    (room : expanding.length < deepestExpansion) : refusal? expanding place = none := by
  rw [refusal?, if_neg fresh, if_neg (Nat.not_le.mpr room)]

theorem again_follows (room : Nat) {path : List Place} {place : Place} (parts : List Element)
    (again : place ∈ path) :
    scope.Follows path (.pattern place (.elements parts)) .value
      (scope.expansion room place (.elements parts)) := by
  intro start tracked
  have expanding : place ∈ start.expanding := tracked.expanding ▸ again
  rw [scope.expansion_again room expanding]
  exact .patternRefused tracked (refused_again expanding) (tracked.reported _)

theorem expansion_follows (room : Nat) (path : List Place)
    (within : path.length + room = deepestExpansion) (place : Place) (pattern : Pattern) :
    scope.Follows path (.pattern place pattern) .value (scope.expansion room place pattern) := by
  induction room generalizing path place pattern with
  | zero =>
    cases pattern with
    | text text => exact fun _ tracked => .patternText tracked
    | elements parts =>
      by_cases again : place ∈ path
      · exact scope.again_follows 0 parts again
      · intro start tracked
        have fresh : place ∉ start.expanding := tracked.expanding ▸ again
        have full : deepestExpansion ≤ start.expanding.length :=
          tracked.expanding ▸ Nat.le_of_eq within.symm
        rw [scope.expansion_full fresh]
        exact .patternRefused tracked (refused_full fresh full) (tracked.reported _)
  | succ room ih =>
    cases pattern with
    | text text => exact fun _ tracked => .patternText tracked
    | elements parts =>
      by_cases again : place ∈ path
      · exact scope.again_follows (room + 1) parts again
      · intro start tracked
        have fresh : place ∉ start.expanding := tracked.expanding ▸ again
        have free : path.length < deepestExpansion := by omega
        have follows := ih (place :: path) (by rw [List.length_cons]; omega)
        have inner := scope.partsText_follows follows (scope.isolates parts) place 0 parts
          (start.entered place) (tracked.entered again free)
        rw [scope.expansion_enters room fresh]
        exact .patternExpanded tracked (not_refused fresh (tracked.expanding ▸ free)) inner
          inner.after.left

/-- What a task comes to, with room for so many patterns inside one another. -/
def perform (room : Nat) : Task → Evaluation Outcome
  | .pattern place pattern => .value <$> scope.expansion room place pattern
  | .parts isolate place position parts =>
    .text <$> scope.partsText (scope.expansion room) isolate place position parts
  | .entry id entry => .value <$> scope.entryValue (scope.expansion room) id entry
  | .expression place expression =>
    .value <$> scope.expressionValue (scope.expansion room) place expression
  | .standard place variants standard =>
    .value <$> defaultValue (scope.expansion room) place variants standard
  | .arguments place position arguments => do
    let (positional, named) ← scope.argumentValues (scope.expansion room) place position arguments
    return .arguments positional named

theorem perform_balanced (room : Nat) (task : Task) : (scope.perform room task).Balanced := by
  have balanced := scope.expansion_balanced room
  cases task with
  | pattern place pattern => exact balanced place pattern
  | parts isolate place position parts => exact scope.partsText_balanced balanced _ _ _ _
  | entry id entry => exact scope.entryValue_balanced balanced _ _
  | expression place expression => exact scope.expressionValue_balanced balanced _ _
  | standard place variants standard => exact defaultValue_balanced balanced _ _ _
  | arguments place position arguments => exact scope.argumentValues_balanced balanced _ _ _

theorem perform_follows {path : List Place} {room : Nat}
    (within : path.length + room = deepestExpansion) (task : Task) :
    scope.Follows path task id (scope.perform room task) := by
  have follows := scope.expansion_follows room path within
  cases task with
  | pattern place pattern => exact follows place pattern
  | parts isolate place position parts => exact scope.partsText_follows follows _ _ _ _
  | entry id entry => exact scope.entryValue_follows follows _ _
  | expression place expression => exact scope.expressionValue_follows follows _ _
  | standard place variants standard => exact scope.defaultValue_follows follows _ _ _
  | arguments place position arguments => exact scope.argumentValues_follows follows _ _ _

theorem targetValue_follows (target : Target) :
    scope.Follows [] target.task .value (scope.targetValue target) := by
  have follows := scope.expansion_follows deepestExpansion [] (Nat.zero_add _)
  cases target with
  | entry id entry => exact scope.entryValue_follows follows id entry
  | pattern place pattern => exact follows place pattern

end Scope

/-- What an evaluation starts from. -/
def Bundle.start (bundle : Bundle) (problems : List Problem) : Progress :=
  { problems, formatters := bundle.formatters, expanding := [] }

/-- Every target has one finite derivation, along which the places being expanded are those of the
path, and what a bundle makes of the target is the text of its outcome. Whatever is evaluated leaves
the places being expanded as they were. -/
theorem resolve_derivation (bundle : Bundle) (bindings : Option Variables) (target : Target)
    (problems : List Problem) :
    (∃ value finish,
      Runs ⟨bundle, bindings⟩ refusal? Tracked [] target.task (bundle.start problems)
        (.value value) finish ∧
      (∀ M outcome other,
        Runs ⟨bundle, bindings⟩ refusal? M [] target.task (bundle.start problems) outcome other →
          outcome = .value value ∧ other = finish) ∧
      finish.expanding = [] ∧
      bundle.resolve bindings target problems =
        { text := (value.write bundle finish.formatters).1
          problems := finish.problems
          formatters := (value.write bundle finish.formatters).2 }) ∧
    ∀ room task, ((Scope.mk bundle bindings).perform room task).Balanced := by
  have tracked : Tracked [] (bundle.start problems) := ⟨rfl, List.nodup_nil, Nat.zero_le _⟩
  have runs := (Scope.mk bundle bindings).targetValue_follows target (bundle.start problems) tracked
  refine ⟨⟨_, _, runs, ?_, runs.after.expanding, rfl⟩, (Scope.mk bundle bindings).perform_balanced⟩
  intro M outcome other run
  exact runs.deterministic run

end Fluent
