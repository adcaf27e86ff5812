import Fluent.Proofs.Evaluation.Requests

/-!
# Evaluation whatever formatters are kept

Evaluations from two states that differ only in the formatters kept come to the same and report the
same problems, provided that each formatter kept was built for its key and that the options of those
asked for have plain names.

* `Alike`: states that differ only in the formatters kept;
* `Evaluation.Mirrored`: a step that does the same from states that are alike;
* `Runs.mirrored`: so do evaluations.
-/

namespace Fluent

open Evaluation
open Format (Faithful Formatters Request Serves)

/-- States that differ only in the formatters kept, each of which was built for its key. -/
structure Alike (bundle : Bundle) (start start' : Progress) : Prop where
  problems : start'.problems = start.problems
  expanding : start'.expanding = start.expanding
  first : Faithful bundle.options.backend bundle.locales start.formatters
  second : Faithful bundle.options.backend bundle.locales start'.formatters

namespace Alike

variable {bundle : Bundle} {start start' : Progress}

theorem reported (alike : Alike bundle start start') (problem : EvaluationProblem) :
    Alike bundle (start.reported problem) (start'.reported problem) :=
  { alike with problems := congrArg (· ++ [Problem.evaluation problem]) alike.problems }

theorem entered (alike : Alike bundle start start') (place : Place) :
    Alike bundle (start.entered place) (start'.entered place) :=
  { alike with expanding := congrArg (place :: ·) alike.expanding }

theorem left (alike : Alike bundle start start') (place : Place) :
    Alike bundle (start.left place) (start'.left place) :=
  { alike with expanding := congrArg (·.erase place) alike.expanding }

end Alike

/-! ## Steps -/

/-- A step that comes to the same from states that are alike, and to states that are alike. -/
def Evaluation.Mirrored (bundle : Bundle) {α : Type} (step : Evaluation α) : Prop :=
  ∀ start start', Alike bundle start start' →
    (step start').1 = (step start).1 ∧ Alike bundle (step start).2 (step start').2

namespace Evaluation

variable {bundle : Bundle} {α β : Type}

theorem mirrored_pure (value : α) : Mirrored bundle (pure value) := fun _ _ alike => ⟨rfl, alike⟩

theorem Mirrored.bind {step : Evaluation α} {next : α → Evaluation β}
    (first : Mirrored bundle step) (second : ∀ value, Mirrored bundle (next value)) :
    Mirrored bundle (step >>= next) := by
  intro start start' alike
  obtain ⟨same, middle⟩ := first start start' alike
  have unfolded (start : Progress) : (step >>= next) start =
      next (step start).1 (step start).2 := rfl
  rw [unfolded, unfolded, same]
  exact second _ _ _ middle

theorem reporting_mirrored (problem : EvaluationProblem) {step : Evaluation α}
    (mirrored : Mirrored bundle step) : Mirrored bundle (do report problem; step) :=
  Mirrored.bind (fun _ _ alike => ⟨rfl, alike.reported problem⟩) fun _ => mirrored

theorem withFormatters_mirrored {asked : Option Request} {step : StateM Formatters α}
    (serves : Serves bundle.options.backend bundle.locales asked step)
    (plain : ∀ request ∈ asked, request.options.Plain) :
    Mirrored bundle (withFormatters step) := fun _ _ alike =>
  ⟨serves.result plain _ _ alike.second alike.first,
    { alike with
      first := serves.faithful plain _ alike.first
      second := serves.faithful plain _ alike.second }⟩

theorem Mirrored.of_eq {step : Evaluation α} {start start' finish : Progress} {value : α}
    (mirrored : Mirrored bundle step) (alike : Alike bundle start start')
    (gives : step start = (value, finish)) :
    ∃ finish', step start' = (value, finish') ∧ Alike bundle finish finish' := by
  obtain ⟨same, alike'⟩ := mirrored start start' alike
  rw [gives] at same alike'
  exact ⟨(step start').2, Prod.ext same rfl, alike'⟩

end Evaluation

namespace Scope

variable (scope : Scope) {value : Value}

theorem write_mirrored (plain : ∀ request ∈ value.writer?, request.options.Plain) :
    Mirrored scope.bundle (scope.write value) :=
  withFormatters_mirrored (value.write_serves scope.bundle) plain

theorem placeableText_mirrored (plain : ∀ request ∈ value.writer?, request.options.Plain) :
    Mirrored scope.bundle (scope.placeableText value) := by
  refine (scope.write_mirrored plain).bind fun text => ?_
  unfold shown
  split
  · exact reporting_mirrored _ (mirrored_pure _)
  · exact mirrored_pure _

theorem variableValue_mirrored (name : String) :
    Mirrored scope.bundle (scope.variableValue name) := by
  unfold variableValue
  split
  · exact reporting_mirrored _ (mirrored_pure _)
  · exact mirrored_pure _
  · exact mirrored_pure _
  · exact mirrored_pure _
  · exact mirrored_pure _
  · exact reporting_mirrored _ (mirrored_pure _)

theorem selected_mirrored {selector : Value} {position : Nat} {variants : List Variant}
    {start start' chosen : Progress} {selection : Option (Nat × Variant)}
    (plain : ∀ request, scope.Consults selector variants start request → request.options.Plain)
    (alike : Alike scope.bundle start start')
    (chooses : scope.selected? selector position variants start = (selection, chosen)) :
    ∃ chosen', scope.selected? selector position variants start' = (selection, chosen') ∧
      Alike scope.bundle chosen chosen' := by
  induction variants generalizing position start start' with
  | nil =>
    cases chooses
    exact ⟨start', rfl, alike⟩
  | cons variant rest ih =>
    rcases tested : withFormatters (variant.key.toValue.selectedBy scope.bundle selector) start
      with ⟨selects, next⟩
    rw [consults_cons rest tested] at plain
    obtain ⟨next', tested', alike'⟩ := (withFormatters_mirrored
      (variant.key.toValue.selectedBy_serves scope.bundle selector)
      fun request asked => plain request (.inl asked)).of_eq alike tested
    rw [selected_cons position tested] at chooses
    rw [selected_cons position tested']
    cases selects with
    | true =>
      cases chooses
      exact ⟨next', rfl, alike'⟩
    | false => exact ih (fun request asked => plain request (.inr ⟨rfl, asked⟩)) alike' chooses

end Scope

/-! ## Bundles -/

/-- The bundle with other formatters kept. -/
def Bundle.keeping (bundle : Bundle) (formatters : Formatters) : Bundle :=
  { bundle with formatters }

/-- The scope with other formatters kept by the bundle. -/
def Scope.keeping (scope : Scope) (formatters : Formatters) : Scope :=
  { scope with bundle := scope.bundle.keeping formatters }

namespace Scope

variable (scope : Scope) (formatters : Formatters)

theorem write_keeping (value : Value) :
    (scope.keeping formatters).write value = scope.write value := by
  cases value <;> rfl

theorem placeableText_keeping (value : Value) :
    (scope.keeping formatters).placeableText value = scope.placeableText value := by
  rw [placeableText, write_keeping, placeableText]

theorem selectedBy_keeping (key selector : Value) :
    key.selectedBy (scope.keeping formatters).bundle selector =
      key.selectedBy scope.bundle selector := by
  cases key <;> cases selector <;> rfl

theorem selected_keeping (selector : Value) (position : Nat) (variants : List Variant) :
    (scope.keeping formatters).selected? selector position variants =
      scope.selected? selector position variants := by
  induction variants generalizing position with
  | nil => rfl
  | cons variant rest ih => simp only [selected?, selectedBy_keeping, ih]

end Scope

/-! ## Runs -/

/-- From a state that is alike, with other formatters kept, an evaluation comes to the same. -/
theorem Runs.mirrored {scope : Scope} {guard : List Place → Place → Option EvaluationProblem}
    {path : List Place} {task : Task} {start start' finish : Progress} {outcome : Outcome}
    (formatters : Formatters) (run : Completes scope guard path task start outcome finish)
    (plain : ∀ request, Asks scope guard ⟨path, task, start⟩ request → request.options.Plain)
    (alike : Alike scope.bundle start start') :
    ∃ finish', Completes (scope.keeping formatters) guard path task start' outcome finish' ∧
      Alike scope.bundle finish finish' := by
  have inside {frame inner : Frame}
      (plain : ∀ request, Asks scope guard frame request → request.options.Plain)
      (calls : Calls scope guard frame inner) (request : Request)
      (asks : Asks scope guard inner request) : request.options.Plain :=
    plain request (Asks.of_calls calls request asks)
  induction run generalizing start' with
  | patternText => exact ⟨start', .patternText trivial, alike⟩
  | patternRefused _ refused =>
    rw [← alike.expanding] at refused
    exact ⟨_, .patternRefused trivial refused trivial, alike.reported _⟩
  | patternExpanded _ free _ _ ih =>
    obtain ⟨finish', run', alike'⟩ := ih (inside plain (.pattern free)) (alike.entered _)
    rw [← alike.expanding] at free
    exact ⟨_, .patternExpanded trivial free run' trivial, alike'.left _⟩
  | partsNil => exact ⟨start', .partsNil trivial, alike⟩
  | partsText _ ih =>
    obtain ⟨finish', run', alike'⟩ := ih (inside plain .partsText) alike
    exact ⟨finish', .partsText run', alike'⟩
  | partsPlaceable inner shows _ ih ih' =>
    obtain ⟨after', run', alike₁⟩ := ih (inside plain .placeable) alike
    obtain ⟨written', shows', alike₂⟩ := (scope.placeableText_mirrored fun request writes =>
      plain request (Demands.shown inner writes).asks).of_eq alike₁ shows
    obtain ⟨finish', next', alike₃⟩ := ih' (inside plain (.partsPlaceable inner shows)) alike₂
    rw [← scope.placeableText_keeping formatters] at shows'
    exact ⟨finish', .partsPlaceable run' shows' next', alike₃⟩
  | entryText => exact ⟨start', .entryText trivial, alike⟩
  | entryPattern _ ih =>
    obtain ⟨finish', run', alike'⟩ := ih (inside plain .entry) alike
    exact ⟨finish', .entryPattern run', alike'⟩
  | entryEmpty => exact ⟨_, .entryEmpty trivial trivial, alike.reported _⟩
  | number => exact ⟨start', .number trivial, alike⟩
  | string => exact ⟨start', .string trivial, alike⟩
  | variableRef _ found =>
    obtain ⟨finish', found', alike'⟩ := (scope.variableValue_mirrored _).of_eq alike found
    exact ⟨finish', .variableRef trivial found' trivial, alike'⟩
  | unknown refers absent =>
    exact ⟨_, .unknown refers absent trivial trivial, alike.reported _⟩
  | entryRef found _ ih =>
    obtain ⟨finish', run', alike'⟩ := ih (inside plain (.entryRef found)) alike
    exact ⟨finish', .entryRef found run', alike'⟩
  | attributeRef found has _ ih =>
    obtain ⟨finish', run', alike'⟩ := ih (inside plain (.attributeRef found has)) alike
    exact ⟨finish', .attributeRef found has run', alike'⟩
  | attributeMissing found lacks _ _ ih =>
    obtain ⟨finish', run', alike'⟩ := ih (inside plain (.attributeMissing found lacks))
      (alike.reported _)
    exact ⟨finish', .attributeMissing found lacks trivial run', alike'⟩
  | variantRef found _ has _ ih =>
    obtain ⟨chosen', has', alike₁⟩ := scope.selected_mirrored (fun request consults =>
      plain request (Demands.variantRef found consults).asks) alike has
    obtain ⟨finish', run', alike₂⟩ := ih (inside plain (.variantRef found has)) alike₁
    rw [← scope.selected_keeping formatters] at has'
    exact ⟨finish', .variantRef found trivial has' run', alike₂⟩
  | variantMissing found _ lacks names _ ih =>
    obtain ⟨chosen', lacks', alike₁⟩ := scope.selected_mirrored (fun request consults =>
      plain request (Demands.variantRef found consults).asks) alike lacks
    obtain ⟨written', names', alike₂⟩ := (scope.write_mirrored fun request writes =>
      plain request (Demands.variantMissing found lacks writes).asks).of_eq alike₁ names
    obtain ⟨finish', run', alike₃⟩ := ih (inside plain (.variantMissing found lacks names))
      (alike₂.reported _)
    rw [← scope.selected_keeping formatters] at lacks'
    rw [← scope.write_keeping formatters] at names'
    exact ⟨finish', .variantMissing found trivial lacks' names' run', alike₃⟩
  | callUnknown absent => exact ⟨_, .callUnknown absent trivial trivial, alike.reported _⟩
  | call found _ gives ih =>
    obtain ⟨finish', run', alike'⟩ := ih (inside plain (.call found)) alike
    exact ⟨finish', .call found run' gives, alike'⟩
  | callRefused found _ gives _ ih =>
    obtain ⟨finish', run', alike'⟩ := ih (inside plain (.call found)) alike
    exact ⟨_, .callRefused found run' gives trivial, alike'.reported _⟩
  | select inner known has _ ih ih' =>
    obtain ⟨read', run', alike₁⟩ := ih (inside plain .selector) alike
    obtain ⟨chosen', has', alike₂⟩ := scope.selected_mirrored (fun request consults =>
      plain request (Demands.select inner known consults).asks) alike₁ has
    obtain ⟨finish', next', alike₃⟩ := ih' (inside plain (.select inner known has)) alike₂
    rw [← scope.selected_keeping formatters] at has'
    exact ⟨finish', .select run' known has' next', alike₃⟩
  | selectStandard inner known lacks _ ih ih' =>
    obtain ⟨read', run', alike₁⟩ := ih (inside plain .selector) alike
    obtain ⟨chosen', lacks', alike₂⟩ := scope.selected_mirrored (fun request consults =>
      plain request (Demands.select inner known consults).asks) alike₁ lacks
    obtain ⟨finish', next', alike₃⟩ := ih' (inside plain (.selectStandard inner known lacks)) alike₂
    rw [← scope.selected_keeping formatters] at lacks'
    exact ⟨finish', .selectStandard run' known lacks' next', alike₃⟩
  | selectNone inner unknown _ ih ih' =>
    obtain ⟨read', run', alike₁⟩ := ih (inside plain .selector) alike
    obtain ⟨finish', next', alike₂⟩ := ih' (inside plain (.selectNone inner unknown)) alike₁
    exact ⟨finish', .selectNone run' unknown next', alike₂⟩
  | variantList _ ih =>
    obtain ⟨finish', run', alike'⟩ := ih (inside plain .variantList) alike
    exact ⟨finish', .variantList run', alike'⟩
  | standard has _ ih =>
    obtain ⟨finish', run', alike'⟩ := ih (inside plain (.standard has)) alike
    exact ⟨finish', .standard has run', alike'⟩
  | standardMissing lacks => exact ⟨_, .standardMissing lacks trivial trivial, alike.reported _⟩
  | argumentsNil => exact ⟨start', .argumentsNil trivial, alike⟩
  | argumentPositional inner _ ih ih' =>
    obtain ⟨read', run', alike₁⟩ := ih (inside plain .argument) alike
    obtain ⟨finish', next', alike₂⟩ := ih' (inside plain (.arguments inner)) alike₁
    exact ⟨finish', .argumentPositional run' next', alike₂⟩
  | argumentNamed inner _ ih ih' =>
    obtain ⟨read', run', alike₁⟩ := ih (inside plain .argument) alike
    obtain ⟨finish', next', alike₂⟩ := ih' (inside plain (.arguments inner)) alike₁
    exact ⟨finish', .argumentNamed run' next', alike₂⟩

end Fluent
