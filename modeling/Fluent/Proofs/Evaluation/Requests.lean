import Fluent.Proofs.Evaluation.Calls
import Fluent.Proofs.Formatters

/-!
# Formatters that evaluations ask for

Writing a number or date asks for a formatter with the options of the value, and so does looking for
the variant that a number selects. An evaluation keeps the formatters that it has asked for, if the
backend builds them, and no others.

* `Demands`, `Asks`: the formatters that a task asks for, itself or in its parts;
* `Runs.records`: what an evaluation adds to the formatters kept has been asked for;
* `Runs.gains`: and all that has been asked for and built is kept.
-/

namespace Fluent

open Format (Formatters Request Serves Gains Records)

/-! ## Values -/

/-- The formatter that writing a value asks for. -/
def Value.writer? : Value → Option Request
  | .number _ options => some ⟨.number, options⟩
  | .date _ options => some ⟨.date, options⟩
  | _ => Option.none

/-- The formatter that is asked for to find out whether a key is selected. -/
def Value.matcher? : Value → Value → Option Request
  | .symbol _, .number _ options => some ⟨.plural, options⟩
  | _, _ => Option.none

theorem Value.write_serves (bundle : Bundle) (value : Value) :
    Serves bundle.options.backend bundle.locales value.writer? (value.write bundle) := by
  cases value with
  | none name => exact Format.serves_pure (if name.getD "" = "" then "???" else name.getD "")
  | string text => exact Format.serves_pure text
  | symbol text => exact Format.serves_pure text
  | number value options => exact Format.writeNumber_serves value options
  | date millis options => exact Format.writeDate_serves millis options

theorem Value.selectedBy_serves (bundle : Bundle) (key selector : Value) :
    Serves bundle.options.backend bundle.locales (key.matcher? selector)
      (key.selectedBy bundle selector) := by
  cases key with
  | symbol name =>
    cases selector with
    | number value options =>
      exact (Format.pluralCategory_serves value options).map (·.name == name)
    | none | string | symbol | date => exact Format.serves_pure _
  | number => cases selector <;> exact Format.serves_pure _
  | none | string | date => exact Format.serves_pure _

open Evaluation

/-- The formatters that finding the first variant that a value selects asks for. -/
def Scope.Consults (scope : Scope) (selector : Value) : List Variant → Progress → Request → Prop
  | [], _, _ => False
  | variant :: rest, start, request =>
    request ∈ variant.key.toValue.matcher? selector ∨
      let (selects, next) :=
        withFormatters (variant.key.toValue.selectedBy scope.bundle selector) start
      selects = false ∧ scope.Consults selector rest next request

section

variable (scope : Scope) (guard : List Place → Place → Option EvaluationProblem)

/-- The formatters that a task asks for itself, apart from what it evaluates as a part of it. -/
inductive Demands : Frame → Request → Prop
  | shown {path isolate place position expression parts start value after request}
    (inner : Completes scope guard path (.expression (place.child position) expression) start
      (.value value) after)
    (writes : request ∈ value.writer?) :
    Demands ⟨path, .parts isolate place position (.placeable expression :: parts), start⟩ request
  | variantRef {path place id key entry start request}
    (found : scope.bundle.entryOf? id = some entry)
    (consults : scope.Consults key.toValue entry.variants start request) :
    Demands ⟨path, .expression place (.variantRef id key), start⟩ request
  | variantMissing {path place id key entry start chosen request}
    (found : scope.bundle.entryOf? id = some entry)
    (lacks : scope.selected? key.toValue 0 entry.variants start = (none, chosen))
    (writes : request ∈ key.toValue.writer?) :
    Demands ⟨path, .expression place (.variantRef id key), start⟩ request
  | select {path place selector variants standard start key read request}
    (inner : Completes scope guard path (.expression (place.child 0) selector) start (.value key)
      read)
    (known : key.isNone = false) (consults : scope.Consults key variants read request) :
    Demands ⟨path, .expression place (.select selector variants standard), start⟩ request

/-- The formatters that the evaluation of a task asks for. -/
def Asks (frame : Frame) (request : Request) : Prop :=
  ∃ inner, Relation.ReflTransGen (Calls scope guard) frame inner ∧
    Demands scope guard inner request

end

section

variable {scope : Scope} {guard : List Place → Place → Option EvaluationProblem}
  {frame inner : Frame} {request : Request} {path : List Place} {task : Task}
  {start finish : Progress} {outcome : Outcome}

theorem Asks.of_calls (calls : Calls scope guard frame inner) (request : Request)
    (asks : Asks scope guard inner request) : Asks scope guard frame request := by
  obtain ⟨last, reaches, demands⟩ := asks
  exact ⟨last, .head calls reaches, demands⟩

theorem Demands.asks (demands : Demands scope guard frame request) :
    Asks scope guard frame request := ⟨frame, .refl, demands⟩

/-! ## Steps -/

/-- From one state to another, only the formatters that are asked for are added. -/
abbrev Scope.Logs (scope : Scope) (asked : Request → Prop) (start finish : Progress) : Prop :=
  Records scope.bundle.options.backend scope.bundle.locales asked start.formatters
    finish.formatters

theorem shown_formatters (text : String) (start : Progress) :
    (Scope.shown text start).2.formatters = start.formatters := by
  unfold Scope.shown
  split <;> rfl

theorem Scope.variableValue_formatters (scope : Scope) (name : String) (start : Progress) :
    (scope.variableValue name start).2.formatters = start.formatters := by
  unfold Scope.variableValue
  rcases scope.bindings.bind fun bindings => bindings[name]? with _ | held
  · rfl
  · cases held <;> rfl

section

variable {value : Value} {text : String} {written : Progress}

theorem Scope.write_gains (names : scope.write value start = (text, written)) :
    Gains scope.bundle.options.backend scope.bundle.locales (· ∈ value.writer?) start.formatters
      written.formatters :=
  congrArg (·.2.formatters) names ▸ (value.write_serves scope.bundle).gains start.formatters

theorem Scope.placeableText_gains (shows : scope.placeableText value start = (text, written)) :
    Gains scope.bundle.options.backend scope.bundle.locales (· ∈ value.writer?) start.formatters
      written.formatters := by
  have same : written.formatters = (scope.write value start).2.formatters :=
    (congrArg (·.2.formatters) shows).symm.trans (shown_formatters _ _)
  rw [same]
  exact Scope.write_gains rfl

end

section

variable {selector : Value} {variant : Variant} {rest : List Variant} {selects : Bool}
  {next : Progress}

theorem Scope.selected_cons (position : Nat)
    (tested : withFormatters (variant.key.toValue.selectedBy scope.bundle selector) start =
      (selects, next)) :
    scope.selected? selector position (variant :: rest) start =
      if selects then (some (position, variant), next)
      else scope.selected? selector (position + 1) rest next := by
  have unfolded : scope.selected? selector position (variant :: rest) start =
      (if (withFormatters (variant.key.toValue.selectedBy scope.bundle selector) start).1 then
        pure (some (position, variant))
      else scope.selected? selector (position + 1) rest)
        (withFormatters (variant.key.toValue.selectedBy scope.bundle selector) start).2 := rfl
  rw [unfolded, tested]
  cases selects <;> rfl

theorem Scope.consults_cons (rest : List Variant)
    (tested : withFormatters (variant.key.toValue.selectedBy scope.bundle selector) start =
      (selects, next)) :
    scope.Consults selector (variant :: rest) start = fun request =>
      request ∈ variant.key.toValue.matcher? selector ∨
        selects = false ∧ scope.Consults selector rest next request := by
  funext request
  simp only [Scope.Consults, tested]

theorem Scope.selected_gains {position : Nat} {variants : List Variant}
    {selection : Option (Nat × Variant)} {chosen : Progress}
    (chooses : scope.selected? selector position variants start = (selection, chosen)) :
    Gains scope.bundle.options.backend scope.bundle.locales
      (scope.Consults selector variants start) start.formatters chosen.formatters := by
  induction variants generalizing position start with
  | nil =>
    cases chooses
    exact Gains.refl _
  | cons variant rest ih =>
    rcases tested : withFormatters (variant.key.toValue.selectedBy scope.bundle selector) start
      with ⟨selects, next⟩
    have first : Gains scope.bundle.options.backend scope.bundle.locales
        (· ∈ variant.key.toValue.matcher? selector) start.formatters next.formatters :=
      congrArg (·.2.formatters) tested ▸
        (variant.key.toValue.selectedBy_serves scope.bundle selector).gains start.formatters
    rw [Scope.selected_cons position tested] at chooses
    rw [Scope.consults_cons rest tested]
    cases selects with
    | true =>
      cases chooses
      simpa using first
    | false => simpa using first.trans (ih chooses)

end

/-! ## Runs -/

/-- An evaluation adds to the formatters kept only such as it asks for. -/
theorem Runs.records (run : Completes scope guard path task start outcome finish) :
    scope.Logs (Asks scope guard ⟨path, task, start⟩) start finish := by
  induction run with
  | patternText | patternRefused | partsNil | entryText | entryEmpty | number | string | unknown
  | callUnknown | standardMissing | argumentsNil => exact .refl _ _
  | patternExpanded _ free _ _ ih => exact ih.mono (Asks.of_calls (.pattern free))
  | partsText _ ih => exact ih.mono (Asks.of_calls .partsText)
  | partsPlaceable inner shows _ ih ih' =>
    have written := (Scope.placeableText_gains shows).records
    exact ((ih.mono (Asks.of_calls .placeable)).trans
      (written.mono fun _ writes => (Demands.shown inner writes).asks)).trans
      (ih'.mono (Asks.of_calls (.partsPlaceable inner shows)))
  | entryPattern _ ih => exact ih.mono (Asks.of_calls .entry)
  | variableRef _ found =>
    have same := (congrArg (·.2.formatters) found).symm.trans (scope.variableValue_formatters _ _)
    rw [Scope.Logs, same]
    exact .refl _ _
  | entryRef found _ ih => exact ih.mono (Asks.of_calls (.entryRef found))
  | attributeRef found has _ ih => exact ih.mono (Asks.of_calls (.attributeRef found has))
  | attributeMissing found lacks _ _ ih =>
    exact ih.mono (Asks.of_calls (.attributeMissing found lacks))
  | variantRef found _ has _ ih =>
    have chosen := (Scope.selected_gains has).records
    exact (chosen.mono fun _ consults => (Demands.variantRef found consults).asks).trans
      (ih.mono (Asks.of_calls (.variantRef found has)))
  | variantMissing found _ lacks names _ ih =>
    have chosen := (Scope.selected_gains lacks).records
    have written := (Scope.write_gains names).records
    exact ((chosen.mono fun _ consults => (Demands.variantRef found consults).asks).trans
      (written.mono fun _ writes => (Demands.variantMissing found lacks writes).asks)).trans
      (ih.mono (Asks.of_calls (.variantMissing found lacks names)))
  | call found _ _ ih => exact ih.mono (Asks.of_calls (.call found))
  | callRefused found _ _ _ ih => exact ih.mono (Asks.of_calls (.call found))
  | select inner known has _ ih ih' =>
    have chosen := (Scope.selected_gains has).records
    exact ((ih.mono (Asks.of_calls .selector)).trans
      (chosen.mono fun _ consults => (Demands.select inner known consults).asks)).trans
      (ih'.mono (Asks.of_calls (.select inner known has)))
  | selectStandard inner known lacks _ ih ih' =>
    have chosen := (Scope.selected_gains lacks).records
    exact ((ih.mono (Asks.of_calls .selector)).trans
      (chosen.mono fun _ consults => (Demands.select inner known consults).asks)).trans
      (ih'.mono (Asks.of_calls (.selectStandard inner known lacks)))
  | selectNone inner unknown _ ih ih' =>
    exact (ih.mono (Asks.of_calls .selector)).trans
      (ih'.mono (Asks.of_calls (.selectNone inner unknown)))
  | variantList _ ih => exact ih.mono (Asks.of_calls .variantList)
  | standard has _ ih => exact ih.mono (Asks.of_calls (.standard has))
  | argumentPositional inner _ ih ih' | argumentNamed inner _ ih ih' =>
    exact (ih.mono (Asks.of_calls .argument)).trans (ih'.mono (Asks.of_calls (.arguments inner)))

/-- Whatever is kept in one state is kept in the other. -/
def Grows (start finish : Progress) : Prop :=
  ∀ kind, start.formatters.keys kind ⊆ finish.formatters.keys kind

theorem Grows.refl (start : Progress) : Grows start start := fun _ => List.Subset.refl _

theorem Grows.trans {middle : Progress} (first : Grows start middle)
    (second : Grows middle finish) : Grows start finish :=
  fun kind => List.Subset.trans (first kind) (second kind)

theorem Runs.grows (run : Completes scope guard path task start outcome finish) :
    Grows start finish := run.records.grows

theorem grows_rises : Rises scope guard Grows where
  refl := .refl
  trans := .trans
  run run := run.grows
  shown shows := (Scope.placeableText_gains shows).records.grows
  selected has := (Scope.selected_gains has).records.grows
  reported start _ := .refl start
  left inside _ := .refl inside

/-- A formatter that a task asks for itself is kept at its end, if the backend builds it. -/
theorem Runs.demands (run : Completes scope guard path task start outcome finish)
    {kind : Format.FormatterKind} {options : Format.Options}
    (demands : Demands scope guard ⟨path, task, start⟩ ⟨kind, options⟩)
    (built : scope.bundle.options.backend.Builds scope.bundle.locales ⟨kind, options⟩) :
    options.cacheKey ∈ finish.formatters.keys kind := by
  cases demands with
  | shown inner writes =>
    cases run with
    | partsPlaceable inner' shows next =>
      obtain ⟨same, rfl⟩ := inner.deterministic inner'
      cases same
      exact next.grows kind ((Scope.placeableText_gains shows).kept writes built)
  | variantRef found consults =>
    cases run with
    | unknown refers absent =>
      cases refers
      cases absent.symm.trans found
    | variantRef found' _ has inner =>
      cases found'.symm.trans found
      exact inner.grows kind ((Scope.selected_gains has).kept consults built)
    | variantMissing found' _ lacks names inner =>
      cases found'.symm.trans found
      have written := (Scope.write_gains names).records.grows kind
      exact inner.grows kind (written ((Scope.selected_gains lacks).kept consults built))
  | variantMissing found lacks writes =>
    cases run with
    | unknown refers absent =>
      cases refers
      cases absent.symm.trans found
    | variantRef found' _ has =>
      cases found'.symm.trans found
      cases has.symm.trans lacks
    | variantMissing found' _ lacks' names inner =>
      cases found'.symm.trans found
      cases lacks'.symm.trans lacks
      exact inner.grows kind ((Scope.write_gains names).kept writes built)
  | select inner known consults =>
    cases run with
    | unknown refers => cases refers
    | select inner' _ has next =>
      obtain ⟨same, rfl⟩ := inner.deterministic inner'
      cases same
      exact next.grows kind ((Scope.selected_gains has).kept consults built)
    | selectStandard inner' _ lacks next =>
      obtain ⟨same, rfl⟩ := inner.deterministic inner'
      cases same
      exact next.grows kind ((Scope.selected_gains lacks).kept consults built)
    | selectNone inner' unknown =>
      obtain ⟨same, -⟩ := inner.deterministic inner'
      cases same
      cases known.symm.trans unknown

/-- The formatters kept at the end of an evaluation are those from before it and all that it has
asked for and the backend has built. -/
theorem Runs.gains (run : Completes scope guard path task start outcome finish) :
    Gains scope.bundle.options.backend scope.bundle.locales
      (Asks scope guard ⟨path, task, start⟩) start.formatters finish.formatters := by
  refine run.records.gains fun kind options ⟨inner, reaches, demands⟩ built => ?_
  -- Every part on the way to the one that asks comes to an end within this evaluation.
  obtain ⟨result, last, inside, grows⟩ := Runs.reaches grows_rises run reaches
  exact grows kind (inside.demands demands built)

end

end Fluent
