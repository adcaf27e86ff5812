import Fluent.Proofs.Evaluation.Marks
import Fluent.Proofs.Evaluation.Transparency

/-!
# Evaluation whatever the transform

The transform of a bundle is applied to every literal text, in selectors and in arguments too. Where
it leaves alone the texts that selectors are evaluated from, an evaluation goes the same way with it
as without it.

* `Matched`: states of two evaluations that go the same way;
* `Steady`: what an evaluation is to keep to, so that it goes the same way;
* `Runs.matched`, `Calls.matched`: with another transform, an evaluation goes the same way.
-/

namespace Fluent

open Evaluation
open Format (Faithful)
open Relation (ReflTransGen)

/-- The bundle with another transform. -/
def Bundle.transforming (bundle : Bundle) (transform : Option (String → String)) : Bundle :=
  { bundle with options := { bundle.options with transform } }

/-- The scope with another transform. -/
def Scope.transforming (scope : Scope) (transform : Option (String → String)) : Scope :=
  { scope with bundle := scope.bundle.transforming transform }

/-- The literal text of a task, apart from what is evaluated as a part of it. -/
def Task.literal? : Task → Option String
  | .pattern _ (.text text) => some text
  | .parts _ _ _ (.text text :: _) => some text
  | .entry _ (.text text) => some text
  | .expression _ (.string text) => some text
  | _ => none

/-- What is evaluated within the selector of a select expression that the evaluation of a task comes
to. -/
def InSelector (scope : Scope) (guard : List Place → Place → Option EvaluationProblem)
    (frame inner : Frame) : Prop :=
  ∃ path place selector variants standard start,
    ReflTransGen (Calls scope guard) frame
      ⟨path, .expression place (.select selector variants standard), start⟩ ∧
    ReflTransGen (Calls scope guard) ⟨path, .expression (place.child 0) selector, start⟩ inner

/-! ## States -/

/-- States of two evaluations that go the same way: the same patterns are being expanded, and each
formatter kept was built for its key. -/
structure Matched (bundle : Bundle) (start start' : Progress) : Prop where
  expanding : start'.expanding = start.expanding
  first : Faithful bundle.options.backend bundle.locales start.formatters
  second : Faithful bundle.options.backend bundle.locales start'.formatters

namespace Matched

variable {bundle : Bundle} {start start' : Progress}

theorem reported (matched : Matched bundle start start') (problem problem' : EvaluationProblem) :
    Matched bundle (start.reported problem) (start'.reported problem') :=
  ⟨matched.expanding, matched.first, matched.second⟩

theorem entered (matched : Matched bundle start start') (place : Place) :
    Matched bundle (start.entered place) (start'.entered place) :=
  { matched with expanding := congrArg (place :: ·) matched.expanding }

theorem left (matched : Matched bundle start start') (place : Place) :
    Matched bundle (start.left place) (start'.left place) :=
  { matched with expanding := congrArg (·.erase place) matched.expanding }

/-- But for the problems, the states are alike. -/
theorem alike (matched : Matched bundle start start') :
    Alike bundle start { start' with problems := start.problems } :=
  ⟨rfl, matched.expanding, matched.first, matched.second⟩

end Matched

namespace Scope

variable (scope : Scope)

theorem selected_problems (selector : Value) (position : Nat) (variants : List Variant)
    (start : Progress) (problems : List Problem) :
    scope.selected? selector position variants { start with problems } =
      ((scope.selected? selector position variants start).1,
        { (scope.selected? selector position variants start).2 with problems }) := by
  induction variants generalizing position start with
  | nil => rfl
  | cons variant rest ih =>
    rcases tested : withFormatters (variant.key.toValue.selectedBy scope.bundle selector) start
      with ⟨selects, next⟩
    have tested' : withFormatters (variant.key.toValue.selectedBy scope.bundle selector)
        { start with problems } = (selects, { next with problems }) := by
      cases tested
      rfl
    rw [selected_cons position tested, selected_cons position tested']
    cases selects with
    | true => rfl
    | false => exact ih (position + 1) next

variable {scope} {start start' : Progress}

theorem selected_matched {selector : Value} {position : Nat} {variants : List Variant}
    {selection : Option (Nat × Variant)} {chosen : Progress}
    (plain : ∀ request, scope.Consults selector variants start request → request.options.Plain)
    (matched : Matched scope.bundle start start')
    (chooses : scope.selected? selector position variants start = (selection, chosen)) :
    ∃ chosen', scope.selected? selector position variants start' = (selection, chosen') ∧
      Matched scope.bundle chosen chosen' := by
  obtain ⟨chosen', chooses', alike⟩ := scope.selected_mirrored plain matched.alike chooses
  have back := scope.selected_problems selector position variants
    { start' with problems := start.problems } start'.problems
  rw [chooses'] at back
  exact ⟨_, back, alike.expanding, alike.first, alike.second⟩

theorem write_matched {value : Value}
    (plain : ∀ request ∈ value.writer?, request.options.Plain)
    (matched : Matched scope.bundle start start') :
    (scope.write value start').1 = (scope.write value start).1 :=
  (value.write_serves scope.bundle).result plain _ _ matched.second matched.first

theorem write_faithful {value : Value}
    (plain : ∀ request ∈ value.writer?, request.options.Plain)
    (faithful : Faithful scope.bundle.options.backend scope.bundle.locales start.formatters) :
    Faithful scope.bundle.options.backend scope.bundle.locales
      (scope.write value start).2.formatters :=
  (value.write_serves scope.bundle).faithful plain _ faithful

theorem placeableText_matched {value value' : Value}
    (plain : ∀ request ∈ value.writer?, request.options.Plain)
    (plain' : ∀ request ∈ value'.writer?, request.options.Plain)
    (matched : Matched scope.bundle start start') :
    Matched scope.bundle (scope.placeableText value start).2
      (scope.placeableText value' start').2 where
  expanding := ((scope.placeableText_balanced value' start').trans matched.expanding).trans
    (scope.placeableText_balanced value start).symm
  first := (shown_formatters (scope.write value start).1 (scope.write value start).2).symm ▸
    write_faithful plain matched.first
  second := (shown_formatters (scope.write value' start').1 (scope.write value' start').2).symm ▸
    write_faithful plain' matched.second

theorem variableValue_matched (scope : Scope) (name : String) {bundle : Bundle}
    (matched : Matched bundle start start') :
    (scope.variableValue name start').1 = (scope.variableValue name start).1 ∧
      Matched bundle (scope.variableValue name start).2 (scope.variableValue name start').2 := by
  constructor
  · unfold variableValue
    rcases scope.bindings.bind fun bindings => bindings[name]? with _ | held
    · rfl
    · cases held <;> rfl
  · constructor
    · exact ((scope.variableValue_balanced name start').trans matched.expanding).trans
        (scope.variableValue_balanced name start).symm
    · exact (scope.variableValue_formatters name start).symm ▸ matched.first
    · exact (scope.variableValue_formatters name start').symm ▸ matched.second

variable (scope) (transform : Option (String → String))

theorem write_transforming (value : Value) :
    (scope.transforming transform).write value = scope.write value := by
  cases value <;> rfl

theorem placeableText_transforming (value : Value) :
    (scope.transforming transform).placeableText value = scope.placeableText value := by
  rw [placeableText, write_transforming, placeableText]

theorem selectedBy_transforming (key selector : Value) :
    key.selectedBy (scope.transforming transform).bundle selector =
      key.selectedBy scope.bundle selector := by
  cases key <;> cases selector <;> rfl

theorem selected_transforming (selector : Value) (position : Nat) (variants : List Variant) :
    (scope.transforming transform).selected? selector position variants =
      scope.selected? selector position variants := by
  induction variants generalizing position with
  | nil => rfl
  | cons variant rest ih => simp only [selected?, selectedBy_transforming, ih]

theorem consults_transforming (selector : Value) (variants : List Variant) :
    (scope.transforming transform).Consults selector variants = scope.Consults selector variants := by
  induction variants with
  | nil => rfl
  | cons variant rest ih =>
    funext start request
    simp only [Consults, selectedBy_transforming, ih]

theorem placeableText_same {value : Value}
    (plain : ∀ request ∈ value.writer?, request.options.Plain)
    (matched : Matched scope.bundle start start') :
    (scope.placeableText value start').1 = (scope.placeableText value start).1 := by
  rw [placeableText_fst, placeableText_fst, write_matched plain matched]

end Scope

/-! ## Runs -/

/-- Outcomes of the same kind. -/
def Outcome.Kin : Outcome → Outcome → Prop
  | .value _, .value _ => True
  | .text _, .text _ => True
  | .arguments _ _, .arguments _ _ => True
  | _, _ => False

/-- A task has the same text in two scopes. -/
def Agree (scope scope' : Scope) (task : Task) : Prop :=
  ∀ text, task.literal? = some text → scope'.bundle.transformed text = scope.bundle.transformed text

/-- What an evaluation is to keep to, so that it goes the same way in another scope: the formatters
asked for have options with plain names, and the texts in selectors are the same there. If it is
`strict`, so are all texts. -/
structure Steady (scope scope' : Scope) (guard : List Place → Place → Option EvaluationProblem)
    (strict : Prop) (frame : Frame) : Prop where
  plain : ∀ request, Asks scope guard frame request → request.options.Plain
  chosen : ∀ inner, InSelector scope guard frame inner → Agree scope scope' inner.task
  strictly : strict → ∀ inner, ReflTransGen (Calls scope guard) frame inner →
    Agree scope scope' inner.task

section

variable {base : Scope} {given given' : Option (String → String)}
  {guard : List Place → Place → Option EvaluationProblem} {strict : Prop} {frame next : Frame}
  {path : List Place} {task : Task} {start start' finish : Progress} {outcome : Outcome}

/-- With plain names in the options that a task asks for, so they are in those of its parts. -/
theorem plain_of_calls {scope : Scope}
    (plain : ∀ request, Asks scope guard frame request → request.options.Plain)
    (calls : Calls scope guard frame next) (request : Format.Request)
    (asks : Asks scope guard next request) : request.options.Plain :=
  plain request (Asks.of_calls calls request asks)

theorem Steady.of_calls {scope scope' : Scope} (steady : Steady scope scope' guard strict frame)
    (calls : Calls scope guard frame next) : Steady scope scope' guard strict next where
  plain request asks := steady.plain request (Asks.of_calls calls request asks)
  chosen := fun inner ⟨path, place, selector, variants, standard, start, reaches, inside⟩ =>
    steady.chosen inner ⟨path, place, selector, variants, standard, start, .head calls reaches, inside⟩
  strictly h inner reaches := steady.strictly h inner (.head calls reaches)

theorem Steady.selector {scope scope' : Scope} {place : Place} {selector : Expression}
    {variants : List Variant} {standard : Option Nat}
    (steady : Steady scope scope' guard strict
      ⟨path, .expression place (.select selector variants standard), start⟩) :
    Steady scope scope' guard True ⟨path, .expression (place.child 0) selector, start⟩ where
  plain := (steady.of_calls .selector).plain
  chosen := (steady.of_calls .selector).chosen
  strictly _ inner reaches := steady.chosen inner ⟨_, _, _, _, _, _, .refl, reaches⟩

theorem selected_carried {selector : Value} {position : Nat} {variants : List Variant}
    {selection : Option (Nat × Variant)} {chosen : Progress}
    (plain : ∀ request, (base.transforming given).Consults selector variants start request →
      request.options.Plain)
    (matched : Matched base.bundle start start')
    (chooses : (base.transforming given).selected? selector position variants start =
      (selection, chosen)) :
    ∃ chosen', (base.transforming given').selected? selector position variants start' =
      (selection, chosen') ∧ Matched base.bundle chosen chosen' := by
  rw [base.consults_transforming] at plain
  rw [base.selected_transforming] at chooses ⊢
  exact Scope.selected_matched plain matched chooses

theorem write_carried {value : Value} {text : String} {written : Progress}
    (plain : ∀ request ∈ value.writer?, request.options.Plain)
    (matched : Matched base.bundle start start')
    (names : (base.transforming given).write value start = (text, written)) :
    ∃ written', (base.transforming given').write value start' = (text, written') ∧
      Matched base.bundle written written' := by
  rw [base.write_transforming] at names ⊢
  have same := Scope.write_matched plain matched
  have faithful : Faithful base.bundle.options.backend base.bundle.locales
      (base.write value start).2.formatters := Scope.write_faithful plain matched.first
  rw [names] at same faithful
  have expanding := base.write_balanced value start
  rw [names] at expanding
  refine ⟨(base.write value start').2, Prod.ext same rfl, ?_, faithful, ?_⟩
  · exact ((base.write_balanced value start').trans matched.expanding).trans expanding.symm
  · exact Scope.write_faithful plain matched.second

/-- Whatever a function returns, its call has been evaluated. -/
theorem Runs.called {scope : Scope} {place : Place} {name : String} {arguments : List Argument}
    {function : Function} {positional : List Value} {named : Table Value}
    (inner : Completes scope guard path (.arguments place 0 arguments) start
      (.arguments positional named) finish)
    (found : scope.bundle.function? name = some function) :
    ∃ problems, Completes scope guard path (.expression place (.call name arguments)) start
      (.value (match function positional named with
        | .ok value => value
        | .error _ => .none none)) { finish with problems } := by
  cases gives : function positional named with
  | ok value => exact ⟨_, .call found inner gives⟩
  | error refusal => exact ⟨_, .callRefused found inner gives trivial⟩

/-- What an evaluation comes to in the other scope. -/
def Carried (base : Scope) (given' : Option (String → String))
    (guard : List Place → Place → Option EvaluationProblem) (strict : Prop) (path : List Place)
    (task : Task) (start' : Progress) (outcome : Outcome) (finish : Progress) : Prop :=
  ∃ outcome' finish', Completes (base.transforming given') guard path task start' outcome' finish' ∧
    outcome.Kin outcome' ∧ (strict → outcome' = outcome) ∧ Matched base.bundle finish finish'

theorem Carried.value {value : Value}
    (carried : Carried base given' guard strict path task start' (.value value) finish) :
    ∃ value' finish', Completes (base.transforming given') guard path task start' (.value value')
      finish' ∧ (strict → value' = value) ∧ Matched base.bundle finish finish' := by
  obtain ⟨outcome', finish', run', kin, same, matched'⟩ := carried
  cases outcome' with
  | value value' => exact ⟨value', finish', run', fun h => Outcome.value.inj (same h), matched'⟩
  | text | arguments => cases kin

theorem Carried.text {text : String}
    (carried : Carried base given' guard strict path task start' (.text text) finish) :
    ∃ text' finish', Completes (base.transforming given') guard path task start' (.text text')
      finish' ∧ (strict → text' = text) ∧ Matched base.bundle finish finish' := by
  obtain ⟨outcome', finish', run', kin, same, matched'⟩ := carried
  cases outcome' with
  | text text' => exact ⟨text', finish', run', fun h => Outcome.text.inj (same h), matched'⟩
  | value | arguments => cases kin

theorem Carried.arguments {positional : List Value} {named : Table Value}
    (carried : Carried base given' guard strict path task start' (.arguments positional named)
      finish) :
    ∃ positional' named' finish', Completes (base.transforming given') guard path task start'
      (.arguments positional' named') finish' ∧
      (strict → positional' = positional ∧ named' = named) ∧ Matched base.bundle finish finish' := by
  obtain ⟨outcome', finish', run', kin, same, matched'⟩ := carried
  cases outcome' with
  | arguments positional' named' =>
    exact ⟨positional', named', finish', run', fun h => Outcome.arguments.inj (same h), matched'⟩
  | value | text => cases kin

/-- A call whose arguments come to the same is answered alike, whatever it reports. -/
theorem Carried.call {place : Place} {name : String} {arguments : List Argument}
    {function : Function} {positional : List Value} {named : Table Value}
    (carried : Carried base given' guard strict path (.arguments place 0 arguments) start'
      (.arguments positional named) finish)
    (found : (base.transforming given').bundle.function? name = some function)
    (problems : List Problem) :
    Carried base given' guard strict path (.expression place (.call name arguments)) start'
      (.value (match function positional named with
        | .ok value => value
        | .error _ => .none none)) { finish with problems } := by
  obtain ⟨positional', named', finish', run', same, matched'⟩ := carried.arguments
  obtain ⟨problems', called⟩ := Runs.called run' found
  refine ⟨_, _, called, trivial, fun h => ?_, matched'.expanding, matched'.first, matched'.second⟩
  obtain ⟨rfl, rfl⟩ := same h
  rfl

/-- With another transform an evaluation goes the same way, and comes to the same if it is strict. -/
theorem Runs.matched (run : Completes (base.transforming given) guard path task start outcome finish)
    (steady : Steady (base.transforming given) (base.transforming given') guard strict
      ⟨path, task, start⟩)
    (plain' : ∀ request, Asks (base.transforming given') guard ⟨path, task, start'⟩ request →
      request.options.Plain)
    (matched : Matched base.bundle start start') :
    Carried base given' guard strict path task start' outcome finish := by
  induction run generalizing start' strict with
  | patternText =>
    refine ⟨_, start', .patternText trivial, trivial, fun h => ?_, matched⟩
    rw [steady.strictly h _ .refl _ rfl]
  | patternRefused _ refused =>
    rw [← matched.expanding] at refused
    exact ⟨_, _, .patternRefused trivial refused trivial, trivial, fun _ => rfl,
      matched.reported _ _⟩
  | patternExpanded _ free _ _ ih =>
    have free' := free
    rw [← matched.expanding] at free'
    obtain ⟨text', finish', run', same, matched'⟩ :=
      (ih (steady.of_calls (.pattern free)) (plain_of_calls plain' (.pattern free')) (matched.entered _)).text
    refine ⟨_, _, .patternExpanded trivial free' run' trivial, trivial, fun h => ?_,
      matched'.left _⟩
    rw [same h]
  | partsNil => exact ⟨_, start', .partsNil trivial, trivial, fun _ => rfl, matched⟩
  | partsText _ ih =>
    obtain ⟨others', finish', run', same, matched'⟩ :=
      (ih (steady.of_calls .partsText) (plain_of_calls plain' .partsText) matched).text
    refine ⟨_, finish', .partsText run', trivial, fun h => ?_, matched'⟩
    rw [steady.strictly h _ .refl _ rfl, same h]
  | @partsPlaceable _ _ _ _ _ _ _ value after text _ _ _ inner shows _ ih ih' =>
    have next := steady.of_calls (.partsPlaceable inner shows)
    obtain ⟨value', after', run', same, matched₁⟩ :=
      (ih (steady.of_calls .placeable) (plain_of_calls plain' .placeable) matched).value
    have shows' : (base.transforming given').placeableText value' after' =
        ((base.placeableText value' after').1, (base.placeableText value' after').2) :=
      congrFun (base.placeableText_transforming given' value') after'
    rw [base.placeableText_transforming] at shows
    have writes (request) (asked : request ∈ value.writer?) : request.options.Plain :=
      steady.plain request (Demands.shown inner asked).asks
    have writes' (request) (asked : request ∈ value'.writer?) : request.options.Plain :=
      plain' request (Demands.shown run' asked).asks
    have matched₂ := Scope.placeableText_matched writes writes' matched₁
    rw [shows] at matched₂
    obtain ⟨others', finish', next', same', matched₃⟩ := (ih' next
      (plain_of_calls plain' (.partsPlaceable run' shows')) matched₂).text
    refine ⟨_, finish', .partsPlaceable run' shows' next', trivial, fun h => ?_, matched₃⟩
    have text' : (base.placeableText value' after').1 = text := by
      rw [same h, base.placeableText_same writes matched₁, shows]
    rw [text', same' h]
  | entryText =>
    refine ⟨_, start', .entryText trivial, trivial, fun h => ?_, matched⟩
    rw [steady.strictly h _ .refl _ rfl]
  | entryPattern _ ih =>
    obtain ⟨value', finish', run', same, matched'⟩ :=
      (ih (steady.of_calls .entry) (plain_of_calls plain' .entry) matched).value
    exact ⟨_, finish', .entryPattern run', trivial, fun h => same h ▸ rfl, matched'⟩
  | entryEmpty =>
    exact ⟨_, _, .entryEmpty trivial trivial, trivial, fun _ => rfl, matched.reported _ _⟩
  | number => exact ⟨_, start', .number trivial, trivial, fun _ => rfl, matched⟩
  | string =>
    refine ⟨_, start', .string trivial, trivial, fun h => ?_, matched⟩
    rw [steady.strictly h _ .refl _ rfl]
  | @variableRef _ _ name start value _ _ found =>
    obtain ⟨same, matched'⟩ := base.variableValue_matched name matched
    have found' : base.variableValue name start = (value, _) := found
    rw [found'] at same matched'
    refine ⟨_, _, .variableRef trivial rfl trivial, trivial, fun _ => ?_, matched'⟩
    exact congrArg Outcome.value same
  | unknown refers absent =>
    exact ⟨_, _, .unknown refers absent trivial trivial, trivial, fun _ => rfl,
      matched.reported _ _⟩
  | entryRef found _ ih =>
    obtain ⟨value', finish', run', same, matched'⟩ :=
      (ih (steady.of_calls (.entryRef found)) (plain_of_calls plain' (.entryRef found)) matched).value
    exact ⟨_, finish', .entryRef found run', trivial, fun h => same h ▸ rfl, matched'⟩
  | attributeRef found has _ ih =>
    obtain ⟨value', finish', run', same, matched'⟩ :=
      (ih (steady.of_calls (.attributeRef found has)) (plain_of_calls plain' (.attributeRef found has))
        matched).value
    exact ⟨_, finish', .attributeRef found has run', trivial, fun h => same h ▸ rfl, matched'⟩
  | attributeMissing found lacks _ _ ih =>
    obtain ⟨value', finish', run', same, matched'⟩ :=
      (ih (steady.of_calls (.attributeMissing found lacks))
        (plain_of_calls plain' (.attributeMissing found lacks)) (matched.reported _ _)).value
    exact ⟨_, finish', .attributeMissing found lacks trivial run', trivial, fun h => same h ▸ rfl,
      matched'⟩
  | variantRef found _ has _ ih =>
    obtain ⟨chosen', has', matched₁⟩ := selected_carried (fun request consults =>
      steady.plain request (Demands.variantRef found consults).asks) matched has
    obtain ⟨value', finish', run', same, matched₂⟩ :=
      (ih (steady.of_calls (.variantRef found has)) (plain_of_calls plain' (.variantRef found has'))
        matched₁).value
    exact ⟨_, finish', .variantRef found trivial has' run', trivial, fun h => same h ▸ rfl,
      matched₂⟩
  | variantMissing found _ lacks names _ ih =>
    obtain ⟨chosen', lacks', matched₁⟩ := selected_carried (fun request consults =>
      steady.plain request (Demands.variantRef found consults).asks) matched lacks
    obtain ⟨written', names', matched₂⟩ := write_carried (fun request asked =>
      steady.plain request (Demands.variantMissing found lacks asked).asks) matched₁ names
    obtain ⟨value', finish', run', same, matched₃⟩ :=
      (ih (steady.of_calls (.variantMissing found lacks names))
        (plain_of_calls plain' (.variantMissing found lacks' names')) (matched₂.reported _ _)).value
    exact ⟨_, finish', .variantMissing found trivial lacks' names' run', trivial,
      fun h => same h ▸ rfl, matched₃⟩
  | callUnknown absent =>
    exact ⟨_, _, .callUnknown absent trivial trivial, trivial, fun _ => rfl, matched.reported _ _⟩
  | call found inner gives ih =>
    have carried := (ih (steady.of_calls (.call found)) (plain_of_calls plain' (.call found))
      matched).call found
    rw [gives] at carried
    exact carried _
  | callRefused found inner gives _ ih =>
    have carried := (ih (steady.of_calls (.call found)) (plain_of_calls plain' (.call found))
      matched).call found
    rw [gives] at carried
    exact carried _
  | select inner known has _ ih ih' =>
    obtain ⟨key', read', run', same, matched₁⟩ :=
      (ih steady.selector (plain_of_calls plain' .selector) matched).value
    obtain rfl := same trivial
    obtain ⟨chosen', has', matched₂⟩ := selected_carried (fun request consults =>
      steady.plain request (Demands.select inner known consults).asks) matched₁ has
    obtain ⟨value', finish', next', same', matched₃⟩ :=
      (ih' (steady.of_calls (.select inner known has)) (plain_of_calls plain' (.select run' known has'))
        matched₂).value
    exact ⟨_, finish', .select run' known has' next', trivial, fun h => same' h ▸ rfl, matched₃⟩
  | selectStandard inner known lacks _ ih ih' =>
    obtain ⟨key', read', run', same, matched₁⟩ :=
      (ih steady.selector (plain_of_calls plain' .selector) matched).value
    obtain rfl := same trivial
    obtain ⟨chosen', lacks', matched₂⟩ := selected_carried (fun request consults =>
      steady.plain request (Demands.select inner known consults).asks) matched₁ lacks
    obtain ⟨value', finish', next', same', matched₃⟩ :=
      (ih' (steady.of_calls (.selectStandard inner known lacks))
        (plain_of_calls plain' (.selectStandard run' known lacks')) matched₂).value
    exact ⟨_, finish', .selectStandard run' known lacks' next', trivial, fun h => same' h ▸ rfl,
      matched₃⟩
  | selectNone inner unknown _ ih ih' =>
    obtain ⟨key', read', run', same, matched₁⟩ :=
      (ih steady.selector (plain_of_calls plain' .selector) matched).value
    obtain rfl := same trivial
    obtain ⟨value', finish', next', same', matched₂⟩ :=
      (ih' (steady.of_calls (.selectNone inner unknown))
        (plain_of_calls plain' (.selectNone run' unknown)) matched₁).value
    exact ⟨_, finish', .selectNone run' unknown next', trivial, fun h => same' h ▸ rfl, matched₂⟩
  | variantList _ ih =>
    obtain ⟨value', finish', run', same, matched'⟩ :=
      (ih (steady.of_calls .variantList) (plain_of_calls plain' .variantList) matched).value
    exact ⟨_, finish', .variantList run', trivial, fun h => same h ▸ rfl, matched'⟩
  | standard has _ ih =>
    obtain ⟨value', finish', run', same, matched'⟩ :=
      (ih (steady.of_calls (.standard has)) (plain_of_calls plain' (.standard has)) matched).value
    exact ⟨_, finish', .standard has run', trivial, fun h => same h ▸ rfl, matched'⟩
  | standardMissing lacks =>
    exact ⟨_, _, .standardMissing lacks trivial trivial, trivial, fun _ => rfl,
      matched.reported _ _⟩
  | argumentsNil => exact ⟨_, start', .argumentsNil trivial, trivial, fun _ => rfl, matched⟩
  | argumentPositional inner _ ih ih' =>
    obtain ⟨value', read', run', same, matched₁⟩ :=
      (ih (steady.of_calls .argument) (plain_of_calls plain' .argument) matched).value
    obtain ⟨positional', named', finish', next', same', matched₂⟩ :=
      (ih' (steady.of_calls (.arguments inner)) (plain_of_calls plain' (.arguments run')) matched₁).arguments
    refine ⟨_, finish', .argumentPositional run' next', trivial, fun h => ?_, matched₂⟩
    obtain ⟨rfl, rfl⟩ := same' h
    rw [same h]
  | argumentNamed inner _ ih ih' =>
    obtain ⟨value', read', run', same, matched₁⟩ :=
      (ih (steady.of_calls .argument) (plain_of_calls plain' .argument) matched).value
    obtain ⟨positional', named', finish', next', same', matched₂⟩ :=
      (ih' (steady.of_calls (.arguments inner)) (plain_of_calls plain' (.arguments run')) matched₁).arguments
    refine ⟨_, finish', .argumentNamed run' next', trivial, fun h => ?_, matched₂⟩
    obtain ⟨rfl, rfl⟩ := same' h
    rw [same h]

/-- A selector comes to the same with another transform. -/
theorem Runs.selector_matched {place : Place} {selector : Expression} {variants : List Variant}
    {standard : Option Nat} {key : Value}
    (inner : Completes (base.transforming given) guard path (.expression (place.child 0) selector)
      start (.value key) finish)
    (steady : Steady (base.transforming given) (base.transforming given') guard strict
      ⟨path, .expression place (.select selector variants standard), start⟩)
    (plain' : ∀ request, Asks (base.transforming given') guard
      ⟨path, .expression place (.select selector variants standard), start'⟩ request →
        request.options.Plain)
    (matched : Matched base.bundle start start') :
    ∃ finish', Completes (base.transforming given') guard path
      (.expression (place.child 0) selector) start' (.value key) finish' ∧
        Matched base.bundle finish finish' := by
  obtain ⟨key', finish', run', same, matched'⟩ :=
    (inner.matched steady.selector (plain_of_calls plain' .selector) matched).value
  obtain rfl := same trivial
  exact ⟨finish', run', matched'⟩

/-- What an evaluation comes to as a part of a task, it comes to with another transform. -/
theorem Calls.matched (calls : Calls (base.transforming given) guard ⟨path, task, start⟩ next)
    (steady : Steady (base.transforming given) (base.transforming given') guard strict
      ⟨path, task, start⟩)
    (plain' : ∀ request, Asks (base.transforming given') guard ⟨path, task, start'⟩ request →
      request.options.Plain)
    (matched : Matched base.bundle start start') :
    ∃ next', Calls (base.transforming given') guard ⟨path, task, start'⟩
      ⟨next.path, next.task, next'⟩ ∧ Matched base.bundle next.start next' := by
  cases calls with
  | pattern free =>
    rw [← matched.expanding] at free
    exact ⟨_, .pattern free, matched.entered _⟩
  | partsText => exact ⟨start', .partsText, matched⟩
  | placeable => exact ⟨start', .placeable, matched⟩
  | @partsPlaceable _ _ _ _ _ _ _ value after _ _ inner shows =>
    obtain ⟨value', after', run', -, matched₁⟩ :=
      (inner.matched (steady.of_calls .placeable) (plain_of_calls plain' .placeable) matched).value
    have shows' := congrFun (base.placeableText_transforming given' value') after'
    rw [base.placeableText_transforming] at shows
    have matched₂ := Scope.placeableText_matched
      (fun request asked => steady.plain request (Demands.shown inner asked).asks)
      (fun request asked => plain' request (Demands.shown run' asked).asks) matched₁
    rw [shows] at matched₂
    exact ⟨_, .partsPlaceable run' shows', matched₂⟩
  | entry => exact ⟨start', .entry, matched⟩
  | entryRef found => exact ⟨start', .entryRef found, matched⟩
  | attributeRef found has => exact ⟨start', .attributeRef found has, matched⟩
  | attributeMissing found lacks => exact ⟨_, .attributeMissing found lacks, matched.reported _ _⟩
  | variantRef found has =>
    obtain ⟨chosen', has', matched'⟩ := selected_carried (fun request consults =>
      steady.plain request (Demands.variantRef found consults).asks) matched has
    exact ⟨chosen', .variantRef found has', matched'⟩
  | variantMissing found lacks names =>
    obtain ⟨chosen', lacks', matched₁⟩ := selected_carried (fun request consults =>
      steady.plain request (Demands.variantRef found consults).asks) matched lacks
    obtain ⟨written', names', matched₂⟩ := write_carried (fun request asked =>
      steady.plain request (Demands.variantMissing found lacks asked).asks) matched₁ names
    exact ⟨_, .variantMissing found lacks' names', matched₂.reported _ _⟩
  | call found => exact ⟨start', .call found, matched⟩
  | selector => exact ⟨start', .selector, matched⟩
  | select inner known has =>
    obtain ⟨read', run', matched₁⟩ := inner.selector_matched steady plain' matched
    obtain ⟨chosen', has', matched₂⟩ := selected_carried (fun request consults =>
      steady.plain request (Demands.select inner known consults).asks) matched₁ has
    exact ⟨chosen', .select run' known has', matched₂⟩
  | selectStandard inner known lacks =>
    obtain ⟨read', run', matched₁⟩ := inner.selector_matched steady plain' matched
    obtain ⟨chosen', lacks', matched₂⟩ := selected_carried (fun request consults =>
      steady.plain request (Demands.select inner known consults).asks) matched₁ lacks
    exact ⟨chosen', .selectStandard run' known lacks', matched₂⟩
  | selectNone inner unknown =>
    obtain ⟨read', run', matched'⟩ := inner.selector_matched steady plain' matched
    exact ⟨read', .selectNone run' unknown, matched'⟩
  | variantList => exact ⟨start', .variantList, matched⟩
  | standard has => exact ⟨start', .standard has, matched⟩
  | argument => exact ⟨start', .argument, matched⟩
  | arguments inner =>
    obtain ⟨value', read', run', -, matched'⟩ :=
      (inner.matched (steady.of_calls .argument) (plain_of_calls plain' .argument) matched).value
    exact ⟨read', .arguments run', matched'⟩

end

end Fluent
