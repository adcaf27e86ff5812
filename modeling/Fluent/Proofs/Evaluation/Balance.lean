import Fluent.Proofs.Evaluation.Derivation

/-!
# Balance

Evaluation enters patterns and leaves them again. However it ends, whatever is being expanded before
it and however much room there is, the places that are being expanded are the same afterwards.

* `expressionValue_balanced`, `partsText_balanced`: expressions and parts, if the expansion of
  nested patterns is balanced;
* `expansion_balanced`: patterns, by induction on the room.
-/

namespace Fluent

/-- A step after which the same places are being expanded as before. -/
def Evaluation.Balanced {α : Type} (step : Evaluation α) : Prop :=
  ∀ start, (step start).2.expanding = start.expanding

open Evaluation

namespace Evaluation

variable {α β : Type}

theorem balanced_pure (value : α) : Balanced (pure value) := fun _ => rfl

theorem Balanced.bind {step : Evaluation α} {next : α → Evaluation β} (first : step.Balanced)
    (second : ∀ value, (next value).Balanced) : (step >>= next).Balanced := by
  intro start
  have later : ((step >>= next) start).2.expanding = (step start).2.expanding :=
    second (step start).1 (step start).2
  exact later.trans (first start)

theorem report_balanced (problem : EvaluationProblem) : (report problem).Balanced := fun _ => rfl

theorem withFormatters_balanced (step : StateM Format.Formatters α) :
    (withFormatters step).Balanced := fun _ => rfl

theorem reporting_balanced (problem : EvaluationProblem) {step : Evaluation α}
    (balanced : step.Balanced) : (do report problem; step).Balanced :=
  (report_balanced problem).bind fun _ => balanced

end Evaluation

namespace Scope

variable (scope : Scope)

theorem write_balanced (value : Value) : (scope.write value).Balanced :=
  withFormatters_balanced _

theorem shown_balanced (text : String) : (shown text).Balanced := by
  unfold shown
  split
  · exact reporting_balanced _ (balanced_pure _)
  · exact balanced_pure _

theorem variableValue_balanced (name : String) : (scope.variableValue name).Balanced := by
  unfold variableValue
  split
  · exact reporting_balanced _ (balanced_pure _)
  · exact balanced_pure _
  · exact balanced_pure _
  · exact balanced_pure _
  · exact balanced_pure _
  · exact reporting_balanced _ (balanced_pure _)

theorem referenceValue_balanced (id : String) {found : Entry → Evaluation Value}
    (balanced : ∀ entry, (found entry).Balanced) : (scope.referenceValue id found).Balanced := by
  unfold referenceValue
  split
  · exact balanced _
  · exact reporting_balanced _ (balanced_pure _)

theorem selected_balanced (selector : Value) (position : Nat) (variants : List Variant) :
    (scope.selected? selector position variants).Balanced := by
  induction variants generalizing position with
  | nil => exact balanced_pure _
  | cons variant rest ih =>
    refine (withFormatters_balanced _).bind fun selects => ?_
    split
    · exact balanced_pure _
    · exact ih (position + 1)

variable {expand : Place → Pattern → Evaluation Value}

section

variable (balanced : ∀ place pattern, (expand place pattern).Balanced)

include balanced

theorem entryValue_balanced (id : Option String) (entry : Entry) :
    (scope.entryValue expand id entry).Balanced := by
  unfold entryValue
  split
  · exact balanced_pure _
  · exact balanced _ _
  · exact reporting_balanced _ (balanced_pure _)

theorem attributeValue_balanced (id name : String) :
    (scope.attributeValue expand id name).Balanced := by
  refine scope.referenceValue_balanced id fun entry => ?_
  split
  · exact balanced _ _
  · exact reporting_balanced _ (scope.entryValue_balanced balanced _ _)

theorem variantValue_balanced (id : String) (key : VariantKey) :
    (scope.variantValue expand id key).Balanced := by
  refine scope.referenceValue_balanced id fun entry => ?_
  refine (scope.selected_balanced _ _ _).bind fun selection => ?_
  split
  · exact balanced _ _
  · refine (scope.write_balanced _).bind fun text => ?_
    exact reporting_balanced _ (scope.entryValue_balanced balanced _ _)

theorem defaultValue_balanced (place : Place) (variants : List Variant) (standard : Option Nat) :
    (defaultValue expand place variants standard).Balanced := by
  unfold defaultValue
  split
  · exact balanced _ _
  · exact reporting_balanced _ (balanced_pure _)

end

mutual

theorem expressionValue_balanced (balanced : ∀ place pattern, (expand place pattern).Balanced)
    (place : Place) : ∀ expression,
      (scope.expressionValue expand place expression).Balanced
  | .number _ => balanced_pure _
  | .string _ => balanced_pure _
  | .variableRef name => scope.variableValue_balanced name
  | .entryRef id => scope.referenceValue_balanced id (scope.entryValue_balanced balanced _)
  | .attributeRef id name => scope.attributeValue_balanced balanced id name
  | .variantRef id key => scope.variantValue_balanced balanced id key
  | .call name arguments => by
    unfold expressionValue
    split
    · exact reporting_balanced _ (balanced_pure _)
    · refine (argumentValues_balanced balanced place 0 arguments).bind fun (positional, named) => ?_
      dsimp only
      split
      · exact balanced_pure _
      · exact reporting_balanced _ (balanced_pure _)
  | .select selector variants standard => by
    unfold expressionValue
    refine (expressionValue_balanced balanced (place.child 0) selector).bind fun value => ?_
    split
    · exact defaultValue_balanced balanced _ _ _
    · refine (scope.selected_balanced _ _ _).bind fun selection => ?_
      split
      · exact balanced _ _
      · exact defaultValue_balanced balanced _ _ _
  | .variantList variants standard => defaultValue_balanced balanced place variants standard

theorem argumentValues_balanced (balanced : ∀ place pattern, (expand place pattern).Balanced)
    (place : Place) (position : Nat) : ∀ arguments,
      (scope.argumentValues expand place position arguments).Balanced
  | [] => balanced_pure _
  | .positional expression :: rest =>
    (expressionValue_balanced balanced (place.child position) expression).bind fun _ =>
      (argumentValues_balanced balanced place (position + 1) rest).bind fun _ => balanced_pure _
  | .named _ expression :: rest =>
    (expressionValue_balanced balanced (place.child position) expression).bind fun _ =>
      (argumentValues_balanced balanced place (position + 1) rest).bind fun _ => balanced_pure _

end

section

variable (balanced : ∀ place pattern, (expand place pattern).Balanced)

include balanced

theorem partsText_balanced (isolate : Bool) (place : Place) (position : Nat)
    (parts : List Element) : (scope.partsText expand isolate place position parts).Balanced := by
  induction parts generalizing position with
  | nil => exact balanced_pure _
  | cons part rest ih =>
    cases part with
    | text text => exact (ih (position + 1)).bind fun _ => balanced_pure _
    | placeable expression =>
      refine (scope.expressionValue_balanced balanced _ expression).bind fun value => ?_
      refine (scope.write_balanced value).bind fun written => ?_
      refine (shown_balanced written).bind fun text => ?_
      exact (ih (position + 1)).bind fun _ => balanced_pure _

theorem partsValue_balanced (place : Place) (parts : List Element) :
    (scope.partsValue expand place parts).Balanced := by
  intro start
  -- The parts leave the place where `enter` put it, in front.
  have inside := scope.partsText_balanced balanced (scope.isolates parts) place 0 parts
    { start with expanding := place :: start.expanding }
  exact (congrArg (List.erase · place) inside).trans (List.erase_cons_head _ _)

end

section

variable {place : Place} {parts : List Element} {start : Progress}

theorem expansion_again (room : Nat) (expanding : place ∈ start.expanding) :
    scope.expansion room place (.elements parts) start =
      (.none none, start.reported .cyclic) := by
  cases room <;> exact congrFun (if_pos expanding) start

theorem expansion_full (fresh : place ∉ start.expanding) :
    scope.expansion 0 place (.elements parts) start =
      (.none none, start.reported (.tooDeeplyNested deepestExpansion)) :=
  congrFun (if_neg fresh) start

theorem expansion_enters (room : Nat) (fresh : place ∉ start.expanding) :
    scope.expansion (room + 1) place (.elements parts) start =
      scope.partsValue (scope.expansion room) place parts start :=
  congrFun (if_neg fresh) start

end

theorem expansion_balanced (room : Nat) (place : Place) (pattern : Pattern) :
    (scope.expansion room place pattern).Balanced := by
  induction room generalizing place pattern with
  | zero =>
    cases pattern with
    | text text => exact balanced_pure _
    | elements parts =>
      intro start
      by_cases expanding : place ∈ start.expanding
      · rw [scope.expansion_again 0 expanding]; rfl
      · rw [scope.expansion_full expanding]; rfl
  | succ room ih =>
    cases pattern with
    | text text => exact balanced_pure _
    | elements parts =>
      intro start
      by_cases expanding : place ∈ start.expanding
      · rw [scope.expansion_again (room + 1) expanding]; rfl
      · rw [scope.expansion_enters room expanding]
        exact scope.partsValue_balanced ih place parts start

end Scope

end Fluent
