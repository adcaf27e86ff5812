import Mathlib
import Fluent.Proofs.Evaluation.Calls
import Fluent.Proofs.Evaluation.Termination

/-!
# Evaluation without guards

Where an evaluation never comes to a pattern that is being expanded already, and never to more than
`deepestExpansion` patterns inside one another, the guards make no difference: the evaluation that
has none comes to the same.

* `Sound`: it never comes to a pattern that the guards would refuse;
* `resolve_unguarded`: what a bundle formats is then what it formats without guards.
-/

namespace Fluent

/-- The guard that refuses nothing. -/
def unguarded (_expanding : List Place) (_place : Place) : Option EvaluationProblem := none

section

variable (scope : Scope)

/-- A run without guards. -/
abbrev RunsFreely : List Place → Task → Progress → Outcome → Progress → Prop :=
  Completes scope unguarded

/-- An evaluation without guards never comes to a pattern with parts that is being expanded
already, or inside as many others as there may be. -/
def Sound (frame : Frame) : Prop :=
  ∀ path place parts start,
    Relation.ReflTransGen (Calls scope unguarded) frame
        ⟨path, .pattern place (.elements parts), start⟩ →
      place ∉ path ∧ path.length < deepestExpansion

end

section

variable {scope : Scope} {path : List Place} {task : Task} {start finish : Progress}
  {outcome : Outcome}

theorem Sound.of_calls {frame inner : Frame} (sound : Sound scope frame)
    (calls : Calls scope unguarded frame inner) : Sound scope inner :=
  fun _ _ _ _ reaches => sound _ _ _ _ (.head calls reaches)

/-- What holds of the first task, is kept from a task to its parts and excludes what the guards
would refuse shows that they refuse nothing. -/
theorem Sound.of_invariant {frame : Frame} (I : Frame → Prop) (first : I frame)
    (kept : ∀ frame next, I frame → Calls scope unguarded frame next → I next)
    (excludes : ∀ path place parts start, I ⟨path, .pattern place (.elements parts), start⟩ →
      place ∉ path ∧ path.length < deepestExpansion) : Sound scope frame := by
  have holds (next : Frame) (reaches : Relation.ReflTransGen (Calls scope unguarded) frame next) :
      I next := by
    induction reaches with
    | refl => exact first
    | tail _ calls ih => exact kept _ _ ih calls
  exact fun path place parts start reaches => excludes path place parts start (holds _ reaches)

/-- Where the evaluation without guards comes to nothing that they would refuse, it follows a
derivation in which they refuse nothing. -/
theorem Runs.free (run : Runs scope refusal? Tracked path task start outcome finish)
    (sound : Sound scope ⟨path, task, start⟩) :
    RunsFreely scope path task start outcome finish := by
  induction run with
  | patternText => exact .patternText trivial
  | patternRefused before refused =>
    obtain ⟨fresh, room⟩ := sound _ _ _ _ .refl
    rw [← before.expanding] at fresh room
    cases (Scope.not_refused fresh room).symm.trans refused
  | patternExpanded _ _ _ _ ih =>
    exact .patternExpanded trivial rfl (ih (sound.of_calls (.pattern rfl))) trivial
  | partsNil => exact .partsNil trivial
  | partsText _ ih => exact .partsText (ih (sound.of_calls .partsText))
  | partsPlaceable _ shows _ ih ih' =>
    have inner := ih (sound.of_calls .placeable)
    exact .partsPlaceable inner shows (ih' (sound.of_calls (.partsPlaceable inner shows)))
  | entryText => exact .entryText trivial
  | entryPattern _ ih => exact .entryPattern (ih (sound.of_calls .entry))
  | entryEmpty => exact .entryEmpty trivial trivial
  | number => exact .number trivial
  | string => exact .string trivial
  | variableRef _ found => exact .variableRef trivial found trivial
  | unknown refers absent => exact .unknown refers absent trivial trivial
  | entryRef found _ ih => exact .entryRef found (ih (sound.of_calls (.entryRef found)))
  | attributeRef found has _ ih =>
    exact .attributeRef found has (ih (sound.of_calls (.attributeRef found has)))
  | attributeMissing found lacks _ _ ih =>
    exact .attributeMissing found lacks trivial
      (ih (sound.of_calls (.attributeMissing found lacks)))
  | variantRef found _ has _ ih =>
    exact .variantRef found trivial has (ih (sound.of_calls (.variantRef found has)))
  | variantMissing found _ lacks names _ ih =>
    exact .variantMissing found trivial lacks names
      (ih (sound.of_calls (.variantMissing found lacks names)))
  | callUnknown absent => exact .callUnknown absent trivial trivial
  | call found _ gives ih => exact .call found (ih (sound.of_calls (.call found))) gives
  | callRefused found _ gives _ ih =>
    exact .callRefused found (ih (sound.of_calls (.call found))) gives trivial
  | select _ known has _ ih ih' =>
    have inner := ih (sound.of_calls .selector)
    exact .select inner known has (ih' (sound.of_calls (.select inner known has)))
  | selectStandard _ known lacks _ ih ih' =>
    have inner := ih (sound.of_calls .selector)
    exact .selectStandard inner known lacks
      (ih' (sound.of_calls (.selectStandard inner known lacks)))
  | selectNone _ unknown _ ih ih' =>
    have inner := ih (sound.of_calls .selector)
    exact .selectNone inner unknown (ih' (sound.of_calls (.selectNone inner unknown)))
  | variantList _ ih => exact .variantList (ih (sound.of_calls .variantList))
  | standard has _ ih => exact .standard has (ih (sound.of_calls (.standard has)))
  | standardMissing lacks => exact .standardMissing lacks trivial trivial
  | argumentsNil => exact .argumentsNil trivial
  | argumentPositional _ _ ih ih' =>
    have inner := ih (sound.of_calls .argument)
    exact .argumentPositional inner (ih' (sound.of_calls (.arguments inner)))
  | argumentNamed _ _ ih ih' =>
    have inner := ih (sound.of_calls .argument)
    exact .argumentNamed inner (ih' (sound.of_calls (.arguments inner)))

/-! ## Problems -/

/-- Whether a problem is one that the guards report. -/
def Problem.isRefusal : Problem → Bool
  | .evaluation .cyclic => true
  | .evaluation (.tooDeeplyNested _) => true
  | _ => false

/-- Problems are added at the end, and none of them is one that the guards report. -/
def Appends (start finish : Progress) : Prop :=
  ∃ added, finish.problems = start.problems ++ added ∧
    ∀ problem ∈ added, problem.isRefusal = false

namespace Appends

variable {middle : Progress}

theorem refl (start : Progress) : Appends start start := ⟨[], by simp⟩

theorem trans (first : Appends start middle) (second : Appends middle finish) :
    Appends start finish := by
  obtain ⟨added, hadded, hnone⟩ := first
  obtain ⟨more, hmore, hnone'⟩ := second
  refine ⟨added ++ more, by rw [hmore, hadded, List.append_assoc], fun problem hm => ?_⟩
  exact (List.mem_append.mp hm).elim (hnone problem) (hnone' problem)

theorem reported (start : Progress) {problem : EvaluationProblem}
    (h : (Problem.evaluation problem).isRefusal = false) :
    Appends start (start.reported problem) :=
  ⟨[.evaluation problem], rfl, by simpa using h⟩

end Appends

theorem unknownEntry_isRefusal (id : String) :
    (Problem.evaluation (unknownEntry id)).isRefusal = false := by
  unfold unknownEntry
  split <;> rfl

/-- A step that only adds problems, and none that the guards report. -/
def Evaluation.Appending {α : Type} (step : Evaluation α) : Prop :=
  ∀ start, Appends start (step start).2

namespace Evaluation

variable {α β : Type}

theorem appending_pure (value : α) : Appending (pure value) := Appends.refl

theorem Appending.bind {step : Evaluation α} {next : α → Evaluation β} (first : step.Appending)
    (second : ∀ value, (next value).Appending) : (step >>= next).Appending :=
  fun start => (first start).trans (second (step start).1 (step start).2)

theorem reporting_appending {problem : EvaluationProblem} {step : Evaluation α}
    (h : (Problem.evaluation problem).isRefusal = false) (appending : step.Appending) :
    (do report problem; step).Appending :=
  Appending.bind (fun start => Appends.reported start h) fun _ => appending

theorem withFormatters_appending (step : StateM Format.Formatters α) :
    (withFormatters step).Appending := Appends.refl

end Evaluation

namespace Scope

open Evaluation

variable (scope : Scope)

theorem placeableText_appending (value : Value) : (scope.placeableText value).Appending := by
  refine (withFormatters_appending _).bind fun text => ?_
  unfold shown
  split
  · exact reporting_appending rfl (appending_pure _)
  · exact appending_pure _

theorem variableValue_appending (name : String) : (scope.variableValue name).Appending := by
  unfold variableValue
  split
  · exact reporting_appending rfl (appending_pure _)
  · exact appending_pure _
  · exact appending_pure _
  · exact appending_pure _
  · exact appending_pure _
  · exact reporting_appending rfl (appending_pure _)

theorem selected_appending (selector : Value) (position : Nat) (variants : List Variant) :
    (scope.selected? selector position variants).Appending := by
  induction variants generalizing position with
  | nil => exact appending_pure _
  | cons variant rest ih =>
    refine (withFormatters_appending _).bind fun selects => ?_
    split
    · exact appending_pure _
    · exact ih (position + 1)

end Scope

theorem Evaluation.Appending.of_eq {α : Type} {step : Evaluation α} {value : α}
    (appending : step.Appending) (gives : step start = (value, finish)) : Appends start finish := by
  have h := appending start
  rwa [gives] at h

/-- Without guards nothing is reported that they would report. -/
theorem Runs.appends {M : List Place → Progress → Prop}
    (run : Runs scope unguarded M path task start outcome finish) : Appends start finish := by
  induction run with
  | patternText | partsNil | entryText | number | string | argumentsNil => exact .refl _
  | patternRefused _ refused => cases refused
  | patternExpanded _ _ _ _ ih => exact ih
  | partsText _ ih | entryPattern _ ih | entryRef _ _ ih | attributeRef _ _ _ ih | call _ _ _ ih
  | variantList _ ih | standard _ _ ih => exact ih
  | partsPlaceable _ shows _ ih ih' =>
    exact (ih.trans ((scope.placeableText_appending _).of_eq shows)).trans ih'
  | entryEmpty | callUnknown | standardMissing => exact .reported _ rfl
  | variableRef _ found => exact (scope.variableValue_appending _).of_eq found
  | unknown => exact .reported _ (unknownEntry_isRefusal _)
  | attributeMissing _ _ _ _ ih => exact (Appends.reported _ rfl).trans ih
  | variantRef _ _ has _ ih => exact ((scope.selected_appending _ _ _).of_eq has).trans ih
  | variantMissing _ _ lacks names _ ih =>
    have chosen := (scope.selected_appending _ _ _).of_eq lacks
    have written := (Evaluation.withFormatters_appending _).of_eq names
    exact ((chosen.trans written).trans (.reported _ rfl)).trans ih
  | callRefused _ _ _ _ ih => exact ih.trans (.reported _ rfl)
  | select _ _ has _ ih ih' =>
    exact (ih.trans ((scope.selected_appending _ _ _).of_eq has)).trans ih'
  | selectStandard _ _ lacks _ ih ih' =>
    exact (ih.trans ((scope.selected_appending _ _ _).of_eq lacks)).trans ih'
  | selectNone _ _ _ ih ih' => exact ih.trans ih'
  | argumentPositional _ _ ih ih' | argumentNamed _ _ ih ih' => exact ih.trans ih'

end

/-! ## Bundles -/

/-- The guards make no difference to what a bundle formats where an evaluation without them comes to
nothing that they refuse. -/
theorem resolve_unguarded (bundle : Bundle) (bindings : Option Variables) (target : Target)
    (problems : List Problem)
    (sound : Sound ⟨bundle, bindings⟩ ⟨[], target.task, bundle.start problems⟩) :
    ∃ value finish,
      RunsFreely ⟨bundle, bindings⟩ [] target.task (bundle.start problems) (.value value) finish ∧
      (∀ outcome other,
        RunsFreely ⟨bundle, bindings⟩ [] target.task (bundle.start problems) outcome other →
          outcome = .value value ∧ other = finish) ∧
      bundle.resolve bindings target problems =
        { text := (value.write bundle finish.formatters).1
          problems := finish.problems
          formatters := (value.write bundle finish.formatters).2 } ∧
      ∃ added, (bundle.resolve bindings target problems).problems = problems ++ added ∧
        ∀ problem ∈ added, problem ≠ .evaluation .cyclic ∧
          ∀ most, problem ≠ .evaluation (.tooDeeplyNested most) := by
  have tracked : Tracked [] (bundle.start problems) := ⟨rfl, List.nodup_nil, Nat.zero_le _⟩
  have runs := (Scope.mk bundle bindings).targetValue_follows target (bundle.start problems) tracked
  have free := runs.free sound
  refine ⟨_, _, free, fun outcome other run => free.deterministic run, rfl, ?_⟩
  obtain ⟨added, hadded, hnone⟩ := free.appends
  refine ⟨added, hadded, fun problem hm => ⟨?_, fun most => ?_⟩⟩
  · rintro rfl
    cases hnone _ hm
  · rintro rfl
    cases hnone _ hm

/-- An entry whose pattern has a part. -/
def quoted : Entry := .node (some (.elements [.placeable (.string "y")])) none

/-- A bundle with that entry only. -/
def quotedBundle : Bundle := (Bundle.empty [] {}).insert "b" quoted

/-- A pattern that refers to the entry twice. -/
def twice : List Element := [.placeable (.entryRef "b"), .placeable (.entryRef "b")]

/-- Where an evaluation of the pattern comes to. -/
inductive Visited : List Place → Task → Prop
  | pattern : Visited [] (.pattern ⟨some "a", none, []⟩ (.elements twice))
  | parts {isolate position parts} (refer : ∀ part ∈ parts, part = .placeable (.entryRef "b")) :
    Visited [⟨some "a", none, []⟩] (.parts isolate ⟨some "a", none, []⟩ position parts)
  | reference {place} : Visited [⟨some "a", none, []⟩] (.expression place (.entryRef "b"))
  | entry : Visited [⟨some "a", none, []⟩] (.entry (some "b") quoted)
  | inner : Visited [⟨some "a", none, []⟩]
      (.pattern ⟨some "b", none, []⟩ (.elements [.placeable (.string "y")]))
  | innerParts {isolate position parts} (plain : ∀ part ∈ parts, part = .placeable (.string "y")) :
    Visited [⟨some "b", none, []⟩, ⟨some "a", none, []⟩]
      (.parts isolate ⟨some "b", none, []⟩ position parts)
  | innerText {place} :
    Visited [⟨some "b", none, []⟩, ⟨some "a", none, []⟩] (.expression place (.string "y"))

theorem Visited.calls {frame next : Frame} (visited : Visited frame.path frame.task)
    (calls : Calls ⟨quotedBundle, none⟩ unguarded frame next) : Visited next.path next.task := by
  have held : quotedBundle.entryOf? "b" = some quoted := by cbv
  obtain ⟨path, task, start⟩ := frame
  cases visited with
  | pattern =>
    cases calls
    exact .parts (by simp [twice])
  | parts refer =>
    cases calls with
    | partsText => cases refer _ List.mem_cons_self
    | placeable =>
      cases refer _ List.mem_cons_self
      exact .reference
    | partsPlaceable => exact .parts fun part hm => refer part (List.mem_cons_of_mem _ hm)
  | reference =>
    cases calls with
    | entryRef found =>
      obtain rfl := Option.some_inj.mp (held.symm.trans found)
      exact .entry
  | entry =>
    cases calls
    exact .inner
  | inner =>
    cases calls
    exact .innerParts (by simp)
  | innerParts plain =>
    cases calls with
    | partsText => cases plain _ List.mem_cons_self
    | placeable =>
      cases plain _ List.mem_cons_self
      exact .innerText
    | partsPlaceable => exact .innerParts fun part hm => plain part (List.mem_cons_of_mem _ hm)
  | innerText => cases calls

/-- A pattern may be expanded twice, side by side. -/
theorem resolve_unguarded_twice :
    Sound ⟨quotedBundle, none⟩ ⟨[], .pattern ⟨some "a", none, []⟩ (.elements twice),
        quotedBundle.start []⟩ ∧
      ∃ value finish,
        RunsFreely ⟨quotedBundle, none⟩ [] (.pattern ⟨some "a", none, []⟩ (.elements twice))
          (quotedBundle.start []) (.value value) finish ∧
        (value.write quotedBundle finish.formatters).1 = "\u2068y\u2069\u2068y\u2069" ∧
        finish.problems = [] := by
  have sound : Sound ⟨quotedBundle, none⟩
      ⟨[], .pattern ⟨some "a", none, []⟩ (.elements twice), quotedBundle.start []⟩ := by
    refine .of_invariant (fun frame => Visited frame.path frame.task) .pattern
      (fun _ _ visited calls => visited.calls calls) ?_
    intro path place parts start visited
    cases visited <;> decide
  obtain ⟨value, finish, free, -, hresolve, -⟩ := resolve_unguarded quotedBundle none
    (.pattern ⟨some "a", none, []⟩ (.elements twice)) [] sound
  have htext : (quotedBundle.resolve none (.pattern ⟨some "a", none, []⟩ (.elements twice)) []).text
      = "\u2068y\u2069\u2068y\u2069" := by cbv
  have hproblems : (quotedBundle.resolve none (.pattern ⟨some "a", none, []⟩
      (.elements twice)) []).problems = [] := by cbv
  rw [hresolve] at htext hproblems
  exact ⟨sound, value, finish, free, htext, hproblems⟩

end Fluent
