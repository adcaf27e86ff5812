import Fluent.Proofs.Addition
import Fluent.Proofs.Evaluation.Unguarded
import Fluent.Proofs.History

/-!
# Evaluation in larger bundles

Adding resources leaves what a bundle holds as it is. An evaluation that misses no entry never looks
at what has been added, so it comes to the same in the larger bundle.

* `Enlarged`: bundles that hold more entries and are the same otherwise;
* `Runs.problems_prefix`: problems are only ever added;
* `Runs.enlarged`: an evaluation that misses no entry, in a larger bundle;
* `resolve_addResource`: what resolves without missing an entry goes on to resolve in the same way.
-/

namespace Fluent

open Evaluation

/-! ## Larger bundles -/

/-- The bundle with other messages and terms. -/
def Bundle.holding (bundle : Bundle) (messages terms : Table Entry) : Bundle :=
  { bundle with messages, terms }

/-- The scope with other messages and terms in its bundle. -/
def Scope.holding (scope : Scope) (messages terms : Table Entry) : Scope :=
  { scope with bundle := scope.bundle.holding messages terms }

/-- A bundle is enlarged by more messages and terms. -/
structure Bundle.Enlarged (bundle larger : Bundle) : Prop where
  same : larger = bundle.holding larger.messages larger.terms
  messages : ∀ (id : String) entry, bundle.messages[id]? = some entry →
    larger.messages[id]? = some entry
  terms : ∀ (id : String) entry, bundle.terms[id]? = some entry → larger.terms[id]? = some entry

namespace Bundle

variable {bundle larger : Bundle}

theorem Enlarged.refl (bundle : Bundle) : bundle.Enlarged bundle :=
  ⟨rfl, fun _ _ => id, fun _ _ => id⟩

theorem Enlarged.insert {id : String} (enlarged : bundle.Enlarged larger)
    (free : larger.entryOf? id = none) (entry : Entry) :
    bundle.Enlarged (larger.insert id entry) := by
  unfold entryOf? at free
  unfold Bundle.insert
  cases kind : EntryKind.ofId id with
  | term =>
    rw [kind] at free
    refine ⟨by rw [enlarged.same]; rfl, enlarged.messages, fun id' held hd => ?_⟩
    have kept := enlarged.terms id' held hd
    rw [Std.ExtTreeMap.getElem?_insert, if_neg, kept]
    intro h
    rw [compare_eq_iff_eq.mp h, kept] at free
    cases free
  | message =>
    rw [kind] at free
    refine ⟨by rw [enlarged.same]; rfl, fun id' held hd => ?_, enlarged.terms⟩
    have kept := enlarged.messages id' held hd
    rw [Std.ExtTreeMap.getElem?_insert, if_neg, kept]
    intro h
    rw [compare_eq_iff_eq.mp h, kept] at free
    cases free

theorem Enlarged.entryOf {id : String} {entry : Entry} (enlarged : bundle.Enlarged larger)
    (held : bundle.entryOf? id = some entry) : larger.entryOf? id = some entry := by
  unfold entryOf? at held ⊢
  split at held
  · exact enlarged.terms id entry held
  · exact enlarged.messages id entry held

theorem addResource_enlarged (bundle : Bundle) (resource : Grammar.Resource) :
    bundle.Enlarged (bundle.addResource resource).1 :=
  addEntries_induction (fun _ _ entry free enlarged => enlarged.insert free entry) (.refl bundle) _

end Bundle

theorem Value.write_holding (bundle : Bundle) (messages terms : Table Entry) (value : Value) :
    value.write (bundle.holding messages terms) = value.write bundle := by
  cases value <;> rfl

namespace Scope

variable (scope : Scope) (messages terms : Table Entry)

theorem write_holding (value : Value) :
    (scope.holding messages terms).write value = scope.write value :=
  congrArg withFormatters (value.write_holding scope.bundle messages terms)

theorem placeableText_holding (value : Value) :
    (scope.holding messages terms).placeableText value = scope.placeableText value := by
  rw [placeableText, write_holding, placeableText]

theorem selectedBy_holding (key selector : Value) :
    key.selectedBy (scope.holding messages terms).bundle selector =
      key.selectedBy scope.bundle selector := by
  cases key <;> cases selector <;> rfl

theorem selected_holding (selector : Value) (position : Nat) (variants : List Variant) :
    (scope.holding messages terms).selected? selector position variants =
      scope.selected? selector position variants := by
  induction variants generalizing position with
  | nil => rfl
  | cons variant rest ih => simp only [selected?, selectedBy_holding, ih]

end Scope

/-! ## Problems -/

section

variable {scope : Scope} {guard : List Place → Place → Option EvaluationProblem}
  {M : List Place → Progress → Prop} {path : List Place} {task : Task} {start finish : Progress}
  {outcome : Outcome}

theorem Appends.isPrefix (appends : Appends start finish) : start.problems <+: finish.problems := by
  obtain ⟨added, hadded, -⟩ := appends
  exact ⟨added, hadded.symm⟩

theorem Progress.reported_isPrefix (start : Progress) (problem : EvaluationProblem) :
    start.problems <+: (start.reported problem).problems :=
  List.prefix_append _ _

/-- Problems are only added to those that have been reported. -/
theorem Runs.problems_prefix (run : Runs scope guard M path task start outcome finish) :
    start.problems <+: finish.problems := by
  induction run with
  | patternText | partsNil | entryText | number | string | argumentsNil => exact List.prefix_rfl
  | patternRefused | entryEmpty | unknown | callUnknown | standardMissing =>
    exact Progress.reported_isPrefix _ _
  | patternExpanded _ _ _ _ ih => exact ih
  | partsText _ ih | entryPattern _ ih | entryRef _ _ ih | attributeRef _ _ _ ih | call _ _ _ ih
  | variantList _ ih | standard _ _ ih => exact ih
  | partsPlaceable _ shows _ ih ih' =>
    exact (ih.trans ((scope.placeableText_appending _).of_eq shows).isPrefix).trans ih'
  | variableRef _ found => exact ((scope.variableValue_appending _).of_eq found).isPrefix
  | attributeMissing _ _ _ _ ih => exact (Progress.reported_isPrefix _ _).trans ih
  | variantRef _ _ has _ ih => exact ((scope.selected_appending _ _ _).of_eq has).isPrefix.trans ih
  | variantMissing _ _ lacks names _ ih =>
    have chosen := ((scope.selected_appending _ _ _).of_eq lacks).isPrefix
    have written := ((withFormatters_appending _).of_eq names).isPrefix
    exact ((chosen.trans written).trans (Progress.reported_isPrefix _ _)).trans ih
  | callRefused _ _ _ _ ih => exact ih.trans (Progress.reported_isPrefix _ _)
  | select _ _ has _ ih ih' =>
    exact (ih.trans ((scope.selected_appending _ _ _).of_eq has).isPrefix).trans ih'
  | selectStandard _ _ lacks _ ih ih' =>
    exact (ih.trans ((scope.selected_appending _ _ _).of_eq lacks).isPrefix).trans ih'
  | selectNone _ _ _ ih ih' => exact ih.trans ih'
  | argumentPositional _ _ ih ih' | argumentNamed _ _ ih ih' => exact ih.trans ih'

/-! ## Missing entries -/

/-- Whether a problem is that nothing is found under an id. -/
def Problem.isMissing : Problem → Bool
  | .evaluation (.unknownMessage _) => true
  | .evaluation (.unknownTerm _) => true
  | _ => false

theorem unknownEntry_isMissing (id : String) :
    (Problem.evaluation (unknownEntry id)).isMissing = true := by
  unfold unknownEntry
  split <;> rfl

/-- From one state to another no entry has been missed. -/
def Complete (start finish : Progress) : Prop :=
  ∀ added, finish.problems = start.problems ++ added → ∀ problem ∈ added, problem.isMissing = false

namespace Complete

variable {middle : Progress}

/-- What is complete is complete up to each state on the way. -/
theorem upTo (complete : Complete start finish) (next : middle.problems <+: finish.problems) :
    Complete start middle := by
  intro added hadded problem hm
  obtain ⟨more, hmore⟩ := next
  refine complete (added ++ more) ?_ problem (List.mem_append_left _ hm)
  rw [← hmore, hadded, List.append_assoc]

/-- What is complete is complete from each state on the way. -/
theorem since (complete : Complete start finish) (before : start.problems <+: middle.problems) :
    Complete middle finish := by
  intro added hadded problem hm
  obtain ⟨known, hknown⟩ := before
  refine complete (known ++ added) ?_ problem (List.mem_append_right _ hm)
  rw [hadded, ← hknown, List.append_assoc]

theorem not_reported (id : String) : ¬ Complete start (start.reported (unknownEntry id)) := by
  intro complete
  cases (complete _ rfl _ List.mem_cons_self).symm.trans (unknownEntry_isMissing id)

end Complete

/-- An evaluation that misses no entry does the same in a larger bundle. -/
theorem Runs.enlarged {messages terms : Table Entry}
    (run : Completes scope guard path task start outcome finish)
    (complete : Complete start finish)
    (enlarged : scope.bundle.Enlarged (scope.bundle.holding messages terms)) :
    Completes (scope.holding messages terms) guard path task start outcome finish := by
  induction run with
  | patternText => exact .patternText trivial
  | patternRefused _ refused => exact .patternRefused trivial refused trivial
  | patternExpanded _ free _ _ ih => exact .patternExpanded trivial free (ih complete) trivial
  | partsNil => exact .partsNil trivial
  | partsText _ ih => exact .partsText (ih complete)
  | partsPlaceable inner shows next ih ih' =>
    have written := ((scope.placeableText_appending _).of_eq shows).isPrefix
    rw [← scope.placeableText_holding messages terms] at shows
    exact .partsPlaceable (ih (complete.upTo (written.trans next.problems_prefix))) shows
      (ih' (complete.since (inner.problems_prefix.trans written)))
  | entryText => exact .entryText trivial
  | entryPattern _ ih => exact .entryPattern (ih complete)
  | entryEmpty => exact .entryEmpty trivial trivial
  | number => exact .number trivial
  | string => exact .string trivial
  | variableRef _ found => exact .variableRef trivial found trivial
  | unknown => exact absurd complete (Complete.not_reported _)
  | entryRef found _ ih => exact .entryRef (enlarged.entryOf found) (ih complete)
  | attributeRef found has _ ih => exact .attributeRef (enlarged.entryOf found) has (ih complete)
  | attributeMissing found lacks _ inner ih =>
    exact .attributeMissing (enlarged.entryOf found) lacks trivial
      (ih (complete.since (Progress.reported_isPrefix _ _)))
  | variantRef found _ has inner ih =>
    have chosen := ((scope.selected_appending _ _ _).of_eq has).isPrefix
    rw [← scope.selected_holding messages terms] at has
    exact .variantRef (enlarged.entryOf found) trivial has
      (ih (complete.since chosen))
  | variantMissing found _ lacks names inner ih =>
    have chosen := ((scope.selected_appending _ _ _).of_eq lacks).isPrefix
    have written := ((withFormatters_appending _).of_eq names).isPrefix
    rw [← scope.selected_holding messages terms] at lacks
    rw [← scope.write_holding messages terms] at names
    exact .variantMissing (enlarged.entryOf found) trivial lacks names
      (ih (complete.since ((chosen.trans written).trans (Progress.reported_isPrefix _ _))))
  | callUnknown absent => exact .callUnknown absent trivial trivial
  | call found _ gives ih => exact .call found (ih complete) gives
  | callRefused found inner gives _ ih =>
    exact .callRefused found
      (ih (complete.upTo (Progress.reported_isPrefix _ _))) gives trivial
  | select inner known has next ih ih' =>
    have chosen := ((scope.selected_appending _ _ _).of_eq has).isPrefix
    rw [← scope.selected_holding messages terms] at has
    exact .select (ih (complete.upTo (chosen.trans next.problems_prefix))) known has
      (ih' (complete.since (inner.problems_prefix.trans chosen)))
  | selectStandard inner known lacks next ih ih' =>
    have chosen := ((scope.selected_appending _ _ _).of_eq lacks).isPrefix
    rw [← scope.selected_holding messages terms] at lacks
    exact .selectStandard (ih (complete.upTo (chosen.trans next.problems_prefix))) known lacks
      (ih' (complete.since (inner.problems_prefix.trans chosen)))
  | selectNone inner unknown next ih ih' =>
    exact .selectNone (ih (complete.upTo next.problems_prefix)) unknown
      (ih' (complete.since inner.problems_prefix))
  | variantList _ ih => exact .variantList (ih complete)
  | standard has _ ih => exact .standard has (ih complete)
  | standardMissing lacks => exact .standardMissing lacks trivial trivial
  | argumentsNil => exact .argumentsNil trivial
  | argumentPositional inner next ih ih' =>
    exact .argumentPositional (ih (complete.upTo next.problems_prefix))
      (ih' (complete.since inner.problems_prefix))
  | argumentNamed inner next ih ih' =>
    exact .argumentNamed (ih (complete.upTo next.problems_prefix))
      (ih' (complete.since inner.problems_prefix))

end

/-! ## Bundles -/

namespace Bundle

variable {bundle larger : Bundle} {target : Target}

theorem Enlarged.messageTarget {id : String} (enlarged : bundle.Enlarged larger)
    (held : bundle.messageTarget? id = some target) : larger.messageTarget? id = some target := by
  obtain ⟨entry, found, rfl⟩ := Option.map_eq_some_iff.mp held
  exact Option.map_eq_some_iff.mpr ⟨entry, enlarged.messages id entry found, rfl⟩

theorem Enlarged.attributeTarget {id name : String} (enlarged : bundle.Enlarged larger)
    (held : bundle.attributeTarget? id name = some target) :
    larger.attributeTarget? id name = some target := by
  obtain ⟨entry, found, has⟩ := Option.bind_eq_some_iff.mp held
  exact Option.bind_eq_some_iff.mpr ⟨entry, enlarged.messages id entry found, has⟩

/-- A target that is resolved without an entry being missed is resolved in the same way in a larger
bundle. -/
theorem Enlarged.resolve_eq {bindings : Option Variables} {problems : List Problem}
    (enlarged : bundle.Enlarged larger)
    (complete : ∀ problem ∈ (bundle.resolve bindings target problems).problems.drop problems.length,
      problem.isMissing = false) :
    larger.resolve bindings target problems = bundle.resolve bindings target problems := by
  obtain ⟨value, finish, run, resolved⟩ := bundle.resolve_completes bindings target problems
  obtain ⟨value', finish', run', resolved'⟩ := larger.resolve_completes bindings target problems
  have appended : Complete (bundle.start problems) finish := by
    intro added hadded
    have hdrop : finish.problems.drop problems.length = added := by
      rw [hadded]
      exact List.drop_left
    rwa [resolved, hdrop] at complete
  have same := enlarged.same
  generalize larger.messages = messages at same
  generalize larger.terms = terms at same
  subst same
  obtain ⟨outcome, rfl⟩ := (run.enlarged appended enlarged).deterministic run'
  cases outcome
  rw [resolved, resolved', Value.write_holding]

end Bundle

/-- Where a target is resolved and no entry is missed, it is still the same target when a resource
has been added, and is resolved to the same text with the same problems. -/
theorem resolve_addResource (bundle : Bundle) (resource : Grammar.Resource)
    (bindings : Option Variables) (target : Target) (problems : List Problem)
    (complete : ∀ problem ∈ (bundle.resolve bindings target problems).problems.drop problems.length,
      ∀ id, problem ≠ .evaluation (.unknownMessage id) ∧ problem ≠ .evaluation (.unknownTerm id)) :
    let larger := (bundle.addResource resource).1
    larger.resolve bindings target problems = bundle.resolve bindings target problems ∧
      (∀ id, bundle.messageTarget? id = some target → larger.messageTarget? id = some target) ∧
      ∀ id name, bundle.attributeTarget? id name = some target →
        larger.attributeTarget? id name = some target := by
  have enlarged := bundle.addResource_enlarged resource
  refine ⟨enlarged.resolve_eq fun problem hm => ?_, fun _ => enlarged.messageTarget,
    fun _ _ => enlarged.attributeTarget⟩
  unfold Problem.isMissing
  split
  · exact absurd rfl (complete _ hm _).1
  · exact absurd rfl (complete _ hm _).2
  · rfl

/-- A resource that defines an entry again and the one that a pattern stands in. -/
def redefinition : Grammar.Resource where
  entries := (∅ : Table Entry).insert "b" (.text "z") |>.insert "a" (.text "z")
  errors := []

/-- What a pattern refers to is not changed by later definitions. -/
theorem resolve_addResource_twice :
    let target : Target := .pattern ⟨some "a", none, []⟩ (.elements twice)
    (∀ problem ∈ (quotedBundle.resolve none target []).problems.drop 0, ∀ id,
        problem ≠ .evaluation (.unknownMessage id) ∧ problem ≠ .evaluation (.unknownTerm id)) ∧
      ((quotedBundle.addResource redefinition).1.resolve none target []).text =
        "\u2068y\u2069\u2068y\u2069" := by
  intro target
  have problems : (quotedBundle.resolve none target []).problems = [] := by cbv
  have text : (quotedBundle.resolve none target []).text =
      "\u2068y\u2069\u2068y\u2069" := by cbv
  have complete : ∀ problem ∈ (quotedBundle.resolve none target []).problems.drop 0, ∀ id,
      problem ≠ .evaluation (.unknownMessage id) ∧
        problem ≠ .evaluation (.unknownTerm id) := by
    simp [problems]
  obtain ⟨same, -⟩ := resolve_addResource quotedBundle redefinition none target [] complete
  exact ⟨complete, by rw [same, text]⟩

end Fluent
