import Fluent.Proofs.Evaluation.Enlargement

/-!
# Reports

What could not be evaluated has been reported when an evaluation comes to it, so where nothing is
reported nothing is written that stands for it. Evaluations put their reports behind those from
before and never look at them.

* `Evaluation.Blind`: a step that does not look at what has been reported;
* `Runs.behind`: evaluations do not either;
* `Runs.reports`: an evaluation that comes to what stands for a missing value has reported it;
* `resolve_reports`: what a bundle writes and reports for a target.
-/

namespace Fluent

open Evaluation

/-! ## Earlier reports -/

/-- The progress with other problems reported before its own. -/
def Progress.behind (progress : Progress) (earlier : List Problem) : Progress :=
  { progress with problems := earlier ++ progress.problems }

theorem Progress.reported_behind (progress : Progress) (problem : EvaluationProblem)
    (earlier : List Problem) :
    (progress.behind earlier).reported problem = (progress.reported problem).behind earlier := by
  simp only [behind, reported, List.append_assoc]

theorem Progress.left_behind (progress : Progress) (place : Place) (earlier : List Problem) :
    (progress.behind earlier).left place = (progress.left place).behind earlier := rfl

/-- A step that does the same whatever has been reported before. -/
def Evaluation.Blind {α : Type} (step : Evaluation α) : Prop :=
  ∀ earlier start, step (start.behind earlier) = ((step start).1, (step start).2.behind earlier)

namespace Evaluation

variable {α β : Type}

theorem blind_pure (value : α) : Blind (pure value) := fun _ _ => rfl

theorem Blind.bind {step : Evaluation α} {next : α → Evaluation β} (first : step.Blind)
    (second : ∀ value, (next value).Blind) : (step >>= next).Blind := by
  intro earlier start
  have unfolded (start : Progress) : (step >>= next) start =
      next (step start).1 (step start).2 := rfl
  rw [unfolded, unfolded, first]
  exact second _ earlier _

theorem reporting_blind (problem : EvaluationProblem) {step : Evaluation α} (blind : step.Blind) :
    (do report problem; step).Blind :=
  Blind.bind (fun earlier start => Prod.ext rfl (start.reported_behind problem earlier))
    fun _ => blind

theorem withFormatters_blind (step : StateM Format.Formatters α) :
    (withFormatters step).Blind := fun _ _ => rfl

theorem Blind.of_eq {step : Evaluation α} {start finish : Progress} {value : α}
    (blind : step.Blind) (gives : step start = (value, finish)) (earlier : List Problem) :
    step (start.behind earlier) = (value, finish.behind earlier) := by
  rw [blind, gives]

end Evaluation

namespace Scope

variable (scope : Scope)

theorem write_blind (value : Value) : (scope.write value).Blind := withFormatters_blind _

theorem placeableText_blind (value : Value) : (scope.placeableText value).Blind := by
  refine (scope.write_blind value).bind fun text => ?_
  unfold shown
  split
  · exact reporting_blind _ (blind_pure _)
  · exact blind_pure _

theorem variableValue_blind (name : String) : (scope.variableValue name).Blind := by
  unfold variableValue
  split
  · exact reporting_blind _ (blind_pure _)
  · exact blind_pure _
  · exact blind_pure _
  · exact blind_pure _
  · exact blind_pure _
  · exact reporting_blind _ (blind_pure _)

theorem selected_blind (selector : Value) (position : Nat) (variants : List Variant) :
    (scope.selected? selector position variants).Blind := by
  induction variants generalizing position with
  | nil => exact blind_pure _
  | cons variant rest ih =>
    refine (withFormatters_blind _).bind fun selects => ?_
    split
    · exact blind_pure _
    · exact ih (position + 1)

end Scope

section

variable {scope : Scope} {guard : List Place → Place → Option EvaluationProblem}
  {frame : Frame} {path : List Place} {task : Task} {start finish : Progress} {outcome : Outcome}

/-- What has been reported before makes no difference to an evaluation. -/
theorem Runs.behind (run : Completes scope guard path task start outcome finish)
    (earlier : List Problem) :
    Completes scope guard path task (start.behind earlier) outcome (finish.behind earlier) := by
  induction run with
  | patternText => exact .patternText trivial
  | patternRefused _ refused =>
    rw [← Progress.reported_behind]
    exact .patternRefused trivial refused trivial
  | patternExpanded _ free _ _ ih =>
    rw [← Progress.left_behind]
    exact .patternExpanded trivial free ih trivial
  | partsNil => exact .partsNil trivial
  | partsText _ ih => exact .partsText ih
  | partsPlaceable _ shows _ ih ih' =>
    exact .partsPlaceable ih ((scope.placeableText_blind _).of_eq shows earlier) ih'
  | entryText => exact .entryText trivial
  | entryPattern _ ih => exact .entryPattern ih
  | entryEmpty =>
    rw [← Progress.reported_behind]
    exact .entryEmpty trivial trivial
  | number => exact .number trivial
  | string => exact .string trivial
  | variableRef _ found =>
    exact .variableRef trivial ((scope.variableValue_blind _).of_eq found earlier) trivial
  | unknown refers absent =>
    rw [← Progress.reported_behind]
    exact .unknown refers absent trivial trivial
  | entryRef found _ ih => exact .entryRef found ih
  | attributeRef found has _ ih => exact .attributeRef found has ih
  | attributeMissing found lacks _ _ ih =>
    rw [← Progress.reported_behind] at ih
    exact .attributeMissing found lacks trivial ih
  | variantRef found _ has _ ih =>
    exact .variantRef found trivial ((scope.selected_blind _ _ _).of_eq has earlier) ih
  | variantMissing found _ lacks names _ ih =>
    rw [← Progress.reported_behind] at ih
    exact .variantMissing found trivial ((scope.selected_blind _ _ _).of_eq lacks earlier)
      ((scope.write_blind _).of_eq names earlier) ih
  | callUnknown absent =>
    rw [← Progress.reported_behind]
    exact .callUnknown absent trivial trivial
  | call found _ gives ih => exact .call found ih gives
  | callRefused found _ gives _ ih =>
    rw [← Progress.reported_behind]
    exact .callRefused found ih gives trivial
  | select _ known has _ ih ih' =>
    exact .select ih known ((scope.selected_blind _ _ _).of_eq has earlier) ih'
  | selectStandard _ known lacks _ ih ih' =>
    exact .selectStandard ih known ((scope.selected_blind _ _ _).of_eq lacks earlier) ih'
  | selectNone _ unknown _ ih ih' => exact .selectNone ih unknown ih'
  | variantList _ ih => exact .variantList ih
  | standard has _ ih => exact .standard has ih
  | standardMissing lacks =>
    rw [← Progress.reported_behind]
    exact .standardMissing lacks trivial trivial
  | argumentsNil => exact .argumentsNil trivial
  | argumentPositional _ _ ih ih' => exact .argumentPositional ih ih'
  | argumentNamed _ _ ih ih' => exact .argumentNamed ih ih'

/-! ## What could not be evaluated -/

/-- More problems have been reported in one state than in the other. -/
def Reported (start finish : Progress) : Prop :=
  ∃ added, added ≠ [] ∧ finish.problems = start.problems ++ added

namespace Reported

variable {middle : Progress}

theorem one (start : Progress) (problem : EvaluationProblem) :
    Reported start (start.reported problem) :=
  ⟨[.evaluation problem], List.cons_ne_nil _ _, rfl⟩

theorem since (reported : Reported middle finish) (before : start.problems <+: middle.problems) :
    Reported start finish := by
  obtain ⟨added, some, same⟩ := reported
  obtain ⟨known, more⟩ := before
  exact ⟨known ++ added, List.append_ne_nil_of_right_ne_nil _ some,
    by rw [same, ← more, List.append_assoc]⟩

theorem upTo (reported : Reported start middle) (next : middle.problems <+: finish.problems) :
    Reported start finish := by
  obtain ⟨added, some, same⟩ := reported
  obtain ⟨later, more⟩ := next
  exact ⟨added ++ later, List.append_ne_nil_of_left_ne_nil some _,
    by rw [← more, same, List.append_assoc]⟩

theorem problems_ne (reported : Reported start finish) : finish.problems ≠ start.problems := by
  obtain ⟨added, some, same⟩ := reported
  rwa [same, Ne, List.append_right_eq_self]

end Reported

/-- An outcome that stands for what could not be evaluated. -/
def Outcome.isNone : Outcome → Bool
  | .value result => result.isNone
  | _ => false

/-- No variable stands for what could not be evaluated, and no function of the bundle gives a value
that does. -/
structure Scope.Valued (scope : Scope) : Prop where
  held : ∀ bindings (name : String) value, scope.bindings = some bindings →
    bindings[name]? = some (.value value) → value.isNone = false
  given : ∀ (name : String) function positional named value,
    scope.bundle.options.functions[name]? = some function →
      function positional named = .ok value → value.isNone = false

namespace Function

variable {positional : List Value} {named : Table Value} {value : Value}

theorem number_valued (gives : number positional named = .ok value) : value.isNone = false := by
  have texts {text : String} (read : (numberOfText text >>= fun parsed =>
      .ok (.number parsed (optionsOf named))) = Except.ok value) : value.isNone = false := by
    cases parsed : numberOfText text <;> rw [parsed] at read <;> cases read
    rfl
  unfold number at gives
  split at gives
  · cases gives
    rfl
  · exact texts gives
  · exact texts gives
  · cases gives

theorem datetime_valued (gives : datetime positional named = .ok value) :
    value.isNone = false := by
  unfold datetime at gives
  split at gives
  · cases gives
    rfl
  · split at gives <;> cases gives
    rfl
  · cases gives

theorem builtin_valued {name : String} {function : Function}
    (known : builtin? name = some function) (gives : function positional named = .ok value) :
    value.isNone = false := by
  unfold builtin? at known
  split at known
  · cases known
    exact number_valued gives
  · split at known <;> cases known
    exact datetime_valued gives

end Function

theorem Scope.Valued.function (valued : scope.Valued) {name : String} {function : Function}
    {positional : List Value} {named : Table Value} {value : Value}
    (found : scope.bundle.function? name = some function)
    (gives : function positional named = .ok value) : value.isNone = false := by
  unfold Bundle.function? at found
  cases own : scope.bundle.options.functions[name]? with
  | some held =>
    rw [own] at found
    cases found
    exact valued.given _ _ _ _ _ own gives
  | none =>
    rw [own] at found
    exact Function.builtin_valued found gives

theorem Scope.Valued.variable (valued : scope.Valued) {name : String} {value : Value}
    (found : scope.variableValue name start = (value, finish)) (missing : value.isNone = true) :
    Reported start finish := by
  unfold variableValue at found
  rcases held : scope.bindings.bind fun bindings => bindings[name]? with _ | input
  · rw [held] at found
    cases found
    exact .one _ _
  · rw [held] at found
    obtain ⟨bindings, given, named⟩ := Option.bind_eq_some_iff.mp held
    cases input with
    | value result =>
      cases found
      cases (valued.held _ _ _ given named).symm.trans missing
    | string | number | date =>
      cases found
      cases missing
    | flag | object =>
      cases found
      exact .one _ _

/-- An evaluation that comes to what stands for a missing value has reported it. -/
theorem Runs.reports (valued : scope.Valued)
    (run : Completes scope guard path task start outcome finish)
    (missing : outcome.isNone = true) : Reported start finish := by
  induction run with
  | patternText | patternExpanded | partsNil | partsText | partsPlaceable | entryText | number
  | string | argumentsNil | argumentPositional | argumentNamed => cases missing
  | patternRefused | entryEmpty | unknown | callUnknown | standardMissing => exact .one _ _
  | entryPattern _ ih | entryRef _ _ ih | attributeRef _ _ _ ih | variantList _ ih
  | standard _ _ ih => exact ih missing
  | variableRef _ found => exact valued.variable found missing
  | attributeMissing _ _ _ _ ih => exact (ih missing).since (Progress.reported_isPrefix _ _)
  | variantRef _ _ has _ ih =>
    exact (ih missing).since ((scope.selected_appending _ _ _).of_eq has).isPrefix
  | variantMissing _ _ lacks names _ ih =>
    have chosen := ((scope.selected_appending _ _ _).of_eq lacks).isPrefix
    have written := ((withFormatters_appending _).of_eq names).isPrefix
    exact (ih missing).since ((chosen.trans written).trans (Progress.reported_isPrefix _ _))
  | call found _ gives =>
    cases (valued.function found gives).symm.trans missing
  | callRefused _ inner => exact (Reported.one _ _).since inner.problems_prefix
  | select inner _ has _ _ ih =>
    have chosen := ((scope.selected_appending _ _ _).of_eq has).isPrefix
    exact (ih missing).since (inner.problems_prefix.trans chosen)
  | selectStandard inner _ lacks _ _ ih =>
    have chosen := ((scope.selected_appending _ _ _).of_eq lacks).isPrefix
    exact (ih missing).since (inner.problems_prefix.trans chosen)
  | selectNone inner _ _ _ ih => exact (ih missing).since inner.problems_prefix

/-! ## What is written -/

theorem problems_rises :
    Rises scope guard fun start finish => start.problems <+: finish.problems where
  refl _ := List.prefix_rfl
  trans := List.IsPrefix.trans
  run run := run.problems_prefix
  shown shows := ((scope.placeableText_appending _).of_eq shows).isPrefix
  selected has := ((scope.selected_appending _ _ _).of_eq has).isPrefix
  reported := Progress.reported_isPrefix
  left _ _ := List.prefix_rfl

/-- What has been reported before a task has been reported before its parts. -/
theorem Calls.problems_prefix {inner : Frame} (calls : Calls scope guard frame inner) :
    frame.start.problems <+: inner.start.problems := by
  have rises : Rises scope guard _ := problems_rises
  cases calls with
  | pattern | partsText | placeable | entry | entryRef | attributeRef | call | selector
  | variantList | standard | argument => exact List.prefix_rfl
  | partsPlaceable inner shows => exact inner.problems_prefix.trans (rises.shown shows)
  | attributeMissing => exact Progress.reported_isPrefix _ _
  | variantRef _ has => exact rises.selected has
  | variantMissing _ lacks names =>
    have written := ((withFormatters_appending _).of_eq names).isPrefix
    exact ((rises.selected lacks).trans written).trans (Progress.reported_isPrefix _ _)
  | select inner _ has => exact inner.problems_prefix.trans (rises.selected has)
  | selectStandard inner _ lacks => exact inner.problems_prefix.trans (rises.selected lacks)
  | selectNone inner | arguments inner => exact inner.problems_prefix

theorem problems_of_reaches {inner : Frame}
    (reaches : Relation.ReflTransGen (Calls scope guard) frame inner) :
    frame.start.problems <+: inner.start.problems := by
  induction reaches with
  | refl => exact List.prefix_rfl
  | tail _ calls ih => exact ih.trans calls.problems_prefix

/-- What is reported inside an evaluation has been reported at its end. -/
theorem Reported.outward {inner : Frame} {result : Outcome} {last : Progress}
    (run : Completes scope guard frame.path frame.task frame.start outcome finish)
    (reaches : Relation.ReflTransGen (Calls scope guard) frame inner)
    (inside : Completes scope guard inner.path inner.task inner.start result last)
    (reported : Reported inner.start last) : Reported frame.start finish := by
  obtain ⟨result', last', inside', after⟩ := Runs.reaches problems_rises run reaches
  obtain ⟨-, rfl⟩ := inside.deterministic inside'
  exact (reported.upTo after).since (problems_of_reaches reaches)

end

/-- The values that are written when a target is resolved: those of the placeables that are come to,
and what the target itself comes to. -/
inductive Bundle.Shows (bundle : Bundle) (bindings : Option Variables) (target : Target)
    (problems : List Problem) : Value → Prop
  | placeable {path isolate place position expression parts start value after}
    (reaches : Relation.ReflTransGen (Calls ⟨bundle, bindings⟩ refusal?)
      ⟨[], target.task, bundle.start problems⟩
      ⟨path, .parts isolate place position (.placeable expression :: parts), start⟩)
    (inner : Completes ⟨bundle, bindings⟩ refusal? path
      (.expression (place.child position) expression) start (.value value) after) :
    bundle.Shows bindings target problems value
  | target {value finish}
    (run : Completes ⟨bundle, bindings⟩ refusal? [] target.task (bundle.start problems)
      (.value value) finish) :
    bundle.Shows bindings target problems value

variable {bundle : Bundle} {bindings : Option Variables} {target : Target}
  {problems : List Problem} {value : Value}

/-- What has been reported before a target is resolved stays in front of what is reported then, and
makes no other difference. -/
theorem Bundle.resolve_behind (bundle : Bundle) (bindings : Option Variables) (target : Target)
    (problems : List Problem) :
    let first := bundle.resolve bindings target []
    bundle.resolve bindings target problems =
      { first with problems := problems ++ first.problems } := by
  obtain ⟨value, finish, run, resolved⟩ := bundle.resolve_completes bindings target []
  obtain ⟨value', finish', run', resolved'⟩ := bundle.resolve_completes bindings target problems
  have moved : (bundle.start []).behind problems = bundle.start problems := by
    simp [Progress.behind, start]
  have again := run.behind problems
  rw [moved] at again
  obtain ⟨same, rfl⟩ := again.deterministic run'
  cases same
  rw [resolved, resolved']
  rfl

/-- Where a value is written that stands for a missing one, that has been reported. -/
theorem Bundle.Shows.reported (valued : (Scope.mk bundle bindings).Valued)
    (shows : bundle.Shows bindings target problems value) (missing : value.isNone = true) :
    (bundle.resolve bindings target problems).problems ≠ problems := by
  obtain ⟨result, finish, run, resolved⟩ := bundle.resolve_completes bindings target problems
  rw [resolved]
  cases shows with
  | placeable reaches inner =>
    have placeable := Relation.ReflTransGen.tail reaches .placeable
    exact (Reported.outward run placeable inner (inner.reports valued missing)).problems_ne
  | target whole =>
    obtain ⟨-, rfl⟩ := run.deterministic whole
    exact (whole.reports valued missing).problems_ne

/-- Resolving a target puts its reports behind those from before, which make no difference to its
text and its reports. If neither variables nor functions bring in what stands for a missing value,
each evaluation that comes to such a value has reported it, and a target that is resolved without a
report is written without such a value. -/
theorem resolve_reports (bundle : Bundle) (bindings : Option Variables) (target : Target) :
    (∃ text added formatters, ∀ problems,
      bundle.resolve bindings target problems = ⟨text, problems ++ added, formatters⟩) ∧
    ((Scope.mk bundle bindings).Valued →
      (∀ room task start, start.expanding.Nodup →
        start.expanding.length + room = deepestExpansion →
        let (outcome, finish) := (Scope.mk bundle bindings).perform room task start
        outcome.isNone = true → Reported start finish) ∧
      ∀ problems, (bundle.resolve bindings target problems).problems = problems →
        ∀ value, bundle.Shows bindings target problems value → value.isNone = false) := by
  refine ⟨⟨_, _, _, bundle.resolve_behind bindings target⟩, fun valued => ⟨?_, ?_⟩⟩
  · intro room task start distinct within missing
    have tracked : Tracked start.expanding start := ⟨rfl, distinct, by omega⟩
    have run := (Scope.mk bundle bindings).perform_follows within task start tracked
    exact run.completes.reports valued missing
  · intro problems none value shows
    exact Bool.eq_false_iff.mpr fun missing => shows.reported valued missing none

/-- Gives its first argument, unless that stands for a missing value. -/
def presentFirst : Function := fun positional _ =>
  match positional.head? with
  | some value => if value.isNone then .error (.invalidInput "a value") else .ok value
  | none => .error (.invalidInput "a value")

/-- A bundle with that function. -/
def presentBundle : Bundle :=
  .empty [] { functions := (∅ : Table Function).insert "FIRST" presentFirst }

/-- One variable, which is a symbol. -/
def oneSymbol : Option Variables :=
  some ((∅ : Variables).insert "x" (.value (.symbol "z")))

theorem presentFirst_valued {positional : List Value} {named : Table Value} {value : Value}
    (gives : presentFirst positional named = .ok value) : value.isNone = false := by
  unfold presentFirst at gives
  split at gives
  · split at gives <;> cases gives
    exact eq_false_of_ne_true ‹_›
  · cases gives

theorem presentBundle_valued : (Scope.mk presentBundle oneSymbol).Valued where
  held := by
    rintro _ name value ⟨⟩ named
    rw [Std.ExtTreeMap.getElem?_insert] at named
    split at named
    · cases named
      rfl
    · simp at named
  given := by
    intro name function positional named value own gives
    change ((∅ : Table Function).insert "FIRST" presentFirst)[name]? = _ at own
    rw [Std.ExtTreeMap.getElem?_insert] at own
    split at own
    · cases own
      exact presentFirst_valued gives
    · simp at own

/-- A call whose argument is known is written without a report; one whose argument is missing comes
to a missing value with reports. -/
theorem resolve_reports_call :
    let target : Target := .pattern ⟨none, none, []⟩
      (.elements [.text "x", .placeable (.call "FIRST" [.positional (.variableRef "x")])])
    let broken : Task :=
      .expression ⟨none, none, []⟩ (.call "FIRST" [.positional (.variableRef "y")])
    let start : Progress := presentBundle.start []
    let (outcome, finish) :=
      (Scope.mk presentBundle oneSymbol).perform deepestExpansion broken start
    (Scope.mk presentBundle oneSymbol).Valued ∧
      (presentBundle.resolve oneSymbol target []).problems = [] ∧
      (∀ value, presentBundle.Shows oneSymbol target [] value → value.isNone = false) ∧
      outcome.isNone = true ∧ Reported start finish := by
  intro target broken start
  obtain ⟨-, both⟩ := resolve_reports presentBundle oneSymbol target
  obtain ⟨reports, written⟩ := both presentBundle_valued
  have quiet : (presentBundle.resolve oneSymbol target []).problems = [] := by cbv
  have missing : ((Scope.mk presentBundle oneSymbol).perform deepestExpansion broken
      start).1.isNone = true := by cbv
  exact ⟨presentBundle_valued, quiet, written [] quiet, missing,
    reports deepestExpansion broken start List.nodup_nil rfl missing⟩

end Fluent
