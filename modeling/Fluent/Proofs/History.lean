import Fluent.Proofs.Evaluation.Termination
import Fluent.Proofs.Evaluation.Transparency
import Fluent.Proofs.Formatting
import Mathlib.Data.Set.Card

/-!
# Histories of a bundle

A bundle keeps the formatters that it has built from one call to the next. This shows in no answer:
every call is answered as if it were the first one. All that is left of the calls is one formatter
of each kind for each option set for which one has been asked for and built.

* `Bundle.reply`, `Bundle.after`: the answer to a call, and the bundle after it;
* `Bundle.HistoryAsks`: the formatters that calls ask for;
* `Bundle.replies_memoryless`: the answers to calls, and how many formatters are kept after them.
-/

namespace Fluent

open Evaluation
open Format (Faithful FormatterKind Formatters Gains Options Request)

/-! ## Calls and answers -/

/-- What a bundle can be asked for: the text of a target, with problems reported so far, or whether
a value, as the key of a variant, is selected by another. -/
inductive Call where
  | format (bindings : Option Variables) (target : Target) (problems : List Problem)
  | resolve (bindings : Option Variables) (target : Target) (problems : List Problem)
  | test (key selector : Value)

/-- What a bundle answers. -/
inductive Reply where
  | formatted (text : Option String) (problems : List Problem)
  | resolved (text : String) (problems : List Problem)
  | tested (selected : Bool)
  deriving DecidableEq

namespace Bundle

variable (bundle : Bundle)

/-- The answer to a call, and the formatters kept after it. -/
def reply : Call → Reply × Formatters
  | .format bindings target problems =>
    let formatted := bundle.format bindings target problems
    (.formatted formatted.text formatted.problems, formatted.formatters)
  | .resolve bindings target problems =>
    let resolved := bundle.resolve bindings target problems
    (.resolved resolved.text resolved.problems, resolved.formatters)
  | .test key selector =>
    let (selected, formatters) := key.selectedBy bundle selector bundle.formatters
    (.tested selected, formatters)

/-- The bundle after a call. -/
def after (call : Call) : Bundle := bundle.keeping (bundle.reply call).2

end Bundle

/-- The answers to calls, one after the other. -/
def Bundle.replies (bundle : Bundle) : List Call → List Reply
  | [] => []
  | call :: calls => (bundle.reply call).1 :: (bundle.after call).replies calls

/-- The bundle after calls, one after the other. -/
def Bundle.afterAll (bundle : Bundle) (calls : List Call) : Bundle :=
  calls.foldl Bundle.after bundle

/-- The formatters that the text of a target asks for: those of its evaluation, and the one that
writes what it comes to. -/
def Bundle.TextAsks (bundle : Bundle) (bindings : Option Variables) (target : Target)
    (problems : List Problem) (request : Request) : Prop :=
  Asks ⟨bundle, bindings⟩ refusal? ⟨[], target.task, bundle.start problems⟩ request ∨
    ∃ value finish,
      Completes ⟨bundle, bindings⟩ refusal? [] target.task (bundle.start problems) (.value value)
        finish ∧ request ∈ value.writer?

/-- The formatters that a call asks for. -/
def Bundle.CallAsks (bundle : Bundle) : Call → Request → Prop
  | .format bindings target problems => bundle.TextAsks bindings target problems
  | .resolve bindings target problems => bundle.TextAsks bindings target problems
  | .test key selector => (· ∈ key.matcher? selector)

/-- The formatters that calls ask for, one after the other. -/
def Bundle.HistoryAsks (bundle : Bundle) : List Call → Request → Prop
  | [], _ => False
  | call :: calls, request =>
    bundle.CallAsks call request ∨ (bundle.after call).HistoryAsks calls request

/-! ## One call -/

namespace Bundle

variable {bundle : Bundle} {bindings : Option Variables} {target : Target}
  {problems : List Problem}

/-- What a target comes to. -/
theorem resolve_completes (bundle : Bundle) (bindings : Option Variables) (target : Target)
    (problems : List Problem) :
    ∃ value finish,
      Completes ⟨bundle, bindings⟩ refusal? [] target.task (bundle.start problems) (.value value)
        finish ∧
      bundle.resolve bindings target problems =
        { text := (value.write bundle finish.formatters).1
          problems := finish.problems
          formatters := (value.write bundle finish.formatters).2 } := by
  have tracked : Tracked [] (bundle.start problems) := ⟨rfl, List.nodup_nil, Nat.zero_le _⟩
  have run := (Scope.mk bundle bindings).targetValue_follows target (bundle.start problems) tracked
  exact ⟨_, _, run.completes, rfl⟩

theorem resolve_gains (bundle : Bundle) (bindings : Option Variables) (target : Target)
    (problems : List Problem) :
    Gains bundle.options.backend bundle.locales (bundle.TextAsks bindings target problems)
      bundle.formatters (bundle.resolve bindings target problems).formatters := by
  obtain ⟨value, finish, run, resolved⟩ := bundle.resolve_completes bindings target problems
  have written := run.gains.trans ((value.write_serves bundle).gains finish.formatters)
  have asks : bundle.TextAsks bindings target problems = fun request =>
      Asks ⟨bundle, bindings⟩ refusal? ⟨[], target.task, bundle.start problems⟩ request ∨
        request ∈ value.writer? := by
    funext request
    refine propext (or_congr_right ⟨?_, fun writes => ⟨value, finish, run, writes⟩⟩)
    rintro ⟨value', finish', run', writes⟩
    obtain ⟨same, -⟩ := run.deterministic run'
    cases same
    exact writes
  rw [resolved, asks]
  exact written

theorem resolve_mirrored
    (plain : ∀ request, bundle.TextAsks bindings target problems request → request.options.Plain)
    (faithful : Faithful bundle.options.backend bundle.locales bundle.formatters) :
    ((bundle.keeping .empty).resolve bindings target problems).text =
        (bundle.resolve bindings target problems).text ∧
      ((bundle.keeping .empty).resolve bindings target problems).problems =
        (bundle.resolve bindings target problems).problems ∧
      Faithful bundle.options.backend bundle.locales
        (bundle.resolve bindings target problems).formatters := by
  obtain ⟨value, finish, run, resolved⟩ := bundle.resolve_completes bindings target problems
  obtain ⟨value', finish', run', resolved'⟩ :=
    (bundle.keeping .empty).resolve_completes bindings target problems
  have alike : Alike bundle (bundle.start problems) ((bundle.keeping .empty).start problems) :=
    ⟨rfl, rfl, faithful, Format.faithful_empty⟩
  obtain ⟨last, mirrored, alike⟩ :=
    run.mirrored .empty (fun request asks => plain request (.inl asks)) alike
  obtain ⟨same, rfl⟩ := mirrored.deterministic run'
  cases same
  have writes := value.write_serves bundle
  have plain : ∀ request ∈ value.writer?, request.options.Plain :=
    fun request writes => plain request (.inr ⟨value, finish, run, writes⟩)
  have text := congrFun ((Scope.mk bundle bindings).write_keeping .empty value) finish'
  rw [resolved, resolved']
  refine ⟨?_, alike.problems, writes.faithful plain _ alike.first⟩
  have same := writes.result plain _ _ alike.second alike.first
  exact (congrArg Prod.fst text).trans same

theorem reply_gains (bundle : Bundle) (call : Call) :
    Gains bundle.options.backend bundle.locales (bundle.CallAsks call) bundle.formatters
      (bundle.reply call).2 := by
  cases call with
  | format bindings target problems =>
    have gains := bundle.resolve_gains bindings target problems
    rwa [← (bundle.format_eq bindings target problems).2] at gains
  | resolve bindings target problems => exact bundle.resolve_gains bindings target problems
  | test key selector => exact (key.selectedBy_serves bundle selector).gains bundle.formatters

theorem reply_mirrored {call : Call}
    (plain : ∀ request, bundle.CallAsks call request → request.options.Plain)
    (faithful : Faithful bundle.options.backend bundle.locales bundle.formatters) :
    (bundle.reply call).1 = ((bundle.keeping .empty).reply call).1 ∧
      Faithful bundle.options.backend bundle.locales (bundle.reply call).2 := by
  cases call with
  | format bindings target problems =>
    obtain ⟨text, reported, kept⟩ := resolve_mirrored plain faithful
    have first := bundle.format_eq bindings target problems
    have second := (bundle.keeping .empty).format_eq bindings target problems
    rw [text, reported] at second
    obtain ⟨texts, reports⟩ := Prod.mk.inj (first.1.trans second.1.symm)
    rw [← first.2] at kept
    exact ⟨congrArg₂ Reply.formatted texts reports, kept⟩
  | resolve bindings target problems =>
    obtain ⟨text, reported, kept⟩ := resolve_mirrored plain faithful
    exact ⟨congrArg₂ Reply.resolved text.symm reported.symm, kept⟩
  | test key selector =>
    have serves := key.selectedBy_serves bundle selector
    have same := (Scope.mk bundle none).selectedBy_keeping .empty key selector
    have result := serves.result plain _ _ faithful Format.faithful_empty
    refine ⟨congrArg Reply.tested ?_, serves.faithful plain _ faithful⟩
    exact result.trans (congrArg Prod.fst (congrFun same Formatters.empty)).symm

end Bundle

/-! ## Histories -/

namespace Bundle

variable {calls : List Call}

theorem replies_mirrored (bundle : Bundle)
    (plain : ∀ request, bundle.HistoryAsks calls request → request.options.Plain)
    (faithful : Faithful bundle.options.backend bundle.locales bundle.formatters) :
    bundle.replies calls = calls.map fun call => ((bundle.keeping .empty).reply call).1 := by
  induction calls generalizing bundle with
  | nil => rfl
  | cons call calls ih =>
    obtain ⟨same, kept⟩ := reply_mirrored (fun request asks => plain request (.inl asks)) faithful
    have rest := ih (bundle.after call) (fun request asks => plain request (.inr asks)) kept
    rw [replies, List.map_cons, same, rest]
    rfl

theorem afterAll_gains (bundle : Bundle) (calls : List Call) :
    Gains bundle.options.backend bundle.locales (bundle.HistoryAsks calls) bundle.formatters
      (bundle.afterAll calls).formatters := by
  induction calls generalizing bundle with
  | nil => exact Gains.refl _
  | cons call calls ih => exact (bundle.reply_gains call).trans (ih (bundle.after call))

/-- How many formatters of a kind are kept is how many option sets have been asked for. -/
theorem count_eq_encard {bundle : Bundle} {asked : Request → Prop} {formatters : Formatters}
    (gains : Gains bundle.options.backend bundle.locales asked .empty formatters)
    (plain : ∀ request, asked request → request.options.Plain) (kind : FormatterKind) :
    (formatters.count kind : ℕ∞) = (Options.texts ''
      {options | asked ⟨kind, options⟩ ∧
        bundle.options.backend.Builds bundle.locales ⟨kind, options⟩}).encard := by
  have keys : {key | key ∈ formatters.keys kind} = Options.cacheKey ''
      {options | asked ⟨kind, options⟩ ∧
        bundle.options.backend.Builds bundle.locales ⟨kind, options⟩} := by
    ext key
    have none : key ∉ Formatters.empty.keys kind := by
      cases kind <;> simp [Formatters.keys, Formatters.empty]
    simp [gains kind key, none, Format.Earned, and_assoc]
  have distinct : Set.InjOn Options.cacheKey {options | asked ⟨kind, options⟩ ∧
      bundle.options.backend.Builds bundle.locales ⟨kind, options⟩} :=
    fun _ asks _ asks' same => Options.cacheKey_injective (plain _ asks.1) (plain _ asks'.1) same
  have finite : {key | key ∈ formatters.keys kind} =
      ((formatters.keys kind).toFinset : Set String) := by
    ext key
    simp
  rw [Options.texts_injective.encard_image, ← distinct.encard_image, ← keys, finite,
    Set.encard_coe_eq_coe_finsetCard, List.toFinset_card_of_nodup (formatters.nodup_keys kind),
    formatters.count_eq]

/-- In a history that starts with no formatter kept, every call is answered as if it were the first
one, and of each kind one formatter is kept for each option set for which one has been asked for and
built, provided that no name in these option sets has an equals sign in it. -/
theorem replies_memoryless (bundle : Bundle) (calls : List Call)
    (plain : ∀ request, (bundle.keeping .empty).HistoryAsks calls request → request.options.Plain) :
    (bundle.keeping .empty).replies calls =
        calls.map (fun call => ((bundle.keeping .empty).reply call).1) ∧
      ∀ kind, (((bundle.keeping .empty).afterAll calls).formatters.count kind : ℕ∞) =
        (Options.texts '' {options | (bundle.keeping .empty).HistoryAsks calls ⟨kind, options⟩ ∧
          bundle.options.backend.Builds bundle.locales ⟨kind, options⟩}).encard :=
  ⟨replies_mirrored _ plain Format.faithful_empty,
    count_eq_encard ((bundle.keeping .empty).afterAll_gains calls) plain⟩

end Bundle

/-! ## A history -/

/-- The options that ask for the categories of ranks. -/
def ranks : Options := (∅ : Options).insert "type" (.text "ordinal")

/-- A pattern that shows a number. -/
def one : List Element := [.placeable (.number ⟨"1", 1.0⟩)]

/-- A bundle without entries. -/
def bare : Bundle := Bundle.empty [] {}

/-- Calls that ask for two option sets of plurals, one of them twice, and for one of numbers. -/
def mixed : List Call :=
  [.test (.symbol "other") (.number 2.0 ranks),
    .resolve none (.pattern ⟨none, none, []⟩ (.elements one)) [],
    .test (.symbol "other") (.number 2.0 ∅),
    .test (.symbol "other") (.number 3.0 ranks)]

theorem ranks_plain : ranks.Plain := by
  unfold Options.Plain
  decide +kernel

theorem empty_plain : Options.Plain ∅ := by
  unfold Options.Plain
  decide +kernel

theorem one_asks {bundle : Bundle} {place : Place} {request : Request}
    (asks : bundle.TextAsks none (.pattern place (.elements one)) [] request) :
    request.options = ∅ := by
  have literal {path place start value finish}
      (run : Completes ⟨bundle, none⟩ refusal? path (.expression place (.number ⟨"1", 1.0⟩)) start
        (.value value) finish) : value = .number 1.0 ∅ := by
    cases run with
    | number => rfl
    | unknown refers => cases refers
  obtain ⟨inner, reaches, demands⟩ | ⟨value, finish, run, writes⟩ := asks
  · -- The pattern has one part, so there are three tasks inside it.
    obtain rfl | ⟨_, calls, reaches⟩ := reaches.cases_head
    · cases demands
    cases calls
    obtain rfl | ⟨_, calls, reaches⟩ := reaches.cases_head
    · cases demands with
      | shown inner writes =>
        cases literal inner
        cases writes
        rfl
    cases calls with
    | placeable =>
      obtain rfl | ⟨_, calls, -⟩ := reaches.cases_head
      · cases demands
      · cases calls
    | partsPlaceable =>
      obtain rfl | ⟨_, calls, -⟩ := reaches.cases_head
      · cases demands
      · cases calls
  · cases run <;> cases writes

/-- Of the plural categories that are asked for in the history, those of ranks are asked for
twice. -/
theorem replies_memoryless_mixed :
    (∀ request, (bare.keeping .empty).HistoryAsks mixed request → request.options.Plain) ∧
    (bare.keeping .empty).replies mixed =
      mixed.map (fun call => ((bare.keeping .empty).reply call).1) ∧
    ((bare.keeping .empty).afterAll mixed).formatters.count .plural = 2 ∧
    ((bare.keeping .empty).afterAll mixed).formatters.count .number = 1 ∧
    (Options.texts '' {options |
      (bare.keeping .empty).HistoryAsks mixed ⟨.plural, options⟩ ∧
        bare.options.backend.Builds [] ⟨.plural, options⟩}).encard = 2 := by
  have plain : ∀ request, (bare.keeping .empty).HistoryAsks mixed request →
      request.options.Plain := by
    rintro request (asks | asks | asks | asks | asks)
    · cases asks
      exact ranks_plain
    · rw [one_asks asks]
      exact empty_plain
    · cases asks
      exact empty_plain
    · cases asks
      exact ranks_plain
    · exact asks.elim
  have plurals : ((bare.keeping .empty).afterAll mixed).formatters.count .plural = 2 := by
    decide +kernel
  have numbers : ((bare.keeping .empty).afterAll mixed).formatters.count .number = 1 := by
    decide +kernel
  obtain ⟨replies, counts⟩ := Bundle.replies_memoryless bare mixed plain
  refine ⟨plain, replies, plurals, numbers, ?_⟩
  have count := counts .plural
  rw [plurals] at count
  exact count.symm

end Fluent
