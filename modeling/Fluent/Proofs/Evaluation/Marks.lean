import Mathlib
import Fluent.Proofs.Evaluation.Calls
import Fluent.Proofs.Evaluation.Termination

/-!
# Direction marks

With isolation, what a placeable shows in a mixed pattern stands between two direction marks, and
inner placeables have marks of their own. Where nothing else brings in marks, none of them is ever
closed that has not been opened. Each is closed again unless a placeable is cut short between two of
them.

* `Opens`, `Closes`: the two halves of balance;
* `Runs.texts`: what all texts have that marks are put around, and that are put together and cut
  short;
* `resolve_marks`: the text that a bundle formats.
-/

namespace Fluent

/-- The mark in front of a run of text whose direction is its own. -/
def openMark : Char := '\u2068'

/-- The mark behind it. -/
def closeMark : Char := '\u2069'

/-- Wherever a text is cut off, no more marks have been closed than opened. -/
def Opens (text : List Char) : Prop :=
  ∀ length, (text.take length).count closeMark ≤ (text.take length).count openMark

/-- As many marks are closed as opened. -/
def Closes (text : List Char) : Prop := text.count openMark = text.count closeMark

/-- A text without direction marks. -/
def Markless (text : String) : Prop := openMark ∉ text.toList ∧ closeMark ∉ text.toList

instance (text : String) : Decidable (Markless text) :=
  inferInstanceAs (Decidable (_ ∧ _))

/-! ## Texts -/

theorem Markless.opens {text : String} (markless : Markless text) : Opens text.toList := by
  intro length
  have none : closeMark ∉ text.toList.take length := fun h => markless.2 (List.mem_of_mem_take h)
  rw [List.count_eq_zero_of_not_mem none]
  exact Nat.zero_le _

theorem Markless.closes {text : String} (markless : Markless text) : Closes text.toList := by
  rw [Closes, List.count_eq_zero_of_not_mem markless.1, List.count_eq_zero_of_not_mem markless.2]

theorem Markless.append {first second : String} (h : Markless first) (h' : Markless second) :
    Markless (first ++ second) := by
  rw [Markless, String.toList_append, List.mem_append, List.mem_append]
  exact ⟨fun one => one.elim h.1 h'.1, fun one => one.elim h.2 h'.2⟩

theorem Opens.take {text : List Char} (opens : Opens text) (most : Nat) :
    Opens (text.take most) := by
  intro length
  rw [List.take_take]
  exact opens _

theorem Opens.append {first second : List Char} (h : Opens first) (h' : Opens second) :
    Opens (first ++ second) := by
  intro length
  have early := h length
  have late := h' (length - first.length)
  rw [List.take_append, List.count_append, List.count_append]
  omega

theorem Closes.append {first second : List Char} (h : Closes first) (h' : Closes second) :
    Closes (first ++ second) := by
  rw [Closes] at *
  rw [List.count_append, List.count_append]
  omega

theorem toList_isolated (text : String) :
    (isolateStart ++ text ++ isolateEnd).toList = openMark :: (text.toList ++ [closeMark]) := by
  rw [String.toList_append, String.toList_append]
  rfl

theorem Opens.isolated {text : String} (opens : Opens text.toList) :
    Opens (isolateStart ++ text ++ isolateEnd).toList := by
  rw [toList_isolated]
  intro length
  cases length with
  | zero => exact Nat.le_refl 0
  | succ length =>
    have inner := opens length
    have last : ([closeMark].take (length - text.toList.length)).count closeMark ≤ 1 :=
      (List.take_sublist _ _).count_le closeMark
    rw [List.take_succ_cons, List.take_append, List.count_cons_self,
      List.count_cons_of_ne (by decide), List.count_append, List.count_append]
    omega

theorem Closes.isolated {text : String} (closes : Closes text.toList) :
    Closes (isolateStart ++ text ++ isolateEnd).toList := by
  have opened : [closeMark].count openMark = 0 := by decide
  have closed : [closeMark].count closeMark = 1 := by decide
  rw [toList_isolated, Closes, List.count_cons_self, List.count_cons_of_ne (by decide),
    List.count_append, List.count_append, opened, closed, closes]

/-- What holds of texts that hold no marks, of texts put together and of a text between marks. -/
structure MarkLaws (P : String → Prop) : Prop where
  markless : ∀ text, Markless text → P text
  append : ∀ first second, P first → P second → P (first ++ second)
  isolated : ∀ text, P text → P (isolateStart ++ text ++ isolateEnd)

theorem opens_laws : MarkLaws fun text => Opens text.toList where
  markless _ h := h.opens
  append _ _ h h' := String.toList_append ▸ h.append h'
  isolated _ h := h.isolated

theorem closes_laws : MarkLaws fun text => Closes text.toList where
  markless _ h := h.closes
  append _ _ h h' := String.toList_append ▸ h.append h'
  isolated _ h := h.isolated

/-! ## Values -/

/-- The text of a value that is written without a formatter. -/
def Value.text? : Value → Option String
  | .none name => some (if name.getD "" = "" then "???" else name.getD "")
  | .string text => some text
  | .symbol text => some text
  | .number _ _ => Option.none
  | .date _ _ => Option.none

theorem Scope.write_text (scope : Scope) {value : Value} {text : String}
    (h : value.text? = some text) (start : Progress) : scope.write value start = (text, start) := by
  cases value with
  | none | string | symbol =>
    obtain rfl := Option.some_inj.mp h
    rfl
  | number | date => cases h

/-- A property of the texts that an outcome brings with it. -/
def Outcome.Texts (P : String → Prop) : Outcome → Prop
  | .value result => ∀ text, result.text? = some text → P text
  | .text written => P written
  | .arguments _ _ => True

/-- What a placeable shows of a text. -/
def kept (text : String) : String :=
  if longestPlaceable < text.length then String.ofList (text.toList.take longestPlaceable) else text

theorem Scope.placeableText_fst (scope : Scope) (value : Value) (start : Progress) :
    (scope.placeableText value start).1 = kept (scope.write value start).1 := by
  have unfolded : (scope.placeableText value start).1 =
      (Scope.shown (scope.write value start).1 (scope.write value start).2).1 := rfl
  rw [unfolded, Scope.shown, kept]
  split <;> rfl

section

variable (scope : Scope) (guard : List Place → Place → Option EvaluationProblem)

/-- What a placeable is about to show, before it is cut short. -/
def Writes (frame : Frame) (text : String) : Prop :=
  ∃ path isolate place position expression parts start value after,
    frame = ⟨path, .parts isolate place position (.placeable expression :: parts), start⟩ ∧
      Completes scope guard path (.expression (place.child position) expression) start
        (.value value) after ∧
      (scope.write value after).1 = text

/-- What a task takes from entries, variables, functions and formatters has no direction marks, what
it evaluates as a part of it aside. -/
def MarklessAt : Frame → Prop
  | ⟨_, .pattern _ (.text text), _⟩ => Markless (scope.bundle.transformed text)
  | ⟨_, .entry _ (.text text), _⟩ => Markless (scope.bundle.transformed text)
  | ⟨_, .parts _ _ _ (.text text :: _), _⟩ => Markless (scope.bundle.transformed text)
  | ⟨path, .parts _ place position (.placeable expression :: _), start⟩ =>
    ∀ value after, Completes scope guard path (.expression (place.child position) expression) start
      (.value value) after → value.text? = none → Markless (scope.write value after).1
  | ⟨_, .expression _ (.string text), _⟩ => Markless (scope.bundle.transformed text)
  | ⟨_, .expression _ (.variableRef name), start⟩ =>
    (Outcome.value (scope.variableValue name start).1).Texts Markless
  | ⟨_, .expression _ (.entryRef id), _⟩ => Markless id
  | ⟨_, .expression _ (.attributeRef id _), _⟩ => Markless id
  | ⟨_, .expression _ (.variantRef id _), _⟩ => Markless id
  | ⟨path, .expression place (.call name arguments), start⟩ => Markless name ∧
    ∀ function positional named value finish, scope.bundle.function? name = some function →
      Completes scope guard path (.arguments place 0 arguments) start (.arguments positional named)
        finish → function positional named = .ok value → (Outcome.value value).Texts Markless
  | _ => True

end

/-! ## Runs -/

section

variable {P : String → Prop} {scope : Scope} {guard : List Place → Place → Option EvaluationProblem}
  {path : List Place} {task : Task} {start finish : Progress} {outcome : Outcome}

theorem texts_string {text : String} (h : P text) : (Outcome.value (.string text)).Texts P := by
  rintro _ ⟨⟩
  exact h

theorem texts_none (laws : MarkLaws P) : (Outcome.value (.none none)).Texts P := by
  rintro _ ⟨⟩
  exact laws.markless _ (by decide)

theorem texts_name (laws : MarkLaws P) {name : String} (h : Markless name) :
    (Outcome.value (.none (some name))).Texts P := by
  rintro _ ⟨⟩
  rw [Option.getD_some]
  split
  · exact laws.markless _ (by decide)
  · exact laws.markless _ h

/-- What a task takes from elsewhere has no marks, and what it shows has the property when it is cut
short, if it had it before. -/
def CarriesAt (P : String → Prop) (scope : Scope)
    (guard : List Place → Place → Option EvaluationProblem) (frame : Frame) : Prop :=
  MarklessAt scope guard frame ∧ ∀ text, Writes scope guard frame text → P text → P (kept text)

/-- What an evaluation comes to has the property, if what it is made of goes by the laws of marks. -/
theorem Runs.texts (laws : MarkLaws P)
    (run : Completes scope guard path task start outcome finish)
    (carries : ∀ frame, Relation.ReflTransGen (Calls scope guard) ⟨path, task, start⟩ frame →
      CarriesAt P scope guard frame) :
    outcome.Texts P := by
  have inside {frame inner : Frame}
      (carries : ∀ next, Relation.ReflTransGen (Calls scope guard) frame next →
        CarriesAt P scope guard next)
      (calls : Calls scope guard frame inner) (next : Frame)
      (reaches : Relation.ReflTransGen (Calls scope guard) inner next) :
      CarriesAt P scope guard next :=
    carries next (.head calls reaches)
  induction run with
  | patternText | entryText | string => exact texts_string (laws.markless _ (carries _ .refl).1)
  | patternRefused | entryEmpty | callRefused | standardMissing => exact texts_none laws
  | patternExpanded _ free _ _ ih => exact texts_string (ih (inside carries (.pattern free)))
  | partsNil => exact laws.markless _ (by decide)
  | partsText _ ih =>
    exact laws.append _ _ (laws.markless _ (carries _ .refl).1) (ih (inside carries .partsText))
  | @partsPlaceable _ isolate place position expression _ _ value after text written _ _ inner shows
      _ ih ih' =>
    obtain ⟨markless, outlasts⟩ := carries _ .refl
    have others := ih' (inside carries (.partsPlaceable inner shows))
    -- What is written is the text of the value, or that of a formatter, which has no marks.
    have whole : P (scope.write value after).1 := by
      cases named : value.text? with
      | some own =>
        rw [scope.write_text named]
        exact ih (inside carries .placeable) own named
      | none => exact laws.markless _ (markless value after inner named)
    have shown : P text := by
      have cut : text = kept (scope.write value after).1 :=
        (congrArg Prod.fst shows).symm.trans (scope.placeableText_fst value after)
      rw [cut]
      exact outlasts _ ⟨_, _, _, _, _, _, _, _, _, rfl, inner, rfl⟩ whole
    refine laws.append _ _ ?_ others
    split
    · exact laws.isolated _ shown
    · exact shown
  | entryPattern _ ih => exact ih (inside carries .entry)
  | number => nofun
  | variableRef _ found =>
    have markless := (carries _ .refl).1
    rw [MarklessAt, found] at markless
    exact fun text same => laws.markless text (markless text same)
  | @unknown _ _ expression _ _ refers =>
    have markless := (carries _ .refl).1
    cases expression <;> cases refers <;> exact texts_name laws markless
  | entryRef found _ ih => exact ih (inside carries (.entryRef found))
  | attributeRef found has _ ih => exact ih (inside carries (.attributeRef found has))
  | attributeMissing found lacks _ _ ih => exact ih (inside carries (.attributeMissing found lacks))
  | variantRef found _ has _ ih => exact ih (inside carries (.variantRef found has))
  | variantMissing found _ lacks names _ ih =>
    exact ih (inside carries (.variantMissing found lacks names))
  | callUnknown =>
    have markless := (carries _ .refl).1.1
    exact texts_name laws (markless.append (by decide))
  | call found inner gives =>
    have markless := (carries _ .refl).1.2 _ _ _ _ _ found inner gives
    exact fun text same => laws.markless text (markless text same)
  | select inner known has _ _ ih => exact ih (inside carries (.select inner known has))
  | selectStandard inner known lacks _ _ ih =>
    exact ih (inside carries (.selectStandard inner known lacks))
  | selectNone inner unknown _ _ ih => exact ih (inside carries (.selectNone inner unknown))
  | variantList _ ih => exact ih (inside carries .variantList)
  | standard has _ ih => exact ih (inside carries (.standard has))
  | argumentsNil | argumentPositional | argumentNamed => trivial

/-- An entry and a pattern have a text for their value. -/
theorem Runs.exists_text {value : Value} {target : Target}
    (run : Completes scope guard path target.task start (.value value) finish) :
    ∃ text, value.text? = some text := by
  have pattern {place held start finish} (run : Completes scope guard path (.pattern place held) start
      (.value value) finish) : ∃ text, value.text? = some text := by
    cases run <;> exact ⟨_, rfl⟩
  cases target with
  | pattern place held => exact pattern run
  | entry id held =>
    cases run with
    | entryText | entryEmpty => exact ⟨_, rfl⟩
    | entryPattern inner => exact pattern inner

end

/-- Where a text is cut short, as many of its marks have been closed as opened. -/
def CutsOutside (scope : Scope) (frame : Frame) : Prop :=
  ∀ text, Writes scope refusal? frame text → longestPlaceable < text.length →
    Closes (text.toList.take longestPlaceable)

/-- The direction marks of what a bundle formats are in order, if nothing that is written out brings
in marks of its own: none is closed that has not been opened, and each is closed again if no
placeable is cut short between two that belong together. -/
theorem resolve_marks (bundle : Bundle) (bindings : Option Variables) (target : Target)
    (problems : List Problem)
    (markless : ∀ frame, Relation.ReflTransGen (Calls ⟨bundle, bindings⟩ refusal?)
      ⟨[], target.task, bundle.start problems⟩ frame →
        MarklessAt ⟨bundle, bindings⟩ refusal? frame) :
    Opens (bundle.resolve bindings target problems).text.toList ∧
      ((∀ frame, Relation.ReflTransGen (Calls ⟨bundle, bindings⟩ refusal?)
          ⟨[], target.task, bundle.start problems⟩ frame → CutsOutside ⟨bundle, bindings⟩ frame) →
        Closes (bundle.resolve bindings target problems).text.toList) := by
  have tracked : Tracked [] (bundle.start problems) := ⟨rfl, List.nodup_nil, Nat.zero_le _⟩
  have run := ((Scope.mk bundle bindings).targetValue_follows target (bundle.start problems)
    tracked).completes
  obtain ⟨text, named⟩ := run.exists_text
  have result : (bundle.resolve bindings target problems).text = text := by
    exact congrArg Prod.fst (Scope.write_text ⟨bundle, bindings⟩ named _)
  rw [result]
  constructor
  · refine run.texts opens_laws (fun frame reaches => ⟨markless frame reaches, ?_⟩) text named
    intro text _ opens
    unfold kept
    split
    · rw [String.toList_ofList]
      exact opens.take longestPlaceable
    · exact opens
  · intro outside
    refine run.texts closes_laws (fun frame reaches => ⟨markless frame reaches, ?_⟩) text named
    intro text writes closes
    unfold kept
    split
    · rw [String.toList_ofList]
      exact outside frame reaches text writes ‹_›
    · exact closes

/-- A text and a quoted string. -/
def marked : List Element := [.text "x", .placeable (.string "z")]

/-- What an evaluation of them comes to. -/
inductive Marked : Task → Prop
  | pattern {place} : Marked (.pattern place (.elements marked))
  | parts {isolate place position parts} (some : ∀ part ∈ parts, part ∈ marked) :
    Marked (.parts isolate place position parts)
  | quoted {place} : Marked (.expression place (.string "z"))

theorem eq_quoted {expression : Expression} (one : .placeable expression ∈ marked) :
    expression = .string "z" := by
  simpa [marked] using one

theorem Marked.calls {scope : Scope} {frame next : Frame} (held : Marked frame.task)
    (calls : Calls scope refusal? frame next) : Marked next.task := by
  obtain ⟨path, task, start⟩ := frame
  cases held with
  | pattern =>
    cases calls
    exact .parts fun _ one => one
  | parts some =>
    cases calls with
    | partsText => exact .parts fun part one => some part (List.mem_cons_of_mem _ one)
    | placeable => exact eq_quoted (some _ List.mem_cons_self) ▸ .quoted
    | partsPlaceable => exact .parts fun part one => some part (List.mem_cons_of_mem _ one)
  | quoted => cases calls

/-- What they are evaluated against. -/
def plainScope : Scope := ⟨.empty [] {}, none⟩

theorem Marked.markless {frame : Frame} (held : Marked frame.task) :
    MarklessAt plainScope refusal? frame := by
  obtain ⟨path, task, start⟩ := frame
  cases held with
  | pattern => trivial
  | @parts _ _ _ parts some =>
    rcases parts with _ | ⟨text | expression, parts⟩
    · trivial
    · have one : text = "x" := by simpa [marked] using some _ List.mem_cons_self
      subst one
      change Markless "x"
      decide
    · intro value after inner unwritten
      obtain rfl := eq_quoted (some _ List.mem_cons_self)
      cases inner with
      | unknown refers => cases refers
      | string => cases unwritten
  | quoted =>
    change Markless "z"
    decide

theorem Marked.cutsOutside {frame : Frame} (held : Marked frame.task) :
    CutsOutside plainScope frame := by
  rintro text ⟨path, isolate, place, position, expression, parts, start, value, after, rfl, inner,
    rfl⟩ long
  cases held with
  | parts some =>
    obtain rfl := eq_quoted (some _ List.mem_cons_self)
    cases inner with
    | unknown refers => cases refers
    | string =>
      have short : ¬longestPlaceable < "z".length := by decide
      exact absurd long short

/-- Marks around a placeable. -/
theorem resolve_marks_quoted :
    (∀ frame, Relation.ReflTransGen (Calls plainScope refusal?)
        ⟨[], .pattern ⟨none, none, []⟩ (.elements marked), plainScope.bundle.start []⟩ frame →
          MarklessAt plainScope refusal? frame ∧ CutsOutside plainScope frame) ∧
      (plainScope.bundle.resolve none (.pattern ⟨none, none, []⟩ (.elements marked)) []).text =
        "x\u2068z\u2069" ∧
      Opens "x\u2068z\u2069".toList ∧ Closes "x\u2068z\u2069".toList := by
  have held (frame : Frame) (reaches : Relation.ReflTransGen (Calls plainScope refusal?)
      ⟨[], .pattern ⟨none, none, []⟩ (.elements marked), plainScope.bundle.start []⟩ frame) :
      Marked frame.task := by
    induction reaches with
    | refl => exact .pattern
    | tail _ calls ih => exact ih.calls calls
  have text : (plainScope.bundle.resolve none (.pattern ⟨none, none, []⟩ (.elements marked)) []).text =
      "x\u2068z\u2069" := by cbv
  obtain ⟨opens, closes⟩ := resolve_marks plainScope.bundle none
    (.pattern ⟨none, none, []⟩ (.elements marked)) [] fun frame reaches => (held frame reaches).markless
  rw [text] at opens closes
  exact ⟨fun frame reaches => ⟨(held frame reaches).markless, (held frame reaches).cutsOutside⟩,
    text, opens, closes fun frame reaches => (held frame reaches).cutsOutside⟩

end Fluent
