import Mathlib
import Fluent.Proofs.Evaluation.Enlargement
import Fluent.Proofs.Evaluation.Marks
import Fluent.Proofs.Soundness.Resource

/-!
# How long a text gets

A pattern shows its literal text and what its placeables come to. However long that is, each of them
shows no more than `longestPlaceable` characters of it, so what references bring in from elsewhere
adds up no further, and there are no more than `mostPlaceables` of them in a pattern that was read.

* `Piece`: what one part of a pattern comes to before it is cut short;
* `partsText_pieces`: the text and the problems of parts, piece by piece;
* `length_pieces_le`: how long the text gets;
* `resolve_length_le`: what is formatted, of a bundle that holds texts.
-/

namespace Fluent

open Grammar (Resource mostPlaceables)

/-- What a part of a pattern comes to: literal text after the transform, or the text of a placeable
before it is cut short, with the problems that its evaluation reports. -/
inductive Piece where
  | literal (text : String)
  | placeable (text : String) (reported : List Problem)

/-- The report of a text that is cut short, with its true length. -/
def cutProblems (text : String) : List Problem :=
  if longestPlaceable < text.length then
    [.evaluation (.tooManyCharacters text.length longestPlaceable)]
  else []

namespace Piece

/-- What is shown of a piece. -/
def text (isolate : Bool) : Piece → String
  | .literal text => text
  | .placeable text _ =>
    let shows := String.ofList (text.toList.take longestPlaceable)
    if isolate then isolateStart ++ shows ++ isolateEnd else shows

/-- What is reported for a piece. -/
def problems : Piece → List Problem
  | .literal _ => []
  | .placeable text reported => reported ++ cutProblems text

end Piece

/-- The pieces that parts come to, the first of them at `position`, from one state on. -/
def Scope.pieces (scope : Scope) (room : Nat) (place : Place) :
    Nat → List Element → Progress → List Piece
  | _, [], _ => []
  | position, .text text :: rest, start =>
    .literal (scope.bundle.transformed text) :: scope.pieces room place (position + 1) rest start
  | position, .placeable expression :: rest, start =>
    let found := scope.expressionValue (scope.expansion room) (place.child position) expression start
    .placeable (scope.write found.1 found.2).1 (found.2.problems.drop start.problems.length) ::
      scope.pieces room place (position + 1) rest (scope.placeableText found.1 found.2).2

/-! ## Pieces -/

theorem kept_eq_take (text : String) :
    kept text = String.ofList (text.toList.take longestPlaceable) := by
  unfold kept
  split
  · rfl
  · rename_i short
    rw [String.length] at short
    rw [List.take_of_length_le (by omega), String.ofList_toList]

namespace Scope

variable (scope : Scope)

theorem placeableText_problems (value : Value) (evaluated : Progress) :
    (scope.placeableText value evaluated).2.problems =
      evaluated.problems ++ cutProblems (scope.write value evaluated).1 := by
  have unfolded : (scope.placeableText value evaluated).2 =
      (shown (scope.write value evaluated).1 (scope.write value evaluated).2).2 := rfl
  rw [unfolded, shown, cutProblems]
  split
  · rfl
  · exact (List.append_nil _).symm

theorem partsText_placeable (expand : Place → Pattern → Evaluation Value) (isolate : Bool)
    (place : Place) (position : Nat) (expression : Expression) (rest : List Element)
    (start : Progress) :
    scope.partsText expand isolate place position (.placeable expression :: rest) start =
      let found := scope.expressionValue expand (place.child position) expression start
      let shows := scope.placeableText found.1 found.2
      let others := scope.partsText expand isolate place (position + 1) rest shows.2
      ((if isolate then isolateStart ++ shows.1 ++ isolateEnd else shows.1) ++ others.1,
        others.2) := rfl

/-- Parts are shown and reported piece by piece. -/
theorem partsText_pieces {path : List Place} {room : Nat}
    (within : path.length + room = deepestExpansion) (isolate : Bool) (place : Place)
    (position : Nat) (parts : List Element) {start : Progress} (tracked : Tracked path start) :
    let pieces := scope.pieces room place position parts start
    let (text, finish) := scope.partsText (scope.expansion room) isolate place position parts start
    text = String.join (pieces.map (Piece.text isolate)) ∧
      finish.problems = start.problems ++ pieces.flatMap Piece.problems := by
  induction parts generalizing position start with
  | nil => exact ⟨rfl, (List.append_nil _).symm⟩
  | cons part rest ih =>
    cases part with
    | text text =>
      obtain ⟨texts, problems⟩ := ih (position + 1) tracked
      simp only [pieces, List.map_cons, List.flatMap_cons, String.join_cons]
      exact ⟨congrArg (scope.bundle.transformed text ++ ·) texts, problems⟩
    | placeable expression =>
      have run := scope.expressionValue_follows (scope.expansion_follows room path within)
        (place.child position) expression start tracked
      obtain ⟨reported, added⟩ := run.problems_prefix
      rw [partsText_placeable, pieces]
      generalize scope.expressionValue (scope.expansion room) (place.child position) expression
        start = found at run added
      have after := run.after.step (scope.placeableText_balanced found.1)
      obtain ⟨texts, problems⟩ := ih (position + 1) after
      simp only [List.map_cons, List.flatMap_cons, String.join_cons, Piece.text, Piece.problems]
      constructor
      · rw [scope.placeableText_fst, kept_eq_take, texts]
      · rw [problems, scope.placeableText_problems, ← added]
        simp

end Scope

/-! ## Lengths -/

/-- The length of the literal text among parts, after the transform. -/
def Bundle.literalLength (bundle : Bundle) : List Element → Nat
  | [] => 0
  | .text text :: rest => (bundle.transformed text).length + bundle.literalLength rest
  | .placeable _ :: rest => bundle.literalLength rest

/-- The most characters of a placeable, with its direction marks if it stands between them. -/
def placeableLength (isolate : Bool) : Nat := longestPlaceable + if isolate then 2 else 0

theorem Piece.length_placeable_le (isolate : Bool) (text : String) (reported : List Problem) :
    ((placeable text reported).text isolate).length ≤ placeableLength isolate := by
  have marks : isolateStart.length = 1 ∧ isolateEnd.length = 1 := by decide
  cases isolate <;> simp [Piece.text, placeableLength]
  omega

theorem Scope.length_pieces_le (scope : Scope) (room : Nat) (isolate : Bool) (place : Place)
    (position : Nat) (parts : List Element) (start : Progress) :
    (String.join ((scope.pieces room place position parts start).map (Piece.text isolate))).length ≤
      scope.bundle.literalLength parts +
        parts.countP Element.isPlaceable * placeableLength isolate := by
  induction parts generalizing position start with
  | nil => simp [pieces]
  | cons part rest ih =>
    cases part with
    | text text =>
      have others := ih (position + 1) start
      simp only [pieces, List.map_cons, String.join_cons, String.length_append, Piece.text,
        Bundle.literalLength, List.countP_cons, Element.isPlaceable, Bool.false_eq_true, if_false,
        Nat.add_zero]
      omega
    | placeable expression =>
      rw [pieces]
      generalize scope.expressionValue (scope.expansion room) (place.child position) expression
        start = found
      have one := Piece.length_placeable_le isolate (scope.write found.1 found.2).1
        (found.2.problems.drop start.problems.length)
      have others := ih (position + 1) (scope.placeableText found.1 found.2).2
      simp only [List.map_cons, String.join_cons, String.length_append, Bundle.literalLength,
        List.countP_cons, Element.isPlaceable, if_true, Nat.add_mul]
      omega

/-! ## Patterns -/

section

variable {place : Place} {start : Progress}

theorem refusal_eq_none (free : refusal? start.expanding place = none) :
    place ∉ start.expanding ∧ start.expanding.length < deepestExpansion := by
  unfold refusal? at free
  split at free
  · cases free
  · split at free
    · cases free
    · exact ⟨‹_›, Nat.lt_of_not_le ‹_›⟩

/-- A pattern that no guard refuses is expanded piece by piece. -/
theorem Scope.expansion_pieces (scope : Scope) (parts : List Element) (distinct : start.expanding.Nodup)
    (free : refusal? start.expanding place = none) :
    let room := deepestExpansion - start.expanding.length
    let pieces := scope.pieces (room - 1) place 0 parts (start.entered place)
    let result := scope.expansion room place (.elements parts) start
    result.1 = .string (String.join (pieces.map (Piece.text (scope.isolates parts)))) ∧
      result.2.problems = start.problems ++ pieces.flatMap Piece.problems := by
  obtain ⟨fresh, room⟩ := refusal_eq_none free
  have more : deepestExpansion - start.expanding.length =
      deepestExpansion - (start.entered place).expanding.length + 1 := by
    simp only [Progress.entered, List.length_cons]
    omega
  have within : (start.entered place).expanding.length +
      (deepestExpansion - (start.entered place).expanding.length) = deepestExpansion := by
    simp only [Progress.entered, List.length_cons]
    omega
  have tracked : Tracked (start.entered place).expanding (start.entered place) :=
    ⟨rfl, List.nodup_cons.mpr ⟨fresh, distinct⟩, room⟩
  obtain ⟨text, problems⟩ :=
    scope.partsText_pieces within (scope.isolates parts) place 0 parts tracked
  intro room pieces result
  have unfolded : result = scope.partsValue (scope.expansion (room - 1)) place parts start := by
    simp only [result, room, more]
    exact scope.expansion_enters _ fresh
  rw [unfolded]
  have less : room - 1 = deepestExpansion - (start.entered place).expanding.length := by omega
  simp only [pieces, less]
  exact ⟨congrArg Value.string text, problems⟩

end

/-! ## Targets -/

/-- The parts of a pattern; plain text is one part. -/
def Pattern.parts : Pattern → List Element
  | .text value => [.text value]
  | .elements parts => parts

/-- The parts of what is formatted: of the value, for an entry. -/
def Target.parts : Target → List Element
  | .entry _ (.text value) => [.text value]
  | .entry _ (.node value _) => value.elim [] Pattern.parts
  | .pattern _ held => held.parts

/-- The most characters of a text with these parts. -/
def Bundle.mostLength (bundle : Bundle) (parts : List Element) : Nat :=
  bundle.literalLength parts + mostPlaceables * placeableLength true

namespace Bundle

variable {bundle : Bundle} {bindings : Option Variables} {target : Target}

theorem expansion_length_le (bundle : Bundle) (bindings : Option Variables) (place : Place)
    (problems : List Problem) {held : Pattern}
    (few : held.parts.countP Element.isPlaceable ≤ mostPlaceables) :
    ∃ text, ((Scope.mk bundle bindings).expansion deepestExpansion place held
        (bundle.start problems)).1 = .string text ∧ text.length ≤ bundle.mostLength held.parts := by
  cases held with
  | text value =>
    refine ⟨_, rfl, ?_⟩
    simp only [Pattern.parts, mostLength, literalLength]
    omega
  | elements parts =>
    let scope : Scope := ⟨bundle, bindings⟩
    have distinct : (bundle.start problems).expanding.Nodup := List.nodup_nil
    have free : refusal? (bundle.start problems).expanding place = none := rfl
    obtain ⟨value, -⟩ := scope.expansion_pieces parts distinct free
    have most := scope.length_pieces_le (deepestExpansion - 1) (scope.isolates parts) place 0 parts
      ((bundle.start problems).entered place)
    have marks : placeableLength (scope.isolates parts) ≤ placeableLength true := by
      cases scope.isolates parts <;> decide
    have all := Nat.mul_le_mul few marks
    exact ⟨_, value, most.trans (Nat.add_le_add_left all _)⟩

/-- A text that a bundle resolves a target to is no longer than that. -/
theorem resolve_length_le (few : target.parts.countP Element.isPlaceable ≤ mostPlaceables)
    (problems : List Problem) :
    (bundle.resolve bindings target problems).text.length ≤ bundle.mostLength target.parts := by
  have written (place : Place) {held : Pattern}
      (few : held.parts.countP Element.isPlaceable ≤ mostPlaceables) :
      (bundle.resolve bindings (.pattern place held) problems).text.length ≤
        bundle.mostLength held.parts := by
    obtain ⟨text, value, most⟩ := expansion_length_le bundle bindings place problems few
    have text_eq : (bundle.resolve bindings (.pattern place held) problems).text =
        ((Scope.mk bundle bindings).write ((Scope.mk bundle bindings).expansion deepestExpansion
          place held (bundle.start problems)).1 _).1 := rfl
    rw [text_eq, value]
    exact most
  match target with
  | .pattern place held => exact written place few
  | .entry id (.node (some held) attributes) => exact written ⟨id, none, []⟩ few
  | .entry id (.text value) =>
    change (bundle.transformed value).length ≤ _
    simp only [Target.parts, mostLength, literalLength]
    omega
  | .entry id (.node none attributes) =>
    have marks : "???".length = 3 := rfl
    change "???".length ≤ _
    simp only [marks, mostLength, mostPlaceables, placeableLength, longestPlaceable]
    omega

/-- The bundle to which texts have been added, whatever formatters it keeps. -/
def ofTexts (locales : List LanguageTag) (options : BundleOptions) (sources : List String)
    (formatters : Format.Formatters) : Bundle :=
  ((Bundle.empty locales options).extendAll (sources.map .text)).keeping formatters

theorem ofTexts_message {locales : List LanguageTag} {options : BundleOptions}
    {sources : List String} {formatters : Format.Formatters} {id : String} {entry : Entry}
    (held : (ofTexts locales options sources formatters).message? id = some entry) :
    ∃ source ∈ sources, (Resource.parse source).entries[id]? = some entry := by
  let bundle := (Bundle.empty locales options).extendAll (sources.map .text)
  have sorted : bundle.Sorted :=
    extendAll_induction (fun _ id entry _ sorted => sorted.insert id entry)
      ⟨by simp [empty], by simp [empty]⟩ _
  have member : bundle.messages[id]? = some entry := held
  have kind : EntryKind.ofId id = .message :=
    sorted.2 id (Std.ExtTreeMap.mem_iff_isSome_getElem?.mpr (by simp [member]))
  have found : bundle.entryOf? id = some entry := by
    simp only [entryOf?, kind, member]
  have bare : (empty locales options).entryOf? id = none := by
    simp [entryOf?, kind, empty]
  rw [entryOf_extendAll, bare, Option.none_or, List.findSome?_map] at found
  obtain ⟨source, listed, defined⟩ := List.exists_of_findSome?_eq_some found
  exact ⟨source, listed, (Addition.definition?_eq _ id).symm.trans defined⟩

theorem ofTexts_options (locales : List LanguageTag) (options : BundleOptions)
    (sources : List String) (formatters : Format.Formatters) :
    (ofTexts locales options sources formatters).options = options :=
  extendAll_induction (P := fun bundle => bundle.options = options)
    (fun bundle id entry _ same => by
      unfold insert
      split <;> exact same)
    rfl _

/-- What is formatted is a message of the bundle or an attribute of one. -/
inductive Offers (bundle : Bundle) (target : Target) : Prop
  | message {id : String} (held : bundle.messageTarget? id = some target)
  | attributeOf {id name : String} (held : bundle.attributeTarget? id name = some target)

end Bundle

/-- A pattern that was read has no more than `mostPlaceables` placeables. -/
theorem Grammar.Resource.parse_few {source id : String} {entry : Entry} {held : Pattern}
    (found : (Resource.parse source).entries[id]? = some entry) (holds : entry.Holds held) :
    held.parts.countP Element.isPlaceable ≤ mostPlaceables := by
  have sound : entry.Sound id :=
    entry_of_parse (P := fun id entry => entry.Sound id) (yields_message.mono fun _ => And.left)
      found
  obtain ⟨rules, -⟩ := sound.inner held [] _ holds .here
  cases held with
  | text value => exact Nat.zero_le _
  | elements parts => exact rules.few

theorem Bundle.Offers.few {locales : List LanguageTag} {options : BundleOptions}
    {sources : List String} {formatters : Format.Formatters} {target : Target}
    (offers : (ofTexts locales options sources formatters).Offers target) :
    target.parts.countP Element.isPlaceable ≤ mostPlaceables := by
  cases offers with
  | message held =>
    obtain ⟨entry, message, rfl⟩ := Option.map_eq_some_iff.mp held
    obtain ⟨source, -, found⟩ := ofTexts_message message
    match entry with
    | .text value => exact Nat.zero_le _
    | .node none attributes => exact Nat.zero_le _
    | .node (some value) attributes => exact Resource.parse_few found .value
  | attributeOf held =>
    obtain ⟨entry, message, held⟩ := Option.bind_eq_some_iff.mp held
    obtain ⟨value, has, same⟩ := Option.bind_eq_some_iff.mp held
    obtain rfl := Option.some_inj.mp same
    obtain ⟨source, -, found⟩ := ofTexts_message message
    exact Resource.parse_few found (.attribute has)

/-- A pattern that no guard refuses shows its literal text and, of what each of its placeables comes
to, the first `longestPlaceable` characters, between direction marks if it isolates. Each placeable
reports what its evaluation does and then, exactly if it is cut short, its true length. So the text
is no longer than the literal text and that room for each placeable, whatever the placeables refer
to; and a message of a bundle that holds texts, or an attribute of one, is formatted to no more
than its own literal text and the room for a hundred placeables. -/
theorem expansion_bounded :
    (∀ (bundle : Bundle) (bindings : Option Variables) place parts (start : Progress),
      start.expanding.Nodup → refusal? start.expanding place = none →
      let scope : Scope := ⟨bundle, bindings⟩
      let room := deepestExpansion - start.expanding.length
      let pieces := scope.pieces (room - 1) place 0 parts (start.entered place)
      let isolate := scope.isolates parts
      ∃ text finish, scope.expansion room place (.elements parts) start = (.string text, finish) ∧
        text = String.join (pieces.map (Piece.text isolate)) ∧
        finish.problems = start.problems ++ pieces.flatMap Piece.problems ∧
        text.length ≤ bundle.literalLength parts +
          parts.countP Element.isPlaceable * placeableLength isolate) ∧
    ∀ locales options sources formatters bindings target problems,
      let bundle := Bundle.ofTexts locales options sources formatters
      bundle.Offers target →
        let most := bundle.literalLength target.parts + 100 * 2502
        (bundle.resolve bindings target problems).text.length ≤ most ∧
          ∀ text, (bundle.format bindings target problems).text = some text → text.length ≤ most := by
  constructor
  · intro bundle bindings place parts start distinct free scope room pieces isolate
    obtain ⟨value, problems⟩ := scope.expansion_pieces parts distinct free
    exact ⟨_, _, Prod.ext value rfl, rfl, problems, scope.length_pieces_le ..⟩
  · intro locales options sources formatters bindings target problems bundle offers most
    have resolved : (bundle.resolve bindings target problems).text.length ≤ most :=
      Bundle.resolve_length_le offers.few problems
    refine ⟨resolved, fun text formatted => ?_⟩
    have agrees := congrArg Prod.fst (bundle.format_eq bindings target problems).1
    rw [formatted] at agrees
    split at agrees
    · cases agrees
    · obtain rfl := Option.some_inj.mp agrees
      exact resolved

/-- A bundle with one message, which shows a variable. -/
def showing : Bundle := .ofTexts [] {} ["a = \x7b $x \x7dy\n"] .empty

/-- The parts of the message. -/
def showingParts : List Element := [.placeable (.variableRef "x"), .text "y"]

/-- The variable's text. -/
def showingText (text : String) : Variables := (∅ : Variables).insert "x" (.string text)

theorem showing_transformed (text : String) : showing.transformed text = text := by
  have options : showing.options = {} := Bundle.ofTexts_options ..
  rw [Bundle.transformed, options]

theorem showing_pieces (text : String) (room : Nat) (place : Place) (start : Progress) :
    (Scope.mk showing (some (showingText text))).pieces room place 0 showingParts start =
      [.placeable text [], .literal "y"] := by
  have value : (Scope.mk showing (some (showingText text))).variableValue "x" =
      pure (.string text) := by
    simp [Scope.variableValue, showingText]
  have nothing : start.problems.drop start.problems.length = [] := List.drop_length
  simp only [showingParts, Scope.pieces, Scope.expressionValue, value, showing_transformed]
  exact congrArg (fun reported => [Piece.placeable text reported, .literal "y"]) nothing

/-- A text that is one character too long for a placeable. -/
def tooLong : String := String.ofList (List.replicate 2501 'z')

theorem cutProblems_tooLong :
    cutProblems tooLong = [.evaluation (.tooManyCharacters 2501 2500)] := by
  have length : tooLong.length = 2501 := String.length_ofList.trans List.length_replicate
  simp only [cutProblems, length, longestPlaceable, if_pos (show 2500 < 2501 by decide)]

theorem expansion_bounded_tooLong :
    let place : Place := ⟨some "a", none, []⟩
    let start := showing.start []
    let scope : Scope := ⟨showing, some (showingText tooLong)⟩
    let target : Target := .entry (some "a") (.node (some (.elements showingParts)) none)
    start.expanding.Nodup ∧ refusal? start.expanding place = none ∧ showing.Offers target ∧
      (∃ text finish,
        scope.expansion 100 place (.elements showingParts) start = (.string text, finish) ∧
        finish.problems = [.evaluation (.tooManyCharacters 2501 2500)] ∧
        text.length ≤ 1 + 2502) ∧
      (showing.resolve (some (showingText tooLong)) target []).text.length ≤ 1 + 100 * 2502 := by
  intro place start scope target
  have distinct : start.expanding.Nodup := List.nodup_nil
  have free : refusal? start.expanding place = none := rfl
  have held : showing.messageTarget? "a" = some target := by cbv
  have offers : showing.Offers target := .message held
  have literal : showing.literalLength showingParts = 1 := by
    rw [showingParts, Bundle.literalLength, Bundle.literalLength, Bundle.literalLength,
      showing_transformed]
    rfl
  have room : showingParts.countP Element.isPlaceable *
      placeableLength (scope.isolates showingParts) = 2502 := by
    rw [Scope.isolates, show scope.bundle.options = {} from Bundle.ofTexts_options ..]
    rfl
  obtain ⟨patterns, messages⟩ := expansion_bounded
  obtain ⟨text, finish, expanded, -, problems, most⟩ :=
    patterns showing (some (showingText tooLong)) place showingParts start distinct free
  obtain ⟨resolved, -⟩ := messages _ _ _ _ (some (showingText tooLong)) target [] offers
  refine ⟨distinct, free, offers, ⟨text, finish, expanded, ?_, ?_⟩, ?_⟩
  · rw [problems, showing_pieces]
    simp only [List.flatMap_cons, List.flatMap_nil, Piece.problems, cutProblems_tooLong]
    rfl
  · rw [literal, room] at most
    exact most
  · rw [← literal]
    exact resolved

end Fluent
