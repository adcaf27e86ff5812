import Fluent.Proofs.Pattern
import Fluent.Proofs.Returns.Basic

/-!
# Patterns without carriage returns

Text is copied up to a line end, an escape, a placeable or the end of the text. Up to a line end the
carriage return in front of it is left out; at the end of the text it goes with the blank text
there; elsewhere there is none.

* `codedChar?_return`: a code to the base sixteen that stands for a carriage return;
* `string_tame`, `tamely_variantKey`: tokens;
* `Draft.Returnless`: what each round of a pattern keeps;
* `tamely_pattern`: the pattern in the end.
-/

namespace Fluent.Grammar

open Fluent.Grammar.Parser Fluent.Text.Reader

/-! ## Tokens -/

theorem hexDigitValue_cases {c : Char} (digit : Text.isHexDigit c = true) :
    (Text.hexDigitValue c = 0 → c = '0') ∧ (Text.hexDigitValue c = 13 → c = 'd' ∨ c = 'D') := by
  have small : c.toNat < 128 := by
    simp only [Text.isHexDigit, Char.isDigit, Bool.or_eq_true, Bool.and_eq_true, decide_eq_true_eq,
      Char.le_def, UInt32.le_iff_toNat_le] at digit
    change c.val.toNat < 128
    obtain (⟨-, high⟩ | ⟨-, high⟩) | ⟨-, high⟩ := digit
    · exact Nat.lt_of_le_of_lt high (by decide)
    · exact Nat.lt_of_le_of_lt high (by decide)
    · exact Nat.lt_of_le_of_lt high (by decide)
  have all : ∀ code < 128, Text.isHexDigit (Char.ofNat code) = true →
      (Text.hexDigitValue (Char.ofNat code) = 0 → Char.ofNat code = '0') ∧
      (Text.hexDigitValue (Char.ofNat code) = 13 →
        Char.ofNat code = 'd' ∨ Char.ofNat code = 'D') := by
    decide
  have read := all c.toNat small
  rw [Char.ofNat_toNat] at read
  exact read digit

theorem toNat_ofNat {code : Nat} (valid : code.isValidChar) : (Char.ofNat code).toNat = code := by
  rw [Char.ofNat, dif_pos valid]
  rfl

/-- Only its own code stands for a carriage return. -/
theorem codedChar?_return {text : List Char} (coded : Text.codedChar? 4 text = some '\r') :
    ∃ digit rest, (digit = 'd' ∨ digit = 'D') ∧ text = '0' :: '0' :: '0' :: digit :: rest := by
  simp only [Text.codedChar?] at coded
  split at coded
  · rename_i read
    obtain ⟨width, digits, valid⟩ := read
    have code := congrArg Char.toNat (Option.some_inj.mp coded)
    rw [toNat_ofNat valid] at code
    match text with
    | [] | [_] | [_, _] | [_, _, _] => simp at width
    | a :: b :: c :: d :: rest =>
      simp only [List.take_succ_cons, List.take_zero, List.all_cons, List.all_nil, Bool.and_true,
        Bool.and_eq_true, List.foldl_cons, List.foldl_nil] at digits code
      change _ = 13 at code
      obtain rfl := (hexDigitValue_cases digits.1).1 (by omega)
      obtain rfl := (hexDigitValue_cases digits.2.1).1 (by omega)
      obtain rfl := (hexDigitValue_cases digits.2.2.1).1 (by omega)
      have zero : Text.hexDigitValue '0' = 0 := rfl
      exact ⟨d, rest, (hexDigitValue_cases digits.2.2.2).2 (by omega), rfl⟩
  · cases coded

/-- A code to the base sixteen holds no backslash. -/
theorem codedChar?_drop {text : List Char} {c : Char} (tame : Tame text)
    (coded : Text.codedChar? 4 text = some c) : Tame (text.drop 4) := by
  simp only [Text.codedChar?] at coded
  split at coded
  · rename_i read
    refine Tame.append (text.take 4) (by rwa [List.take_append_drop]) fun member => ?_
    exact absurd (List.all_eq_true.mp read.2.1 _ member) (by decide)
  · cases coded

theorem tamely_identifier : Tamely identifier fun _ => True := by
  refine fun next => tamelyAt_peek (.choice (fun _ => ?_) fun _ => ?_)
  · exact tamelyAt_takeWhile (by decide) fun _ _ => tamelyAt_pure trivial
  · exact fun _ _ _ _ _ read => nomatch read

theorem tamely_entryIdentifier : Tamely entryIdentifier fun _ => True := by
  refine fun next => tamelyAt_get fun text _ _ => ?_
  refine TamelyAt.bind (tamely_takeOne (by decide) next) fun hyphen _ next => ?_
  refine tamelyAt_peek (.choice (fun _ => ?_) fun _ => fun _ _ _ _ _ read => nomatch read)
  exact tamelyAt_takeWhile (by decide) fun _ _ => tamelyAt_pure trivial

theorem tamely_number : Tamely number fun _ => True := by
  refine fun next => TamelyAt.bind (tamely_takeOne (by decide) next) fun sign _ next => ?_
  refine tamelyAt_takeWhile (by decide) fun whole next => ?_
  refine .choice (fun _ => tamelyAt_fail _) fun _ => ?_
  refine TamelyAt.bind (tamely_takeOne (by decide) next) fun point _ next => ?_
  refine tamelyAt_takeWhile (by decide) fun fraction next => ?_
  refine .choice (fun _ => tamelyAt_fail _) fun _ => ?_
  split
  · exact tamelyAt_pure trivial
  · exact tamelyAt_fail _

theorem tamely_keyword : Tamely keyword fun _ => True := by
  intro next text tame _ name rest read
  rw [keyword_apply] at read
  split at read
  · obtain ⟨-, rfl⟩ := Prod.mk.inj (Except.ok.inj read)
    have name := Text.dropEndWhile_prefix (· == ' ') (text.takeWhile isKeywordChar)
    obtain ⟨others, parts⟩ := name.trans (List.takeWhile_prefix isKeywordChar)
    generalize Text.dropEndWhile (· == ' ') (text.takeWhile isKeywordChar) = front at name parts ⊢
    subst parts
    rw [List.drop_left]
    refine ⟨trivial, tame.append front fun member => ?_⟩
    exact absurd (List.mem_takeWhile_imp (name.subset member)) (by decide)
  · cases read

theorem tamely_variantKey : Tamely variantKey fun _ => True := by
  refine fun next => tamelyAt_skipWhile (by decide) fun next => tamelyAt_peek ?_
  have close (key : VariantKey) : Tamely (do skipInlineBlank; expect ']'; return key : Parser _)
      fun _ => True := fun next => tamelyAt_skipWhile (by decide) fun next =>
    (tamely_expect (by decide) next).bind fun _ _ _ => tamelyAt_pure trivial
  refine .choice (fun _ => ?_) fun _ => ?_
  · exact ((tamely_number next).map fun _ _ => trivial).bind fun key (_ : True) => close key
  · exact ((tamely_keyword next).map fun _ _ => trivial).bind fun key (_ : True) => close key

theorem tamelyAt_escape {escapable : List Char} (none : '\r' ∉ escapable) :
    TamelyAt (some '\\') (escape escapable) (· ≠ '\r') := by
  intro text tame head c rest read
  obtain ⟨text, rfl⟩ := List.head?_eq_some_iff.mp head
  rw [escape_cons] at read
  cases text with
  | nil => cases read
  | cons first text =>
    dsimp only at read
    split at read
    · obtain ⟨rfl, rfl⟩ := Prod.mk.inj (Except.ok.inj read)
      exact ⟨fun same => none (same ▸ ‹_›), tame.escaped⟩
    · split at read
      · subst first
        cases coded : Text.codedChar? 4 text with
        | none => rw [coded] at read; cases read
        | some found =>
          rw [coded] at read
          obtain ⟨rfl, rfl⟩ := Prod.mk.inj (Except.ok.inj read)
          refine ⟨?_, ?_⟩
          · rintro rfl
            obtain ⟨digit, rest, either, rfl⟩ := codedChar?_return coded
            exact tame.unescaped (.here either)
          · exact codedChar?_drop tame.escaped coded
      · cases read

theorem tamely_stringRound (read : List Char) (none : '\r' ∉ read) :
    Tamely (stringRound read) (Kept ('\r' ∉ ·) ('\r' ∉ ·)) := by
  intro next text tame _ round rest found
  have tame' := tame.dropWhile (p := isStringChar) (by decide)
  rw [stringRound_apply] at found
  split at found
  · rename_i stop
    rw [stop] at tame'
    obtain ⟨rfl, rfl⟩ := Prod.mk.inj (Except.ok.inj found)
    exact ⟨by simp [none, tame.takeWhile rfl stop (by decide)], tame'.tail (by decide)⟩
  · rename_i stop
    rw [stop] at tame'
    obtain ⟨c, mid, escaped, found⟩ := exists_of_bind_ok found
    obtain ⟨rfl, rfl⟩ := Prod.mk.inj (Except.ok.inj found)
    obtain ⟨other, tame'⟩ := tamelyAt_escape (by decide) _ tame' rfl c mid escaped
    exact ⟨by simp [none, tame.takeWhile rfl stop (by decide), Ne.symm other], tame'⟩
  · cases found

/-- A string holds no carriage return. -/
theorem tamelyAt_string : TamelyAt (some '"') string fun text => '\r' ∉ text.toList := by
  refine tamelyAt_advance (by decide) fun next => ?_
  refine TamelyAt.bind (Tamely.iterate tamely_stringRound (fun _ none => none) (by simp) next) ?_
  exact fun text none next => tamelyAt_pure (by rwa [String.toList_ofList])

/-! ## Drafts -/

/-- What has been read of a pattern holds no carriage return. -/
structure Draft.Returnless (draft : Draft) : Prop where
  parts : ∀ part ∈ draft.parts, part.Returnless
  buffer : '\r' ∉ draft.buffer

/-- The same, blank text at the end aside. -/
structure Draft.EndsReturnless (draft : Draft) : Prop where
  parts : ∀ part ∈ draft.parts, part.Returnless
  buffer : '\r' ∉ Text.dropEndWhile Text.isBlank draft.buffer

namespace Draft

variable {draft : Draft}

theorem returnless_empty : Returnless .empty := ⟨by simp [empty], by simp [empty]⟩

theorem Returnless.ends (returnless : draft.Returnless) : draft.EndsReturnless :=
  ⟨returnless.parts, fun member => returnless.buffer ((Text.dropEndWhile_prefix _ _).subset member)⟩

theorem Returnless.push (returnless : draft.Returnless) {text : List Char} (none : '\r' ∉ text) :
    (draft.push text).Returnless :=
  ⟨returnless.parts, by simp [Draft.push, returnless.buffer, none]⟩

theorem Returnless.nextLine (returnless : draft.Returnless) (blank : List Char) :
    (draft.nextLine blank).Returnless := by
  have none : '\r' ∉ blank.filter (· != '\r') := by simp
  have pushed := returnless.push none
  rw [Draft.nextLine]
  split
  · exact pushed
  · exact pushed.push (by decide)

theorem Returnless.place (returnless : draft.Returnless) {expression : Expression}
    (none : (Node.expression expression).Returnless) : (draft.place expression).Returnless := by
  refine ⟨fun part one => ?_, by simp [Draft.place]⟩
  obtain one | one := List.mem_append.mp one
  · rw [close] at one
    split at one
    · exact returnless.parts part one
    · obtain one | one := List.mem_append.mp one
      · exact returnless.parts part one
      · rw [List.mem_singleton.mp one, Element.Returnless, String.toList_ofList]
        exact returnless.buffer
  · exact List.mem_singleton.mp one ▸ none

theorem EndsReturnless.finish (returnless : draft.EndsReturnless) {value : Pattern}
    (finished : draft.finish = some value) : (Node.pattern value).Returnless := by
  have last : '\r' ∉ (String.ofList (Text.dropEndWhile Text.isBlank draft.buffer)).toList := by
    rw [String.toList_ofList]
    exact returnless.buffer
  rw [Draft.finish] at finished
  split at finished
  · cases finished
  · split at finished
    · exact Option.some_inj.mp finished ▸ Node.returnless_text last
    · split at finished
      · exact Option.some_inj.mp finished ▸ Node.returnless_elements returnless.parts
      · refine Option.some_inj.mp finished ▸ Node.returnless_elements fun part one => ?_
        obtain one | one := List.mem_append.mp one
        · exact returnless.parts part one
        · exact List.mem_singleton.mp one ▸ last

end Draft

/-! ## Patterns -/

theorem tame_dropBlankLinesFrom {lineStart text : List Char} (start : Tame lineStart)
    (tame : Tame text) : Tame (dropBlankLinesFrom lineStart text) := by
  fun_induction dropBlankLinesFrom lineStart text with
  | case1 lineStart rest ih => exact ih start (tame.tail (by decide))
  | case2 lineStart rest ih => exact ih start (tame.tail (by decide))
  | case3 lineStart rest ih => exact ih (tame.tail (by decide)) (tame.tail (by decide))
  | case4 lineStart rest ih =>
    have next := (tame.tail (by decide)).tail (by decide)
    exact ih next next
  | case5 => exact start

theorem tame_dropBlankLines {text : List Char} (tame : Tame text) : Tame (dropBlankLines text) :=
  tame_dropBlankLinesFrom tame tame

section

variable {text : List Char} {p : Char → Bool}

theorem withoutReturn_returnless (ends : ReturnsEndLines text) (stops : p '\n' = false) :
    '\r' ∉ withoutReturn (text.takeWhile p) := by
  rw [withoutReturn]
  obtain none | ⟨line, same, none, -⟩ := ends.takeWhile stops
  · rwa [if_neg fun last => none (List.mem_of_getLast? last)]
  · rwa [same, if_pos List.getLast?_concat, List.dropLast_concat]

/-- A carriage return at the end goes with the blank text there. -/
theorem dropEndWhile_returnless (ends : ReturnsEndLines text) (stops : p '\n' = false)
    (buffer : List Char) (before : '\r' ∉ buffer) :
    '\r' ∉ Text.dropEndWhile Text.isBlank (buffer ++ text.takeWhile p) := by
  have front (text : List Char) (none : '\r' ∉ text) :
      '\r' ∉ Text.dropEndWhile Text.isBlank (buffer ++ text) := fun member => by
    simpa [before, none] using (Text.dropEndWhile_prefix _ _).subset member
  obtain none | ⟨line, same, none, -⟩ := ends.takeWhile stops
  · exact front _ none
  · have shorter : Text.dropEndWhile Text.isBlank (buffer ++ line ++ ['\r']) =
        Text.dropEndWhile Text.isBlank (buffer ++ line) := List.rdropWhile_concat_pos _ _ _ rfl
    rw [same, ← List.append_assoc, shorter]
    exact front _ none

end

theorem tamelyAt_nextLine {draft : Draft} (returnless : draft.Returnless) :
    TamelyAt (some '\n') (nextLine draft) (Kept Draft.Returnless Draft.EndsReturnless) := by
  intro text tame head round rest read
  obtain ⟨text, rfl⟩ := List.head?_eq_some_iff.mp head
  have next := tame_dropBlankLines (tame.tail (by decide))
  rw [nextLine_cons] at read
  dsimp only at read
  split at read
  · split at read
    · obtain ⟨rfl, rfl⟩ := Prod.mk.inj (Except.ok.inj read)
      exact ⟨returnless.ends, next⟩
    · obtain ⟨rfl, rfl⟩ := Prod.mk.inj (Except.ok.inj read)
      exact ⟨returnless.nextLine _, next.dropWhile (by decide)⟩
  · obtain ⟨rfl, rfl⟩ := Prod.mk.inj (Except.ok.inj read)
    exact ⟨returnless.ends, next⟩

section

variable {placeable : Parser Expression}
  (tamely : TamelyAt (some '{') placeable fun shown => (Node.expression shown).Returnless)

include tamely

theorem tamely_patternRound (draft : Draft) (returnless : draft.Returnless) :
    Tamely (patternRound placeable draft) (Kept Draft.Returnless Draft.EndsReturnless) := by
  intro next text tame _ round rest read
  have stops : isPatternChar '\n' = false := rfl
  have tame' := tame.dropWhile (p := isPatternChar) rfl
  cases stop : text.dropWhile isPatternChar with
  | nil =>
    rw [patternRound_end stop] at read
    obtain ⟨rfl, rfl⟩ := Prod.mk.inj (Except.ok.inj read)
    exact ⟨⟨returnless.parts, dropEndWhile_returnless tame.ends stops _ returnless.buffer⟩, .nil⟩
  | cons c after =>
    rw [stop] at tame'
    obtain rfl | rfl | rfl := dropWhile_isPatternChar_cases stop
    · rw [patternRound_lineEnd stop] at read
      have pushed := returnless.push (withoutReturn_returnless tame.ends stops)
      exact tamelyAt_nextLine pushed _ tame' rfl round rest read
    · rw [patternRound_escape stop] at read
      obtain ⟨c, mid, escaped, read⟩ := exists_of_bind_ok read
      obtain ⟨rfl, rfl⟩ := Prod.mk.inj (Except.ok.inj read)
      obtain ⟨other, tame'⟩ := tamelyAt_escape (by decide) _ tame' rfl c _ escaped
      refine ⟨returnless.push ?_, tame'⟩
      simp [tame.takeWhile stops stop (by decide), Ne.symm other]
    · rw [patternRound_placeable stop] at read
      split at read
      · cases read
      · obtain ⟨shown, mid, placed, read⟩ := exists_of_bind_ok read
        obtain ⟨rfl, rfl⟩ := Prod.mk.inj (Except.ok.inj read)
        obtain ⟨none, tame'⟩ := tamely _ tame' rfl shown _ placed
        exact ⟨(returnless.push (tame.takeWhile stops stop (by decide))).place none, tame'⟩

theorem tamely_patternParts : Tamely (patternParts placeable) fun read =>
    ∀ value, read = some value → (Node.pattern value).Returnless := by
  intro next
  refine TamelyAt.bind (Tamely.iterate (tamely_patternRound tamely)
    (fun _ returnless => returnless.ends) Draft.returnless_empty next) ?_
  exact fun draft returnless next => tamelyAt_pure fun value finished => returnless.finish finished

/-- A pattern holds no carriage return. -/
theorem tamely_pattern : Tamely (pattern placeable) fun read =>
    ∀ value, read = some value → (Node.pattern value).Returnless := by
  intro next text tame _ read rest found
  have tame' : Tame ((text.dropWhile (· != '\n')).drop 1) := by
    cases stop : text.dropWhile (· != '\n') with
    | nil => exact .nil
    | cons c after =>
      have lineFeed : c = '\n' := by
        simpa [stop] using List.head?_dropWhile_not (· != '\n') text
      subst c
      refine Tame.behind (text.takeWhile (· != '\n')) ?_
      rwa [List.drop_one, List.tail_cons, ← stop, List.takeWhile_append_dropWhile]
  have next := tame_dropBlankLines tame'
  rw [pattern_apply] at found
  dsimp only at found
  split at found
  · exact (tamely_patternParts tamely).apply tame found
  · split at found
    · obtain ⟨rfl, rfl⟩ := Prod.mk.inj (Except.ok.inj found)
      refine ⟨fun value one => ?_, next⟩
      split at one
      · cases one
      · obtain rfl := Option.some_inj.mp one
        refine Node.returnless_text ?_
        rw [String.toList_ofList]
        exact dropEndWhile_returnless (p := (· != '\n')) tame.ends rfl [] nofun
    · refine (tamely_patternParts tamely).apply ?_ found
      split
      · exact next.dropWhile rfl
      · exact tame

end

end Fluent.Grammar
