import Fluent.Grammar.Pattern
import Fluent.Proofs.Token

/-!
# What the pattern readers do to a text

Equations for the readers of patterns in the form of a case distinction on the text, and what
dropping blank lines leaves.
-/

namespace Fluent.Grammar

open Fluent.Grammar.Parser Fluent.Text.Reader

theorem dropBlankLinesFrom_suffix {lineStart text : List Char} (h : text <:+ lineStart) :
    dropBlankLinesFrom lineStart text <:+ lineStart := by
  fun_induction dropBlankLinesFrom lineStart text with
  | case1 lineStart rest ih => exact ih ((List.suffix_cons _ _).trans h)
  | case2 lineStart rest ih => exact ih ((List.suffix_cons _ _).trans h)
  | case3 lineStart rest ih =>
    exact (ih (List.suffix_refl _)).trans ((List.suffix_cons _ _).trans h)
  | case4 lineStart rest ih =>
    have hs : rest <:+ '\r' :: '\n' :: rest := (List.suffix_cons _ _).trans (List.suffix_cons _ _)
    exact (ih (List.suffix_refl _)).trans (hs.trans h)
  | case5 => exact List.suffix_refl _

theorem dropBlankLines_suffix (text : List Char) : dropBlankLines text <:+ text :=
  dropBlankLinesFrom_suffix (List.suffix_refl _)

theorem getLast?_of_dropBlankLinesFrom {lineStart text : List Char}
    (h : dropBlankLinesFrom lineStart text = []) :
    lineStart = [] ∨ text.getLast? = some '\n' := by
  fun_induction dropBlankLinesFrom lineStart text with
  | case1 lineStart rest ih =>
    exact (ih h).imp_right fun hl => by rw [List.getLast?_cons, hl, Option.getD_some]
  | case2 lineStart rest ih =>
    exact (ih h).imp_right fun hl => by rw [List.getLast?_cons, hl, Option.getD_some]
  | case3 lineStart rest ih =>
    obtain rfl | hl := ih h
    · exact .inr rfl
    · exact .inr (by rw [List.getLast?_cons, hl, Option.getD_some])
  | case4 lineStart rest ih =>
    obtain rfl | hl := ih h
    · exact .inr rfl
    · exact .inr (by rw [List.getLast?_cons, List.getLast?_cons, hl, Option.getD_some,
        Option.getD_some])
  | case5 => exact .inl h

/-- Where only blank lines follow a line end, the text ends with a line end. -/
theorem getLast?_of_dropBlankLines {text : List Char} (h : dropBlankLines text = []) :
    ('\n' :: text).getLast? = some '\n' := by
  obtain rfl | hl := getLast?_of_dropBlankLinesFrom h
  · rfl
  · rw [List.getLast?_cons, hl, Option.getD_some]

theorem dropWhile_dropBlankLinesFrom {lineStart text : List Char}
    (h : lineStart.dropWhile Text.isInlineBlank = text.dropWhile Text.isInlineBlank) :
    ((dropBlankLinesFrom lineStart text).dropWhile Text.isInlineBlank).head? ≠ some '\n' := by
  fun_induction dropBlankLinesFrom lineStart text with
  | case1 lineStart rest ih => exact ih (by simpa [Text.isInlineBlank] using h)
  | case2 lineStart rest ih => exact ih (by simpa [Text.isInlineBlank] using h)
  | case3 lineStart rest ih => exact ih rfl
  | case4 lineStart rest ih => exact ih rfl
  | case5 text lineStart h₁ h₂ h₃ h₄ =>
    rw [h]
    cases text with
    | nil => simp
    | cons c text =>
      have hs : c ≠ ' ' := fun hc => h₁ text (by rw [hc])
      have ht : c ≠ '\t' := fun hc => h₂ text (by rw [hc])
      have hl : c ≠ '\n' := fun hc => h₃ text (by rw [hc])
      simpa [Text.isInlineBlank, hs, ht] using hl

/-- The line that follows blank lines is not blank. -/
theorem dropWhile_dropBlankLines (text : List Char) :
    ((dropBlankLines text).dropWhile Text.isInlineBlank).head? ≠ some '\n' :=
  dropWhile_dropBlankLinesFrom rfl

theorem Draft.push_nil (draft : Draft) : draft.push [] = draft := by
  rw [push, List.append_nil]

theorem Draft.push_push (draft : Draft) (front last : List Char) :
    (draft.push front).push last = draft.push (front ++ last) := by
  simp only [push, List.append_assoc]

/-- A draft with the start of another line, `blank` being the blank lines in front of it. -/
def Draft.nextLine (draft : Draft) (blank : List Char) : Draft :=
  let draft := draft.push (blank.filter (· != '\r'))
  if draft.isEmpty then draft else draft.push ['\n']

@[simp] theorem Draft.isEmpty_push (draft : Draft) (text : List Char) :
    (draft.push text).isEmpty = (draft.isEmpty && text.isEmpty) := by
  cases draft.parts <;> cases h : draft.buffer <;> simp [isEmpty, push, *]

@[simp] theorem Draft.isEmpty_place (draft : Draft) (expression : Expression) :
    (draft.place expression).isEmpty = false := by
  simp [isEmpty, place]

theorem Draft.isEmpty_of_nextLine {draft : Draft} {blank : List Char}
    (h : (draft.nextLine blank).isEmpty = true) : draft.isEmpty = true := by
  rw [nextLine] at h
  split at h
  · simp_all
  · simp at h

theorem Draft.finish_eq_none {draft : Draft} : draft.finish = none ↔ draft.isEmpty = true := by
  unfold finish
  simp only
  split
  · simp [*]
  · split
    · simp [*]
    · split <;> simp [*]

theorem nextLine_cons (draft : Draft) (c : Char) (text : List Char) :
    nextLine draft (c :: text) =
      let next := dropBlankLines text
      let continuation := next.dropWhile Text.isInlineBlank
      if next.head? = some ' ' then
        if continuation.head?.any endsPattern then .ok (.done draft, next)
        else .ok (.again (draft.nextLine (text.take (text.length - next.length))), continuation)
      else .ok (.done draft, next) := by
  have hb (t : List Char) : blankLines t =
      .ok (t.take (t.length - (dropBlankLines t).length), dropBlankLines t) := rfl
  rw [nextLine, advance_bind_apply, bind_ok (hb _)]
  simp only [peek_bind_apply, choice_apply, get_bind_apply, skipInlineBlank_bind_apply,
    set_bind_apply, pure_apply, List.drop_one, List.tail_cons]
  rfl

section

variable {placeable : Parser Expression} {draft : Draft} {text rest : List Char}

theorem patternRound_end (h : text.dropWhile isPatternChar = []) :
    patternRound placeable draft text =
      .ok (.done (draft.push (text.takeWhile isPatternChar)), []) := by
  rw [patternRound, takeWhile_bind_apply, h]
  rfl

theorem patternRound_lineEnd (h : text.dropWhile isPatternChar = '\n' :: rest) :
    patternRound placeable draft text =
      nextLine (draft.push (withoutReturn (text.takeWhile isPatternChar))) ('\n' :: rest) := by
  rw [patternRound, takeWhile_bind_apply, h]
  rfl

theorem patternRound_escape (h : text.dropWhile isPatternChar = '\\' :: rest) :
    patternRound placeable draft text = (do
      let c ← escape ['{', '\\']
      return .again (draft.push (text.takeWhile isPatternChar ++ [c])) : Parser _)
        ('\\' :: rest) := by
  rw [patternRound, takeWhile_bind_apply, h]
  rfl

theorem patternRound_placeable (h : text.dropWhile isPatternChar = '{' :: rest) :
    patternRound placeable draft text =
      if mostPlaceables ≤ draft.placeables then .error ⟨.tooManyPlaceables, '{' :: rest⟩
      else (do
        return .again ((draft.push (text.takeWhile isPatternChar)).place (← placeable)) : Parser _)
          ('{' :: rest) := by
  rw [patternRound, takeWhile_bind_apply, h, peek_bind_apply]
  exact choice_apply _ _ _ _

/-- What ends a run of pattern characters. -/
theorem dropWhile_isPatternChar_cases {c : Char}
    (h : text.dropWhile isPatternChar = c :: rest) : c = '\n' ∨ c = '\\' ∨ c = '{' := by
  have hc := List.head?_dropWhile_not isPatternChar text
  simp only [h, List.head?_cons, isPatternChar, Bool.and_eq_false_iff, bne_eq_false_iff_eq] at hc
  exact or_assoc.mp hc

end

/-- Whether the line that starts here does not go on with the pattern of the line before it. -/
def EndsValue (next : List Char) : Prop :=
  next.head? ≠ some ' ' ∨ (next.dropWhile Text.isInlineBlank).head? = some '.'

instance (next : List Char) : Decidable (EndsValue next) :=
  inferInstanceAs (Decidable (_ ∨ _))

/-- A pattern ends with its line if the next line does not go on with it. -/
theorem nextLine_ends {text : List Char} (ends : EndsValue (dropBlankLines text)) (draft : Draft) :
    nextLine draft ('\n' :: text) = .ok (.done draft, dropBlankLines text) := by
  rw [nextLine_cons]
  simp only
  split
  · rw [ends.resolve_left (not_not.mpr ‹_›)]
    rfl
  · rfl

theorem pattern_apply (placeable : Parser Expression) (start : List Char) :
    pattern placeable start =
      let line := start.takeWhile (· != '\n')
      let text := Text.dropEndWhile Text.isBlank line
      let next := dropBlankLines ((start.dropWhile (· != '\n')).drop 1)
      if text.any fun c => c == '{' || c == '\\' then patternParts placeable start
      else if EndsValue next then
        .ok (if line.isEmpty then none else some (.text (String.ofList text)), next)
      else patternParts placeable
        (if text.isEmpty then next.dropWhile Text.isInlineBlank else start) := by
  simp only [pattern, get_bind_apply, choice_apply, set_bind_apply, pure_apply]
  rfl

end Fluent.Grammar
