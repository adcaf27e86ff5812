import Fluent.Proofs.Pattern

/-!
# Patterns on one line

A pattern is taken from its first line if that holds neither braces nor backslashes and no line
below goes on with it. Reading such a pattern part by part comes to the same, unless its line is a
carriage return alone: that is an empty text in one reading, and belongs to the end of an empty line
in the other.

* `OneLine`: a pattern is no more than its first line;
* `pattern_oneLine`, `pattern_further`: it is taken from its line, any other one is read in parts;
* `patternParts_oneLine`: what reading it in parts comes to;
* `pattern_eq_patternParts_iff`: whether that is the same.
-/

namespace Fluent.Grammar

open Fluent.Grammar.Parser Fluent.Text.Reader

/-- What is left of a text from the next line on that is not blank, its first one apart. -/
def lineBelow (text : List Char) : List Char :=
  dropBlankLines ((text.dropWhile (· != '\n')).drop 1)

/-- A pattern that is no more than its first line: that holds neither braces nor backslashes, and
the next line that is not blank does not go on with it. -/
structure OneLine (text : List Char) : Prop where
  plain : ∀ c ∈ text.takeWhile (· != '\n'), c ≠ '{' ∧ c ≠ '\\'
  ends : EndsValue (lineBelow text)

/-- What a line is as a pattern: none if there is nothing on it. -/
def lineValue (line : List Char) : Option Pattern :=
  if line.isEmpty then none
  else some (.text (String.ofList (Text.dropEndWhile Text.isBlank line)))

/-- The first line of a text, without the carriage return that belongs to its end. -/
def lineText (text : List Char) : List Char :=
  if (text.dropWhile (· != '\n')).isEmpty then text.takeWhile (· != '\n')
  else withoutReturn (text.takeWhile (· != '\n'))

/-- Where a pattern is read in parts from: from the next line that is not blank, if its first line
is. -/
def partsStart (text : List Char) : List Char :=
  if (Text.dropEndWhile Text.isBlank (text.takeWhile (· != '\n'))).isEmpty then
    (lineBelow text).dropWhile Text.isInlineBlank
  else text

section

variable {placeable : Parser Expression} {draft : Draft} {text : List Char}

/-! ## Which patterns are taken from their line -/

/-- The blank text at the end of a line holds neither braces nor backslashes. -/
theorem oneLine_iff : OneLine text ↔
    ¬((Text.dropEndWhile Text.isBlank (text.takeWhile (· != '\n'))).any fun c =>
      c == '{' || c == '\\') = true ∧ EndsValue (lineBelow text) := by
  have visible (c : Char) (mark : (c == '{' || c == '\\') = true) : Text.isBlank c = false := by
    rw [Bool.or_eq_true, beq_iff_eq, beq_iff_eq] at mark
    obtain rfl | rfl := mark <;> rfl
  rw [any_dropEndWhile visible, Bool.not_eq_true, List.any_eq_false]
  simp only [Bool.or_eq_true, beq_iff_eq, not_or]
  exact ⟨fun h => ⟨h.plain, h.ends⟩, fun h => ⟨h.1, h.2⟩⟩

instance (text : List Char) : Decidable (OneLine text) := decidable_of_iff' _ oneLine_iff

theorem partsStart_marked {p : Char → Bool}
    (marked : (Text.dropEndWhile Text.isBlank (text.takeWhile (· != '\n'))).any p = true) :
    partsStart text = text := by
  refine if_neg fun empty => ?_
  rw [List.isEmpty_iff.mp empty] at marked
  cases marked

theorem pattern_oneLine (h : OneLine text) :
    pattern placeable text = .ok (lineValue (text.takeWhile (· != '\n')), lineBelow text) := by
  obtain ⟨plain, ends⟩ := oneLine_iff.mp h
  rw [pattern_apply]
  exact (if_neg plain).trans (if_pos ends)

theorem pattern_further (h : ¬OneLine text) :
    pattern placeable text = patternParts placeable (partsStart text) := by
  rw [pattern_apply]
  by_cases marked : ((Text.dropEndWhile Text.isBlank (text.takeWhile (· != '\n'))).any fun c =>
      c == '{' || c == '\\') = true
  · rw [partsStart_marked marked]
    exact if_pos marked
  · have continues : ¬EndsValue (lineBelow text) := fun ends => h (oneLine_iff.mpr ⟨marked, ends⟩)
    exact (if_neg marked).trans (if_neg continues)

/-! ## Reading them in parts -/

theorem OneLine.all_isPatternChar (h : OneLine text) :
    ∀ c ∈ text.takeWhile (· != '\n'), isPatternChar c = true := by
  intro c member
  have inline := List.mem_takeWhile_imp (p := (· != '\n')) member
  obtain ⟨brace, backslash⟩ := h.plain c member
  simp [isPatternChar, inline, brace, backslash]

/-- The first line is what the first round takes. -/
theorem OneLine.span (h : OneLine text) :
    text.takeWhile isPatternChar = text.takeWhile (· != '\n') ∧
      text.dropWhile isPatternChar = text.dropWhile (· != '\n') := by
  have all := h.all_isPatternChar
  have parts := List.takeWhile_append_dropWhile (p := (· != '\n')) (l := text)
  have head := List.head?_dropWhile_not (· != '\n') text
  generalize text.takeWhile (· != '\n') = line at all parts ⊢
  generalize text.dropWhile (· != '\n') = after at head parts ⊢
  subst parts
  rw [List.takeWhile_append_of_pos all, List.dropWhile_append_of_pos all]
  cases after with
  | nil => simp
  | cons c after =>
    obtain rfl : c = '\n' := by simpa using head
    simp [isPatternChar]

theorem patternRound_oneLine (h : OneLine text) :
    patternRound placeable draft text =
      .ok (.done (draft.push (lineText text)), lineBelow text) := by
  obtain ⟨run, rest⟩ := h.span
  have ends := h.ends
  have head := List.head?_dropWhile_not (· != '\n') text
  rw [lineText, lineBelow] at *
  cases after : text.dropWhile (· != '\n') with
  | nil =>
    rw [patternRound_end (rest.trans after), run]
    rfl
  | cons c below =>
    rw [after] at head ends
    obtain rfl : c = '\n' := by simpa using head
    rw [patternRound_lineEnd (rest.trans after), run]
    exact nextLine_ends ends _

theorem Draft.finish_line (line : List Char) : (Draft.empty.push line).finish = lineValue line := by
  cases line <;> rfl

theorem lineValue_filled {line : List Char} (filled : line ≠ []) :
    lineValue line = some (.text (String.ofList (Text.dropEndWhile Text.isBlank line))) :=
  if_neg (mt List.isEmpty_iff.mp filled)

theorem patternParts_oneLine (h : OneLine text) :
    patternParts placeable text = .ok (lineValue (lineText text), lineBelow text) := by
  have read : iterate (patternRound placeable) .empty text =
      .ok (Draft.empty.push (lineText text), lineBelow text) := by
    rw [iterate, patternRound_oneLine h]
  rw [patternParts, bind_ok read, Draft.finish_line]
  rfl

/-! ## Carriage returns -/

theorem lineValue_withoutReturn_iff {line : List Char} :
    lineValue (withoutReturn line) = lineValue line ↔ line ≠ ['\r'] := by
  rw [withoutReturn]
  split
  · rename_i last
    obtain ⟨front, rfl⟩ := List.getLast?_eq_some_iff.mp last
    have trimmed : Text.dropEndWhile Text.isBlank (front ++ ['\r']) =
        Text.dropEndWhile Text.isBlank front := List.rdropWhile_concat_pos _ _ _ rfl
    rw [List.dropLast_concat]
    cases front with
    | nil => simp [lineValue]
    | cons c front => simp [lineValue, ← trimmed]
  · rename_i other
    exact ⟨fun _ same => other (same ▸ rfl), fun _ => rfl⟩

theorem lineValue_lineText_iff :
    lineValue (lineText text) = lineValue (text.takeWhile (· != '\n')) ↔
      ¬['\r', '\n'] <+: text := by
  have parts := List.takeWhile_append_dropWhile (p := (· != '\n')) (l := text)
  have head := List.head?_dropWhile_not (· != '\n') text
  rw [lineText]
  cases after : text.dropWhile (· != '\n') with
  | nil =>
    refine ⟨fun _ opens => ?_, fun _ => rfl⟩
    have inline := List.dropWhile_eq_nil_iff.mp after '\n' (opens.mem (by simp))
    cases inline
  | cons c below =>
    rw [after] at head parts
    obtain rfl : c = '\n' := by simpa using head
    refine lineValue_withoutReturn_iff.trans (not_congr ⟨fun alone => ?_, ?_⟩)
    · rw [← parts, alone]
      exact ⟨below, rfl⟩
    · rintro ⟨rest, rfl⟩
      rfl

/-- A pattern on one line is the same whether it is taken from its line or read in parts, unless its
line is a carriage return alone. -/
theorem pattern_eq_patternParts_iff (h : OneLine text) :
    pattern placeable text = patternParts placeable text ↔ ¬['\r', '\n'] <+: text := by
  rw [pattern_oneLine h, patternParts_oneLine h, ← lineValue_lineText_iff, Except.ok.injEq,
    Prod.mk.injEq, and_iff_left rfl, eq_comm]

end

end Fluent.Grammar
