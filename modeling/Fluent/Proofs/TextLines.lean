import Fluent.Proofs.Delimited
import Fluent.Proofs.OneLine
import Fluent.Proofs.Pieces
import Fluent.Proofs.Rendering.Resource

/-!
# Text line by line

A value is written as lines of text below its name, with blank lines between them. The lines are
joined without their indentation. A run of blank lines is put directly behind the text above it,
with a line end after each of them and one more after the run, so what a blank line holds is found
one line further up; there is no difference as long as blank lines are empty.

* `TextLine`: a line, as it is written;
* `iterate_lines`, `pattern_lines`: lines are read as `readLines` has them;
* `readText_eq_iff`: whether that is the text with its blank lines in place;
* `parse_textLines`: an entry of lines.
-/

namespace Fluent.Grammar

open Fluent.Grammar.Parser Fluent.Text.Reader

/-! ## Lines -/

/-- A line of text: the blank lines above it, its indentation and its text. -/
structure TextLine where
  above : List String
  indent : String
  text : String

namespace TextLine

/-- The line stands for itself, indented by a space at least, and does not end a pattern. -/
structure WellFormed (line : TextLine) : Prop where
  blank : ∀ blank ∈ line.above, blank.toList.all Text.isInlineBlank = true
  indented : line.indent.toList.head? = some ' '
  indent : line.indent.toList.all Text.isInlineBlank = true
  pattern : line.text.toList.all isPatternChar = true
  noReturn : '\r' ∉ line.text.toList
  first : ∃ c rest, line.text.toList = c :: rest ∧ Text.isInlineBlank c = false ∧
    endsPattern c = false

/-- Blank lines, each with its end. -/
def blankText (above : List String) : List Char :=
  above.flatMap fun blank => blank.toList ++ ['\n']

/-- What is written of a line, from the end of the line above on. -/
def render (line : TextLine) : List Char :=
  '\n' :: (blankText line.above ++ (line.indent.toList ++ line.text.toList))

/-- What is read of a line behind other text. -/
def read (line : TextLine) : List Char := blankText line.above ++ '\n' :: line.text.toList

/-- Lines as they are read. -/
def readLines : List TextLine → List Char
  | [] => []
  | line :: lines => line.text.toList ++ lines.flatMap read

/-- Lines and the blank lines between them. -/
def unindented : List TextLine → List String
  | [] => []
  | line :: lines => line.text :: lines.flatMap fun line => line.above ++ [line.text]

/-- Lines with the blank lines between them in place. -/
def joined (lines : List TextLine) : List Char :=
  ['\n'].intercalate ((unindented lines).map String.toList)

end TextLine

open TextLine (blankText readLines unindented joined)

/-! ## Reading lines -/

theorem dropBlankLinesFrom_run (lineStart : List Char) {run : List Char}
    (blank : run.all Text.isInlineBlank = true) (rest : List Char) :
    dropBlankLinesFrom lineStart (run ++ rest) = dropBlankLinesFrom lineStart rest := by
  induction run with
  | nil => rfl
  | cons c run ih =>
    obtain ⟨first, blank⟩ := Bool.and_eq_true_iff.mp blank
    rw [Text.isInlineBlank, Bool.or_eq_true, beq_iff_eq, beq_iff_eq] at first
    obtain rfl | rfl := first <;> exact ih blank

theorem dropBlankLines_blankText {above : List String}
    (blank : ∀ blank ∈ above, blank.toList.all Text.isInlineBlank = true) (rest : List Char) :
    dropBlankLines (blankText above ++ rest) = dropBlankLines rest := by
  induction above with
  | nil => rfl
  | cons first above ih =>
    obtain ⟨first, blank⟩ := List.forall_mem_cons.mp blank
    rw [← ih blank, blankText, List.flatMap_cons, List.append_assoc, List.append_assoc,
      dropBlankLines, dropBlankLinesFrom_run _ first]
    rfl

theorem dropBlankLines_indent {c : Char} (visible : Text.isBlank c = false) {indent : List Char}
    (blank : indent.all Text.isInlineBlank = true) (rest : List Char) :
    dropBlankLines (indent ++ c :: rest) = indent ++ c :: rest := by
  rw [dropBlankLines, dropBlankLinesFrom_run _ blank, dropBlankLinesFrom.eq_def]
  split <;> rename_i same <;> first | rfl | (cases same; cases visible)

namespace TextLine

variable {line : TextLine}

theorem WellFormed.first_visible (written : line.WellFormed) :
    ∃ c rest, line.text.toList = c :: rest ∧ Text.isBlank c = false ∧ endsPattern c = false := by
  obtain ⟨c, rest, head, visible, onward⟩ := written.first
  refine ⟨c, rest, head, Bool.eq_false_iff.mpr fun blank => ?_, onward⟩
  have pattern := written.pattern
  have noReturn := written.noReturn
  rw [head] at pattern noReturn
  obtain rfl | rfl | rfl | rfl := isBlank_cases blank
  · cases visible
  · cases visible
  · cases pattern
  · exact noReturn List.mem_cons_self

/-- What is left of a line when its blank lines are dropped. -/
theorem WellFormed.dropBlankLines (written : line.WellFormed) (tail : List Char) :
    dropBlankLines (blankText line.above ++ (line.indent.toList ++ (line.text.toList ++ tail))) =
      line.indent.toList ++ (line.text.toList ++ tail) := by
  obtain ⟨c, rest, head, visible, -⟩ := written.first_visible
  rw [dropBlankLines_blankText written.blank, head]
  exact dropBlankLines_indent visible written.indent _

theorem WellFormed.dropWhile (written : line.WellFormed) (tail : List Char) :
    (line.indent.toList ++ (line.text.toList ++ tail)).dropWhile Text.isInlineBlank =
      line.text.toList ++ tail := by
  obtain ⟨c, rest, head, visible, -⟩ := written.first
  rw [head]
  exact dropWhile_run written.indent visible

theorem WellFormed.filter_blankText (written : line.WellFormed) :
    (blankText line.above).filter (· != '\r') = blankText line.above := by
  refine List.filter_eq_self.mpr fun c member => ?_
  rw [bne_iff_ne]
  rintro rfl
  obtain ⟨blank, mem, member⟩ := List.mem_flatMap.mp member
  obtain member | member := List.mem_append.mp member
  · exact absurd (List.all_eq_true.mp (written.blank blank mem) _ member) (by decide)
  · exact absurd (List.mem_singleton.mp member) (by decide)

/-- The next line goes on with a pattern of which something has been read. -/
theorem WellFormed.nextLine (written : line.WellFormed) {draft : Draft}
    (some : draft.isEmpty = false) (tail : List Char) :
    nextLine draft (line.render ++ tail) =
      .ok (.again (draft.push (blankText line.above ++ ['\n'])), line.text.toList ++ tail) := by
  obtain ⟨c, rest, head, -, onward⟩ := written.first
  have indented : (line.indent.toList ++ (line.text.toList ++ tail)).head? = .some ' ' := by
    rw [List.head?_append, written.indented]
    rfl
  have goes : ((line.text.toList ++ tail).head?.any endsPattern) = false := by
    rw [head]
    exact onward
  have taken : (blankText line.above ++ (line.indent.toList ++ (line.text.toList ++ tail))).take
      ((blankText line.above ++ (line.indent.toList ++ (line.text.toList ++ tail))).length -
        (line.indent.toList ++ (line.text.toList ++ tail)).length) = blankText line.above := by
    rw [List.length_append, Nat.add_sub_cancel]
    exact List.take_left
  have pushed : draft.nextLine (blankText line.above) =
      draft.push (blankText line.above ++ ['\n']) := by
    rw [Draft.nextLine, written.filter_blankText]
    simp only [Draft.isEmpty_push, some, Bool.false_and, Bool.false_eq_true, if_false,
      Draft.push_push]
  rw [render, List.cons_append, nextLine_cons]
  simp only [List.append_assoc, written.dropBlankLines, indented, written.dropWhile, goes, taken,
    pushed, if_true, Bool.false_eq_true, if_false]

end TextLine

section

variable {placeable : Parser Expression} {draft : Draft} {lines : List TextLine}
  {ending : List Char}

/-- Text up to the end of its line and the lines below it. -/
theorem iterate_lines {text : List Char} (plain : text.all isPatternChar = true)
    (noReturn : '\r' ∉ text) (some : text ≠ []) (written : ∀ line ∈ lines, line.WellFormed)
    (ends : ending = [] ∨ ending = ['\n']) (draft : Draft) :
    iterate (patternRound placeable) draft
        (text ++ (lines.flatMap TextLine.render ++ ending)) =
      .ok (draft.push (text ++ lines.flatMap TextLine.read), []) := by
  have last : text.getLast? ≠ .some '\r' := fun last => noReturn (List.mem_of_getLast? last)
  induction lines generalizing text draft with
  | nil =>
    have closed : EndsLine [] := ⟨rfl, nofun⟩
    rw [List.flatMap_nil, List.flatMap_nil, List.nil_append, List.append_nil, iterate]
    obtain rfl | rfl := ends
    · have all := List.all_eq_true.mp plain
      rw [List.append_nil, patternRound_end (List.dropWhile_eq_nil_iff.mpr all),
        List.takeWhile_eq_self_iff.mpr all]
    · rw [patternRound_ends plain last closed]
  | cons line lines ih =>
    obtain ⟨first, written⟩ := List.forall_mem_cons.mp written
    obtain ⟨c, rest, head, -, -⟩ := first.first
    have filled : (draft.push text).isEmpty = false := by
      simp [some]
    have round : patternRound placeable draft
        (text ++ (line.render ++ (lines.flatMap TextLine.render ++ ending))) =
        .ok (.again ((draft.push text).push (blankText line.above ++ ['\n'])),
          line.text.toList ++ (lines.flatMap TextLine.render ++ ending)) := by
      have next := first.nextLine filled (lines.flatMap TextLine.render ++ ending)
      rw [TextLine.render, List.cons_append] at next ⊢
      rw [patternRound_lineEnd (dropWhile_run plain rfl), takeWhile_run plain rfl, withoutReturn,
        if_neg last, next]
    have shorter : (line.text.toList ++ (lines.flatMap TextLine.render ++ ending)).length <
        (text ++ (line.render ++ (lines.flatMap TextLine.render ++ ending))).length := by
      simp only [TextLine.render, List.length_append, List.length_cons]
      omega
    have others := ih first.pattern first.noReturn (by simp [head]) written
      ((draft.push text).push (blankText line.above ++ ['\n']))
      fun last => first.noReturn (List.mem_of_getLast? last)
    rw [List.flatMap_cons, List.append_assoc, iterate, round]
    refine (if_pos shorter).trans (others.trans ?_)
    rw [Draft.push_push, Draft.push_push, List.flatMap_cons, TextLine.read]
    simp only [List.append_assoc, List.cons_append, List.nil_append]

/-- The text of lines, without the blank text at its end. -/
def readText (lines : List TextLine) : String :=
  String.ofList (Text.dropEndWhile Text.isBlank (readLines lines))

/-- Lines below a name are read as a text. -/
theorem pattern_lines (nonempty : lines ≠ []) (written : ∀ line ∈ lines, line.WellFormed)
    (ends : ending = [] ∨ ending = ['\n']) :
    pattern placeable (lines.flatMap TextLine.render ++ ending) =
      .ok (some (.text (readText lines)), []) := by
  cases lines with
  | nil => exact absurd rfl nonempty
  | cons line lines =>
    obtain ⟨first, written⟩ := List.forall_mem_cons.mp written
    obtain ⟨c, rest, head, visible, onward⟩ := first.first
    have filled : line.text.toList ≠ [] := by simp [head]
    have read : iterate (patternRound placeable) .empty
        (line.text.toList ++ (lines.flatMap TextLine.render ++ ending)) = _ :=
      iterate_lines first.pattern first.noReturn filled written ends .empty
    have continues : ¬EndsValue
        (line.indent.toList ++ (line.text.toList ++ (lines.flatMap TextLine.render ++ ending))) := by
      rw [EndsValue, first.dropWhile, List.head?_append, first.indented, head]
      rintro (unindented | point)
      · exact unindented rfl
      · obtain rfl := Option.some_inj.mp point
        cases onward
    rw [List.flatMap_cons, List.append_assoc, TextLine.render, List.cons_append, pattern_apply]
    simp only [List.append_assoc]
    change (if EndsValue (dropBlankLines (blankText line.above ++ _)) then _
      else patternParts placeable
        ((dropBlankLines (blankText line.above ++ _)).dropWhile Text.isInlineBlank)) = _
    rw [first.dropBlankLines, if_neg continues, first.dropWhile, patternParts, bind_ok read]
    exact congrArg (fun found => Except.ok (found, [])) ((Draft.finish_line _).trans
      (lineValue_filled (List.append_ne_nil_of_left_ne_nil filled _)))

end

/-! ## Blank lines in place -/

theorem dropEndWhile_append_cons {p : Char → Bool} {c : Char} (kept : p c = false)
    (front rest : List Char) :
    Text.dropEndWhile p (front ++ c :: rest) = front ++ Text.dropEndWhile p (c :: rest) := by
  have some : ((c :: rest).reverse.dropWhile p).isEmpty = false := by
    simpa using .inr kept
  rw [Text.dropEndWhile, List.reverse_append, List.dropWhile_append, some,
    if_neg Bool.false_ne_true, List.reverse_append, List.reverse_reverse, Text.dropEndWhile]

namespace TextLine

/-- A line behind other text, with the blank lines above it in place. -/
def place (line : TextLine) : List Char :=
  line.above.flatMap (fun blank => '\n' :: blank.toList) ++ '\n' :: line.text.toList

theorem joined_cons (line : TextLine) (lines : List TextLine) :
    joined (line :: lines) = line.text.toList ++ lines.flatMap place := by
  rw [joined, unindented, List.map_cons, Text.intercalate_cons, List.map_flatMap, List.flatMap_assoc]
  refine congrArg _ (List.flatMap_congr fun line _ => ?_)
  rw [place, List.map_append, List.flatMap_append, List.flatMap_map]
  simp

/-- Blank lines read the same with a line end behind or in front of each of them if they are
empty. -/
theorem blankText_eq_iff {above : List String}
    (blank : ∀ blank ∈ above, blank.toList.all Text.isInlineBlank = true) :
    blankText above = above.flatMap (fun blank => '\n' :: blank.toList) ↔
      ∀ blank ∈ above, blank = "" := by
  induction above with
  | nil => simp [blankText]
  | cons first above ih =>
    obtain ⟨inline, blank⟩ := List.forall_mem_cons.mp blank
    rw [blankText, List.flatMap_cons, List.flatMap_cons, List.forall_mem_cons, ← ih blank,
      ← String.toList_eq_nil_iff]
    cases held : first.toList with
    | nil => simp [blankText]
    | cons c rest =>
      rw [held] at inline
      constructor
      · intro same
        obtain rfl := (List.cons.inj same).1
        cases inline
      · rintro ⟨same, -⟩
        cases same

theorem length_blankText (above : List String) :
    (blankText above).length = (above.flatMap fun blank => '\n' :: blank.toList).length := by
  rw [blankText, List.length_flatMap, List.length_flatMap]
  simp

theorem read_eq_place_iff {line : TextLine} (written : line.WellFormed) :
    line.read = line.place ↔ ∀ blank ∈ line.above, blank = "" := by
  rw [read, place, List.append_cancel_right_eq, blankText_eq_iff written.blank]

theorem flatMap_read_eq_iff {lines : List TextLine} (written : ∀ line ∈ lines, line.WellFormed) :
    lines.flatMap read = lines.flatMap place ↔
      ∀ line ∈ lines, ∀ blank ∈ line.above, blank = "" := by
  induction lines with
  | nil => simp
  | cons line lines ih =>
    obtain ⟨first, written⟩ := List.forall_mem_cons.mp written
    have lengths : line.read.length = line.place.length := by
      rw [read, place, List.length_append, List.length_append, length_blankText]
    rw [List.flatMap_cons, List.flatMap_cons, List.forall_mem_cons, ← ih written,
      ← read_eq_place_iff first]
    exact ⟨fun same => List.append_inj same lengths, fun same => by rw [same.1, same.2]⟩

end TextLine

/-- The text of lines with the blank lines between them in place, without the blank text at its
end. -/
def joinedText (lines : List TextLine) : String :=
  String.ofList (Text.dropEndWhile Text.isBlank (joined lines))

/-- Lines are read with the blank lines between them in place exactly if those are empty. -/
theorem readText_eq_iff {line : TextLine} {lines : List TextLine}
    (written : ∀ line ∈ lines, line.WellFormed) :
    readText (line :: lines) = joinedText (line :: lines) ↔
      ∀ line ∈ lines, ∀ blank ∈ line.above, blank = "" := by
  rw [← TextLine.flatMap_read_eq_iff written, readText, joinedText, String.ofList_inj,
    TextLine.joined_cons, readLines]
  obtain rfl | ⟨others, last, rfl⟩ := lines.eq_nil_or_concat'
  · simp
  -- Only the last line has blank text at its end, and it is the same on both sides.
  · obtain ⟨c, rest, head, visible, -⟩ := (written last (by simp)).first_visible
    have shown (above before : List Char) :
        line.text.toList ++ (before ++ (above ++ '\n' :: last.text.toList)) =
          (line.text.toList ++ before ++ above ++ ['\n']) ++ c :: rest := by
      simp [head]
    simp only [List.flatMap_append, List.flatMap_singleton, TextLine.read, TextLine.place, shown,
      dropEndWhile_append_cons visible, List.append_cancel_right_eq]
    simp only [head, List.append_assoc, List.append_cancel_left_eq]
    rw [← List.append_assoc, ← List.append_assoc, List.append_cancel_right_eq]

/-! ## Entries -/

/-- An entry with a line below its name for each line of its text. -/
def textEntry (id : String) (lines : List TextLine) (ending : String) : String :=
  id ++ " =" ++ String.ofList (lines.flatMap TextLine.render) ++ ending

section

variable {id ending : String} {lines : List TextLine}

theorem textEntry_toList (id : String) (lines : List TextLine) (ending : String) :
    (textEntry id lines ending).toList =
      id.toList ++ ' ' :: '=' :: (lines.flatMap TextLine.render ++ ending.toList) := by
  simp [textEntry]

theorem items_textEntry (identified : isEntryId id.toList = true) (nonempty : lines ≠ [])
    (written : ∀ line ∈ lines, line.WellFormed) (ends : ending = "" ∨ ending = "\n") :
    items true (textEntry id lines ending).toList = [.entry id (.text (readText lines))] := by
  have ends : ending.toList = [] ∨ ending.toList = ['\n'] := by
    obtain rfl | rfl := ends
    · exact .inl rfl
    · exact .inr rfl
  have follows : FollowsEntry (textEntry id lines ending).toList := by
    rw [textEntry_toList]
    exact followsEntry_of_isEntryId identified
  have unindented : (lines.flatMap TextLine.render ++ ending.toList).dropWhile
      Text.isInlineBlank = lines.flatMap TextLine.render ++ ending.toList := by
    cases lines with
    | nil => exact absurd rfl nonempty
    | cons line lines => rfl
  have read : message (textEntry id lines ending).toList =
      .ok ((id, .text (readText lines)), []) := by
    rw [textEntry_toList, message_eq, bind_ok (messageHead_reads identified _), unindented,
      messageBody, bind_ok (pattern_lines nonempty written ends), messageTail_compact (.inl rfl)]
    rfl
  have found : attempt true (textEntry id lines ending).toList =
      ([.entry id (.text (readText lines))], []) := by
    rw [attempt, entryOrComment_apply, if_pos rfl, follows.not_startsComment,
      if_neg Bool.false_ne_true, bind_ok read]
    rfl
  have visible := follows.head
  cases head : (textEntry id lines ending).toList with
  | nil => simp [textEntry_toList] at head
  | cons c rest =>
    rw [head] at found visible
    rw [items_cons true visible, found, items_nil]
    rfl

/-- Lines of text are read without an error, each of them without its indentation. What a blank line
between them holds is found in the line above it; so the text is that of the lines, with the blank
lines between them in place, exactly if those are empty. -/
theorem parse_textLines (identified : isEntryId id.toList = true) (nonempty : lines ≠ [])
    (written : ∀ line ∈ lines, line.WellFormed) (ends : ending = "" ∨ ending = "\n") :
    let found := Resource.parse (textEntry id lines ending)
    found.errors = [] ∧ found.entries = (∅ : Table Entry).insert id (.text (readText lines)) ∧
      (readText lines = joinedText lines ↔ ∀ line ∈ lines.tail, ∀ blank ∈ line.above, blank = "") := by
  intro found
  have items := items_textEntry identified nonempty written ends
  refine ⟨?_, ?_, ?_⟩
  · rw [Resource.parse_errors, items]
    rfl
  · rw [Resource.parse_entries, items]
    rfl
  · cases lines with
    | nil => exact absurd rfl nonempty
    | cons line lines => exact readText_eq_iff (List.forall_mem_cons.mp written).2

/-- A blank line that holds two spaces. -/
theorem parse_textLines_spaces :
    let lines : List TextLine := [⟨[], "    ", "x"⟩, ⟨["  "], "    ", "y"⟩]
    textEntry "a" lines "\n" = "a =\n    x\n  \n    y\n" ∧
      (Resource.parse (textEntry "a" lines "\n")).errors = [] ∧
      (Resource.parse (textEntry "a" lines "\n")).entries =
        (∅ : Table Entry).insert "a" (.text "x  \n\ny") ∧
      joinedText lines = "x\n  \ny" := by
  intro lines
  have written : ∀ line ∈ lines, line.WellFormed := by
    intro line member
    obtain rfl | rfl : line = ⟨[], "    ", "x"⟩ ∨ line = ⟨["  "], "    ", "y"⟩ := by
      simpa [lines] using member
    · exact ⟨by decide, by decide, by decide, by decide, by decide, 'x', [], by decide⟩
    · exact ⟨by decide, by decide, by decide, by decide, by decide, 'y', [], by decide⟩
  have identified : isEntryId "a".toList = true := by decide
  have ends : "\n" = "" ∨ "\n" = "\n" := .inr rfl
  obtain ⟨errors, entries, -⟩ :=
    parse_textLines identified (List.cons_ne_nil _ _) written ends
  exact ⟨by decide, errors, entries, by decide⟩

end

end Fluent.Grammar
