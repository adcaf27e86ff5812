import Fluent.Cursor.Resource
import Fluent.Proofs.Cursor.Pattern

/-!
# Patterns on one line by their bytes

A cursor takes a pattern from its first line alone where that is all of it. In a text without
carriage returns, reading the pattern part by part finds the same and stops at the same offset.

* `TakesLine`: a pattern is taken from its line, and what reads its parts is not asked;
* `takesLine_iff`: where that is so, and what is found;
* `firstLine_suffices`: reading the pattern in parts comes to the same.
-/

namespace Fluent.Cursor

open Grammar (Draft OneLine lineBelow lineText lineValue lineValue_lineText_iff)

variable {source : String} {offset : Nat}

/-! ## In parts -/

/-- A pattern on one line holds no placeable, so that whatever would read one agrees. -/
theorem patternParts_agrees_oneLine {text : List Char} (line : OneLine text)
    (placeable : Cursor Expression) :
    Agrees source text text (patternParts placeable)
      (.ok (lineValue (lineText text), lineBelow text)) := by
  have noBrace (after : List Char) : text.dropWhile Grammar.isPatternChar ≠ '{' :: after := by
    intro braced
    have head := List.head?_dropWhile_not (· != '\n') text
    rw [← line.span.2, braced] at head
    cases head
  have round : Agrees source text text (patternRound placeable .empty)
      (Grammar.patternRound (Grammar.Parser.fail .tooDeeplyNested) .empty text) :=
    patternRound_agrees (fun after braced => absurd braced (noBrace after)) .empty
  rw [Grammar.patternRound_oneLine line] at round
  rw [← Draft.finish_line]
  exact .step_of round.iterate_done (.pure _)

/-! ## From the first line -/

/-- The pattern at an offset is taken from its first line: whatever would read its parts is not
asked. -/
def TakesLine (source : String) (offset : Nat) (value : Option Pattern) (stop : Nat) : Prop :=
  ∀ parts, patternOr parts source offset = .ok (value, stop)

/-- The first line feed from an offset on, or else the end of the text. -/
def lineEnd (source : String) (offset : Nat) : Nat :=
  ((((bytes source).drop offset).findIdx? (· == '\n')).map (offset + ·)).getD source.utf8ByteSize

theorem isBoundary_lineEnd (source : String) (offset : Nat) :
    IsBoundary source (lineEnd source offset) := by
  rw [lineEnd]
  cases found : ((bytes source).drop offset).findIdx? (· == '\n') with
  | none => exact isBoundary_place List.nil_suffix
  | some distance =>
    obtain ⟨more, lineFeed, -⟩ := List.findIdx?_eq_some_iff_getElem.mp found
    rw [List.getElem_drop, beq_iff_eq] at lineFeed
    exact isBoundary_of_byte (x := '\n') (by decide) (List.getElem?_eq_some_iff.mpr ⟨_, lineFeed⟩)

/-- A pattern is read from a boundary on: a line that is not empty has to be taken from there. -/
theorem isBoundary_of_patternOr {parts : Cursor (Option Pattern)} {read : Option Pattern × Nat}
    (run : patternOr parts source offset = .ok read) : IsBoundary source offset := by
  by_contra inside
  have apart : offset ≠ lineEnd source offset := fun same => inside <| by
    rw [same]
    exact isBoundary_lineEnd source offset
  rw [patternOr, get_bind_apply, findNewline_bind_apply, size_bind_apply, ← lineEnd, bind_apply,
    firstLine?, if_pos apart, bind_apply, slice_apply,
    if_neg fun bounds => inside bounds.2.1] at run
  cases run

section

variable {text : List Char}

theorem patternOr_oneLine (inside : text <:+ source.toList) (line : OneLine text)
    (parts : Cursor (Option Pattern)) :
    patternOr parts source (place source text) =
      .ok (lineValue (text.takeWhile (· != '\n')), place source (lineBelow text)) :=
  (patternOr_agrees (fun _ => rfl) (fun further => absurd line further) inside
    (List.suffix_refl text)).1

/-- Where a pattern is more than its first line, its parts are asked for. -/
theorem patternOr_further (inside : text <:+ source.toList) (further : ¬OneLine text)
    (fault : Grammar.Fault) : ∃ halt,
      patternOr (fail fault) source (place source text) = .error halt :=
  ⟨_, (patternOr_agrees (fun line => absurd line further) (fun _ => .fail fault) inside
    (List.suffix_refl text)).1⟩

end

/-- A pattern is taken from its first line exactly if it is no more than that. -/
theorem takesLine_iff {value : Option Pattern} {stop : Nat} :
    TakesLine source offset value stop ↔
      ∃ text, text <:+ source.toList ∧ offset = place source text ∧ OneLine text ∧
        value = lineValue (text.takeWhile (· != '\n')) ∧ stop = place source (lineBelow text) := by
  constructor
  · intro takes
    obtain ⟨text, inside, rfl⟩ := exists_place (isBoundary_of_patternOr (takes (pure none)))
    by_cases line : OneLine text
    · have run := patternOr_oneLine inside line (pure none)
      rw [takes] at run
      cases run
      exact ⟨text, inside, rfl, line, rfl, rfl⟩
    · obtain ⟨halt, run⟩ := patternOr_further inside line .tooDeeplyNested
      rw [takes] at run
      cases run
  · rintro ⟨text, inside, rfl, line, rfl, rfl⟩ parts
    exact patternOr_oneLine inside line parts

/-- Without carriage returns, a pattern that is taken from its first line is the same when it is
read in parts, nothing or the same text, and the cursor stops at the same offset. It is taken from
its line if that holds neither braces nor backslashes, and if the next line that is not blank is not
indented, or absent, or starts with a point. -/
theorem firstLine_suffices {source : String} (noReturn : '\r' ∉ source.toList)
    (placeable : Cursor Expression) (offset : Nat) :
    (∀ value stop, TakesLine source offset value stop →
      pattern placeable source offset = .ok (value, stop) ∧
        patternParts placeable source offset = .ok (value, stop) ∧
        ∀ read, value = some read → ∃ text, read = .text text) ∧
      ((∃ value stop, TakesLine source offset value stop) ↔
        ∃ text, text <:+ source.toList ∧ offset = place source text ∧ OneLine text) := by
  refine ⟨fun value stop takes => ⟨takes _, ?_⟩, ?_⟩
  · obtain ⟨text, inside, rfl, line, rfl, rfl⟩ := takesLine_iff.mp takes
    have noLineEnd : ¬['\r', '\n'] <+: text := fun opens =>
      noReturn (inside.mem (opens.mem List.mem_cons_self))
    have parts := (patternParts_agrees_oneLine line placeable inside (List.suffix_refl text)).1
    rw [lineValue_lineText_iff.mpr noLineEnd] at parts
    refine ⟨parts, fun read found => ?_⟩
    rw [lineValue] at found
    split at found
    · cases found
    · exact ⟨_, (Option.some_inj.mp found).symm⟩
  · constructor
    · rintro ⟨value, stop, takes⟩
      obtain ⟨text, inside, here, line, -, -⟩ := takesLine_iff.mp takes
      exact ⟨text, inside, here, line⟩
    · rintro ⟨text, inside, here, line⟩
      exact ⟨_, _, takesLine_iff.mpr ⟨text, inside, here, line, rfl, rfl⟩⟩

/-- A text in front of a blank line and an attribute. -/
theorem firstLine_suffices_attribute :
    '\r' ∉ "a = b\n\n .x = y\n".toList ∧
      TakesLine "a = b\n\n .x = y\n" 4 (some (.text "b")) 7 ∧
      patternParts entryPlaceable "a = b\n\n .x = y\n" 4 = .ok (some (.text "b"), 7) := by
  have noReturn : '\r' ∉ "a = b\n\n .x = y\n".toList := by decide
  have takes : TakesLine "a = b\n\n .x = y\n" 4 (some (.text "b")) 7 :=
    takesLine_iff.mpr ⟨"b\n\n .x = y\n".toList, by decide, rfl, by decide, rfl, rfl⟩
  exact ⟨noReturn, takes, ((firstLine_suffices noReturn entryPlaceable 4).1 _ _ takes).2.1⟩

end Fluent.Cursor
