import Fluent.Proofs.Braces.Line
import Fluent.Proofs.Rendering.Pattern

/-!
# Patterns inside a pair of braces

The value of a variant goes over a line feed, or else it would go past the pair of braces. Up to the
line that ends it, it is scanned as text with pairs of braces in it.

* `Nests`: placeables inside the pair of braces;
* `pattern_behind`: where a pattern ends;
* `local_pattern`: the pattern of a variant.
-/

namespace Fluent.Grammar.Braces

open Fluent.Grammar.Parser Fluent.Text.Reader

variable {r : Nat} {body rest text : List Char} {c : Char} {draft : Draft}

/-! ## What a pattern passes over -/

/-- Readers of placeables stop behind a brace, and those that stop inside a pair of braces have read
a pair of braces there. -/
structure Nests (r : Nat) : Prop where
  braced : Braced (placeable r)
  reads : ∀ m₀, Local r (fun m body => m.move '{' = some (.opens m₀) ∧ some '{' = some (ahead body))
    (fun frame => placeable frame.room) fun _ m' _ => m' = m₀

theorem Nests.suffix (nests : Nests r) {x : Expression}
    (read : placeable r (c :: text) = .ok (x, rest)) (other : c ≠ '}') : rest <:+ text := by
  obtain same | behind := List.suffix_cons_iff.mp (nests.braced _ x rest read)
  · exact absurd (List.cons.inj same).1.symm other
  · exact (List.suffix_cons _ _).trans behind

theorem nextLine_suffix {next : Round Draft}
    (read : nextLine draft (c :: text) = .ok (next, rest)) : rest <:+ text := by
  have behind := dropBlankLines_suffix text
  rw [nextLine_cons] at read
  dsimp only at read
  split at read
  · split at read
    · obtain ⟨-, rfl⟩ := Prod.mk.inj (Except.ok.inj read)
      exact behind
    · obtain ⟨-, rfl⟩ := Prod.mk.inj (Except.ok.inj read)
      exact (List.dropWhile_suffix _).trans behind
  · obtain ⟨-, rfl⟩ := Prod.mk.inj (Except.ok.inj read)
    exact behind

theorem shrinks_nextLine (draft : Draft) : Shrinks (nextLine draft) := by
  intro text next rest read
  cases text with
  | nil =>
    have atEnd : nextLine draft [] = .ok (.done draft, []) := rfl
    obtain ⟨-, rfl⟩ := Prod.mk.inj (Except.ok.inj (atEnd.symm.trans read))
    exact List.suffix_refl _
  | cons c text => exact (nextLine_suffix read).trans (List.suffix_cons c text)

/-- A round passes over the character that ends its run, and it is the last one at the end of a line
only. At the end of the text there is none. -/
theorem patternRound_passes (nests : Nests r) {next : Round Draft}
    (read : patternRound (placeable r) draft text = .ok (next, rest)) :
    (∃ last, next = .done last ∧ rest = []) ∨
      ∃ c behind, text.dropWhile isPatternChar = c :: behind ∧ rest <:+ behind ∧
        ∀ last, next = .done last → c = '\n' := by
  cases stop : text.dropWhile isPatternChar with
  | nil =>
    rw [patternRound_end stop] at read
    obtain ⟨rfl, rfl⟩ := Prod.mk.inj (Except.ok.inj read)
    exact .inl ⟨_, rfl, rfl⟩
  | cons c behind =>
    refine .inr ⟨c, behind, rfl, ?_⟩
    obtain rfl | rfl | rfl := dropWhile_isPatternChar_cases stop
    · rw [patternRound_lineEnd stop] at read
      exact ⟨nextLine_suffix read, fun _ _ => rfl⟩
    · rw [patternRound_escape stop] at read
      obtain ⟨c, mid, escaped, read⟩ := exists_of_bind_ok read
      obtain ⟨rfl, rfl⟩ := Prod.mk.inj (Except.ok.inj read)
      exact ⟨escape_suffix escaped, by rintro _ ⟨⟩⟩
    · rw [patternRound_placeable stop] at read
      split at read
      · cases read
      · obtain ⟨x, mid, placed, read⟩ := exists_of_bind_ok read
        obtain ⟨rfl, rfl⟩ := Prod.mk.inj (Except.ok.inj read)
        exact ⟨nests.suffix placed (by decide), by rintro _ ⟨⟩⟩

theorem patternRound_onward (nests : Nests r) {next : Draft}
    (read : patternRound (placeable r) draft text = .ok (.again next, rest)) :
    rest.length < (text.dropWhile isPatternChar).length := by
  obtain ⟨_, ⟨⟩, -⟩ | ⟨c, behind, stop, within, -⟩ := patternRound_passes nests read
  rw [stop]
  exact Nat.lt_succ_of_le within.length_le

/-- What is left of a text is nothing, or it stands behind a line feed. -/
def BehindLineFeed (text rest : List Char) : Prop :=
  rest = [] ∨ ∃ behind, '\n' :: behind <:+ text ∧ rest <:+ behind

theorem BehindLineFeed.trans (behind : BehindLineFeed text rest) {whole : List Char}
    (within : text <:+ whole) : BehindLineFeed whole rest := by
  obtain none | ⟨next, front, last⟩ := behind
  · exact .inl none
  · exact .inr ⟨next, front.trans within, last⟩

theorem dropWhile_length_le (p : Char → Bool) (text : List Char) :
    (text.dropWhile p).length ≤ text.length :=
  (List.dropWhile_suffix p).length_le

/-- A pattern ends at the start of a line. -/
theorem patternParts_behind (nests : Nests r) {value : Option Pattern}
    (read : patternParts (placeable r) text = .ok (value, rest)) : BehindLineFeed text rest := by
  obtain ⟨draft, mid, rounds, done⟩ := exists_of_bind_ok read
  obtain ⟨-, rfl⟩ := Prod.mk.inj (Except.ok.inj done)
  clear read done
  generalize Draft.empty = first at rounds
  induction hn : text.length using Nat.strongRecOn generalizing text first with
  | ind n ih =>
    subst hn
    have onward {next : Draft} {rest : List Char}
        (round : patternRound (placeable r) first text = .ok (.again next, rest)) :
        rest.length < text.length :=
      Nat.lt_of_lt_of_le (patternRound_onward nests round) (dropWhile_length_le _ text)
    rw [iterate_eq fun _ _ => onward] at rounds
    obtain ⟨next, mid', round, after⟩ := exists_of_bind_ok rounds
    cases next with
    | again next =>
      obtain ⟨_, ⟨⟩, -⟩ | ⟨c, behind, stop, within, -⟩ := patternRound_passes nests round
      refine (ih _ (onward round) next after rfl).trans ?_
      exact (within.trans (List.suffix_cons c behind)).trans (stop ▸ List.dropWhile_suffix _)
    | done last =>
      obtain ⟨-, rfl⟩ := Prod.mk.inj (Except.ok.inj after)
      obtain ⟨-, -, rfl⟩ | ⟨c, behind, stop, within, lineFeed⟩ := patternRound_passes nests round
      · exact .inl rfl
      · obtain rfl := lineFeed last rfl
        exact .inr ⟨behind, stop ▸ List.dropWhile_suffix _, within⟩

theorem pattern_behind (nests : Nests r) {value : Option Pattern}
    (read : pattern (placeable r) text = .ok (value, rest)) : BehindLineFeed text rest := by
  rw [pattern_apply] at read
  dsimp only at read
  have lineEnd : BehindLineFeed text
      (dropBlankLines ((text.dropWhile (· != '\n')).drop 1)) := by
    cases stop : text.dropWhile (· != '\n') with
    | nil => exact .inl rfl
    | cons c behind =>
      have head := List.head?_dropWhile_not (· != '\n') text
      obtain rfl : c = '\n' := by simpa [stop] using head
      exact .inr ⟨behind, stop ▸ List.dropWhile_suffix _, dropBlankLines_suffix behind⟩
  split at read
  · exact patternParts_behind nests read
  split at read
  · obtain ⟨-, rfl⟩ := Prod.mk.inj (Except.ok.inj read)
    exact lineEnd
  split at read
  · refine (patternParts_behind nests read).trans ?_
    refine (List.dropWhile_suffix _).trans ((dropBlankLines_suffix _).trans ?_)
    exact (List.drop_suffix _ _).trans (List.dropWhile_suffix _)
  · exact patternParts_behind nests read

theorem BehindLineFeed.suffix (behind : BehindLineFeed text rest) : rest <:+ text := by
  obtain rfl | ⟨next, front, last⟩ := behind
  · exact List.nil_suffix
  · exact (last.trans (List.suffix_cons _ _)).trans front

/-- A reading that goes over a line feed and stops inside a pair of braces has its line feed
there. -/
theorem BehindLineFeed.inside {frame : Frame}
    (behind : BehindLineFeed (frame.close body) (frame.close rest)) :
    ∃ line text, body = line ++ '\n' :: text ∧ '\n' ∉ line := by
  obtain none | ⟨next, front, last⟩ := behind
  · exact absurd none (by simp [Frame.close])
  · obtain ⟨mid, rfl, -⟩ := exists_close ((closing_suffix frame rest).trans last)
      ((List.suffix_cons _ _).trans front)
    obtain ⟨run, parts⟩ := front
    obtain rfl : run ++ '\n' :: mid = body := by
      have whole : frame.close (run ++ '\n' :: mid) = frame.close body := by
        rw [close_append, close_cons, parts]
      exact close_inj whole
    obtain ⟨line, text, parts, none⟩ :=
      List.eq_append_cons_of_mem (List.mem_append_right run (List.mem_cons_self (a := '\n')))
    exact ⟨line, text, parts, none⟩

/-! ## Patterns -/

/-- A line of a pattern inside a pair of braces, by the blank lines in front of the next one. -/
theorem nextLine_close (draft : Draft) {frame : Frame} {run next : List Char}
    (drops : dropBlankLines (frame.close (run ++ next)) = frame.close next) :
    nextLine draft (frame.close ('\n' :: (run ++ next))) =
      if ahead next = ' ' then
        if endsPattern (ahead (next.dropWhile Text.isInlineBlank)) then
          .ok (.done draft, frame.close next)
        else .ok (.again (draft.nextLine run), frame.close (next.dropWhile Text.isInlineBlank))
      else .ok (.done draft, frame.close next) := by
  have blank : (frame.close (run ++ next)).take
      ((frame.close (run ++ next)).length - (frame.close next).length) = run := by
    rw [close_append, List.length_append, Nat.add_sub_cancel, List.take_left]
  rw [close_cons, nextLine_cons]
  simp only [drops, blank, dropWhile_close frame (p := Text.isInlineBlank) rfl, head?_close,
    Option.some_inj, Option.any_some]

theorem local_nextLine (draft : Draft) :
    Local r (fun m body => m = .text ∧ some '\n' = some (ahead body)) (fun _ => nextLine draft)
      (KeptAt (fun _ => AsText) fun _ => Ended) where
  shrinks _ _ := shrinks_nextLine draft
  reads m body pre := by
    obtain ⟨rfl, here⟩ := pre
    obtain ⟨text, rfl⟩ := exists_cons_of_ahead (Option.some_inj.mp here).symm (by decide)
    obtain ⟨run, next, rfl, start, blank, all⟩ := dropBlankLines_close false text
    have walks := (walks_stay (m := .text) (c := '\n') rfl).append blank
    have same (frame : Frame) := nextLine_close draft (all frame)
    by_cases indented : ahead next = ' '
    · by_cases stops : endsPattern (ahead (next.dropWhile Text.isInlineBlank)) = true
      · refine localAt_of_all (a := .done draft) (fun frame => ?_) rfl walks ?_
        · rw [same, if_pos indented, if_pos stops]
        · exact ⟨false, rfl, start, fun _ => stops⟩
      · obtain ⟨depth, inline, known⟩ := walks_indentation false next
        rw [known.mpr indented] at inline
        have parts : '\n' :: (run ++ next) = ['\n'] ++ run ++ next.takeWhile Text.isInlineBlank ++
            next.dropWhile Text.isInlineBlank := by
          rw [List.append_assoc, List.takeWhile_append_dropWhile]
          rfl
        refine localAt_of_all (a := .again (draft.nextLine run)) (fun frame => ?_) parts
          (walks.append inline) ?_
        · rw [same, if_pos indented, if_neg stops]
        · exact asText_line start (Bool.eq_false_iff.mpr stops)
    · refine localAt_of_all (a := .done draft) (fun frame => ?_) rfl walks ?_
      · rw [same, if_neg indented]
      · exact ⟨false, rfl, start, fun same => absurd same indented⟩

theorem local_patternRound (nests : Nests r) (draft : Draft) :
    Local r AsText (fun frame => patternRound (placeable frame.room) draft)
      (KeptAt (fun _ => AsText) fun _ => Ended) := by
  have text : Local r (fun m _ => m = .text)
      (fun frame => patternRound (placeable frame.room) draft)
      (KeptAt (fun _ => AsText) fun _ => Ended) := by
    refine (local_takeWhile stays_text).bind fun run => local_peek.bind fun next => ?_
    split
    · exact .pure fun _ _ pre => nomatch pre.2
    · exact (local_nextLine _).before fun m body pre => ⟨pre.1.1, pre.2⟩
    · refine ((local_escape false (by decide) (by decide)).before fun m body pre => ?_).bind ?_
      · exact ⟨pre.1.1, pre.2⟩
      · exact fun c => .pure fun _ _ text => text ▸ asText_text _
    · rename_i c lineFeed backslash
      refine .choice (fun _ => .fails nofun) fun _ => ?_
      refine ((nests.reads .text).before fun m body pre => ?_).bind ?_
      · obtain ⟨⟨rfl, stops⟩, here⟩ := pre
        obtain rfl := Option.some_inj.mp here
        simp only [isPatternChar, Bool.and_eq_false_iff, bne_eq_false_iff_eq] at stops
        have brace := stops.resolve_left (not_or.mpr ⟨lineFeed, backslash⟩)
        exact ⟨rfl, congrArg some brace.symm⟩
      · exact fun x => .pure fun _ _ text => text ▸ asText_text _
  refine ⟨text.shrinks, fun m body asText frame room next rest read => ?_⟩
  obtain ⟨k, run, m', small, parts, walks, kept, reads⟩ :=
    text.reads .text body rfl frame room next rest read
  refine ⟨k, run, m', small, parts, asText run rest parts ?_ k [m'] walks, kept, reads⟩
  subst room
  obtain ⟨_, -, none⟩ | ⟨c, behind, stop, within, -⟩ := patternRound_passes nests read
  · exact absurd none (by simp [Frame.close])
  · -- Were all that is passed over plain, nothing would end the run.
    by_contra plain
    have all : ∀ d ∈ run, isPatternChar d = true := fun d member =>
      Bool.of_not_eq_false fun special => plain ⟨d, member, special⟩
    have longer := dropWhile_length_le isPatternChar (frame.close rest)
    rw [parts, close_append, List.dropWhile_append_of_pos all] at stop
    rw [stop, List.length_cons] at longer
    exact absurd within.length_le (Nat.not_le_of_lt longer)

theorem local_patternParts (nests : Nests r) :
    Local r AsText (fun frame => patternParts (placeable frame.room)) fun _ => Ended := by
  refine Local.bind ?_ fun draft => .pure fun _ _ ended => ended
  refine Local.iterate (local_patternRound nests) (fun frame room draft text next rest read => ?_) _
  subst room
  exact Nat.lt_of_lt_of_le (patternRound_onward nests read) (dropWhile_length_le _ text)

/-- A character that makes the first line of a pattern more than text. -/
def isMark (c : Char) : Bool := c == '{' || c == '\\'

theorem isBlank_of_isMark (mark : isMark c = true) : Text.isBlank c = false := by
  simp only [isMark, Bool.or_eq_true, beq_iff_eq] at mark
  obtain rfl | rfl := mark <;> rfl

theorem filled_of_isMark {line : List Char} (marked : line.any isMark = true) :
    line.all Text.isBlank = false := by
  obtain ⟨c, member, mark⟩ := List.any_eq_true.mp marked
  exact List.all_eq_false.mpr ⟨c, member, Bool.eq_false_iff.mp (isBlank_of_isMark mark)⟩

theorem any_isMark_dropEndWhile (line : List Char) :
    (Text.dropEndWhile Text.isBlank line).any isMark = line.any isMark :=
  any_dropEndWhile (fun _ => isBlank_of_isMark) line

theorem isEmpty_dropEndWhile (p : Char → Bool) (line : List Char) :
    (Text.dropEndWhile p line).isEmpty = line.all p := by
  rw [Bool.eq_iff_iff, List.isEmpty_iff, List.all_eq_true, Text.dropEndWhile,
    List.reverse_eq_nil_iff, List.dropWhile_eq_nil_iff]
  exact ⟨fun all c member => all c (List.mem_reverse.mpr member),
    fun all c member => all c (List.mem_reverse.mp member)⟩

theorem span_line {line : List Char} (noFeed : '\n' ∉ line) (text : List Char) :
    (line ++ '\n' :: text).takeWhile (· != '\n') = line ∧
      (line ++ '\n' :: text).dropWhile (· != '\n') = '\n' :: text := by
  have inline : ∀ c ∈ line, (c != '\n') = true := fun c member =>
    bne_iff_ne.mpr fun same => noFeed (same ▸ member)
  rw [List.takeWhile_append_of_pos inline, List.dropWhile_append_of_pos inline]
  simp

/-- Text starts on the first line of a variant that is not blank. -/
theorem asText_filled {line : List Char} (noFeed : '\n' ∉ line)
    (filled : line.all Text.isBlank = false) (text : List Char) :
    AsText .value (line ++ '\n' :: text) := by
  refine asText_value ?_
  rw [(span_line noFeed text).1]
  simpa using filled

/-- A pattern inside a pair of braces, by its first line and the line that may go on with it. -/
theorem pattern_close (p : Parser Expression) {frame : Frame} {line next : List Char}
    (noFeed : '\n' ∉ line) (drops : dropBlankLines (frame.close text) = frame.close next) :
    pattern p (frame.close (line ++ '\n' :: text)) =
      if line.any isMark then patternParts p (frame.close (line ++ '\n' :: text))
      else if ahead next ≠ ' ' ∨ ahead (next.dropWhile Text.isInlineBlank) = '.' then
        .ok (if line.isEmpty then none
          else some (.text (String.ofList (Text.dropEndWhile Text.isBlank line))), frame.close next)
      else patternParts p (if line.all Text.isBlank
        then frame.close (next.dropWhile Text.isInlineBlank)
        else frame.close (line ++ '\n' :: text)) := by
  have first := span_line noFeed (frame.close text)
  rw [← close_cons, ← close_append] at first
  have marked : ((Text.dropEndWhile Text.isBlank line).any fun c => c == '{' || c == '\\') =
      line.any isMark := any_isMark_dropEndWhile line
  rw [pattern_apply]
  simp only [first, close_cons, List.drop_one, List.tail_cons, drops, marked, EndsValue,
    head?_close, dropWhile_close frame (p := Text.isInlineBlank) rfl, isEmpty_dropEndWhile, ne_eq,
    Option.some_inj]

/-- The first line of a variant up to its line feed: text follows unless it is blank. -/
theorem walks_firstLine {line : List Char} (noFeed : '\n' ∉ line)
    (plain : line.any isMark = false) :
    Walks 0 .value (line ++ ['\n']) [.line (line.all Text.isBlank) none] := by
  cases blank : line.all Text.isBlank with
  | true =>
    have stays : Stays (· = .value) fun c => Text.isBlank c && c != '\n' := by
      rintro c blank _ rfl
      simp only [Bool.and_eq_true, bne_iff_ne, ne_eq] at blank
      exact ⟨_, rfl, by simp [Mode.move, blank]⟩
    have all : ∀ c ∈ line, (Text.isBlank c && c != '\n') = true := fun c member =>
      Bool.and_eq_true_iff.mpr ⟨List.all_eq_true.mp blank c member,
        bne_iff_ne.mpr fun same => noFeed (same ▸ member)⟩
    obtain ⟨_, rfl, walks⟩ := stays.walks all rfl
    exact walks.append (walks_stay rfl)
  | false =>
    have all : ∀ c ∈ line, isPatternChar c = true := by
      intro c member
      have unmarked := List.any_eq_false.mp plain c member
      simp only [isMark, Bool.or_eq_true, beq_iff_eq, not_or] at unmarked
      have other : c ≠ '\n' := fun same => noFeed (same ▸ member)
      simp [isPatternChar, unmarked, other]
    obtain ⟨_, rfl, walks⟩ := stays_text.walks all rfl
    exact asText_filled noFeed blank [] (line ++ ['\n']) [] (List.append_nil _).symm
      ⟨'\n', by simp, rfl⟩ 0 _ (walks.append (walks_stay rfl))

theorem local_pattern (nests : Nests r) :
    Local r (fun m _ => m = .value) (fun frame => pattern (placeable frame.room))
      fun _ => Ended where
  shrinks frame room text value rest read := by
    subst room
    exact (pattern_behind nests read).suffix
  reads m body value := by
    subst value
    intro frame room value rest read
    have behind : BehindLineFeed (frame.close body) (frame.close rest) := by
      subst room
      exact pattern_behind nests read
    obtain ⟨line, text, rfl, noFeed⟩ := behind.inside
    obtain ⟨run, next, rfl, start, blank, drops⟩ :=
      dropBlankLines_close (line.all Text.isBlank) text
    have same (other : Frame) :=
      pattern_close (placeable other.room) noFeed (drops other)
    suffices loc : LocalAt r (fun frame => pattern (placeable frame.room)) (fun _ => Ended) .value
        (line ++ '\n' :: (run ++ next)) from loc frame room value rest read
    have parts := (local_patternParts nests).reads
    by_cases marked : line.any isMark = true
    · refine (parts _ _ (asText_filled noFeed (filled_of_isMark marked) _)).congr fun other => ?_
      rw [same, if_pos marked]
    have walks := (walks_firstLine noFeed (Bool.eq_false_iff.mpr marked)).append blank
    by_cases ends : ahead next ≠ ' ' ∨ ahead (next.dropWhile Text.isInlineBlank) = '.'
    · refine localAt_of_all
        (fun other => (same other).trans ((if_neg marked).trans (if_pos ends))) (by simp) walks
        ⟨_, rfl, start, fun indented => ?_⟩
      rw [ends.resolve_left (not_not.mpr indented)]
      cases line.all Text.isBlank <;> rfl
    by_cases filled : line.all Text.isBlank = false
    · refine (parts _ _ (asText_filled noFeed filled _)).congr fun other => ?_
      rw [same, if_neg marked, if_neg ends, if_neg (Bool.eq_false_iff.mp filled)]
    · -- The pattern starts on the first line that is not blank.
      have empty := Bool.of_not_eq_false filled
      obtain ⟨indented, continues⟩ := not_or.mp ends
      obtain ⟨depth, inline, known⟩ := walks_indentation true next
      rw [empty] at walks
      rw [known.mpr (not_not.mp indented)] at inline
      have goesOn : endsLine true (ahead (next.dropWhile Text.isInlineBlank)) = false :=
        beq_eq_false_iff_ne.mpr continues
      refine (parts _ _ (asText_line start goesOn)).skip ?_ (walks.append inline) fun other => ?_
      · simp [List.takeWhile_append_dropWhile]
      · rw [same, if_neg marked, if_neg ends, if_pos empty]

end Fluent.Grammar.Braces
