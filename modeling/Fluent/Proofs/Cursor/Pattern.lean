import Fluent.Cursor.Pattern
import Fluent.Proofs.Cursor.Token
import Fluent.Proofs.OneLine

/-!
# Patterns by their bytes

The cursors for patterns follow the parsers for them.

* `patternParts_follows`: patterns that are read part by part;
* `patternOr`: a pattern by its first line, with any reading in place of the one by parts;
* `pattern_follows`: patterns.
-/

namespace Fluent.Cursor

open Grammar (Failure Parser Draft isPatternChar endsPattern dropBlankLines dropBlankLinesFrom
  dropBlankLines_suffix nextLine_cons patternRound_end patternRound_lineEnd patternRound_escape
  patternRound_placeable dropWhile_isPatternChar_cases OneLine oneLine_iff pattern_oneLine
  pattern_further partsStart partsStart_marked lineBelow lineValue EndsValue)
open Grammar.Parser (stop)
open Text.Reader (Round)

variable {β : Type} {source : String} {text rest : List Char}

theorem steady_isPatternChar : Steady isPatternChar :=
  ((steady_beq (by decide)).not.and (steady_beq (by decide)).not).and (steady_beq (by decide)).not

theorem steady_endsPattern : Steady endsPattern :=
  (((steady_beq (by decide)).or (steady_beq (by decide))).or (steady_beq (by decide))).or
    (steady_beq (by decide))

/-! ## Blank lines -/

/-- What a blank line leaves, if the text starts with one. -/
def blankLine? (text : List Char) : Option (List Char) :=
  match text.dropWhile Text.isInlineBlank with
  | '\r' :: '\n' :: rest => some rest
  | '\n' :: rest => some rest
  | _ => none

/-- Passes over a blank line, unless there is none. -/
def blankLine (_ : Unit) : Parser (Round Unit) := fun text =>
  match blankLine? text with
  | some rest => .ok (.again (), rest)
  | none => .ok (.done (), text)

theorem blankLine?_length_lt (found : blankLine? text = some rest) : rest.length < text.length := by
  have ends := List.dropWhile_suffix (l := text) Text.isInlineBlank
  rw [blankLine?] at found
  split at found
  · rename_i after starts
    cases found
    rw [starts] at ends
    exact Nat.lt_of_succ_lt ends.length_le
  · rename_i after starts
    cases found
    rw [starts] at ends
    exact ends.length_le
  · cases found

theorem dropBlankLinesFrom_dropWhile (lineStart text : List Char) :
    dropBlankLinesFrom lineStart (text.dropWhile Text.isInlineBlank) =
      dropBlankLinesFrom lineStart text := by
  induction text with
  | nil => rfl
  | cons c text ih =>
    by_cases blank : Text.isInlineBlank c = true
    · rw [List.dropWhile_cons_of_pos blank, ih]
      simp only [Text.isInlineBlank, Bool.or_eq_true, beq_iff_eq] at blank
      obtain rfl | rfl := blank
      · rw [dropBlankLinesFrom]
      · rw [dropBlankLinesFrom]
    · rw [List.dropWhile_cons_of_neg blank]

theorem dropBlankLines_eq (text : List Char) :
    dropBlankLines text = match blankLine? text with
      | some rest => dropBlankLines rest
      | none => text := by
  have unblank := List.head?_dropWhile_not Text.isInlineBlank text
  rw [dropBlankLines, ← dropBlankLinesFrom_dropWhile, blankLine?]
  generalize text.dropWhile Text.isInlineBlank = next at unblank
  split
  · rename_i found
    split at found
    · cases found
      rw [dropBlankLinesFrom, dropBlankLines]
    · cases found
      rw [dropBlankLinesFrom, dropBlankLines]
    · cases found
  · rename_i found
    split at found
    · cases found
    · cases found
    · rename_i noReturn noLineFeed
      rw [dropBlankLinesFrom.eq_def]
      split
      · cases unblank
      · cases unblank
      · exact absurd rfl (noLineFeed _)
      · exact absurd rfl (noReturn _)
      · rfl

theorem iterate_blankLine (text : List Char) :
    Text.Reader.iterate blankLine () text = .ok ((), dropBlankLines text) := by
  induction hn : text.length using Nat.strongRecOn generalizing text with
  | ind n ih =>
    subst hn
    rw [Text.Reader.iterate, blankLine, dropBlankLines_eq]
    cases found : blankLine? text with
    | none => rfl
    | some rest =>
      have shorter := blankLine?_length_lt found
      simp only [if_pos shorter]
      exact ih rest.length shorter rest rfl

theorem blankLineRound_agrees (rest : List Char) :
    Agrees source rest rest (blankLineRound ()) (blankLine () rest) := by
  rw [blankLine, blankLine?]
  refine .get (.skipInlineBlank (.peek (.peekSecond ?_)))
  generalize rest.dropWhile Text.isInlineBlank = next
  split
  · rename_i first second
    obtain ⟨after, rfl⟩ := (twoBytes_codes (by decide) (by decide)).mp ⟨first, second⟩
    exact .advanceTwo (by decide) (by decide) (.pure _)
  · rename_i first
    obtain ⟨after, rfl⟩ := List.head?_eq_some_iff.mp ((head?_codes (by decide) next).mp first)
    exact .advance (by decide) (.pure _)
  · rename_i noLineFeed noReturn
    split
    · rename_i found
      split at found
      · rename_i after
        obtain ⟨first, second⟩ :=
          (twoBytes_codes (c := '\r') (d := '\n') (by decide) (by decide)).mpr ⟨after, rfl⟩
        exact (noReturn first second).elim
      · exact (noLineFeed ((head?_codes (by decide) _).mpr rfl)).elim
      · cases found
    · exact .moveTo (List.suffix_refl rest) (.pure _)

theorem skipBlankLines_agrees (rest : List Char) :
    Agrees source rest rest skipBlankLines (.ok ((), dropBlankLines rest)) := by
  rw [← iterate_blankLine]
  refine .iterate (fun _ next _ _ => ⟨blankLineRound_agrees next, fun _ after found => ?_⟩) ()
  rw [blankLine] at found
  split at found
  · cases found
    exact blankLine?_length_lt ‹_›
  · cases found

theorem Agrees.skipBlankLines {k : Unit → Cursor β} {result : Except Failure (β × List Char)}
    (h : Agrees source text (dropBlankLines rest) (k ()) result) :
    Agrees source text rest (skipBlankLines >>= k) result :=
  .step_of (skipBlankLines_agrees rest) h

/-! ## Lines -/

/-- Where the line ends that starts at a place. -/
theorem newline?_getD (source : String) (text : List Char) :
    (newline? source text).getD source.utf8ByteSize =
      place source (text.dropWhile (· != '\n')) := by
  rw [newline?]
  cases text.dropWhile (· != '\n') <;> rfl

/-- Where the line after it starts. -/
theorem place_nextLine (inside : rest <:+ source.toList) :
    min (place source (rest.dropWhile (· != '\n')) + 1) source.utf8ByteSize =
      place source ((rest.dropWhile (· != '\n')).drop 1) := by
  have ends := (List.dropWhile_suffix (l := rest) (· != '\n')).trans inside
  have head := List.head?_dropWhile_not (· != '\n') rest
  generalize rest.dropWhile (· != '\n') = next at ends head ⊢
  cases next with
  | nil => simp
  | cons c next =>
    obtain rfl : c = '\n' := by simpa using head
    rw [List.drop_one, List.tail_cons, place_cons (by decide) ends, Nat.min_eq_left]
    rw [← place_cons (by decide) ends]
    exact place_le source next

/-- The run that ends where the cursor stands. -/
theorem pushRun_agrees {k : Draft → Cursor β} {result : Except Failure (β × List Char)}
    {start : List Char} (draft : Draft) (run : List Char) (parts : start = run ++ rest)
    (ends : start <:+ text)
    (h : Agrees source text rest (k (draft.push run)) result) :
    Agrees source text rest (pushRun draft (place source start) >>= k) result := by
  rw [pushRun, bind_assoc]
  refine .get ?_
  rw [bind_assoc]
  exact .slice parts ends h

/-- A run that starts where the cursor stands is empty. -/
theorem pushRun_empty {k : Draft → Cursor β} {result : Except Failure (β × List Char)}
    (draft : Draft) (ends : rest <:+ text) (h : Agrees source text rest (k draft) result) :
    Agrees source text rest (pushRun draft (place source rest) >>= k) result := by
  refine pushRun_agrees draft [] rfl ends ?_
  rwa [Draft.push_nil]

theorem nextLine_agrees (draft : Draft) :
    Agrees source ('\n' :: rest) ('\n' :: rest) (nextLine draft)
      (Grammar.nextLine draft ('\n' :: rest)) := by
  have behind := List.suffix_cons '\n' rest
  obtain ⟨blank, parts⟩ := dropBlankLines_suffix rest
  have ends := (dropBlankLines_suffix rest).trans behind
  have taken (next : List Char) (parts : blank ++ next = rest) :
      rest.take (rest.length - next.length) = blank := by
    rw [← parts, List.length_append, Nat.add_sub_cancel, List.take_left]
  rw [nextLine_cons]
  simp only [taken _ parts]
  refine .advance (by decide) (.get (.skipBlankLines (.get (.peek ?_))))
  generalize dropBlankLines rest = next at *
  refine .choice (head?_codes (by decide) next) (fun _ => ?_) fun _ => ?_
  · refine .skipInlineBlank (.peek (.choice (by rw [any_head?_codes steady_endsPattern])
      (fun _ => ?_) fun _ => ?_))
    · exact .moveTo ends (pushRun_empty draft ends (.pure _))
    · exact .slice parts.symm behind (.pure _)
  · exact pushRun_empty draft ends (.pure _)

theorem nextLine_advances (draft : Draft) :
    Advances ('\n' :: rest) (Grammar.nextLine draft ('\n' :: rest)) := by
  have ends := (List.dropWhile_suffix Text.isInlineBlank).trans (dropBlankLines_suffix rest)
  rw [nextLine_cons]
  simp only
  split
  · split
    · exact nofun
    · exact advances_again (Nat.lt_succ_of_le ends.length_le)
  · exact nofun

/-! ## Patterns -/

/-- A reader of placeables follows a parser where a brace is next, and uses it up. -/
structure FollowsOnBraces (source : String) (m : Cursor Expression) (p : Parser Expression) :
    Prop where
  agrees : ∀ rest, Agrees source ('{' :: rest) ('{' :: rest) m (p ('{' :: rest))
  shorter : ∀ rest read next, '{' :: rest <:+ source.toList →
    p ('{' :: rest) = .ok (read, next) → next.length < ('{' :: rest).length

variable {m : Cursor Expression} {p : Parser Expression}

theorem patternRound_agrees (placeable : ∀ after, rest.dropWhile isPatternChar = '{' :: after →
      Agrees source ('{' :: after) ('{' :: after) m (p ('{' :: after))) (draft : Draft) :
    Agrees source rest rest (patternRound m draft) (Grammar.patternRound p draft rest) := by
  have parts := (List.takeWhile_append_dropWhile (p := isPatternChar) (l := rest)).symm
  have whole := List.suffix_refl rest
  refine .get (.skipWhile steady_isPatternChar (.peek ?_))
  cases next : rest.dropWhile isPatternChar with
  | nil =>
    rw [next] at parts
    rw [patternRound_end next]
    exact pushRun_agrees draft _ parts whole (.pure _)
  | cons c after =>
    rw [next] at parts
    have behind := next ▸ List.dropWhile_suffix (l := rest) isPatternChar
    obtain rfl | rfl | rfl := dropWhile_isPatternChar_cases next
    · rw [patternRound_lineEnd next]
      exact .get (.slice parts whole (nextLine_agrees _).mono)
    · rw [patternRound_escape next]
      refine pushRun_agrees draft _ parts whole (.mono (.bind (escape_agrees (by simp)) ?_))
      intro c after _ _
      rw [← Draft.push_push]
      exact .pure _
    · rw [patternRound_placeable next]
      refine pushRun_agrees draft _ parts whole
        (.mono (.choice Iff.rfl (fun _ => .fail _) fun _ => ?_))
      exact (placeable after next).bind fun read next _ _ => .pure _

theorem patternRound_advances (placeable : FollowsOnBraces source m p) (draft : Draft)
    (inside : rest <:+ source.toList) : Advances rest (Grammar.patternRound p draft rest) := by
  cases next : rest.dropWhile isPatternChar with
  | nil =>
    rw [patternRound_end next]
    exact nofun
  | cons c after =>
    have behind := next ▸ List.dropWhile_suffix (l := rest) isPatternChar
    refine .mono ?_ behind
    obtain rfl | rfl | rfl := dropWhile_isPatternChar_cases next
    · rw [patternRound_lineEnd next]
      exact nextLine_advances _
    · rw [patternRound_escape next]
      exact .bind fun c last escaped => advances_again (escape_shorter escaped)
    · rw [patternRound_placeable next]
      split
      · exact nofun
      · exact .bind fun read last taken =>
          advances_again (placeable.shorter _ _ _ (behind.trans inside) taken)

theorem patternParts_follows (placeable : FollowsOnBraces source m p) :
    Follows source (patternParts m) (Grammar.patternParts p) := by
  intro rest
  refine .bind (.iterate (fun draft next _ inside => ?_) _) fun read next _ _ => .pure _
  exact ⟨patternRound_agrees (fun after _ => placeable.agrees after) draft,
    patternRound_advances placeable draft inside⟩

/-- The first line of a pattern without the blank text at its end, unless there is none. -/
def trimmed? (line : List Char) : Option (List Char) :=
  if line.isEmpty then none else some (Text.dropEndWhile Text.isBlank line)

theorem firstLine?_agrees {k : Option (List Char) → Cursor β}
    {result : Except Failure (β × List Char)} {start stop line : List Char}
    (parts : start = line ++ stop) (ends : start <:+ text)
    (h : Agrees source text rest (k (trimmed? line)) result) :
    Agrees source text rest (firstLine? (place source start) (place source stop) >>= k) result := by
  refine .of_inside fun inside => ?_
  rw [firstLine?]
  by_cases empty : line = []
  · subst empty
    rw [List.nil_append] at parts
    rw [parts, if_neg (not_not.mpr rfl), pure_bind]
    exact h
  · have moved : place source start ≠ place source stop := by
      have := Grammar.byteSize_pos empty
      subst parts
      rw [place_append line (ends.trans inside)]
      omega
    rw [if_pos moved, bind_assoc]
    refine .slice parts ends ?_
    rw [trimmed?, if_neg (by simpa using empty)] at h
    exact h

theorem trimmed?_getD (line : List Char) :
    (trimmed? line).getD [] = Text.dropEndWhile Text.isBlank line := by
  cases line <;> rfl

theorem trimmed?_any (line : List Char) :
    (trimmed? line).any (fun text => !text.isEmpty) =
      !(Text.dropEndWhile Text.isBlank line).isEmpty := by
  cases line <;> rfl

theorem trimmed?_map (line : List Char) :
    (trimmed? line).map (fun text => Pattern.text (String.ofList text)) = lineValue line := by
  cases line <;> rfl

/-- Reads a pattern by its first line. Where it is not taken from that, `parts` is what reads it. -/
def patternOr (parts : Cursor (Option Pattern)) : Cursor (Option Pattern) := do
  let start ← get
  let lineEnd := (← findNewline start).getD (← size)
  let line? ← firstLine? start lineEnd
  let plain := line?.map fun line => Pattern.text (String.ofList line)
  if (line?.getD []).any fun c => c == '{' || c == '\\' then parts
  else
    moveTo (min (lineEnd + 1) (← size))
    skipBlankLines
    let next ← get
    if (← peek) = some ' ' then
      skipInlineBlank
      if (← peek) = some '.' then
        moveTo next
        return plain
      else
        if line?.any fun line => !line.isEmpty then
          moveTo start
          parts
        else parts
    else return plain

theorem pattern_eq_patternOr (placeable : Cursor Expression) :
    pattern placeable = patternOr (patternParts placeable) := rfl

/-- A pattern on one line is taken from it, whatever `parts` does. -/
theorem patternOr_agrees {parts : Cursor (Option Pattern)} {start : List Char}
    {found : Except Failure (Option Pattern × List Char)}
    (line : OneLine start →
      found = .ok (lineValue (start.takeWhile (· != '\n')), lineBelow start))
    (further : ¬OneLine start → Agrees source (partsStart start) (partsStart start) parts found) :
    Agrees source start start (patternOr parts) found := by
  have split := (List.takeWhile_append_dropWhile (p := (· != '\n')) (l := start)).symm
  have whole := List.suffix_refl start
  have below : lineBelow start <:+ start :=
    (dropBlankLines_suffix _).trans ((List.drop_suffix 1 _).trans (List.dropWhile_suffix _))
  refine .of_inside fun inside => .get (.findNewline whole (.size ?_))
  rw [newline?_getD]
  refine firstLine?_agrees split whole ?_
  simp only [trimmed?_getD]
  by_cases marked : ((Text.dropEndWhile Text.isBlank (start.takeWhile (· != '\n'))).any fun c =>
      c == '{' || c == '\\') = true
  · rw [if_pos marked]
    have agrees := further fun one => (oneLine_iff.mp one).1 marked
    rwa [partsStart_marked marked] at agrees
  rw [if_neg marked]
  refine .size ?_
  rw [place_nextLine inside]
  refine .moveTo ((List.drop_suffix 1 _).trans (List.dropWhile_suffix _))
    (.skipBlankLines (.get (.peek ?_)))
  rw [trimmed?_map, ← lineBelow]
  by_cases indented : (lineBelow start).head? = some ' '
  · rw [if_pos ((head?_codes (by decide) _).mpr indented)]
    refine .skipInlineBlank (.peek ?_)
    by_cases point : ((lineBelow start).dropWhile Text.isInlineBlank).head? = some '.'
    · rw [if_pos ((head?_codes (by decide) _).mpr point),
        line (oneLine_iff.mpr ⟨marked, .inr point⟩)]
      exact .moveTo below (.pure _)
    · rw [if_neg (mt (head?_codes (by decide) _).mp point), trimmed?_any]
      have agrees := further fun one => one.ends.elim (· indented) point
      rw [partsStart] at agrees
      generalize (Text.dropEndWhile Text.isBlank (start.takeWhile (· != '\n'))).isEmpty = blank
        at agrees ⊢
      cases blank with
      | false => exact .moveTo whole agrees
      | true => exact agrees.mono
  · rw [if_neg (mt (head?_codes (by decide) _).mp indented),
      line (oneLine_iff.mpr ⟨marked, .inl indented⟩)]
    exact .pure _

theorem pattern_follows (placeable : FollowsOnBraces source m p) :
    Follows source (pattern m) (Grammar.pattern p) := by
  intro start
  rw [pattern_eq_patternOr]
  exact patternOr_agrees (fun line => pattern_oneLine line) fun further =>
    pattern_further further ▸ patternParts_follows placeable _

end Fluent.Cursor
