import Fluent.Proofs.LastLine.Token
import Fluent.Proofs.Pattern

/-!
# Patterns in front of a last line end

The text at the end of a pattern loses its blank end, so that the carriage return of a last line end
does not show in it. What is left behind a pattern is a line that is not blank, or nothing.

* `Left`: what two readings of a pattern leave;
* `dropBlankLines_lineFeed`: blank lines behind a text that is not blank;
* `alike_pattern`: patterns are read alike.
-/

namespace Fluent.Grammar.LastLine

open Fluent.Grammar.Parser Fluent.Text.Reader

/-- What is left of the two texts behind a pattern: nothing, or a line that is not blank and what
follows it. -/
def Left (rest rest' : List Char) : Prop :=
  rest = [] ∧ rest' = [] ∨ Visible rest ∧ rest' = rest ++ ['\n']

/-- Both readings find the same and leave nothing or the same lines. -/
def SameLines {α : Type} (found found' : α × List Char) : Prop :=
  found.1 = found'.1 ∧ Left found.2 found'.2

/-- Of two readers of placeables the second one reads a text with a last line end as the first one
reads the text, which uses up the opening brace. -/
def ClosesBraces (p q : Parser Expression) : Prop :=
  ∀ rest, Filled rest →
    Alike Same ('\x7b' :: rest) (p ('\x7b' :: rest)) (q ('\x7b' :: (rest ++ ['\n']))) ∧
      ∀ found, p ('\x7b' :: rest) = .ok found → found.2 <:+ rest

theorem Left.matches {rest rest' : List Char} (h : Left rest rest') : Matches rest rest' := by
  obtain ⟨rfl, rfl⟩ | ⟨-, rfl⟩ := h
  · exact .ended
  · exact .ahead rest

theorem SameLines.same {α : Type} {found found' : α × List Char} (h : SameLines found found') :
    Same found found' := ⟨h.1, h.2.matches⟩

/-! ## Blank lines -/

section

variable {text rest lineStart : List Char} {c : Char}

theorem Visible.ne_nil (visible : Visible text) : text ≠ [] := by
  rintro rfl
  obtain ⟨c, member, -⟩ := visible
  cases member

theorem Visible.of_suffix (visible : Visible rest) (hs : rest <:+ text) : Visible text := by
  obtain ⟨c, member, hc⟩ := visible
  exact ⟨c, hs.mem member, hc⟩

theorem Visible.behind (visible : Visible (c :: rest)) (hc : Text.isBlank c = true) :
    Visible rest := by
  obtain ⟨d, member, hd⟩ := visible
  obtain rfl | member := List.mem_cons.mp member
  · rw [hc] at hd
    cases hd
  · exact ⟨d, member, hd⟩

theorem Visible.dropWhile (visible : Visible text) {p : Char → Bool}
    (hp : ∀ c, p c = true → Text.isBlank c = true) : Visible (text.dropWhile p) := by
  induction text with
  | nil => exact visible
  | cons c rest ih =>
    by_cases hc : p c = true
    · rw [List.dropWhile_cons_of_pos hc]
      exact ih (visible.behind (hp c hc))
    · rwa [List.dropWhile_cons_of_neg hc]

theorem isBlank_of_isInlineBlank (c : Char) (hc : Text.isInlineBlank c = true) :
    Text.isBlank c = true := by
  rw [Text.isInlineBlank] at hc
  rw [Text.isBlank, hc, Bool.true_or, Bool.true_or]

theorem dropBlankLinesFrom_lineFeed (visible : Visible text) (hs : text <:+ lineStart) :
    dropBlankLinesFrom (lineStart ++ ['\n']) (text ++ ['\n']) =
        dropBlankLinesFrom lineStart text ++ ['\n'] ∧
      Visible (dropBlankLinesFrom lineStart text) := by
  fun_induction dropBlankLinesFrom lineStart text with
  | case1 lineStart rest ih => exact ih (visible.behind rfl) ((List.suffix_cons _ _).trans hs)
  | case2 lineStart rest ih => exact ih (visible.behind rfl) ((List.suffix_cons _ _).trans hs)
  | case3 lineStart rest ih => exact ih (visible.behind rfl) (List.suffix_refl _)
  | case4 lineStart rest ih =>
    exact ih ((visible.behind rfl).behind rfl) (List.suffix_refl _)
  | case5 text lineStart space tab lineFeed carriageReturn =>
    refine ⟨?_, visible.of_suffix hs⟩
    cases text with
    | nil => exact absurd rfl visible.ne_nil
    | cons c rest =>
      rw [List.cons_append, dropBlankLinesFrom]
      · exact fun after he => space rest (by rw [(List.cons.inj he).1])
      · exact fun after he => tab rest (by rw [(List.cons.inj he).1])
      · exact fun after he => lineFeed rest (by rw [(List.cons.inj he).1])
      · intro after he
        obtain ⟨rfl, next⟩ := List.cons.inj he
        cases rest with
        | nil => exact absurd rfl (visible.behind rfl).ne_nil
        | cons d rest => exact carriageReturn rest (by rw [(List.cons.inj next).1])

/-- Blank lines are dropped up to a line that is not blank. -/
theorem dropBlankLines_lineFeed (visible : Visible text) :
    dropBlankLines (text ++ ['\n']) = dropBlankLines text ++ ['\n'] ∧
      Visible (dropBlankLines text) :=
  dropBlankLinesFrom_lineFeed visible (List.suffix_refl text)

end

/-! ## Rounds of a pattern -/

section

variable {p q : Parser Expression} {draft : Draft} {text text' rest : List Char}

/-- Something of a pattern has been read or is next. -/
def Begun (draft : Draft) (text : List Char) : Prop := draft.isEmpty = false ∨ Visible text

/-- The drafts come to the same pattern. -/
def SameFinish (found found' : Draft × List Char) : Prop :=
  found.1.finish = found'.1.finish ∧ Left found.2 found'.2

/-- A carriage return at the end of a pattern does not show. -/
theorem finish_withoutReturn (begun : Begun draft text) :
    (draft.push (withoutReturn text)).finish = (draft.push text).finish := by
  rw [withoutReturn]
  split
  · rename_i last
    obtain ⟨front, rfl⟩ := List.getLast?_eq_some_iff.mp last
    have filled : (draft.push (front ++ ['\r'])).isEmpty = false := by simp
    have filled' : (draft.push front).isEmpty = false := by
      rw [Draft.isEmpty_push]
      obtain begun | ⟨c, member, hc⟩ := begun
      · rw [begun, Bool.false_and]
      · obtain inside | blank := List.mem_append.mp member
        · rw [List.isEmpty_eq_false_iff.mpr (List.ne_nil_of_mem inside), Bool.and_false]
        · rw [List.mem_singleton.mp blank] at hc
          cases hc
    have trimmed : Text.dropEndWhile Text.isBlank (draft.push (front ++ ['\r'])).buffer =
        Text.dropEndWhile Text.isBlank (draft.push front).buffer := by
      rw [Draft.push, ← List.append_assoc]
      exact List.rdropWhile_concat_pos _ _ _ rfl
    rw [List.dropLast_concat, Draft.finish, Draft.finish, filled, filled', trimmed]
    rfl
  · rfl

/-- The next line of a pattern is found alike, as there is one that is not blank. -/
theorem alike_nextLine (draft : Draft) (visible : Visible rest) :
    Alike (SameRound Begun SameFinish) rest (nextLine draft ('\n' :: rest))
      (nextLine draft ('\n' :: (rest ++ ['\n']))) := by
  obtain ⟨dropped, visible'⟩ := dropBlankLines_lineFeed visible
  have hs := dropBlankLines_suffix rest
  have blank : (rest ++ ['\n']).take ((rest ++ ['\n']).length -
      (dropBlankLines rest ++ ['\n']).length) =
      rest.take (rest.length - (dropBlankLines rest).length) := by
    rw [List.length_append, List.length_append, Nat.add_sub_add_right,
      List.take_append_of_le_length (Nat.sub_le _ _)]
  have continuation := visible'.dropWhile isBlank_of_isInlineBlank
  rw [nextLine_cons, nextLine_cons, dropped]
  simp only [blank, dropWhile_append_of_ne_nil continuation.ne_nil,
    List.head?_append_of_ne_nil _ continuation.ne_nil,
    List.head?_append_of_ne_nil _ visible'.ne_nil]
  have done : Alike (SameRound Begun SameFinish) rest (.ok (.done draft, dropBlankLines rest))
      (.ok (.done draft, dropBlankLines rest ++ ['\n'])) :=
    .read hs (.done ⟨rfl, .inr ⟨visible', rfl⟩⟩)
  refine .choice (.choice done (.read ((List.dropWhile_suffix _).trans hs) ?_)) done
  exact .again (.inr continuation) (.ahead _)

theorem alike_patternRound (placeables : ClosesBraces p q) (hm : Matches text text')
    (filled : Filled text) (begun : Begun draft text) :
    Alike (SameRound Begun SameFinish) text (patternRound p draft text)
      (patternRound q draft text') := by
  have hs := List.dropWhile_suffix (l := text) isPatternChar
  have run := hm.takeWhile (p := isPatternChar) rfl
  have after := hm.dropWhile isPatternChar
  cases hd : text.dropWhile isPatternChar with
  | nil =>
    have whole : text.takeWhile isPatternChar = text :=
      List.takeWhile_eq_self_iff.mpr (List.dropWhile_eq_nil_iff.mp hd)
    rw [hd] at after
    rw [patternRound_end hd]
    cases hd' : text'.dropWhile isPatternChar with
    | nil =>
      rw [patternRound_end hd', run]
      exact .read List.nil_suffix (.done ⟨rfl, .inl ⟨rfl, rfl⟩⟩)
    | cons =>
      rw [hd'] at after
      cases after
      rw [patternRound_lineEnd hd', run, whole, nextLine_cons]
      exact .read List.nil_suffix (.done ⟨(finish_withoutReturn begun).symm, .inl ⟨rfl, rfl⟩⟩)
  | cons c rest =>
    rw [hd] at hs after
    have hd' := after.eq_cons
    have hs' := (List.suffix_cons c rest).trans hs
    obtain rfl | rfl | rfl := dropWhile_isPatternChar_cases hd
    · rw [patternRound_lineEnd hd, patternRound_lineEnd hd', run]
      exact (alike_nextLine _ (filled rest hs)).within hs'
    · rw [patternRound_escape hd, patternRound_escape hd', run]
      refine Alike.within (Alike.bindSame (alike_escape _ (by decide) _ rest) ?_) hs'
      exact fun c after after' _ hm => .read (List.suffix_refl _) (.again (.inl (by simp)) hm)
    · rw [patternRound_placeable hd, patternRound_placeable hd', run]
      refine .choice (alike_error hs (.ahead _) rfl rfl) (Alike.within ?_ hs)
      refine (placeables rest (filled.suffix hs')).1.bindSame ?_
      exact fun _ after after' _ hm => .read (List.suffix_refl _) (.again (.inl (by simp)) hm)

/-- A round that asks for another one uses up text. -/
theorem patternRound_shorter (placeables : ClosesBraces p q) (filled : Filled text) {next : Draft}
    (h : patternRound p draft text = .ok (.again next, rest)) : rest.length < text.length := by
  have hs := List.dropWhile_suffix (l := text) isPatternChar
  cases hd : text.dropWhile isPatternChar with
  | nil =>
    rw [patternRound_end hd] at h
    cases h
  | cons c after =>
    rw [hd] at hs
    suffices rest <:+ after from
      Nat.lt_of_le_of_lt this.length_le (Nat.lt_of_succ_le hs.length_le)
    obtain rfl | rfl | rfl := dropWhile_isPatternChar_cases hd
    · have alike := alike_nextLine (draft.push (withoutReturn (text.takeWhile isPatternChar)))
        (filled after hs)
      rw [← patternRound_lineEnd hd, h] at alike
      exact alike.suffix
    · rw [patternRound_escape hd, bind_apply] at h
      have alike := alike_escape ['\x7b', '\\'] (by decide) '\\' after
      split at h
      · rename_i read
        rw [read] at alike
        cases h
        exact alike.suffix
      · cases h
    · rw [patternRound_placeable hd] at h
      split at h
      · cases h
      · rw [bind_apply] at h
        split at h
        · cases h
          exact (placeables after (filled.suffix ((List.suffix_cons _ _).trans hs))).2 _ ‹_›
        · cases h

theorem alike_patternParts (placeables : ClosesBraces p q) (hm : Matches text text')
    (filled : Filled text) (visible : Visible text) :
    Alike SameLines text (patternParts p text) (patternParts q text') := by
  have rounds : Alike SameFinish text (iterate (patternRound p) .empty text)
      (iterate (patternRound q) .empty text') := by
    refine Alike.iterate (P := Begun) (fun draft next rest => ?_) ?_
      (fun draft rest rest' hs hm begun => ?_) hm (.inr visible)
    · rw [patternRound_end rfl]
      exact nofun
    · intro draft next rest after after' hs round longer
      have shorter := patternRound_shorter placeables (filled.suffix hs) round
      exact absurd shorter (Nat.not_lt.mpr longer)
    · exact alike_patternRound placeables hm (filled.suffix hs) begun
  exact rounds.bind fun found found' _ same => .read (List.suffix_refl _) same

theorem endsValue_lineFeed (visible : Visible text) :
    EndsValue (text ++ ['\n']) ↔ EndsValue text := by
  have continuation := visible.dropWhile isBlank_of_isInlineBlank
  rw [EndsValue, EndsValue, dropWhile_append_of_ne_nil continuation.ne_nil,
    List.head?_append_of_ne_nil _ continuation.ne_nil, List.head?_append_of_ne_nil _ visible.ne_nil]

/-- What is looked at behind the line end that ends the first line of a pattern. -/
def secondLine (text : List Char) : List Char :=
  dropBlankLines ((text.dropWhile (· != '\n')).drop 1)

theorem left_secondLine (hm : Matches text text') (filled : Filled text) :
    Left (secondLine text) (secondLine text') := by
  have after := hm.dropWhile (· != '\n')
  have hs := List.dropWhile_suffix (l := text) (· != '\n')
  rw [secondLine, secondLine]
  cases hd : text.dropWhile (· != '\n') with
  | nil =>
    rw [hd] at after
    cases hd' : text'.dropWhile (· != '\n') with
    | nil => exact .inl ⟨rfl, rfl⟩
    | cons =>
      rw [hd'] at after
      cases after
      exact .inl ⟨rfl, rfl⟩
  | cons c rest =>
    rw [hd] at after hs
    have lineFeed : c = '\n' := by
      have hc := List.head?_dropWhile_not (· != '\n') text
      simpa [hd] using hc
    subst lineFeed
    obtain ⟨dropped, visible⟩ := dropBlankLines_lineFeed (filled rest hs)
    rw [after.eq_cons]
    exact .inr ⟨visible, dropped⟩

theorem pattern_eq (placeable : Parser Expression) (start : List Char) :
    pattern placeable start =
      let line := start.takeWhile (· != '\n')
      let text := Text.dropEndWhile Text.isBlank line
      if text.any fun c => c == '\x7b' || c == '\\' then patternParts placeable start
      else if EndsValue (secondLine start) then
        .ok (if line.isEmpty then none else some (.text (String.ofList text)), secondLine start)
      else patternParts placeable
        (if text.isEmpty then (secondLine start).dropWhile Text.isInlineBlank else start) :=
  pattern_apply placeable start

theorem visible_of_firstLine
    (some : Text.dropEndWhile Text.isBlank (text.takeWhile (· != '\n')) ≠ []) : Visible text := by
  have marked := mt List.rdropWhile_eq_nil_iff.mpr some
  simp only [not_forall] at marked
  obtain ⟨c, member, hc⟩ := marked
  exact ⟨c, (List.takeWhile_prefix _).mem member, Bool.eq_false_iff.mpr hc⟩

theorem alike_pattern (placeables : ClosesBraces p q) (hm : Matches text text')
    (filled : Filled text) : Alike SameLines text (pattern p text) (pattern q text') := by
  have second := left_secondLine hm filled
  have hs : secondLine text <:+ text := (dropBlankLines_suffix _).trans
    ((List.drop_suffix 1 _).trans (List.dropWhile_suffix _))
  have firstLine := @visible_of_firstLine text
  rw [pattern_eq, pattern_eq, hm.takeWhile rfl]
  dsimp only
  generalize Text.dropEndWhile Text.isBlank (text.takeWhile (· != '\n')) = first at firstLine
  generalize (if (text.takeWhile (· != '\n')).isEmpty then none
    else some (Pattern.text (String.ofList first))) = plain
  by_cases marked : (first.any fun c => c == '\x7b' || c == '\\') = true
  · rw [if_pos marked, if_pos marked]
    refine alike_patternParts placeables hm filled (firstLine ?_)
    rintro rfl
    cases marked
  rw [if_neg marked, if_neg marked]
  obtain ⟨none, none'⟩ | ⟨visible, more⟩ := second
  · have ends : EndsValue [] := .inl (by simp)
    rw [none, none', if_pos ends, if_pos ends]
    exact .read List.nil_suffix ⟨rfl, .inl ⟨rfl, rfl⟩⟩
  · simp only [more, endsValue_lineFeed visible]
    refine .choice (.read hs ⟨rfl, .inr ⟨visible, rfl⟩⟩) ?_
    have continuation := visible.dropWhile isBlank_of_isInlineBlank
    rw [dropWhile_append_of_ne_nil continuation.ne_nil]
    by_cases empty : first.isEmpty = true
    · have hs' := (List.dropWhile_suffix Text.isInlineBlank).trans hs
      rw [if_pos empty, if_pos empty]
      exact (alike_patternParts placeables (.ahead _) (filled.suffix hs') continuation).within hs'
    · rw [if_neg empty, if_neg empty]
      refine alike_patternParts placeables hm filled (firstLine ?_)
      rintro rfl
      exact empty rfl

theorem closes_pattern (placeables : ClosesBraces p q) : Closes (pattern p) (pattern q) :=
  fun _ _ hm filled =>
    (alike_pattern placeables hm filled).mono (List.suffix_refl _) fun _ _ => SameLines.same

end

end Fluent.Grammar.LastLine
