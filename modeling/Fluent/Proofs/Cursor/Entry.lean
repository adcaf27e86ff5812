import Fluent.Cursor.Resource
import Fluent.Proofs.Cursor.Placeable
import Fluent.Proofs.Transcription.Resource

/-!
# Entries by their bytes

The cursors for attributes, messages and comments follow the parsers for them.
-/

namespace Fluent.Cursor

open Grammar (Parser attributeRound_apply attributes?_apply message_eq dropComment
  dropComment_suffix)
open Grammar.Transcription (GoesOn dropComment_lineFeed)
open Grammar.Parser (stop)
open Text.Reader (Round choice_apply)

variable {source : String} {text rest : List Char}

theorem entryPlaceable_follows (source : String) :
    FollowsOnBraces source entryPlaceable Grammar.entryPlaceable :=
  placeable_follows source Grammar.deepestNesting

/-! ## Attributes -/

/-- Reads what follows the point of an attribute. -/
def attributeByName : Parser (String × Pattern) := do
  let name ← Grammar.identifier
  Text.Reader.skipInlineBlank
  Grammar.Parser.expect '='
  Text.Reader.skipInlineBlank
  match ← Grammar.pattern Grammar.entryPlaceable with
  | none => Grammar.Parser.fail .attributeWithoutValue
  | some value =>
    set (Grammar.dropBlankLines (← get))
    return (name, value)

theorem namedPattern_eq_advance : Grammar.namedPattern = (do
    Text.Reader.advance
    attributeByName) := rfl

theorem patternByName_follows : Follows source patternByName attributeByName := by
  refine identifier_follows.bind fun name rest => ?_
  rw [Text.Reader.skipInlineBlank_bind_apply]
  refine .skipInlineBlank (.mono ((expect_follows (by decide) _).bind fun _ rest _ _ => ?_))
  rw [Text.Reader.skipInlineBlank_bind_apply]
  refine .skipInlineBlank (.mono ?_)
  refine (pattern_follows (entryPlaceable_follows source) _).bind fun value next _ _ => ?_
  cases value with
  | none => exact .fail _
  | some value => exact .skipBlankLines (.pure _)

theorem namedPattern_agrees (inside : '.' :: rest <:+ source.toList) :
    Agrees source ('.' :: rest) ('.' :: rest) namedPattern (Grammar.namedPattern ('.' :: rest)) ∧
      stop (Grammar.namedPattern ('.' :: rest)) <:+ rest := by
  have ends := List.suffix_cons '.' rest
  rw [namedPattern_eq_advance, Text.Reader.advance_bind_apply]
  exact ⟨.advance (by decide) (patternByName_follows rest).mono,
    (patternByName_follows rest (ends.trans inside) (List.suffix_refl _)).2⟩

theorem attributeRound_agrees (attributes : Table Pattern) (inside : rest <:+ source.toList) :
    Agrees source rest rest (attributeRound attributes) (Grammar.attributeRound attributes rest) ∧
      Advances rest (Grammar.attributeRound attributes rest) := by
  have ends := List.dropWhile_suffix (l := rest) Text.isInlineBlank
  rw [attributeRound_apply]
  by_cases indented : rest.head? = some ' '
  · by_cases point : (rest.dropWhile Text.isInlineBlank).head? = some '.'
    · obtain ⟨after, starts⟩ := List.head?_eq_some_iff.mp point
      rw [starts] at ends
      obtain ⟨agrees, stops⟩ := namedPattern_agrees (ends.trans inside)
      simp only [if_pos indented, starts, List.head?_cons, if_true]
      constructor
      · refine .peek ?_
        rw [if_pos ((head?_codes (by decide) rest).mpr indented)]
        refine .skipInlineBlank (.peek ?_)
        rw [if_pos ((head?_codes (by decide) _).mpr point), starts]
        exact .mono (agrees.bind fun read next _ _ => .pure _)
      · refine .bind fun read last taken => ?_
        rw [taken] at stops
        have shorter : last.length < ('.' :: after).length :=
          Nat.lt_succ_of_le (List.IsSuffix.length_le stops)
        exact .mono (advances_again shorter) ends
    · simp only [if_pos indented, if_neg point]
      refine ⟨.peek ?_, nofun⟩
      rw [if_pos ((head?_codes (by decide) rest).mpr indented)]
      refine .skipInlineBlank (.peek ?_)
      rw [if_neg (mt (head?_codes (by decide) _).mp point)]
      exact .pure _
  · simp only [if_neg indented]
    refine ⟨.peek ?_, nofun⟩
    rw [if_neg (mt (head?_codes (by decide) rest).mp indented)]
    exact .pure _

theorem attributes?_follows : Follows source attributes? Grammar.attributes? := by
  intro rest
  rw [attributes?_apply]
  refine .peek (.choice (head?_codes (by decide) rest) (fun _ => .get ?_) fun _ => .pure _)
  refine .skipInlineBlank
    (.peek (.choice (head?_codes (by decide) _) (fun _ => ?_) fun _ => .pure _))
  have rounds : Agrees source rest rest (iterate attributeRound ∅)
      (Text.Reader.iterate Grammar.attributeRound ∅ rest) :=
    .iterate (fun attributes _ _ inside => attributeRound_agrees attributes inside) ∅
  exact .moveTo (List.suffix_refl rest) (rounds.bind fun _ _ _ _ => .pure _)

/-! ## Messages -/

theorem messageHead_follows : Follows source messageHead Grammar.messageHead := by
  refine entryIdentifier_follows.bind fun id rest => ?_
  rw [Text.Reader.skipInlineBlank_bind_apply]
  refine .skipInlineBlank (.mono ((expect_follows (by decide) _).bind fun _ rest _ _ => ?_))
  rw [Text.Reader.skipInlineBlank_bind_apply]
  exact .skipInlineBlank (.pure id)

theorem messageTail_follows (id : String) (value : Option Pattern) :
    Follows source (messageTail id value) (Grammar.messageTail id value) := by
  intro rest
  rw [Grammar.messageTail, choice_apply]
  refine .choice Iff.rfl (fun _ => .fail _) fun _ => ?_
  refine (attributes?_follows rest).bind fun attributes next _ _ => ?_
  cases value with
  | none => cases attributes with
    | none => exact .fail _
    | some attributes => exact .pure _
  | some pattern => cases attributes with
    | none => cases pattern with
      | text value => exact .pure _
      | elements parts => exact .pure _
    | some attributes => cases pattern <;> exact .pure _

theorem message_follows : Follows source message Grammar.message := by
  rw [message_eq]
  exact messageHead_follows.bind fun id =>
    (pattern_follows (entryPlaceable_follows source)).bind fun value => messageTail_follows id value

/-! ## Comments -/

/-- A byte that a comment can go on with behind its number sign. -/
theorem steady_comment : Steady fun byte => byte == ' ' || byte == '#' || byte == '\n' :=
  ((steady_beq (by decide)).or (steady_beq (by decide))).or (steady_beq (by decide))

theorem startsComment_eq (text : List Char) :
    Grammar.startsComment ('#' :: text) =
      text.head?.any fun c => c == ' ' || c == '#' || c == '\n' := by
  cases text <;> rfl

theorem startsComment_agrees (rest : List Char) :
    Agrees source rest rest startsComment (.ok (Grammar.startsComment rest, rest)) := by
  refine .peek (.peekSecond ?_)
  by_cases sign : rest.head? = some '#'
  · obtain ⟨after, rfl⟩ := List.head?_eq_some_iff.mp sign
    rw [startsComment_eq, ← any_head?_codes steady_comment, codes_plain (by decide),
      List.getElem?_cons_succ, ← List.head?_eq_getElem?]
    cases (codes after).head? with
    | none => exact .pure _
    | some byte => exact .pure _
  · have none : Grammar.startsComment rest = false := by
      rw [Grammar.startsComment.eq_def]
      split
      · exact absurd rfl sign
      · rfl
    rw [none]
    split
    · exact absurd ((head?_codes (by decide) rest).mp ‹_›) sign
    · exact .pure _

/-- A comment goes on over the rest of its line. -/
theorem dropComment_dropWhile (text : List Char) :
    dropComment (text.dropWhile (· != '\n')) = dropComment text := by
  induction text with
  | nil => rfl
  | cons c text ih =>
    by_cases lineFeed : c = '\n'
    · rw [List.dropWhile_cons_of_neg (by simpa using lineFeed)]
    · rw [List.dropWhile_cons_of_pos (by simpa using lineFeed), ih]
      rw [Grammar.dropComment] <;> simp [lineFeed]

/-- A byte that goes on with a comment behind the number sign of another line. -/
theorem steady_goesOn : Steady fun byte => byte == ' ' || byte == '#' :=
  (steady_beq (by decide)).or (steady_beq (by decide))

theorem commentRound_apply (last : Nat) (offset : Nat) :
    commentRound (some last) source offset =
      if (bytes source)[last + 1]? = some '#' ∧
          (bytes source)[last + 2]?.any (fun byte => byte == ' ' || byte == '#') then
        (do return .again (← findNewline (last + 3)) : Cursor (Round (Option Nat))) source
          (last + 3)
      else .ok (.done (some last), offset) := by
  change (if _ then _ else _ : Cursor _) source offset = _
  split <;> rfl

/-- Whether the comment goes on over the next line. -/
theorem goesOn_iff {next : List Char} (inside : '\n' :: next <:+ source.toList) :
    ((bytes source)[place source ('\n' :: next) + 1]? = some '#' ∧
      (bytes source)[place source ('\n' :: next) + 2]?.any fun byte =>
        byte == ' ' || byte == '#') ↔ GoesOn next := by
  rw [bytes_getElem?_place inside, bytes_getElem?_place inside, codes_plain (by decide),
    List.getElem?_cons_succ, List.getElem?_cons_succ, ← List.head?_eq_getElem?]
  constructor
  · rintro ⟨sign, second⟩
    obtain ⟨after, rfl⟩ := eq_cons_of_head?_codes sign (by decide)
    rw [second_codes (by decide), any_head?_codes steady_goesOn] at second
    cases after with
    | nil => cases second
    | cons c after =>
      refine ⟨c, after, rfl, ?_⟩
      simpa using second
  · rintro ⟨c, after, rfl, h⟩
    rw [second_codes (by decide), any_head?_codes steady_goesOn, codes_plain (by decide)]
    exact ⟨rfl, by simpa using h⟩

/-- The rounds over the lines of a comment end in front of the text behind it. -/
theorem iterate_commentRound (inside : text <:+ source.toList) : ∃ lineEnd stop,
    iterate commentRound (newline? source text) source (place source text) =
      .ok (lineEnd, stop) ∧
    (match lineEnd with
      | some last => last + 1
      | none => source.utf8ByteSize) = place source (dropComment text) := by
  induction hn : text.length using Nat.strongRecOn generalizing text with
  | ind n ih =>
    subst hn
    have ends := List.dropWhile_suffix (l := text) (· != '\n')
    have head := List.head?_dropWhile_not (· != '\n') text
    rw [← dropComment_dropWhile, newline?, iterate]
    cases onward : text.dropWhile (· != '\n') with
    | nil => exact ⟨none, place source text, rfl, rfl⟩
    | cons c next =>
      rw [onward] at ends head
      obtain rfl : c = '\n' := by simpa using head
      have behind := ends.trans inside
      simp only [commentRound_apply]
      by_cases more : GoesOn next
      · rw [if_pos ((goesOn_iff behind).mpr more)]
        obtain ⟨c, after, rfl, h⟩ := more
        have plain : c.toNat < 128 := by
          obtain rfl | rfl := h <;> decide
        have third : place source after = place source ('\n' :: '#' :: c :: after) + 3 := by
          have sign := (List.suffix_cons '\n' _).trans behind
          rw [place_cons plain ((List.suffix_cons '#' _).trans sign), place_cons (by decide) sign,
            place_cons (by decide) behind]
        have goes : dropComment ('\n' :: '#' :: c :: after) = dropComment after := by
          obtain rfl | rfl := h
          · rw [dropComment]
          · rw [dropComment]
        have rest : after <:+ source.toList := List.IsSuffix.trans ⟨['\n', '#', c], rfl⟩ behind
        have shorter : after.length < text.length :=
          Nat.lt_of_lt_of_le (by simp only [List.length_cons]; omega) ends.length_le
        obtain ⟨lineEnd, stop, run, last⟩ := ih after.length shorter rest rfl
        have found : (do return .again (← findNewline (place source after)) :
            Cursor (Round (Option Nat))) source (place source after) =
              .ok (.again (newline? source after), place source after) := by
          rw [bind_apply, findNewline_place rest]
          rfl
        rw [← third, found, goes]
        have later := (place_lt_iff inside rest).mpr shorter
        simp only [if_pos (And.intro later (place_le source after))]
        exact ⟨lineEnd, stop, run, last⟩
      · rw [if_neg (mt (goesOn_iff behind).mp more)]
        refine ⟨some (place source ('\n' :: next)), place source text, rfl, ?_⟩
        rw [dropComment_lineFeed more, place_cons (by decide) behind]

theorem skipComment_agrees (rest : List Char) :
    Agrees source rest rest skipComment (.ok ((), dropComment rest)) := by
  refine .get (.findNewline (List.suffix_refl rest) fun inside _ => ⟨?_, dropComment_suffix rest⟩)
  obtain ⟨lineEnd, stop, run, last⟩ := iterate_commentRound inside
  rw [bind_apply, run]
  simp only [located, ← last]
  cases lineEnd <;> rfl

end Fluent.Cursor
