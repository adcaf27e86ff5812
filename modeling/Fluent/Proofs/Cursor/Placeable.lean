import Fluent.Cursor.Placeable
import Fluent.Proofs.Cursor.Pattern
import Fluent.Proofs.Placeable

/-!
# Placeables by their bytes

The cursors for expressions and placeables follow the parsers for them.
-/

namespace Fluent.Cursor

open Grammar (Failure Parser literal_apply leadChar? argumentRound_apply argumentEnd_close
  argumentEnd_comma argumentEnd_other referenceTail_attribute referenceTail_variant
  referenceTail_call referenceTail_end continuesReference variantRound_starred variantRound_open
  variantRound_end variantAfter selectTail_lineFeed selectTail_return selectTail_other
  placeableTail_close placeableTail_arrow placeableTail_other selectorFault? startsVariantList_eq
  placeableBody_cons)
open Text.Reader (choice_apply)

variable {β : Type} {source : String} {text rest : List Char} {m : Cursor Expression}
  {p : Parser Expression}

theorem steady_continuesReference : Steady continuesReference :=
  ((steady_beq (by decide)).or (steady_beq (by decide))).or (steady_beq (by decide))

/-! ## Expressions -/

theorem Agrees.leadByte {k : Option Char → Cursor β} {result : Except Failure (β × List Char)}
    (h : ∀ lead : Option Char, (∀ pred, Steady pred → lead.any pred = (leadChar? rest).any pred) →
      Agrees source text rest (k lead) result) :
    Agrees source text rest (leadByte >>= k) result := by
  rw [Cursor.leadByte, bind_assoc]
  refine .peek ?_
  by_cases hyphen : rest.head? = some '-'
  · rw [if_pos ((head?_codes (by decide) rest).mpr hyphen)]
    refine .peekSecond (h _ fun pred steady => ?_)
    obtain ⟨rest, rfl⟩ := List.head?_eq_some_iff.mp hyphen
    rw [second_codes (by decide), any_head?_codes steady, leadChar?, if_pos hyphen]
    rfl
  · rw [if_neg (mt (head?_codes (by decide) rest).mp hyphen), pure_bind]
    refine h _ fun pred steady => ?_
    rw [any_head?_codes steady, leadChar?, if_neg hyphen]

theorem literal_follows : Follows source literal Grammar.literal := by
  intro rest
  rw [literal_apply]
  refine .peek (.choice (head?_codes (by decide) rest) (fun sigil => ?_) fun _ => ?_)
  · obtain ⟨rest, rfl⟩ := List.head?_eq_some_iff.mp sigil
    exact .advance (by decide) (.mono ((identifier_follows rest).bind fun name _ _ _ => .pure _))
  · refine .leadByte fun lead same => ?_
    refine .choice (by rw [same _ steady_isAlpha]) (fun _ => ?_) fun _ => ?_
    · exact (entryIdentifier_follows rest).bind fun id _ _ _ => .pure _
    · refine .choice (by rw [same _ steady_isDigit]) (fun _ => ?_) fun _ => ?_
      · exact (number_follows rest).bind fun number _ _ _ => .pure _
      · refine .choice (head?_codes (by decide) rest) (fun quote => ?_) fun _ => .fail _
        obtain ⟨rest, rfl⟩ := List.head?_eq_some_iff.mp quote
        exact (string_agrees '"' (by decide)).bind fun text _ _ _ => .pure _

theorem argumentEnd_agrees (arguments : List Argument) :
    Agrees source rest rest (argumentEnd arguments) (Grammar.argumentEnd arguments rest) := by
  refine .skipBlank (.peek ?_)
  by_cases close : (rest.dropWhile Text.isBlank).head? = some ')'
  · obtain ⟨after, starts⟩ := List.head?_eq_some_iff.mp close
    rw [argumentEnd_close starts, starts, codes_plain (by decide)]
    exact .pure _
  · by_cases comma : (rest.dropWhile Text.isBlank).head? = some ','
    · obtain ⟨after, starts⟩ := List.head?_eq_some_iff.mp comma
      rw [argumentEnd_comma starts, starts, codes_plain (by decide)]
      exact .advance (by decide) (.pure _)
    · rw [argumentEnd_other rfl close comma]
      split
      · exact absurd ((head?_codes (by decide) _).mp ‹_›) close
      · exact absurd ((head?_codes (by decide) _).mp ‹_›) comma
      · exact .fail _

/-- Another argument follows a comma only. -/
theorem argumentEnd_advances (arguments : List Argument) :
    Advances rest (Grammar.argumentEnd arguments rest) := by
  have ends := List.dropWhile_suffix (l := rest) Text.isBlank
  by_cases close : (rest.dropWhile Text.isBlank).head? = some ')'
  · obtain ⟨after, starts⟩ := List.head?_eq_some_iff.mp close
    rw [argumentEnd_close starts]
    exact nofun
  · by_cases comma : (rest.dropWhile Text.isBlank).head? = some ','
    · obtain ⟨after, starts⟩ := List.head?_eq_some_iff.mp comma
      rw [argumentEnd_comma starts]
      rw [starts] at ends
      exact advances_again ends.length_le
    · rw [argumentEnd_other rfl close comma]
      exact nofun

/-- A reader of expressions follows a parser on texts shorter than the bound. -/
def FollowsBelow (source : String) (bound : Nat) (m : Cursor Expression) (p : Parser Expression) :
    Prop :=
  ∀ next, next.length < bound → Agrees source next next m (p next)

section

variable {bound : Nat} (expression : FollowsBelow source bound m p)
include expression

theorem argument_agrees (short : rest.length < bound) :
    Agrees source rest rest (argument m) (Grammar.argument p rest) := by
  refine (expression rest short).bind fun value next ends _ => ?_
  cases value with
  | entryRef name =>
    have unblank := List.dropWhile_suffix (l := next) Text.isInlineBlank
    simp only [Text.Reader.skipInlineBlank_bind_apply, Text.Reader.peek_bind_apply, choice_apply]
    refine .skipInlineBlank (.peek (.choice (head?_codes (by decide) _) (fun colon => ?_) fun _ =>
      .pure _))
    obtain ⟨after, starts⟩ := List.head?_eq_some_iff.mp colon
    rw [starts] at unblank ⊢
    simp only [Text.Reader.advance_bind_apply, Text.Reader.skipBlank_bind_apply, List.drop_one,
      List.tail_cons]
    have shorter : (after.dropWhile Text.isBlank).length < bound := by
      have := ((List.dropWhile_suffix (l := after) Text.isBlank).trans
        ((List.suffix_cons ':' after).trans (unblank.trans ends))).length_le
      omega
    refine .advance (by decide) (.skipBlank (.mono ((expression _ shorter).bind ?_)))
    intro value next _ _
    rw [choice_apply]
    exact .choice Iff.rfl (fun _ => .pure _) fun _ => .fail _
  | _ => exact .pure _

theorem argumentRound_agrees (short : rest.length < bound) (arguments : List Argument)
    (inside : rest <:+ source.toList) :
    Agrees source rest rest (argumentRound m arguments) (Grammar.argumentRound p arguments rest) ∧
      Advances rest (Grammar.argumentRound p arguments rest) := by
  have ends := List.dropWhile_suffix (l := rest) Text.isBlank
  have shorter := ends.length_le.trans_lt short
  have read := argument_agrees expression shorter
  rw [argumentRound_apply]
  constructor
  · have more : place source rest < source.utf8ByteSize ↔ ¬rest.isEmpty = true := by
      rw [← place_nil, place_lt_iff inside List.nil_suffix, List.length_nil, List.length_pos_iff,
        List.isEmpty_iff]
    refine .get (.size ?_)
    by_cases none : rest.isEmpty = true
    · simp only [if_neg (mt more.mp (not_not.mpr none)), if_pos none]
      exact .pure _
    · simp only [if_pos (more.mpr none), if_neg none]
      refine .skipBlank (.peek (.choice (head?_codes (by decide) _) (fun _ => .pure _) fun _ => ?_))
      exact .mono (read.bind fun argument next _ _ => (argumentEnd_agrees _).mono)
  · simp only
    split
    · exact nofun
    · split
      · exact nofun
      · refine .bind fun argument after taken => ?_
        obtain ⟨_, stops⟩ := read (ends.trans inside) (List.suffix_refl _)
        rw [taken] at stops
        exact (argumentEnd_advances _).mono (List.IsSuffix.trans stops ends)

theorem referenceTail_agrees (name : String) (short : rest.length ≤ bound) :
    Agrees source rest rest (referenceTail m name) (Grammar.referenceTail p name rest) := by
  refine .peek ?_
  split
  · rename_i next
    obtain ⟨rest, rfl⟩ := eq_cons_of_head?_codes next (by decide)
    rw [referenceTail_attribute]
    exact .advance (by decide) (.mono ((identifier_follows rest).bind fun _ _ _ _ => .pure _))
  · rename_i next
    obtain ⟨rest, rfl⟩ := eq_cons_of_head?_codes next (by decide)
    rw [referenceTail_variant]
    exact .advance (by decide) (.mono ((variantKey_follows rest).bind fun _ _ _ _ => .pure _))
  · rename_i next
    obtain ⟨rest, rfl⟩ := eq_cons_of_head?_codes next (by decide)
    rw [referenceTail_call]
    have rounds : Agrees source rest rest (iterate (argumentRound m) [])
        (Text.Reader.iterate (Grammar.argumentRound p) [] rest) :=
      .iterate (fun arguments next ends inside =>
        argumentRound_agrees expression (ends.length_le.trans_lt short) arguments inside) []
    refine .advance (by decide) (.mono (rounds.bind fun arguments next _ _ => ?_))
    rw [choice_apply]
    refine .choice Iff.rfl (fun _ => ?_) fun _ => .fail _
    exact .mono ((expect_follows (by decide) next).bind fun _ _ _ _ => .pure _)
  · rename_i noAttribute noVariant noCall
    rw [referenceTail_end]
    · exact .pure _
    · rw [← any_head?_codes steady_continuesReference]
      cases head : (codes rest).head? with
      | none => rfl
      | some byte =>
        simp only [Option.any_some, continuesReference, Bool.or_eq_false_iff, beq_eq_false_iff_ne]
        refine ⟨⟨?_, ?_⟩, ?_⟩ <;> rintro rfl
        · exact noAttribute head
        · exact noVariant head
        · exact noCall head

end

/-- Reads what follows the bracket of a variant. -/
def patternByKey (placeable : Parser Expression) : Parser Variant := do
  let key ← Grammar.variantKey
  Text.Reader.skipInlineBlank
  match ← Grammar.pattern placeable with
  | none => Grammar.Parser.fail .variantWithoutValue
  | some value =>
    Text.Reader.skipBlank
    return .mk key value

theorem variant_eq : Grammar.variant p = (do
    Grammar.Parser.expect '['
    patternByKey p) := rfl

section

variable (placeable : FollowsOnBraces source m p)
include placeable

theorem inlineExpression_follows :
    Follows source (inlineExpression m) (Grammar.inlineExpression p) := by
  refine Agrees.recursive fun rest m' p' below => ?_
  rw [Grammar.inlineStep, Text.Reader.peek_bind_apply, choice_apply]
  refine .peek (.choice (head?_codes (by decide) rest) (fun brace => ?_) fun _ => ?_)
  · obtain ⟨rest, rfl⟩ := List.head?_eq_some_iff.mp brace
    exact placeable.agrees rest
  · refine (literal_follows rest).bind fun value next ends _ => ?_
    cases value with
    | entryRef name => exact (referenceTail_agrees below name ends.length_le).mono
    | _ => exact .pure _

/-! ## Variants -/

theorem keyedPattern_follows : Follows source (keyedPattern m) (patternByKey p) := by
  refine variantKey_follows.bind fun key rest => ?_
  rw [Text.Reader.skipInlineBlank_bind_apply]
  refine .skipInlineBlank (.mono ((pattern_follows placeable _).bind fun value next _ _ => ?_))
  cases value with
  | none => exact .fail _
  | some value => exact .skipBlank (.pure _)

theorem variant_follows : Follows source (variant m) (Grammar.variant p) :=
  (expect_follows (by decide)).bind fun _ => keyedPattern_follows placeable

/-- A variant uses up its bracket. -/
theorem variant_shorter {read : Variant} {next : List Char} (inside : rest <:+ source.toList)
    (found : Grammar.variant p rest = .ok (read, next)) : next.length < rest.length := by
  rw [variant_eq, Text.Reader.bind_apply, Grammar.Parser.expect_apply] at found
  split at found
  · rename_i after opened
    split at opened
    · rename_i bracket
      cases opened
      obtain ⟨after, rfl⟩ := List.head?_eq_some_iff.mp bracket
      obtain ⟨_, stops⟩ := keyedPattern_follows placeable after
        ((List.suffix_cons _ _).trans inside) (List.suffix_refl _)
      rw [List.drop_one, List.tail_cons] at found
      rw [found] at stops
      exact Nat.lt_succ_of_le (List.IsSuffix.length_le stops)
    · cases opened
  · cases found

theorem variantAfter_agrees (read : List Variant × Option Nat) (starred : Bool)
    (inside : rest <:+ source.toList) :
    Agrees source rest rest (do
      let read' ← variant m
      return .again (read.1 ++ [read'], if starred then some read.1.length else read.2) : Cursor _)
      (variantAfter p read starred rest) ∧ Advances rest (variantAfter p read starred rest) := by
  exact ⟨(variant_follows placeable rest).bind fun _ _ _ _ => .pure _,
    .bind fun variant next taken => advances_again (variant_shorter placeable inside taken)⟩

theorem variantRound_agrees (read : List Variant × Option Nat) (inside : rest <:+ source.toList) :
    Agrees source rest rest (variantRound m read) (Grammar.variantRound p read rest) ∧
      Advances rest (Grammar.variantRound p read rest) := by
  by_cases star : rest.head? = some '*'
  · obtain ⟨rest, rfl⟩ := List.head?_eq_some_iff.mp star
    obtain ⟨agrees, advances⟩ :=
      variantAfter_agrees placeable read true ((List.suffix_cons _ _).trans inside)
    rw [variantRound_starred]
    refine ⟨.peek ?_, advances.mono (List.suffix_cons '*' rest)⟩
    rw [codes_plain (by decide)]
    exact .advance (by decide) agrees.mono
  · have noStar := mt (head?_codes (by decide) rest).mp star
    by_cases bracket : ∃ after, rest = '[' :: after ∧ after.head? ≠ some '['
    · obtain ⟨after, rfl, single⟩ := bracket
      obtain ⟨agrees, advances⟩ := variantAfter_agrees placeable read false inside
      rw [variantRound_open read single]
      refine ⟨.peek ?_, advances⟩
      rw [codes_plain (by decide)]
      refine .peekSecond ?_
      rw [second_codes (by decide), if_neg (mt (head?_codes (by decide) after).mp single)]
      exact agrees
    · have ended : ∀ after, rest = '[' :: after → after.head? = some '[' := by
        intro after starts
        by_contra single
        exact bracket ⟨after, starts, single⟩
      rw [variantRound_end read star ended]
      refine ⟨.peek ?_, nofun⟩
      split
      · exact absurd ‹_› noStar
      · rename_i bracket
        obtain ⟨after, rfl⟩ := eq_cons_of_head?_codes bracket (by decide)
        refine .peekSecond ?_
        rw [second_codes (by decide),
          if_pos ((head?_codes (by decide) after).mpr (ended after rfl))]
        exact .pure _
      · exact .pure _

theorem variants_follows : Follows source (variants m) (Grammar.variants p) := fun _ =>
  .iterate (fun read _ _ inside => variantRound_agrees placeable read inside) ([], none)

end

/-! ## Placeables -/

theorem closePlaceable_follows : Follows source closePlaceable Grammar.closePlaceable := by
  intro rest
  rw [Grammar.closePlaceable, Text.Reader.skipBlank_bind_apply]
  exact .skipBlank (expect_follows (by decide) _).mono

theorem Agrees.skipReturn_pos {k : Unit → Cursor β} {result : Except Failure (β × List Char)}
    (h : Agrees source text ('\n' :: rest) (k ()) result) :
    Agrees source text ('\r' :: '\n' :: rest) (skipReturn >>= k) result := by
  rw [skipReturn, bind_assoc]
  refine .peek ?_
  rw [bind_assoc]
  refine .peekSecond ?_
  rw [if_pos ((twoBytes_codes (by decide) (by decide)).mpr ⟨rest, rfl⟩)]
  exact .advance (by decide) h

theorem Agrees.skipReturn_neg {k : Unit → Cursor β} {result : Except Failure (β × List Char)}
    (other : ∀ next, rest ≠ '\r' :: '\n' :: next) (h : Agrees source text rest (k ()) result) :
    Agrees source text rest (skipReturn >>= k) result := by
  rw [Cursor.skipReturn, bind_assoc]
  refine .peek ?_
  rw [bind_assoc]
  refine .peekSecond ?_
  rw [if_neg fun lineEnd => ?_, pure_bind]
  · exact h
  · obtain ⟨next, rfl⟩ := (twoBytes_codes (by decide) (by decide)).mp lineEnd
    exact other next rfl

theorem startsVariantList_agrees (rest : List Char) :
    Agrees source rest rest startsVariantList
      (.ok (rest.head? == some '*' || rest.head? == some '[' && (rest.drop 1).head? != some ']',
        rest)) := by
  refine .peek (.peekSecond ?_)
  split
  · rename_i star
    rw [(head?_codes (by decide) rest).mp star]
    exact .pure _
  · rename_i bracket
    obtain ⟨after, rfl⟩ := eq_cons_of_head?_codes bracket (by decide)
    have same : ((codes after).head? != some ']') = (after.head? != some ']') := by
      rw [Bool.eq_iff_iff, bne_iff_ne, bne_iff_ne]
      exact not_congr (head?_codes (by decide) after)
    rw [second_codes (by decide), same]
    exact .pure _
  · rename_i noStar noBracket
    have star : (rest.head? == some '*') = false :=
      beq_false_of_ne fun h => noStar ((head?_codes (by decide) rest).mpr h)
    have bracket : (rest.head? == some '[') = false :=
      beq_false_of_ne fun h => noBracket ((head?_codes (by decide) rest).mpr h)
    rw [star, bracket]
    exact .pure _

section

variable (placeable : FollowsOnBraces source m p)
include placeable

theorem selectMembers_follows (selector : Expression) :
    Follows source (selectMembers m selector) (Grammar.selectMembers p selector) := by
  refine (variants_follows placeable).bind fun read rest => ?_
  obtain ⟨members, standard⟩ := read
  dsimp only
  rw [choice_apply]
  refine .choice Iff.rfl (fun _ => .fail _) fun _ => ?_
  exact (closePlaceable_follows rest).bind fun _ _ _ _ => .pure _

theorem membersBelow_agrees (selector : Expression) :
    Agrees source text ('\n' :: rest) (membersBelow m selector)
      (Grammar.selectMembers p selector (rest.dropWhile Text.isBlank)) := by
  refine .peek ?_
  rw [codes_plain (by decide), List.head?_cons, if_pos rfl]
  exact .skipBlank (selectMembers_follows placeable selector _).mono

theorem selectTail_follows (selector : Expression) :
    Follows source (selectTail m selector) (Grammar.selectTail p selector) := by
  intro rest
  refine .skipInlineBlank ?_
  generalize starts : rest.dropWhile Text.isInlineBlank = next
  by_cases lineFeed : next.head? = some '\n'
  · obtain ⟨after, rfl⟩ := List.head?_eq_some_iff.mp lineFeed
    rw [selectTail_lineFeed starts]
    exact .skipReturn_neg nofun (membersBelow_agrees placeable selector)
  · by_cases lineEnd : ∃ after, next = '\r' :: '\n' :: after
    · obtain ⟨after, rfl⟩ := lineEnd
      rw [selectTail_return starts]
      exact .skipReturn_pos (membersBelow_agrees placeable selector)
    · have noReturn : ∀ after, next ≠ '\r' :: '\n' :: after := fun after h => lineEnd ⟨after, h⟩
      rw [selectTail_other starts lineFeed noReturn]
      refine .skipReturn_neg noReturn (.peek ?_)
      rw [if_neg (mt (head?_codes (by decide) next).mp lineFeed)]
      exact .fail _

theorem placeableTail_follows (inner : Expression) :
    Follows source (placeableTail m inner) (Grammar.placeableTail p inner) := by
  intro rest
  refine .skipBlank (.peek (.peekSecond ?_))
  generalize starts : rest.dropWhile Text.isBlank = next
  split
  · rename_i brace
    obtain ⟨after, rfl⟩ := eq_cons_of_head?_codes brace (by decide)
    rw [placeableTail_close starts]
    exact .choice Iff.rfl (fun _ => .fail _) fun _ => .advance (by decide) (.pure _)
  · rename_i hyphen arrow
    obtain ⟨after, rfl⟩ := (twoBytes_codes (by decide) (by decide)).mp ⟨hyphen, arrow⟩
    rw [placeableTail_arrow starts]
    cases selectorFault? inner with
    | some fault => exact .fail fault
    | none =>
      exact .advanceTwo (by decide) (by decide) (selectTail_follows placeable inner after).mono
  · rename_i noBrace noArrow
    rw [placeableTail_other starts]
    · exact .fail _
    · exact fun brace => noBrace ((head?_codes (by decide) next).mpr brace)
    · rintro after rfl
      obtain ⟨hyphen, arrow⟩ :=
        (twoBytes_codes (c := '-') (d := '>') (by decide) (by decide)).mpr ⟨after, rfl⟩
      exact noArrow hyphen arrow

theorem placeableContent_agrees :
    Agrees source rest rest (placeableContent m)
      (if Grammar.startsVariantList rest then (do
        let (members, standard) ← Grammar.variants p
        Grammar.closePlaceable
        return .variantList members standard : Parser _) (rest.dropWhile Text.isBlank)
      else (do Grammar.placeableTail p (← Grammar.inlineExpression p) : Parser _)
        (rest.dropWhile Text.isInlineBlank)) := by
  refine .get (.skipBlank (.step_of (startsVariantList_agrees _) ?_))
  rw [← startsVariantList_eq rfl]
  refine .choice Iff.rfl (fun _ => ?_) fun _ => ?_
  · refine .mono ((variants_follows placeable _).bind fun read next _ _ => ?_)
    obtain ⟨members, standard⟩ := read
    exact (closePlaceable_follows next).mono.bind fun _ _ _ _ => .pure _
  · refine .moveTo (List.suffix_refl rest) (.skipInlineBlank (.mono ?_))
    exact (inlineExpression_follows placeable _).bind fun inner next _ _ =>
      (placeableTail_follows placeable inner next).mono

end

theorem placeable_follows (source : String) (room : Nat) :
    FollowsOnBraces source (placeable room) (Grammar.placeable room) := by
  induction room with
  | zero => exact ⟨fun rest => .fail _, nofun⟩
  | succ room ih =>
    refine ⟨fun rest => ?_, fun rest read next inside found => ?_⟩
    · rw [Grammar.placeable, placeableBody_cons]
      exact .advance (by decide) (placeableContent_agrees ih).mono
    · rw [Grammar.placeable, placeableBody_cons] at found
      obtain ⟨_, stops⟩ := placeableContent_agrees ih
        ((List.suffix_cons _ _).trans inside) (List.suffix_refl _)
      rw [found] at stops
      exact Nat.lt_succ_of_le (List.IsSuffix.length_le stops)

end Fluent.Cursor
