import Fluent.Grammar.Placeable
import Fluent.Proofs.Pattern

/-!
# What the placeable readers do to a text

Equations for the readers of inline expressions and placeables, by the character that is next.
-/

namespace Fluent.Grammar

open Fluent.Grammar.Parser Fluent.Text.Reader

/-- The first character of a text, or the one after its hyphen. -/
def leadChar? (text : List Char) : Option Char :=
  if text.head? = some '-' then (text.drop 1).head? else text.head?

theorem literal_apply (text : List Char) :
    literal text =
      if text.head? = some '$' then
        (do return .variableRef (← identifier) : Parser _) (text.drop 1)
      else if (leadChar? text).any Char.isAlpha then
        (do return .entryRef (← entryIdentifier) : Parser _) text
      else if (leadChar? text).any Char.isDigit then
        (do return .number (← number) : Parser _) text
      else if text.head? = some '"' then (do return .string (← string) : Parser _) text
      else .error ⟨.expectedLiteral, text⟩ := by
  simp only [literal, get_bind_apply, choice_apply, advance_bind_apply, fail_apply]
  rfl

section

variable {expression placeable : Parser Expression} {name : String} {text rest : List Char}

/-- Reads what follows an argument: the end of the arguments, or a comma. -/
def argumentEnd (arguments : List Argument) : Parser (Round (List Argument)) := do
  skipBlank
  match ← peek with
  | some ')' => return .done arguments
  | some ',' =>
    advance
    return .again arguments
  | _ => fail .expectedCallSeparator

theorem argumentEnd_close {arguments : List Argument}
    (h : text.dropWhile Text.isBlank = ')' :: rest) :
    argumentEnd arguments text = .ok (.done arguments, ')' :: rest) := by
  rw [argumentEnd, skipBlank_bind_apply, h]
  rfl

theorem argumentEnd_comma {arguments : List Argument}
    (h : text.dropWhile Text.isBlank = ',' :: rest) :
    argumentEnd arguments text = .ok (.again arguments, rest) := by
  rw [argumentEnd, skipBlank_bind_apply, h]
  rfl

theorem argumentEnd_other {arguments : List Argument} (h : text.dropWhile Text.isBlank = rest)
    (hc : rest.head? ≠ some ')') (ha : rest.head? ≠ some ',') :
    argumentEnd arguments text = .error ⟨.expectedCallSeparator, rest⟩ := by
  rw [argumentEnd, skipBlank_bind_apply, h, peek_bind_apply]
  cases rest with
  | nil => rfl
  | cons c rest => simp_all

theorem argumentRound_apply (arguments : List Argument) :
    argumentRound expression arguments text =
      let rest := text.dropWhile Text.isBlank
      if text.isEmpty then .ok (.done arguments, text)
      else if rest.head? = some ')' then .ok (.done arguments, rest)
      else (do argumentEnd (arguments ++ [← argument expression]) : Parser _) rest := by
  simp only [argumentRound, get_bind_apply, choice_apply, skipBlank_bind_apply, peek_bind_apply,
    pure_apply]
  rfl

theorem referenceTail_attribute :
    referenceTail expression name ('.' :: rest) =
      (do return .attributeRef name (← identifier) : Parser _) rest := rfl

theorem referenceTail_variant :
    referenceTail expression name ('[' :: rest) =
      (do return .variantRef name (← variantKey) : Parser _) rest := rfl

theorem referenceTail_call :
    referenceTail expression name ('(' :: rest) = (do
      let arguments ← iterate (argumentRound expression) []
      if isFunctionName name then
        expect ')'
        return .call name arguments
      else fail .functionNameNotUppercase : Parser _) rest := rfl

/-- A character that a reference goes on with. -/
def continuesReference (c : Char) : Bool := c == '.' || c == '[' || c == '('

theorem referenceTail_end (h : text.head?.any continuesReference = false) :
    referenceTail expression name text = .ok (.entryRef name, text) := by
  rw [referenceTail, peek_bind_apply]
  cases text with
  | nil => rfl
  | cons c rest =>
    simp only [List.head?_cons, Option.any_some, continuesReference, Bool.or_eq_false_iff,
      beq_eq_false_iff_ne] at h
    simp [h]

theorem inlineExpression_apply :
    inlineExpression placeable text = inlineStep placeable (fun rest =>
      if rest.length < text.length then inlineExpression placeable rest
      else .error ⟨.expectedLiteral, rest⟩) text := by
  rw [inlineExpression, recursive]

theorem inlineExpression_nil :
    inlineExpression placeable [] = .error ⟨.expectedLiteral, []⟩ := by
  rw [inlineExpression_apply]
  rfl

/-- Reads a variant, without its star, and the blank text after it. -/
def variant (placeable : Parser Expression) : Parser Variant := do
  expect '['
  let key ← variantKey
  skipInlineBlank
  match ← pattern placeable with
  | none => fail .variantWithoutValue
  | some value =>
    skipBlank
    return .mk key value

/-- Reads a variant and puts it behind those that were read. -/
def variantAfter (placeable : Parser Expression) (read : List Variant × Option Nat)
    (starred : Bool) : Parser (Round (List Variant × Option Nat)) := do
  let variant ← variant placeable
  return .again (read.1 ++ [variant], if starred then some read.1.length else read.2)

theorem variantAfter_eq (read : List Variant × Option Nat) (starred : Bool) :
    variantAfter placeable read starred = (do
      expect '['
      let key ← variantKey
      skipInlineBlank
      match ← pattern placeable with
      | none => fail .variantWithoutValue
      | some value =>
        skipBlank
        return .again (read.1 ++ [.mk key value],
          if starred then some read.1.length else read.2)) := by
  simp only [variantAfter, variant, bind_assoc]
  refine bind_congr fun _ => bind_congr fun key => bind_congr fun _ => bind_congr fun value => ?_
  cases value <;> rfl

theorem variantRound_starred (read : List Variant × Option Nat) :
    variantRound placeable read ('*' :: rest) = variantAfter placeable read true rest := by
  rw [variantAfter_eq]
  rfl

theorem variantRound_open (read : List Variant × Option Nat) (h : rest.head? ≠ some '[') :
    variantRound placeable read ('[' :: rest) =
      variantAfter placeable read false ('[' :: rest) := by
  rw [variantAfter_eq, variantRound, get_bind_apply, choice_apply, if_pos (.inr ⟨rfl, h⟩)]
  rfl

theorem variantRound_end (read : List Variant × Option Nat) (hs : text.head? ≠ some '*')
    (ho : ∀ rest, text = '[' :: rest → rest.head? = some '[') :
    variantRound placeable read text = .ok (.done read, text) := by
  rw [variantRound, get_bind_apply, choice_apply, if_neg, pure_apply]
  rintro (h | ⟨h, h'⟩)
  · exact hs (by simpa using h)
  · obtain ⟨rest, rfl⟩ := List.head?_eq_some_iff.mp h
    exact h' (ho rest rfl)

/-- Reads the variants of a select expression and the brace behind them. -/
def selectMembers (placeable : Parser Expression) (selector : Expression) : Parser Expression := do
  let (members, standard) ← variants placeable
  if members.isEmpty then fail .missingVariants
  else
    closePlaceable
    return .select selector members standard

theorem selectTail_lineFeed {selector : Expression}
    (h : text.dropWhile Text.isInlineBlank = '\n' :: rest) :
    selectTail placeable selector text =
      selectMembers placeable selector (rest.dropWhile Text.isBlank) := by
  rw [selectTail, skipInlineBlank_bind_apply, h]
  rfl

theorem selectTail_return {selector : Expression}
    (h : text.dropWhile Text.isInlineBlank = '\r' :: '\n' :: rest) :
    selectTail placeable selector text =
      selectMembers placeable selector (rest.dropWhile Text.isBlank) := by
  rw [selectTail, skipInlineBlank_bind_apply, h]
  rfl

theorem selectTail_other {selector : Expression}
    (h : text.dropWhile Text.isInlineBlank = rest) (hl : rest.head? ≠ some '\n')
    (hr : ∀ next, rest ≠ '\r' :: '\n' :: next) :
    selectTail placeable selector text = .error ⟨.variantsOnNewLine, rest⟩ := by
  rw [selectTail, skipInlineBlank_bind_apply, h, get_bind_apply]
  split
  · exact absurd rfl (hr _)
  · change (peek >>= _) rest = _
    rw [peek_bind_apply, choice_apply, if_neg hl, fail_apply]

theorem placeableTail_close {inner : Expression}
    (h : text.dropWhile Text.isBlank = '}' :: rest) :
    placeableTail placeable inner text =
      if isTermAttribute inner then .error ⟨.termAttributeAsPlaceable, '}' :: rest⟩
      else .ok (inner, rest) := by
  rw [placeableTail, skipBlank_bind_apply, h]
  exact choice_apply _ _ _ _

theorem placeableTail_arrow {inner : Expression}
    (h : text.dropWhile Text.isBlank = '-' :: '>' :: rest) :
    placeableTail placeable inner text =
      match selectorFault? inner with
      | some fault => .error ⟨fault, '-' :: '>' :: rest⟩
      | none => selectTail placeable inner rest := by
  rw [placeableTail, skipBlank_bind_apply, h, get_bind_apply]
  cases selectorFault? inner <;> rfl

theorem placeableTail_other {inner : Expression} (h : text.dropWhile Text.isBlank = rest)
    (hc : rest.head? ≠ some '}') (ha : ∀ next, rest ≠ '-' :: '>' :: next) :
    placeableTail placeable inner text = .error ⟨.expectedSelectorEnd, rest⟩ := by
  rw [placeableTail, skipBlank_bind_apply, h, get_bind_apply]
  split
  · exact absurd rfl hc
  · exact absurd rfl (ha _)
  · rfl

theorem startsVariantList_eq (h : text.dropWhile Text.isBlank = rest) :
    startsVariantList text =
      (rest.head? == some '*' || rest.head? == some '[' && (rest.drop 1).head? != some ']') := by
  rw [startsVariantList, h]
  split
  · rfl
  · rfl
  · cases rest with
    | nil => rfl
    | cons c rest => simp_all

theorem placeableBody_cons (c : Char) :
    placeableBody placeable (c :: text) =
      if startsVariantList text then (do
        let (members, standard) ← variants placeable
        closePlaceable
        return .variantList members standard : Parser _) (text.dropWhile Text.isBlank)
      else (do placeableTail placeable (← inlineExpression placeable) : Parser _)
        (text.dropWhile Text.isInlineBlank) := by
  rw [placeableBody, advance_bind_apply, get_bind_apply, choice_apply]
  rfl

end

end Fluent.Grammar
