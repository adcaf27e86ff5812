import Fluent.Proofs.Extension.Placeable
import Fluent.Proofs.Transcription.Entry

/-!
# Entries in front of more text

An entry that is read from a text which ends with a line is read the same when an unindented text
follows, even where nothing of its own text is left.

* `message_extends`: the property for messages and terms.
-/

namespace Fluent.Grammar

open Fluent.Grammar.Parser Fluent.Text.Reader

variable {tail text : List Char}

theorem keeps_messageHead : Keeps tail messageHead messageHead := by
  refine keeps_entryIdentifier.bind fun id => keeps_skipInlineBlank.bind fun _ => ?_
  exact (keeps_expect '=').bind fun _ => keeps_skipInlineBlank.bind fun _ => keeps_pure id

theorem messageHead_ne_nil {rest : List Char} {id : String} (he : EndsLines text)
    (h : messageHead text = .ok (id, rest)) : text ≠ [] ∧ rest ≠ [] := by
  have hn : text ≠ [] := by
    rintro rfl
    exact absurd (messageHead_length_lt h) (Nat.not_lt_zero _)
  have hagree := Transcription.messageHead_agree (Transcription.inside_of_endsLines he hn)
  exact ⟨hn, (hagree.post_of_ok h).nonempty rfl⟩

/-- Reads the name of an attribute, the point of which is next, and the equals sign behind it. -/
def attributeHead : Parser String := do
  advance
  let name ← identifier
  skipInlineBlank
  expect '='
  skipInlineBlank
  return name

theorem keeps_attributeHead : Keeps tail attributeHead attributeHead := by
  refine keeps_advance.bind fun _ => keeps_identifier.bind fun name => ?_
  refine keeps_skipInlineBlank.bind fun _ => (keeps_expect '=').bind fun _ => ?_
  exact keeps_skipInlineBlank.bind fun _ => keeps_pure name

theorem attributeHead_agree {T : Transcription} (h : T.Inside ('.' :: text)) :
    T.Agree ('.' :: text) (fun _ => T.Inside) (attributeHead ('.' :: text))
      (attributeHead (T.apply ('.' :: text))) := by
  rw [Transcription.apply_cons (by decide), attributeHead, advance_bind_apply, advance_bind_apply]
  refine Transcription.Agree.mono ?_ (List.suffix_cons '.' text) fun _ _ => id
  refine (Transcription.identifier_agree (h.next (by decide))).bind fun name _ _ h => ?_
  refine (Transcription.skipInlineBlank_agree h).bind fun _ _ _ h => ?_
  refine (Transcription.expect_agree h (by decide) (by decide)).bind fun _ _ _ h => ?_
  refine (Transcription.skipInlineBlank_agree h).bind fun _ _ _ h => ?_
  exact Transcription.pure_agree h

/-- Reads the value of an attribute and the blank lines after it. -/
def attributeBody (name : String) : Parser (String × Pattern) := do
  match ← pattern entryPlaceable with
  | none => fail .attributeWithoutValue
  | some value =>
    set (dropBlankLines (← get))
    return (name, value)

theorem namedPattern_eq : namedPattern = attributeHead >>= attributeBody := by
  simp only [namedPattern, attributeHead, bind_assoc, pure_bind]
  rfl

section

variable (ht : Unindented tail)

include ht

theorem entryPattern_extends (he : EndsLines text) (hn : text ≠ []) :
    ExtendsAt tail text (pattern entryPlaceable text) (pattern entryPlaceable (text ++ tail)) :=
  pattern_extends ht (keeps_placeable ht deepestNesting)
    (Transcription.placeable_agree _ deepestNesting) he hn

theorem namedPattern_extends (he : EndsLines ('.' :: text)) :
    ExtendsAt tail ('.' :: text) (namedPattern ('.' :: text))
      (namedPattern ('.' :: (text ++ tail))) := by
  have hagree := attributeHead_agree
    (Transcription.inside_of_endsLines he (List.cons_ne_nil '.' text))
  have hhead : ExtendsAt tail ('.' :: text) (attributeHead ('.' :: text))
      (attributeHead ('.' :: (text ++ tail))) :=
    (keeps_attributeHead _ he).extendsAt fun _ _ hx => (hagree.post_of_ok hx).nonempty rfl
  rw [namedPattern_eq]
  refine hhead.bind fun name rest hx hs => ?_
  have hn : rest ≠ [] := (hagree.post_of_ok hx).nonempty rfl
  refine (entryPattern_extends ht (he.suffix hs) hn).bind fun value rest _ _ => ?_
  cases value with
  | none => exact extendsAt_error
  | some value =>
    simp only [get_bind_apply, set_bind_apply, dropBlankLines_append ht]
    exact extendsAt_ok (dropBlankLines_suffix rest)

omit ht in
/-- Whether an attribute starts on an indented line shows in the text. -/
theorem dropWhile_isInlineBlank_append (he : EndsLines text) (hc : text.head? = some ' ') :
    (text ++ tail).dropWhile Text.isInlineBlank = text.dropWhile Text.isInlineBlank ++ tail ∧
      ((text.dropWhile Text.isInlineBlank ++ tail).head? = some '.' ↔
        (text.dropWhile Text.isInlineBlank).head? = some '.') := by
  have hn : text ≠ [] := by
    rintro rfl
    cases hc
  have hd := he.dropWhile_ne_nil Text.isInlineBlank hn rfl
  exact ⟨dropWhile_append_of_ne_nil hd, by rw [List.head?_append_of_ne_nil _ hd]⟩

theorem attributeRound_extends (attributes : Table Pattern) (he : EndsLines text) :
    ExtendsAt tail text (attributeRound attributes text)
      (attributeRound attributes (text ++ tail)) := by
  have hs := List.dropWhile_suffix (l := text) Text.isInlineBlank
  rw [attributeRound_apply, attributeRound_apply]
  simp only [head?_append_eq_space ht]
  by_cases hc : text.head? = some ' '
  · obtain ⟨hd, hpoint⟩ := dropWhile_isInlineBlank_append he hc
    rw [if_pos hc, if_pos hc, hd]
    simp only [hpoint]
    by_cases hp : (text.dropWhile Text.isInlineBlank).head? = some '.'
    · obtain ⟨rest, hr⟩ := List.head?_eq_some_iff.mp hp
      rw [if_pos hp, if_pos hp, hr]
      rw [hr] at hs
      refine ExtendsAt.mono (ExtendsAt.bind (namedPattern_extends ht (he.suffix hs)) ?_) hs
      exact fun read rest _ _ => extendsAt_ok (List.suffix_refl _)
    · rw [if_neg hp, if_neg hp]
      exact extendsAt_ok hs
  · rw [if_neg hc, if_neg hc]
    exact extendsAt_ok (List.suffix_refl _)

theorem attributes_extends (he : EndsLines text) :
    ExtendsAt tail text (iterate attributeRound ∅ text) (iterate attributeRound ∅ (text ++ tail)) :=
  ExtendsAt.iterate (fun _ => True)
    (fun attributes _ hs _ => attributeRound_extends ht attributes (he.suffix hs))
    (fun _ _ _ _ _ _ _ => trivial) trivial ∅

theorem attributes?_extends (he : EndsLines text) :
    ExtendsAt tail text (attributes? text) (attributes? (text ++ tail)) := by
  rw [attributes?_apply, attributes?_apply]
  simp only [head?_append_eq_space ht]
  by_cases hc : text.head? = some ' '
  · obtain ⟨hd, hpoint⟩ := dropWhile_isInlineBlank_append he hc
    rw [if_pos hc, if_pos hc, hd]
    simp only [hpoint]
    refine ExtendsAt.choice ?_ (extendsAt_ok (List.dropWhile_suffix _))
    exact (attributes_extends ht he).bind fun _ _ _ _ => extendsAt_ok (List.suffix_refl _)
  · rw [if_neg hc, if_neg hc]
    exact extendsAt_ok (List.suffix_refl _)

theorem messageTail_extends (id : String) (value : Option Pattern) (he : EndsLines text) :
    ExtendsAt tail text (messageTail id value text) (messageTail id value (text ++ tail)) := by
  rw [messageTail, choice_apply, choice_apply]
  refine extendsAt_error.choice ?_
  refine (attributes?_extends ht he).bind fun attributes rest _ _ => ?_
  obtain - | value := value
  · cases attributes with
    | none => exact extendsAt_error
    | some attributes => exact extendsAt_ok (List.suffix_refl _)
  · cases value <;> cases attributes <;> exact extendsAt_ok (List.suffix_refl _)

/-- An entry ends where its text ends with a line, whatever comes next. -/
theorem message_extends (he : EndsLines text) :
    ExtendsAt tail text (message text) (message (text ++ tail)) := by
  have hhead : ExtendsAt tail text (messageHead text) (messageHead (text ++ tail)) :=
    (keeps_messageHead text he).extendsAt fun _ _ hx => (messageHead_ne_nil he hx).2
  rw [message_eq]
  refine hhead.bind fun id rest hx hs => ?_
  have hn := (messageHead_ne_nil he hx).2
  refine (entryPattern_extends ht (he.suffix hs) hn).bind fun value after _ hs' => ?_
  exact messageTail_extends ht id value ((he.suffix hs).suffix hs')

end

end Fluent.Grammar
