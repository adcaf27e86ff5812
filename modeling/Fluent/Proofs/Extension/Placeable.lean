import Fluent.Proofs.Extension.Pattern
import Fluent.Proofs.Transcription.Placeable

/-!
# Placeables in front of more text

A placeable ends with its brace, so it is read the same whatever comes after the text that it is
found in.

* `keeps_inlineExpression`: inline expressions, which a call has among its arguments;
* `keeps_placeable`: placeables, by the room that is left for braces.
-/

namespace Fluent.Grammar

open Fluent.Grammar.Parser Fluent.Text.Reader

variable {tail text : List Char}

theorem EndsLines.leadChar?_append (he : EndsLines text) (hn : text ≠ []) :
    leadChar? (text ++ tail) = leadChar? text := by
  obtain ⟨c, rest, rfl⟩ := List.exists_cons_of_ne_nil hn
  by_cases hc : c = '-'
  · subst hc
    obtain ⟨d, rest, rfl⟩ := List.exists_cons_of_ne_nil (he.next_ne_nil (by decide))
    rfl
  · simp [leadChar?, hc]

theorem keeps_literal : Keeps tail literal literal := by
  refine keeps_of_cons (fun _ _ h => by cases h) fun c text he => ?_
  have hlead : leadChar? (c :: (text ++ tail)) = leadChar? (c :: text) :=
    he.leadChar?_append (List.cons_ne_nil c text)
  rw [literal_apply, literal_apply, hlead]
  refine ((keeps_identifier.bind fun _ => keeps_pure _) text he.next).mono (List.suffix_cons _ _)
    |>.choice ?_
  refine ((keeps_entryIdentifier.bind fun _ => keeps_pure _) (c :: text) he).choice ?_
  refine ((keeps_number.bind fun _ => keeps_pure _) (c :: text) he).choice ?_
  exact ((keeps_string.bind fun _ => keeps_pure _) (c :: text) he).choice keepsAt_error

/-! ## Inline expressions -/

section

variable {p q : Parser Expression} (hE : Keeps tail p q)

include hE

theorem keeps_argument : Keeps tail (argument p) (argument q) := by
  refine hE.bind fun value => ?_
  cases value with
  | entryRef name =>
    refine keeps_skipInlineBlank.bind fun _ => keeps_peek.bind fun _ => ?_
    refine Keeps.choice ?_ (keeps_pure _)
    refine keeps_advance.bind fun _ => keeps_skipBlank.bind fun _ => hE.bind fun value => ?_
    exact (keeps_pure _).choice (keeps_fail _)
  | _ => exact keeps_pure _

omit hE in
theorem keeps_argumentEnd (arguments : List Argument) :
    Keeps tail (argumentEnd arguments) (argumentEnd arguments) := by
  refine keeps_skipBlank.bind fun _ => keeps_peek.bind fun c => ?_
  split
  · exact keeps_pure _
  · exact keeps_advance.bind fun _ => keeps_pure _
  · exact keeps_fail _

theorem keeps_argumentRound (arguments : List Argument) :
    Keeps tail (argumentRound p arguments) (argumentRound q arguments) := by
  refine keeps_of_cons (fun _ _ h => ?_) fun c text he => ?_
  · exact (Prod.mk.inj (Except.ok.inj h)).2.symm
  · have hnext : Keeps tail (do
        skipBlank
        if (← peek) = some ')' then return .done arguments
        else argumentEnd (arguments ++ [← argument p]) : Parser _) (do
        skipBlank
        if (← peek) = some ')' then return .done arguments
        else argumentEnd (arguments ++ [← argument q]) : Parser _) := by
      refine keeps_skipBlank.bind fun _ => keeps_peek.bind fun _ => ?_
      refine (keeps_pure _).choice ?_
      exact (keeps_argument hE).bind fun _ => keeps_argumentEnd _
    exact hnext (c :: text) he

theorem keeps_referenceTail (name : String) :
    Keeps tail (referenceTail p name) (referenceTail q name) := by
  refine keeps_of_cons (fun _ _ h => ?_) fun c text he => ?_
  · exact (Prod.mk.inj (Except.ok.inj h)).2.symm
  · have hs := List.suffix_cons c text
    by_cases hc : continuesReference c
    · simp only [continuesReference, Bool.or_eq_true, beq_iff_eq, or_assoc] at hc
      obtain rfl | rfl | rfl := hc
      · rw [referenceTail_attribute, referenceTail_attribute]
        exact ((keeps_identifier.bind fun _ => keeps_pure _) text he.next).mono hs
      · rw [referenceTail_variant, referenceTail_variant]
        exact ((keeps_variantKey.bind fun _ => keeps_pure _) text he.next).mono hs
      · rw [referenceTail_call, referenceTail_call]
        refine KeepsAt.mono (Keeps.bind (Keeps.iterate (keeps_argumentRound hE) []) ?_ text he.next)
          hs
        intro arguments
        exact ((keeps_expect ')').bind fun _ => keeps_pure _).choice (keeps_fail _)
    · rw [referenceTail_end (by simpa using hc), referenceTail_end (by simpa using hc)]
      exact keepsAt_ok (List.suffix_refl _)

theorem keeps_inlineStep {placeable : Parser Expression} (hp : Keeps tail placeable placeable) :
    Keeps tail (inlineStep placeable p) (inlineStep placeable q) := by
  refine keeps_peek.bind fun _ => hp.choice (keeps_literal.bind fun value => ?_)
  cases value with
  | entryRef name => exact keeps_referenceTail hE name
  | _ => exact keeps_pure _

end

section

variable {placeable : Parser Expression} (hp : Keeps tail placeable placeable)

theorem keeps_inlineExpression (hp : Keeps tail placeable placeable) :
    Keeps tail (inlineExpression placeable) (inlineExpression placeable) :=
  Keeps.recursive fun _ _ hE => keeps_inlineStep hE hp

theorem inlineExpression_blank (placeable : Parser Expression)
    (h : ∀ c, text.head? = some c → Text.isBlank c = true) :
    inlineExpression placeable text = .error ⟨.expectedLiteral, text⟩ := by
  rw [inlineExpression_apply]
  cases text with
  | nil => rfl
  | cons c text =>
    have hc := h c rfl
    simp only [Text.isBlank, Bool.or_eq_true, beq_iff_eq, or_assoc] at hc
    obtain rfl | rfl | rfl | rfl := hc <;> rfl

/-! ## Variants and placeables -/

variable (ht : Unindented tail) (hi : (Transcription.same true).AgreesOnPlaceables placeable)

theorem keeps_closePlaceable : Keeps tail closePlaceable closePlaceable :=
  keeps_skipBlank.bind fun _ => keeps_expect '}'

include hp ht hi

theorem keeps_variant : Keeps tail (variant placeable) (variant placeable) := by
  refine (keeps_expect '[').bind fun _ => keeps_variantKey.bind fun key => ?_
  refine keeps_skipInlineBlank.bind fun _ => (keeps_pattern ht hp hi).bind fun value => ?_
  cases value with
  | none => exact keeps_fail _
  | some value => exact keeps_skipBlank.bind fun _ => keeps_pure _

theorem keeps_variantAfter (read : List Variant × Option Nat) (starred : Bool) :
    Keeps tail (variantAfter placeable read starred) (variantAfter placeable read starred) :=
  (keeps_variant hp ht hi).bind fun _ => keeps_pure _

theorem keeps_variantRound (read : List Variant × Option Nat) :
    Keeps tail (variantRound placeable read) (variantRound placeable read) := by
  refine keeps_of_cons (fun _ _ h => ?_) fun c text he => ?_
  · rw [variantRound_end read (by simp) (by simp)] at h
    exact (Prod.mk.inj (Except.ok.inj h)).2.symm
  · by_cases hs : c = '*'
    · subst hs
      rw [variantRound_starred, variantRound_starred]
      exact (keeps_variantAfter hp ht hi read true text he.next).mono (List.suffix_cons _ _)
    · by_cases ho : c = '[' ∧ text.head? ≠ some '['
      · obtain ⟨rfl, ho⟩ := ho
        have hn := he.next_ne_nil (by decide)
        have ho' : (text ++ tail).head? ≠ some '[' := by rwa [List.head?_append_of_ne_nil _ hn]
        rw [variantRound_open read ho, variantRound_open read ho']
        exact keeps_variantAfter hp ht hi read false ('[' :: text) he
      · have hend (after : List Char) (ha : text.head? = some '[' → after.head? = some '[') :
            variantRound placeable read (c :: after) = .ok (.done read, c :: after) := by
          refine variantRound_end read (by simpa using hs) fun rest hr => ?_
          obtain ⟨rfl, rfl⟩ := List.cons.inj hr
          exact ha (not_not.mp fun h => ho ⟨rfl, h⟩)
        rw [hend text id, hend (text ++ tail) fun h => by simp [h]]
        exact keepsAt_ok (List.suffix_refl _)

theorem keeps_variants : Keeps tail (variants placeable) (variants placeable) :=
  Keeps.iterate (keeps_variantRound hp ht hi) ([], none)

theorem keeps_selectMembers (selector : Expression) :
    Keeps tail (selectMembers placeable selector) (selectMembers placeable selector) := by
  refine (keeps_variants hp ht hi).bind fun read => (keeps_fail _).choice ?_
  exact keeps_closePlaceable.bind fun _ => keeps_pure _

theorem keeps_selectTail (selector : Expression) :
    Keeps tail (selectTail placeable selector) (selectTail placeable selector) := by
  have members : Keeps tail (do skipBlank; selectMembers placeable selector)
      (do skipBlank; selectMembers placeable selector) :=
    keeps_skipBlank.bind fun _ => keeps_selectMembers hp ht hi selector
  intro text he
  have hs := List.dropWhile_suffix (l := text) Text.isInlineBlank
  by_cases hl : ∃ next, text.dropWhile Text.isInlineBlank = '\n' :: next
  · obtain ⟨next, hl⟩ := hl
    rw [hl] at hs
    rw [selectTail_lineFeed hl, selectTail_lineFeed (dropWhile_append_of_cons hl tail)]
    exact (members next (he.suffix hs).next).mono ((List.suffix_cons _ _).trans hs)
  · by_cases hr : ∃ next, text.dropWhile Text.isInlineBlank = '\r' :: '\n' :: next
    · obtain ⟨next, hr⟩ := hr
      rw [hr] at hs
      rw [selectTail_return hr, selectTail_return (dropWhile_append_of_cons hr tail)]
      exact (members next (he.suffix hs).next.next).mono
        ((List.suffix_cons _ _).trans ((List.suffix_cons _ _).trans hs))
    · rw [selectTail_other rfl (fun h => hl ?_) fun next h => hr ⟨next, h⟩]
      · exact keepsAt_error
      · obtain ⟨next, h⟩ := List.head?_eq_some_iff.mp h
        exact ⟨next, h⟩

theorem keeps_placeableTail (inner : Expression) :
    Keeps tail (placeableTail placeable inner) (placeableTail placeable inner) := by
  intro text he
  have hs := List.dropWhile_suffix (l := text) Text.isBlank
  by_cases hc : ∃ next, text.dropWhile Text.isBlank = '}' :: next
  · obtain ⟨next, hc⟩ := hc
    rw [hc] at hs
    rw [placeableTail_close hc, placeableTail_close (dropWhile_append_of_cons hc tail)]
    exact keepsAt_error.choice (keepsAt_ok ((List.suffix_cons _ _).trans hs))
  · by_cases ha : ∃ next, text.dropWhile Text.isBlank = '-' :: '>' :: next
    · obtain ⟨next, ha⟩ := ha
      rw [ha] at hs
      rw [placeableTail_arrow ha, placeableTail_arrow (dropWhile_append_of_cons ha tail)]
      cases selectorFault? inner with
      | some fault => exact keepsAt_error
      | none =>
        exact (keeps_selectTail hp ht hi inner next (he.suffix hs).next.next).mono
          ((List.suffix_cons _ _).trans ((List.suffix_cons _ _).trans hs))
    · rw [placeableTail_other rfl (fun h => hc ?_) fun next h => ha ⟨next, h⟩]
      · exact keepsAt_error
      · obtain ⟨next, h⟩ := List.head?_eq_some_iff.mp h
        exact ⟨next, h⟩

omit hp ht hi in
/-- Whether a variant list starts shows in the text, unless that is blank. -/
theorem startsVariantList_append (he : EndsLines text) (hn : text.dropWhile Text.isBlank ≠ []) :
    startsVariantList (text ++ tail) = startsVariantList text := by
  rw [startsVariantList_eq (dropWhile_append_of_ne_nil hn), startsVariantList_eq rfl]
  have he := he.suffix (List.dropWhile_suffix (l := text) Text.isBlank)
  obtain ⟨c, rest, hr⟩ := List.exists_cons_of_ne_nil hn
  rw [hr] at he ⊢
  by_cases hc : c = '['
  · have hn' := he.next_ne_nil (by simp [hc])
    simp [List.head?_append_of_ne_nil _ hn']
  · simp [beq_false_of_ne hc]

theorem keeps_placeableBody : Keeps tail (placeableBody placeable) (placeableBody placeable) := by
  have list : Keeps tail (do
      skipBlank
      let read ← variants placeable
      closePlaceable
      return .variantList read.1 read.2 : Parser Expression) _ :=
    keeps_skipBlank.bind fun _ => (keeps_variants hp ht hi).bind fun _ =>
      keeps_closePlaceable.bind fun _ => keeps_pure _
  have inline : Keeps tail (do
      skipInlineBlank
      placeableTail placeable (← inlineExpression placeable) : Parser Expression) _ :=
    keeps_skipInlineBlank.bind fun _ => (keeps_inlineExpression hp).bind
      (keeps_placeableTail hp ht hi)
  refine keeps_of_cons (fun _ _ h => ?_) fun c text he => ?_
  · have hnil : placeableBody placeable [] = .error ⟨.expectedLiteral, []⟩ :=
      bind_error inlineExpression_nil _
    cases hnil.symm.trans h
  · have hs := List.suffix_cons c text
    rw [placeableBody_cons, placeableBody_cons]
    by_cases hb : text.dropWhile Text.isBlank = []
    · -- Nothing can be read where all that is left is blank.
      have hblank := List.dropWhile_eq_nil_iff.mp hb
      have herror := inlineExpression_blank placeable fun d hd =>
        hblank d ((List.dropWhile_suffix Text.isInlineBlank).mem (List.mem_of_mem_head? hd))
      rw [startsVariantList, hb, if_neg (by simp), bind_error herror]
      exact keepsAt_error
    · rw [startsVariantList_append he.next hb]
      exact ((list text he.next).mono hs).choice ((inline text he.next).mono hs)

end

theorem keeps_placeable (ht : Unindented tail) (room : Nat) :
    Keeps tail (placeable room) (placeable room) := by
  induction room with
  | zero => exact keeps_fail _
  | succ room ih => exact keeps_placeableBody ih ht (Transcription.placeable_agree _ room)

end Fluent.Grammar
