import Fluent.Proofs.Extension.Basic
import Fluent.Proofs.Token

/-!
# Tokens in front of more text

Identifiers, numbers, quoted strings, escapes and variant keys are read the same when more text
follows.
-/

namespace Fluent.Grammar

open Fluent.Grammar.Parser Fluent.Text.Reader

variable {tail text : List Char}

theorem keeps_identifier : Keeps tail identifier identifier := by
  refine keeps_peek.bind fun _ => ?_
  exact ((keeps_takeWhile _).bind fun _ => keeps_pure _).choice
    (keeps_advance.bind fun _ => keeps_fail _)

theorem keeps_entryIdentifier : Keeps tail entryIdentifier entryIdentifier := by
  refine keeps_of_cons (fun _ _ h => by cases h) fun c text he => ?_
  by_cases hc : c = '-'
  · subst hc
    obtain ⟨d, rest, rfl⟩ := List.exists_cons_of_ne_nil (he.next_ne_nil (by decide))
    have hd := he.next.dropWhile_ne_nil isIdentifierChar (List.cons_ne_nil d rest) rfl
    rw [entryIdentifier_hyphen, entryIdentifier_hyphen, dropWhile_append_of_ne_nil hd,
      takeWhile_append_of_ne_nil hd]
    exact (keepsAt_ok ((List.dropWhile_suffix _).trans (List.suffix_cons _ _))).choice keepsAt_error
  · rw [entryIdentifier_apply (by simpa using hc), entryIdentifier_apply (by simpa using hc)]
    exact keeps_identifier (c :: text) he

theorem keeps_number : Keeps tail number number := by
  refine (keeps_takeOne '-').bind fun sign => (keeps_takeWhile _).bind fun whole => ?_
  refine (keeps_fail _).choice ((keeps_takeOne '.').bind fun point => ?_)
  refine (keeps_takeWhile _).bind fun fraction => (keeps_fail _).choice ?_
  cases Number.readFloat? (sign ++ whole ++ point ++ fraction) with
  | some value => exact keeps_pure _
  | none => exact keeps_fail _

theorem codedChar?_append (tail : List Char) {coded : Char}
    (h : Text.codedChar? 4 text = some coded) :
    Text.codedChar? 4 (text ++ tail) = some coded ∧
      (text ++ tail).drop 4 = text.drop 4 ++ tail := by
  have hlength : 4 ≤ text.length := by
    rw [Text.codedChar?] at h
    split at h
    · rename_i hd
      rw [List.length_take] at hd
      omega
    · cases h
  rw [Text.codedChar?, List.take_append_of_le_length hlength,
    List.drop_append_of_le_length hlength]
  exact ⟨h, rfl⟩

theorem keeps_escape (escapable : List Char) :
    Keeps tail (escape escapable) (escape escapable) := by
  refine keeps_of_cons (fun _ _ h => by cases h) fun c text _ => ?_
  rw [escape_cons, escape_cons]
  cases text with
  | nil => exact keepsAt_error
  | cons d text =>
    have hs := List.suffix_cons c (d :: text)
    simp only [List.cons_append]
    split
    · exact keepsAt_ok ((List.suffix_cons d text).trans hs)
    · split
      · cases hcoded : Text.codedChar? 4 text with
        | none => exact keepsAt_error
        | some coded =>
          obtain ⟨hcoded', hdrop⟩ := codedChar?_append tail hcoded
          rw [hcoded', hdrop]
          exact keepsAt_ok ((List.drop_suffix 4 text).trans ((List.suffix_cons d text).trans hs))
      · exact keepsAt_error

theorem keeps_stringRound (read : List Char) :
    Keeps tail (stringRound read) (stringRound read) := by
  refine (keeps_takeWhile _).bind fun run => keeps_peek.bind fun c => ?_
  split
  · exact keeps_advance.bind fun _ => keeps_pure _
  · exact (keeps_escape _).bind fun _ => keeps_pure _
  · exact keeps_fail _

theorem keeps_string : Keeps tail string string :=
  keeps_advance.bind fun _ => (Keeps.iterate keeps_stringRound []).bind fun _ => keeps_pure _

theorem keeps_keyword : Keeps tail keyword keyword := by
  refine keeps_of_cons (fun _ _ h => by cases h) fun c text he => ?_
  have hd := he.dropWhile_ne_nil isKeywordChar (List.cons_ne_nil c text) rfl
  rw [keyword_apply, keyword_apply, ← List.cons_append, takeWhile_append_of_ne_nil hd]
  have hle := ((Text.dropEndWhile_prefix (· == ' ') ((c :: text).takeWhile isKeywordChar)).trans
    (List.takeWhile_prefix _)).length_le
  simp only [List.drop_append_of_le_length hle]
  exact (keepsAt_ok (List.drop_suffix _ _)).choice keepsAt_error

theorem keeps_variantKey : Keeps tail variantKey variantKey := by
  have closed (key : VariantKey) : Keeps tail
      (do skipInlineBlank; expect ']'; return key : Parser _)
      (do skipInlineBlank; expect ']'; return key : Parser _) :=
    keeps_skipInlineBlank.bind fun _ => (keeps_expect ']').bind fun _ => keeps_pure key
  refine keeps_skipInlineBlank.bind fun _ => keeps_peek.bind fun c => ?_
  exact (keeps_number.map.bind closed).choice (keeps_keyword.map.bind closed)

end Fluent.Grammar
