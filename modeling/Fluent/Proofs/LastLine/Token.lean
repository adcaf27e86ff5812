import Fluent.Proofs.LastLine.Basic

/-!
# Tokens in front of a last line end

Identifiers, numbers, quoted strings, escapes and variant keys end with a line at the latest, so
that a line end behind a text makes no difference to them.
-/

namespace Fluent.Grammar.LastLine

open Fluent.Grammar.Parser Fluent.Text.Reader

variable {text text' : List Char} {c : Char}

theorem closes_takeWhile {p : Char → Bool} (hp : p '\n' = false) :
    Closes (takeWhile p : Parser _) (takeWhile p) := by
  intro text text' hm _
  exact .read (List.dropWhile_suffix _) ⟨(hm.takeWhile hp).symm, hm.dropWhile p⟩

theorem closes_skipWhile (p : Char → Bool) : Closes (skipWhile p : Parser _) (skipWhile p) :=
  fun _ _ hm _ => .read (List.dropWhile_suffix _) ⟨rfl, hm.dropWhile p⟩

theorem closes_skipBlank : Closes (skipBlank : Parser _) skipBlank := closes_skipWhile _

theorem closes_skipInlineBlank : Closes (skipInlineBlank : Parser _) skipInlineBlank :=
  closes_skipWhile _

theorem closes_advance : Closes (advance : Parser _) advance :=
  fun _ _ hm _ => .read (List.drop_suffix 1 _) ⟨rfl, hm.drop 1⟩

theorem closes_takeOne (hc : c ≠ '\n') : Closes (takeOne c : Parser _) (takeOne c) := by
  refine closes_peek (P := (· = some c)) (by simp [hc.symm]) ?_ (closes_pure [])
  exact closes_advance.bind fun _ => closes_pure [c]

theorem closes_expect (hc : c ≠ '\n') (ht : turns (.expectedToken c) = false) :
    Closes (expect c) (expect c) :=
  closes_peek (P := (· = some c)) (by simp [hc.symm]) closes_advance (closes_fail ht)

theorem closes_identifier : Closes identifier identifier := by
  refine closes_peek (P := fun c => c.any Char.isAlpha = true) (by decide) ?_ ?_
  · exact (closes_takeWhile rfl).bind fun _ => closes_pure _
  · exact closes_advance.bind fun _ => closes_fail rfl

theorem closes_entryIdentifier : Closes entryIdentifier entryIdentifier := by
  intro text text' hm filled
  by_cases hd : text.head? = some '-'
  · obtain ⟨rest, rfl⟩ := List.head?_eq_some_iff.mp hd
    obtain ⟨rest', rfl, next⟩ := hm.next
    rw [entryIdentifier_hyphen, entryIdentifier_hyphen, next.head?_any rfl, next.takeWhile rfl]
    refine .choice (alike_ok ?_ (next.dropWhile _))
      (alike_error (List.suffix_cons _ _) next rfl rfl)
    exact (List.dropWhile_suffix _).trans (List.suffix_cons _ _)
  · rw [entryIdentifier_apply hd,
      entryIdentifier_apply fun hd' => hd ((hm.head?_eq_some (by decide)).mp hd')]
    exact closes_identifier text text' hm filled

theorem closes_number : Closes number number := by
  refine (closes_takeOne (by decide)).bind fun sign => (closes_takeWhile rfl).bind fun whole => ?_
  refine (closes_fail rfl).choice ((closes_takeOne (by decide)).bind fun point => ?_)
  refine (closes_takeWhile rfl).bind fun fraction => (closes_fail rfl).choice ?_
  cases Number.readFloat? (sign ++ whole ++ point ++ fraction) with
  | some value => exact closes_pure _
  | none => exact closes_fail rfl

theorem codedChar?_lineFeed (h : Text.codedChar? 4 text = none) :
    Text.codedChar? 4 (text ++ ['\n']) = none := by
  rcases le_or_gt 4 text.length with within | short
  · rwa [Text.codedChar?, List.take_append_of_le_length within]
  · refine if_neg fun coded => ?_
    have lineFeed : '\n' ∈ (text ++ ['\n']).take 4 := by
      rw [List.take_of_length_le (by simp; omega)]
      simp
    exact absurd (List.all_eq_true.mp coded.2.1 _ lineFeed) (by decide)

/-- An escape is read the same in front of a last line end. -/
theorem alike_escape (escapable : List Char) (hn : '\n' ∉ escapable) (c : Char)
    (text : List Char) :
    Alike Same text (escape escapable (c :: text)) (escape escapable (c :: (text ++ ['\n']))) := by
  rw [escape_cons, escape_cons]
  have hs := List.suffix_refl text
  cases text with
  | nil =>
    simp only [List.nil_append, hn, if_false]
    exact alike_error hs (.ahead []) rfl rfl
  | cons d text =>
    have hs' := List.suffix_cons d text
    simp only [List.cons_append]
    refine .choice (alike_ok hs' (.ahead text)) (.choice ?_ (alike_error hs (.ahead _) rfl rfl))
    cases hcoded : Text.codedChar? 4 text with
    | none =>
      rw [codedChar?_lineFeed hcoded]
      exact alike_error hs (.ahead (d :: text)) rfl rfl
    | some coded =>
      obtain ⟨hcoded', hdrop⟩ := codedChar?_append ['\n'] hcoded
      rw [hcoded', hdrop]
      exact alike_ok ((List.drop_suffix 4 text).trans hs') (.ahead _)

theorem stringRound_end {read rest : List Char} (h : text.dropWhile isStringChar = rest)
    (hq : rest.head? ≠ some '"') (hb : rest.head? ≠ some '\\') :
    stringRound read text = .error ⟨.unterminatedString, rest⟩ := by
  rw [stringRound_apply, h]
  split
  · exact absurd rfl hq
  · exact absurd rfl hb
  · rfl

theorem closes_stringRound (read : List Char) : Closes (stringRound read) (stringRound read) := by
  intro text text' hm _
  have hs := List.dropWhile_suffix (l := text) isStringChar
  have after := hm.dropWhile isStringChar
  by_cases hq : (text.dropWhile isStringChar).head? = some '"'
  · obtain ⟨rest, hd⟩ := List.head?_eq_some_iff.mp hq
    rw [hd] at hs after
    rw [stringRound_apply, stringRound_apply, hd, after.eq_cons, hm.takeWhile rfl]
    exact alike_ok ((List.suffix_cons _ _).trans hs) (.ahead rest)
  by_cases hb : (text.dropWhile isStringChar).head? = some '\\'
  · obtain ⟨rest, hd⟩ := List.head?_eq_some_iff.mp hb
    rw [hd] at hs after
    rw [stringRound_apply, stringRound_apply, hd, after.eq_cons, hm.takeWhile rfl]
    refine Alike.within (Alike.bindSame (alike_escape _ (by decide) _ rest) ?_)
      ((List.suffix_cons _ _).trans hs)
    exact fun a rest rest' _ hm => alike_ok (List.suffix_refl _) hm
  · rw [stringRound_end rfl hq hb, stringRound_end rfl (mt (after.head?_eq_some (by decide)).mp hq)
      (mt (after.head?_eq_some (by decide)).mp hb)]
    exact alike_error hs after rfl rfl

theorem closes_string : Closes string string := by
  refine closes_advance.bind fun _ => (Closes.iterate ?_ closes_stringRound []).bind fun _ =>
    closes_pure _
  exact nofun

theorem closes_keyword : Closes keyword keyword := by
  intro text text' hm _
  rw [keyword_apply, keyword_apply, hm.head?_any rfl, hm.takeWhile rfl]
  exact .choice (alike_ok (List.drop_suffix _ _) (hm.drop _))
    (alike_error (List.suffix_refl _) hm rfl rfl)

theorem closes_variantKey : Closes variantKey variantKey := by
  have closed (key : VariantKey) : Closes
      (do skipInlineBlank; expect ']'; return key : Parser _)
      (do skipInlineBlank; expect ']'; return key : Parser _) :=
    closes_skipInlineBlank.bind fun _ => (closes_expect (by decide) rfl).bind fun _ =>
      closes_pure key
  refine closes_skipInlineBlank.bind fun _ => ?_
  refine closes_peek (P := fun c => c.any (fun c => c.isDigit || c == '-') = true) (by decide) ?_ ?_
  · exact closes_number.map.bind closed
  · exact closes_keyword.map.bind closed

end Fluent.Grammar.LastLine
