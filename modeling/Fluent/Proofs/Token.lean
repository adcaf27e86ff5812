import Fluent.Grammar.Token
import Fluent.Proofs.Reader
import Mathlib.Data.List.DropRight

/-!
# What the token readers do to a text

Equations for identifiers, escapes, quoted strings and keywords, in the form of a case distinction
on the text. -/

namespace Fluent

/-- What is left of a text without its end is its front. -/
theorem Text.dropEndWhile_prefix (p : Char → Bool) (text : List Char) :
    Text.dropEndWhile p text <+: text :=
  List.rdropWhile_prefix p text

namespace Grammar

open Fluent.Grammar.Parser Fluent.Text.Reader

theorem mem_dropEndWhile {p : Char → Bool} {c : Char} {text : List Char} (hm : c ∈ text)
    (hp : p c = false) : c ∈ Text.dropEndWhile p text := by
  rw [Text.dropEndWhile, List.mem_reverse]
  rw [← List.mem_reverse, ← List.takeWhile_append_dropWhile (p := p) (l := text.reverse),
    List.mem_append] at hm
  refine hm.resolve_left fun ht => ?_
  rw [List.mem_takeWhile_imp ht] at hp
  cases hp

/-- What is looked for among characters that stay is found with or without the end. -/
theorem any_dropEndWhile {p q : Char → Bool} (stays : ∀ c, q c = true → p c = false)
    (text : List Char) : (Text.dropEndWhile p text).any q = text.any q := by
  rw [Bool.eq_iff_iff, List.any_eq_true, List.any_eq_true]
  constructor
  · rintro ⟨c, member, held⟩
    exact ⟨c, (Text.dropEndWhile_prefix p text).mem member, held⟩
  · rintro ⟨c, member, held⟩
    exact ⟨c, mem_dropEndWhile member (stays c held), held⟩

theorem identifier_apply (text : List Char) :
    identifier text =
      if text.head?.any Char.isAlpha then
        .ok (String.ofList (text.takeWhile isIdentifierChar), text.dropWhile isIdentifierChar)
      else .error ⟨.expectedIdentifier, text.drop 1⟩ := by
  simp only [identifier, peek_bind_apply, choice_apply, takeWhile_bind_apply, advance_bind_apply,
    fail_apply, pure_apply]

theorem entryIdentifier_hyphen (text : List Char) :
    entryIdentifier ('-' :: text) =
      if text.head?.any Char.isAlpha then
        .ok (String.ofList ('-' :: text.takeWhile isIdentifierChar),
          text.dropWhile isIdentifierChar)
      else .error ⟨.expectedIdentifier, text⟩ := by
  simp only [entryIdentifier, get_bind_apply, takeOne_bind_apply, List.head?_cons, if_pos,
    List.drop_one, List.tail_cons, peek_bind_apply, choice_apply, takeWhile_bind_apply, pure_apply,
    set_bind_apply, fail_apply, List.cons_append, List.nil_append]

theorem entryIdentifier_apply {text : List Char} (h : text.head? ≠ some '-') :
    entryIdentifier text = identifier text := by
  simp only [entryIdentifier, get_bind_apply, takeOne_bind_apply, if_neg h, peek_bind_apply,
    choice_apply, takeWhile_bind_apply, pure_apply, set_bind_apply, fail_apply, List.nil_append,
    identifier_apply]

theorem escape_cons (escapable : List Char) (c : Char) (text : List Char) :
    escape escapable (c :: text) = match text with
      | [] => .error ⟨.unknownEscape "", []⟩
      | c :: rest =>
        if c ∈ escapable then .ok (c, rest)
        else if c = 'u' then match Text.codedChar? 4 rest with
          | some coded => .ok (coded, rest.drop 4)
          | none => .error ⟨.invalidUnicodeEscape (String.ofList (rest.take 4)), c :: rest⟩
        else .error ⟨.unknownEscape (String.ofList [c]), c :: rest⟩ := by
  simp only [escape, advance_bind_apply, get_bind_apply, List.drop_one, List.tail_cons]
  split
  · rfl
  · simp only [choice_apply, fail_apply, set_bind_apply, pure_apply]
    split
    · rfl
    · split
      · split <;> simp_all
      · rfl

theorem stringRound_apply (read text : List Char) :
    stringRound read text = match text.dropWhile isStringChar with
      | '"' :: rest => .ok (.done (read ++ text.takeWhile isStringChar), rest)
      | '\\' :: rest => (do
          let c ← escape ['{', '\\', '"']
          return .again (read ++ text.takeWhile isStringChar ++ [c]) : Parser _) ('\\' :: rest)
      | rest => .error ⟨.unterminatedString, rest⟩ := by
  simp only [stringRound, takeWhile_bind_apply, peek_bind_apply]
  generalize text.dropWhile isStringChar = rest
  cases rest with
  | nil => rfl
  | cons c rest =>
    by_cases hq : c = '"'
    · subst hq; rfl
    · by_cases hb : c = '\\'
      · subst hb; rfl
      · simp [hq, hb]

theorem keyword_apply (text : List Char) :
    keyword text =
      if text.head?.any fun c => c.isAlpha || c == '_' then
        let name := Text.dropEndWhile (· == ' ') (text.takeWhile isKeywordChar)
        .ok (String.ofList name, text.drop name.length)
      else .error ⟨.expectedKeyword, text⟩ := by
  simp only [keyword, get_bind_apply, choice_apply, set_bind_apply, pure_apply, fail_apply]

end Grammar

end Fluent
