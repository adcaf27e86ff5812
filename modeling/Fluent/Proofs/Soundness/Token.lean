import Fluent.Proofs.Rendering.Token
import Fluent.Proofs.Soundness.Basic

/-!
# Tokens are sound

Whatever text they are read from, names, ids, numbers and keys are such as the grammar allows.
-/

namespace Fluent.Grammar

open Fluent.Grammar.Parser Fluent.Text.Reader

/-- A text without the end whose characters satisfy `p` does not end in one that does. -/
theorem getLast?_dropEndWhile {p : Char → Bool} {text : List Char} {c : Char}
    (h : (Text.dropEndWhile p text).getLast? = some c) : p c = false := by
  rw [Text.dropEndWhile, List.getLast?_reverse] at h
  have hc := List.head?_dropWhile_not p text.reverse
  simpa only [h] using hc

theorem takeWhile_dropWhile (p : Char → Bool) (text : List Char) :
    (text.dropWhile p).takeWhile p = [] := by
  have hc := List.head?_dropWhile_not p text
  cases hd : text.dropWhile p with
  | nil => rfl
  | cons c rest =>
    rw [hd] at hc
    exact List.takeWhile_cons_of_neg (Bool.eq_false_iff.mp hc)

theorem isName_takeWhile {text : List Char} (h : text.head?.any Char.isAlpha = true) :
    isName (text.takeWhile isIdentifierChar) = true := by
  cases text with
  | nil => cases h
  | cons c text =>
    have hc : c.isAlpha = true := h
    have hi : isIdentifierChar c = true := by simp [isIdentifierChar, Char.isAlphanum, hc]
    rw [List.takeWhile_cons_of_pos hi, isName, hc, List.all_takeWhile]
    rfl

theorem yields_identifier : Yields identifier fun name => isName name.toList = true := by
  intro text name rest read
  rw [identifier_apply] at read
  split at read
  · obtain ⟨rfl, -⟩ := Prod.mk.inj (Except.ok.inj read)
    rw [String.toList_ofList]
    exact isName_takeWhile ‹_›
  · cases read

theorem yields_entryIdentifier : Yields entryIdentifier fun id => isEntryId id.toList = true := by
  intro text id rest read
  by_cases hyphen : text.head? = some '-'
  · obtain ⟨text, rfl⟩ := List.head?_eq_some_iff.mp hyphen
    rw [entryIdentifier_hyphen] at read
    split at read
    · obtain ⟨rfl, -⟩ := Prod.mk.inj (Except.ok.inj read)
      rw [String.toList_ofList]
      exact isName_takeWhile ‹_›
    · cases read
  · rw [entryIdentifier_apply hyphen] at read
    exact isEntryId_of_isName (yields_identifier text id rest read)

/-- A number that is read is the value of its text. -/
theorem yields_readFloat (written : List Char) :
    Yields (match Number.readFloat? written with
      | some value => return ⟨String.ofList written, value⟩
      | none => fail (.unknownLiteral (String.ofList written)) : Parser NumberLiteral)
      fun literal => literal.written.toList = written ∧
        Number.readFloat? written = some literal.value := by
  split
  · exact yields_pure ⟨String.toList_ofList, ‹_›⟩
  · exact yields_fail _

theorem yields_number : Yields number NumberLiteral.WellFormed := by
  refine (yields_takeOne '-').bind fun sign hs text literal rest read => ?_
  rw [takeWhile_bind_apply, choice_apply] at read
  split at read
  · cases read
  · rename_i some
    have hd : (text.takeWhile Char.isDigit).all Char.isDigit = true := List.all_takeWhile
    rw [takeOne_bind_apply] at read
    split at read
    · rw [takeWhile_bind_apply, choice_apply] at read
      split at read
      · cases read
      · rename_i full
        obtain ⟨written, value⟩ := yields_readFloat _ _ _ _ read
        rw [List.append_assoc _ ['.']] at written
        refine ⟨⟨sign, _, _, written, hs, by simpa using some, hd, .inr ?_⟩, ?_⟩
        · exact ⟨_, rfl, by simpa using full, List.all_takeWhile⟩
        · rwa [written, ← List.append_assoc _ ['.']]
    · -- Without a point there are no more digits.
      rw [takeWhile_bind_apply, choice_apply, if_neg (by simp)] at read
      obtain ⟨written, value⟩ := yields_readFloat _ _ _ _ read
      rw [takeWhile_dropWhile, List.append_nil, List.append_nil] at written value
      refine ⟨⟨sign, _, [], ?_, hs, by simpa using some, hd, .inl rfl⟩, ?_⟩
      · rw [written, List.append_nil]
      · rwa [written]

theorem isKeyword_dropEndWhile {c : Char} {text : List Char}
    (h : (c.isAlpha || c == '_') = true) :
    isKeyword (Text.dropEndWhile (· == ' ') ((c :: text).takeWhile isKeywordChar)) = true := by
  have hk : isKeywordChar c = true := by
    obtain h | h := Bool.or_eq_true_iff.mp h <;> simp [isKeywordChar, Char.isAlphanum, h]
  have hall : (c :: text.takeWhile isKeywordChar).all isKeywordChar = true := by
    rw [List.all_cons, hk, List.all_takeWhile]
    rfl
  rw [List.takeWhile_cons_of_pos hk]
  obtain ⟨spaces, split⟩ := Text.dropEndWhile_prefix (· == ' ') (c :: text.takeWhile isKeywordChar)
  cases hn : Text.dropEndWhile (· == ' ') (c :: text.takeWhile isKeywordChar) with
  | nil =>
    have hs := List.rdropWhile_eq_nil_iff.mp hn c List.mem_cons_self
    rw [eq_of_beq hs] at h
    cases h
  | cons d rest =>
    rw [hn] at split
    obtain ⟨rfl, -⟩ := List.cons.inj split
    rw [← split, List.all_append, List.all_cons, Bool.and_eq_true, Bool.and_eq_true] at hall
    rw [isKeyword, h, hall.1.2, Bool.true_and, Bool.true_and, bne_iff_ne]
    intro hl
    have hspace := getLast?_dropEndWhile (p := (· == ' ')) (c := ' ')
      (by rw [hn, List.getLast?_cons, hl]; rfl)
    cases hspace

theorem yields_keyword : Yields keyword fun name => isKeyword name.toList = true := by
  intro text name rest read
  rw [keyword_apply] at read
  split at read
  · rename_i hc
    obtain ⟨rfl, -⟩ := Prod.mk.inj (Except.ok.inj read)
    rw [String.toList_ofList]
    cases text with
    | nil => cases hc
    | cons c text => exact isKeyword_dropEndWhile hc
  · cases read

theorem yields_variantKey : Yields variantKey VariantKey.WellFormed := by
  have closed (key : VariantKey) (h : key.WellFormed) :
      Yields (do skipInlineBlank; expect ']'; return key : Parser _) VariantKey.WellFormed :=
    yields_bind fun _ => yields_bind fun _ => yields_pure h
  refine yields_bind fun _ => yields_bind fun c => .choice (fun _ => ?_) fun _ => ?_
  · exact Yields.bind (yields_number.map fun _ h => h) closed
  · exact Yields.bind (yields_keyword.map fun _ h => h) closed

end Fluent.Grammar
