import Fluent.Proofs.Transcription.Basic

/-!
# Tokens of a text and of its transcription

Identifiers, numbers, quoted strings, escapes and variant keys end in front of the end of their
line, so they are read alike from a text and from its transcription. -/

namespace Fluent.Grammar.Transcription

open Fluent.Grammar.Parser Fluent.Text.Reader

section

variable {α β : Type} {T : Transcription} {text rest : List Char} {c : Char} {p : Char → Bool}
  {post : α → List Char → Prop}

theorem pure_agree {a : α} (h : post a text) :
    T.Agree text post ((pure a : Parser α) text) ((pure a : Parser α) (T.apply text)) :=
  .read (List.suffix_refl _) h

theorem fail_agree {fault fault' : Fault} (hk : fault.kind = fault'.kind)
    (hm : fault.isMissingValue = false) (he : fault ≠ .expectedLiteral) :
    T.Agree text post ((fail fault : Parser α) text) ((fail fault' : Parser α) (T.apply text)) :=
  .fails (List.suffix_refl _) hk hm he (.inl rfl)

theorem Agree.map {f : α → β} {reader : Parser α} {text' : List Char}
    (h : T.Agree text (fun _ => T.Inside) (reader text) (reader text')) :
    T.Agree text (fun _ => T.Inside) ((f <$> reader) text) ((f <$> reader) text') := by
  rw [map_eq_pure_bind]
  exact h.bind fun a rest _ h => pure_agree h

variable (h : T.Inside text)

include h

theorem Inside.stops_drop : T.Stops text (text.drop 1) ((T.apply text).drop 1) := by
  obtain ⟨rfl, ht⟩ | ⟨rest, rfl, -⟩ | ⟨c, rest, rfl, hc, -⟩ := h.cases
  · exact .inl (by simp [ht])
  · obtain he | ⟨hl, he⟩ := T.apply_lineFeed_cases rest
    · exact .inl (by simp [he])
    · exact .inr ⟨hl, rest, List.suffix_refl _, .inl rfl, by simp [he]⟩
  · exact .inl (by simp [apply_cons hc])

theorem takeWhile_agree (hn : p '\n' = false) (hr : p '\r' = false) :
    T.Agree text (fun _ => T.Inside) ((takeWhile p : Parser _) text)
      ((takeWhile p : Parser _) (T.apply text)) := by
  obtain ⟨h₁, h₂, h₃⟩ := h.takeWhile_apply hn hr
  have hw (t : List Char) :
      (takeWhile p : Parser _) t = .ok (t.takeWhile p, t.dropWhile p) := rfl
  rw [hw, hw, h₁, h₂]
  exact .read (List.dropWhile_suffix _) h₃

theorem takeOne_agree (hn : c ≠ '\n') (hr : c ≠ '\r') :
    T.Agree text (fun _ => T.Inside) ((takeOne c : Parser _) text)
      ((takeOne c : Parser _) (T.apply text)) := by
  have hw (t : List Char) : (takeOne c : Parser _) t =
      if t.head? = some c then .ok ([c], t.drop 1) else .ok ([], t) := by
    rw [takeOne, peek_bind_apply, choice_apply]; rfl
  simp only [hw, h.head?_apply hn hr]
  split
  · obtain ⟨rest, rfl⟩ := List.head?_eq_some_iff.mp ‹_›
    rw [apply_cons hn]
    exact .read (List.drop_suffix _ _) (h.next hn)
  · exact .read (List.suffix_refl _) h

theorem expect_agree (hn : c ≠ '\n') (hr : c ≠ '\r') :
    T.Agree text (fun _ => T.Inside) (expect c text) (expect c (T.apply text)) := by
  simp only [expect_apply, h.head?_apply hn hr]
  split
  · obtain ⟨rest, rfl⟩ := List.head?_eq_some_iff.mp ‹_›
    rw [apply_cons hn]
    exact .read (List.drop_suffix _ _) (h.next hn)
  · exact .fails (List.suffix_refl _) rfl rfl nofun (.inl rfl)

theorem skipInlineBlank_agree :
    T.Agree text (fun _ => T.Inside) ((skipInlineBlank : Parser _) text)
      ((skipInlineBlank : Parser _) (T.apply text)) := by
  obtain ⟨-, h₂, h₃⟩ := h.takeWhile_apply (p := Text.isInlineBlank) rfl rfl
  have hw (t : List Char) : (skipInlineBlank : Parser _) t =
      .ok ((), t.dropWhile Text.isInlineBlank) := rfl
  rw [hw, hw, h₂]
  exact .read (List.dropWhile_suffix _) h₃

theorem identifier_agree :
    T.Agree text (fun _ => T.Inside) (identifier text) (identifier (T.apply text)) := by
  rw [identifier_apply, identifier_apply, h.any_head?_apply rfl rfl]
  split
  · obtain ⟨h₁, h₂, h₃⟩ := h.takeWhile_apply (p := isIdentifierChar) rfl rfl
    rw [h₁, h₂]
    exact .read (List.dropWhile_suffix _) h₃
  · exact .fails (List.drop_suffix _ _) rfl rfl nofun (h.stops_drop)

theorem entryIdentifier_agree :
    T.Agree text (fun _ => T.Inside) (entryIdentifier text) (entryIdentifier (T.apply text)) := by
  by_cases hd : text.head? = some '-'
  · obtain ⟨rest, rfl⟩ := List.head?_eq_some_iff.mp hd
    have h := h.next (by decide)
    rw [apply_cons (by decide), entryIdentifier_hyphen, entryIdentifier_hyphen,
      h.any_head?_apply rfl rfl]
    split
    · obtain ⟨h₁, h₂, h₃⟩ := h.takeWhile_apply (p := isIdentifierChar) rfl rfl
      rw [h₁, h₂]
      exact .read ((List.dropWhile_suffix _).trans (List.suffix_cons _ _)) h₃
    · exact .fails (List.suffix_cons _ _) rfl rfl nofun (.inl rfl)
  · have hd' := mt (h.head?_apply (c := '-') (by decide) (by decide)).mp hd
    rw [entryIdentifier_apply hd, entryIdentifier_apply hd']
    exact identifier_agree h

theorem number_agree :
    T.Agree text (fun _ => T.Inside) (number text) (number (T.apply text)) := by
  refine (takeOne_agree h (by decide) (by decide)).bind fun sign _ _ h => ?_
  refine (takeWhile_agree h rfl rfl).bind fun whole _ _ h => ?_
  rw [choice_apply, choice_apply]
  split
  · exact fail_agree rfl rfl nofun
  · refine (takeOne_agree h (by decide) (by decide)).bind fun point _ _ h => ?_
    refine (takeWhile_agree h rfl rfl).bind fun fraction _ _ h => ?_
    rw [choice_apply, choice_apply]
    split
    · exact fail_agree rfl rfl nofun
    · cases Number.readFloat? (sign ++ whole ++ point ++ fraction) with
      | some value => exact pure_agree h
      | none => exact fail_agree rfl rfl nofun

theorem keyword_agree :
    T.Agree text (fun _ => T.Inside) (keyword text) (keyword (T.apply text)) := by
  obtain ⟨h₁, -, -⟩ := h.takeWhile_apply (p := isKeywordChar) rfl rfl
  rw [keyword_apply, keyword_apply, h.any_head?_apply rfl rfl, h₁]
  split
  · have hp := Text.dropEndWhile_prefix (· == ' ') (text.takeWhile isKeywordChar)
    have hn :
        '\n' ∉ text.take (Text.dropEndWhile (· == ' ') (text.takeWhile isKeywordChar)).length := by
      rw [← List.prefix_iff_eq_take.mp (hp.trans (List.takeWhile_prefix _))]
      intro hm
      exact absurd (List.mem_takeWhile_imp (hp.mem hm)) (by decide)
    obtain ⟨-, h₂, h₃⟩ := h.take_apply hn
    simp only [h₂]
    exact .read (List.drop_suffix _ _) h₃
  · exact .fails (List.suffix_refl _) rfl rfl nofun (.inl rfl)

theorem codedChar?_apply :
    Text.codedChar? 4 (T.apply text) = Text.codedChar? 4 text ∧
    (Text.codedChar? 4 text ≠ none → '\n' ∉ text.take 4) := by
  by_cases hn : '\n' ∈ text.take 4
  · have none_of {t : List Char} (ht : ∃ c ∈ t.take 4, c = '\n' ∨ c = '\r') :
        Text.codedChar? 4 t = none := by
      obtain ⟨c, hc, hl⟩ := ht
      refine if_neg fun ha => ?_
      have := List.all_eq_true.mp ha.2.1 c hc
      obtain rfl | rfl := hl <;> simp [Text.isHexDigit] at this
    rw [none_of (T.lineEnd_mem_take hn), none_of ⟨_, hn, .inl rfl⟩]
    simp
  · obtain ⟨h₁, -, -⟩ := h.take_apply hn
    exact ⟨by simp only [Text.codedChar?, h₁], fun _ => hn⟩

end

section

variable {T : Transcription} {text : List Char} {c : Char}

theorem escape_agree {escapable : List Char} (hn : '\n' ∉ escapable)
    (hr : '\r' ∉ escapable) (hc : c ≠ '\n') (h : T.Inside (c :: text)) :
    T.Agree (c :: text) (fun _ => T.Inside) (escape escapable (c :: text))
      (escape escapable (T.apply (c :: text))) := by
  have h := h.next hc
  rw [apply_cons hc, escape_cons, escape_cons]
  obtain ⟨rfl, ht⟩ | ⟨rest, rfl, -⟩ | ⟨d, rest, rfl, hd, h⟩ := h.cases
  · rw [apply_nil, ht]
    exact .fails (List.suffix_cons _ _) rfl rfl nofun (.inl (by simp [ht]))
  · have hs : T.Stops (c :: '\n' :: rest) ('\n' :: rest) (T.apply ('\n' :: rest)) := .inl rfl
    obtain he | ⟨-, he⟩ := T.apply_lineFeed_cases rest <;> rw [he] at hs ⊢ <;>
      simp only [hn, hr, if_false] <;> exact .fails (List.suffix_cons _ _) rfl rfl nofun hs
  · rw [apply_cons hd]
    have hs := List.suffix_cons c (d :: rest)
    have hstop : T.Stops (c :: d :: rest) (d :: rest) (d :: T.apply rest) :=
      .inl (apply_cons hd).symm
    simp only
    split
    · exact .read ((List.suffix_cons _ _).trans hs) h
    · split
      · obtain ⟨h₁, h₂⟩ := codedChar?_apply h
        rw [h₁]
        cases hcoded : Text.codedChar? 4 rest with
        | none => exact .fails hs rfl rfl nofun hstop
        | some coded =>
          obtain ⟨-, h₃, h₄⟩ := h.take_apply (h₂ (by simp [hcoded]))
          simp only [h₃]
          exact .read ((List.drop_suffix _ _).trans ((List.suffix_cons _ _).trans hs)) h₄
      · exact .fails hs rfl rfl nofun hstop

theorem stringRound_agree (h : T.Inside text) (read : List Char) :
    T.Agree text (AfterRound (fun _ => T.Inside) fun _ => T.Inside) (stringRound read text)
      (stringRound read (T.apply text)) := by
  have hs := List.dropWhile_suffix (l := text) isStringChar
  rw [stringRound_apply, stringRound_apply]
  obtain ⟨h, -, h₁, h₂⟩ | ⟨rest, hd, -, h₂, -⟩ := h.span_apply (p := isStringChar) rfl rfl
  · rw [h₁, h₂]
    generalize text.dropWhile isStringChar = after at h hs
    obtain ⟨rfl, ht⟩ | ⟨rest, rfl, -⟩ | ⟨c, rest, rfl, hc, hr⟩ := h.cases
    · rw [apply_nil, ht]
      exact .fails hs rfl rfl nofun (.inl (by simp [ht]))
    · have hs' : T.Stops text ('\n' :: rest) (T.apply ('\n' :: rest)) := .inl rfl
      obtain he | ⟨-, he⟩ := T.apply_lineFeed_cases rest <;> rw [he] at hs' ⊢ <;>
        exact .fails hs rfl rfl nofun hs'
    · rw [apply_cons hc]
      by_cases hq : c = '"'
      · subst hq
        exact .read ((List.suffix_cons _ _).trans hs) hr
      · by_cases hb : c = '\\'
        · subst hb
          rw [← apply_cons hc]
          refine Agree.mono (Agree.bind (escape_agree (by simp) (by simp) hc h) ?_) hs
            fun _ _ => id
          exact fun a rest _ h => pure_agree h
        · simp [hq, hb]
          exact .fails hs rfl rfl nofun (.inl (apply_cons hc).symm)
  · rw [hd] at hs
    rw [hd, h₂]
    refine .fails hs rfl rfl nofun ?_
    obtain he | ⟨hl, -⟩ := T.apply_lineFeed_cases rest
    · exact .inl he.symm
    · exact .inr ⟨hl, rest, hs, .inr rfl, rfl⟩

theorem string_agree (hc : c ≠ '\n') (h : T.Inside (c :: text)) :
    T.Agree (c :: text) (fun _ => T.Inside) (string (c :: text))
      (string (T.apply (c :: text))) := by
  rw [apply_cons hc, string, advance_bind_apply, advance_bind_apply]
  have body := Agree.iterate (fun _ => id)
    (fun read rest _ h => stringRound_agree h read) (h.next hc) []
  refine Agree.mono ?_ (List.suffix_cons c text) fun _ _ => id
  exact body.bind fun a rest _ h => pure_agree h

theorem variantKey_agree (h : T.Inside text) :
    T.Agree text (fun _ => T.Inside) (variantKey text) (variantKey (T.apply text)) := by
  refine (skipInlineBlank_agree h).bind fun _ rest _ h => ?_
  have after_key (key : VariantKey) (rest : List Char) (h : T.Inside rest) :
      T.Agree rest (fun _ => T.Inside)
        ((do skipInlineBlank; expect ']'; return key : Parser _) rest)
        ((do skipInlineBlank; expect ']'; return key : Parser _) (T.apply rest)) := by
    refine (skipInlineBlank_agree h).bind fun _ _ _ h => ?_
    refine (expect_agree h (by decide) (by decide)).bind fun _ _ _ h => ?_
    exact pure_agree h
  rw [peek_bind_apply, peek_bind_apply, choice_apply, choice_apply,
    h.any_head?_apply rfl rfl]
  split
  · exact (number_agree h).map.bind fun key rest _ h => after_key key rest h
  · exact (keyword_agree h).map.bind fun key rest _ h => after_key key rest h

end

end Fluent.Grammar.Transcription
