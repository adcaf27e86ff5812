import Fluent.Proofs.Placeable
import Fluent.Proofs.Transcription.Pattern

/-!
# Placeables of a text and of its transcription

A placeable passes over line ends in three places: in front of its closing brace, between its
variants and between the arguments of a call. Only the last of these can take what follows the text
for a part of the placeable.

* `argumentRound_agree`: the arguments are read alike, or the tail is taken for one of them;
* `inlineExpression_agree`, `placeable_agree`: inline expressions and placeables are read alike.
-/

namespace Fluent.Grammar.Transcription

open Fluent.Grammar.Parser Fluent.Text.Reader

/-- Two readers of expressions that read the rests of `text` and their transcriptions alike. At the
end of the text the first one fails, where the second one takes the start of the tail for a
reference. -/
structure AgreesOnExpressions (T : Transcription) (text : List Char) (p q : Parser Expression) :
    Prop where
  agree : ∀ rest, rest <:+ text → T.Within rest → (rest = [] → T.tail = []) →
    T.Agree rest (fun _ => T.Inside) (p rest) (q (T.apply rest))
  ended : p [] = .error ⟨.expectedLiteral, []⟩
  swallows : StartsEntry T.tail → ∃ id after, entryIdentifier T.tail = .ok (id, after) ∧
    (after.dropWhile Text.isInlineBlank).head? = some '=' ∧ q T.tail = .ok (.entryRef id, after)

theorem selectorFault?_plain {inner : Expression} {fault : Fault}
    (h : selectorFault? inner = some fault) :
    fault.isMissingValue = false ∧ fault ≠ .expectedLiteral := by
  cases inner <;> simp only [selectorFault?, reduceCtorEq, Option.some_inj] at h
  · exact h ▸ ⟨rfl, nofun⟩
  · split at h
    · cases h
    · exact Option.some_inj.mp h ▸ ⟨rfl, nofun⟩
  · exact h ▸ ⟨rfl, nofun⟩

section

variable {T : Transcription} {text rest : List Char} {c : Char}

theorem skipBlank_agree (h : T.Within text) :
    T.Agree text (fun _ => T.Within) ((skipBlank : Parser _) text)
      ((skipBlank : Parser _) (T.apply text)) := by
  obtain ⟨hd, hw⟩ := h.dropWhile_isBlank
  have hs (t : List Char) : (skipBlank : Parser _) t = .ok ((), t.dropWhile Text.isBlank) := rfl
  rw [hs, hs, hd]
  exact .read (List.dropWhile_suffix _) hw

/-- As `expect_agree`, where the line may be at its end. -/
theorem expectMark_agree (h : T.Within text) (hc : IsMark c) :
    T.Agree text (fun _ => T.Inside) (expect c text) (expect c (T.apply text)) := by
  simp only [expect_apply, h.head?_apply hc]
  split
  · obtain ⟨rest, rfl⟩ := List.head?_eq_some_iff.mp ‹_›
    rw [apply_cons hc.1]
    exact .read (List.drop_suffix _ _) ((h.inside (by simp)).next hc.1)
  · exact .fails (List.suffix_refl _) rfl rfl nofun (.inl rfl)

theorem Inside.leadChar?_apply (h : T.Inside text) {p : Char → Bool} (hn : p '\n' = false)
    (hr : p '\r' = false) : (leadChar? (T.apply text)).any p = (leadChar? text).any p := by
  simp only [leadChar?, h.head?_apply (c := '-') (by decide) (by decide)]
  split
  · obtain ⟨rest, rfl⟩ := List.head?_eq_some_iff.mp ‹_›
    rw [apply_cons (by decide)]
    exact (h.next (by decide)).any_head?_apply hn hr
  · exact h.any_head?_apply hn hr

theorem literal_agree (h : T.Inside text) :
    T.Agree text (fun _ => T.Inside) (literal text) (literal (T.apply text)) := by
  rw [literal_apply, literal_apply, h.leadChar?_apply rfl rfl, h.leadChar?_apply rfl rfl]
  simp only [h.head?_apply (c := '$') (by decide) (by decide),
    h.head?_apply (c := '"') (by decide) (by decide)]
  split
  · obtain ⟨rest, rfl⟩ := List.head?_eq_some_iff.mp ‹_›
    rw [apply_cons (by decide)]
    refine Agree.mono ?_ (List.suffix_cons '$' rest) fun _ _ => id
    exact (identifier_agree (h.next (by decide))).bind fun a rest _ h => pure_agree h
  · split
    · exact (entryIdentifier_agree h).bind fun a rest _ h => pure_agree h
    · split
      · exact (number_agree h).bind fun a rest _ h => pure_agree h
      · split
        · obtain ⟨rest, rfl⟩ := List.head?_eq_some_iff.mp ‹_›
          exact (string_agree (by decide) h).bind fun a rest _ h => pure_agree h
        · exact literal_missing fun hn => (hn ▸ h).nil.2

variable {p q : Parser Expression} (hE : T.AgreesOnExpressions text p q)

include hE

theorem argument_agree (hs : rest <:+ text) (h : T.Within rest) (ht : rest = [] → T.tail = []) :
    T.Agree rest (fun _ => T.Inside) (argument p rest) (argument q (T.apply rest)) := by
  refine (hE.agree rest hs h ht).bind fun value after hr h => ?_
  have hs := hr.trans hs
  cases value with
  | entryRef name =>
    refine (skipInlineBlank_agree h).bind fun _ after hr h => ?_
    have hs := hr.trans hs
    rw [peek_bind_apply, peek_bind_apply, choice_apply, choice_apply]
    simp only [h.head?_apply (c := ':') (by decide) (by decide)]
    split
    · obtain ⟨after, rfl⟩ := List.head?_eq_some_iff.mp ‹_›
      rw [apply_cons (by decide), advance_bind_apply, advance_bind_apply]
      have h := h.next (by decide)
      have hs := (List.suffix_cons _ _).trans hs
      refine Agree.mono ?_ (List.suffix_cons _ _) fun _ _ => id
      refine (skipBlank_agree h.toWithin).bind fun _ after hr h => ?_
      have hs := hr.trans hs
      obtain ht | ⟨rfl, ht⟩ := T.swallows_cases after
      · refine (hE.agree after hs h ht).bind fun value rest _ h => ?_
        rw [choice_apply, choice_apply]
        split
        · exact pure_agree h
        · exact fail_agree rfl rfl nofun
      · obtain ⟨id, after, hid, -, hq⟩ := hE.swallows ht
        rw [apply_nil, bind_error hE.ended, bind_ok hq]
        exact Swallowed.parted ⟨id, after, hid, .inl rfl⟩ ht
    · exact pure_agree h
  | _ => exact pure_agree h

theorem AgreesOnExpressions.argument_swallows (ht : StartsEntry T.tail) :
    argument p [] = .error ⟨.expectedLiteral, []⟩ ∧ ∃ id after,
      entryIdentifier T.tail = .ok (id, after) ∧
      (after.dropWhile Text.isInlineBlank).head? = some '=' ∧
      argument q T.tail = .ok (.positional (.entryRef id), after.dropWhile Text.isInlineBlank) := by
  obtain ⟨id, after, hid, he, hq⟩ := hE.swallows ht
  refine ⟨bind_error hE.ended _, id, after, hid, he, ?_⟩
  rw [argument, bind_ok hq]
  simp only [skipInlineBlank_bind_apply, peek_bind_apply, choice_apply, he]
  rfl

omit hE in
theorem argumentEnd_agree (h : T.Inside text) (arguments : List Argument) :
    T.Agree text (AfterRound (fun _ => T.Inside) fun _ => T.Inside) (argumentEnd arguments text)
      (argumentEnd arguments (T.apply text)) := by
  obtain ⟨ha, hw⟩ := h.toWithin.dropWhile_isBlank
  have hs := List.dropWhile_suffix (l := text) Text.isBlank
  by_cases hc : (text.dropWhile Text.isBlank).head? = some ')'
  · obtain ⟨rest, hr⟩ := List.head?_eq_some_iff.mp hc
    rw [hr] at ha hs hw
    rw [argumentEnd_close hr, argumentEnd_close (ha.trans (apply_cons (by decide))),
      ← apply_cons (by decide)]
    exact .read hs (hw.inside (by simp))
  · by_cases hd : (text.dropWhile Text.isBlank).head? = some ','
    · obtain ⟨rest, hr⟩ := List.head?_eq_some_iff.mp hd
      rw [hr] at ha hs hw
      rw [argumentEnd_comma hr, argumentEnd_comma (ha.trans (apply_cons (by decide)))]
      exact .read ((List.suffix_cons _ _).trans hs) ((hw.inside (by simp)).next (by decide))
    · rw [argumentEnd_other rfl hc hd, argumentEnd_other ha
        (mt (hw.head?_apply (by simp [IsMark])).mp hc)
        (mt (hw.head?_apply (by simp [IsMark])).mp hd)]
      exact .fails hs rfl rfl (by simp) (.inl rfl)

theorem argumentRound_agree (hs : rest <:+ text) (h : T.Inside rest) (arguments : List Argument) :
    T.Agree rest (AfterRound (fun _ => T.Inside) fun _ => T.Inside) (argumentRound p arguments rest)
      (argumentRound q arguments (T.apply rest)) := by
  have hempty : (T.apply rest).isEmpty = rest.isEmpty := by
    obtain ⟨rfl, ht⟩ | ⟨next, rfl, -⟩ | ⟨c, next, rfl, hc, -⟩ := h.cases
    · rw [apply_nil, ht]
    · obtain he | ⟨-, he⟩ := T.apply_lineFeed_cases next <;> rw [he] <;> rfl
    · rw [apply_cons hc]; rfl
  obtain ⟨ha, hw⟩ := h.toWithin.dropWhile_isBlank
  have hr := List.dropWhile_suffix (l := rest) Text.isBlank
  rw [argumentRound_apply, argumentRound_apply, hempty, ha]
  simp only [hw.head?_apply (c := ')') (by simp [IsMark])]
  split
  · exact .read (List.suffix_refl _) h
  · split
    · exact .read hr (hw.inside fun hn => by simp_all)
    · refine Agree.mono ?_ hr fun _ _ => id
      obtain ht | ⟨hn, ht⟩ := T.swallows_cases (rest.dropWhile Text.isBlank)
      · refine (argument_agree hE (hr.trans hs) hw ht).bind fun argument after _ h => ?_
        exact argumentEnd_agree h _
      · obtain ⟨hp, id, after, hid, he, hq⟩ := hE.argument_swallows ht
        obtain ⟨next, hnext⟩ := List.head?_eq_some_iff.mp he
        rw [hn, apply_nil, bind_error hp, bind_ok hq, argumentEnd_other rfl] <;>
          rw [hnext, List.dropWhile_cons_of_neg (by decide)]
        · rw [← hnext]
          exact Swallowed.parted ⟨id, after, hid, .inr rfl⟩ ht
        · simp
        · simp

theorem referenceTail_agree (hs : rest <:+ text) (h : T.Inside rest) (name : String) :
    T.Agree rest (fun _ => T.Inside) (referenceTail p name rest)
      (referenceTail q name (T.apply rest)) := by
  by_cases hc : rest.head?.any continuesReference
  · cases rest with
    | nil => simp at hc
    | cons c rest =>
      have hr := List.suffix_cons c rest
      simp only [List.head?_cons, Option.any_some, continuesReference, Bool.or_eq_true, beq_iff_eq,
        or_assoc] at hc
      obtain rfl | rfl | rfl := hc <;> rw [apply_cons (by decide)] <;>
        have h := h.next (by decide) <;> refine Agree.mono ?_ hr fun _ _ => id
      · rw [referenceTail_attribute, referenceTail_attribute]
        exact (identifier_agree h).bind fun a rest _ h => pure_agree h
      · rw [referenceTail_variant, referenceTail_variant]
        exact (variantKey_agree h).bind fun a rest _ h => pure_agree h
      · rw [referenceTail_call, referenceTail_call]
        have arguments := Agree.iterate (fun _ => id) (fun arguments after ha h =>
          argumentRound_agree hE (ha.trans (hr.trans hs)) h arguments) h []
        refine arguments.bind fun arguments after _ h => ?_
        rw [choice_apply, choice_apply]
        split
        · exact (expect_agree h (by decide) (by decide)).bind fun a rest _ h => pure_agree h
        · exact fail_agree rfl rfl (by simp)
  · rw [Bool.not_eq_true] at hc
    rw [referenceTail_end hc, referenceTail_end]
    · exact .read (List.suffix_refl _) h
    · rwa [h.any_head?_apply rfl rfl]

end

section

variable {T : Transcription} {text : List Char} {placeable : Parser Expression}

theorem inlineExpression_entryRef (h : StartsEntry text) :
    ∃ id after, entryIdentifier text = .ok (id, after) ∧
      (after.dropWhile Text.isInlineBlank).head? = some '=' ∧
      inlineExpression placeable text = .ok (.entryRef id, after) := by
  obtain ⟨id, after, hid, he⟩ := id h
  refine ⟨id, after, hid, he, ?_⟩
  have hlead : (leadChar? text).any Char.isAlpha ∧ text.head? ≠ some '{' ∧
      text.head? ≠ some '$' := by
    obtain ⟨c, rest, rfl, hc | ⟨rfl, hr⟩⟩ := h.cases
    · refine ⟨?_, ?_, ?_⟩
      · rw [leadChar?, if_neg]
        · simpa using hc
        · rintro ⟨⟩; simp at hc
      · rintro ⟨⟩; simp at hc
      · rintro ⟨⟩; simp at hc
    · exact ⟨hr, by simp, by simp⟩
  have hend : after.head?.any continuesReference = false := by
    cases after with
    | nil => rfl
    | cons c rest =>
      refine Bool.eq_false_iff.mpr fun hc => ?_
      simp only [List.head?_cons, Option.any_some, continuesReference, Bool.or_eq_true, beq_iff_eq,
        or_assoc] at hc
      obtain rfl | rfl | rfl := hc <;> exact absurd he (by simp [Text.isInlineBlank])
  rw [inlineExpression_apply, inlineStep, peek_bind_apply, choice_apply, if_neg hlead.2.1,
    bind_apply, literal_apply, if_neg hlead.2.2, if_pos hlead.1, bind_ok hid]
  exact referenceTail_end hend

variable (hp : T.AgreesOnPlaceables placeable)

include hp

theorem inlineStep_agree (h : T.Inside text) {p q : Parser Expression}
    (hE : T.AgreesOnExpressions text p q) :
    T.Agree text (fun _ => T.Inside) (inlineStep placeable p text)
      (inlineStep placeable q (T.apply text)) := by
  rw [inlineStep, inlineStep, peek_bind_apply, peek_bind_apply, choice_apply, choice_apply]
  simp only [h.head?_apply (c := '{') (by decide) (by decide)]
  split
  · obtain ⟨rest, rfl⟩ := List.head?_eq_some_iff.mp ‹_›
    exact hp rest h
  · refine (literal_agree h).bind fun value rest hs h => ?_
    cases value with
    | entryRef name => exact referenceTail_agree hE hs h name
    | _ => exact pure_agree h

theorem inlineExpression_agree (h : T.Inside text) :
    T.Agree text (fun _ => T.Inside) (inlineExpression placeable text)
      (inlineExpression placeable (T.apply text)) := by
  induction hn : text.length using Nat.strongRecOn generalizing text with
  | ind n ih =>
    subst hn
    rw [inlineExpression_apply, inlineExpression_apply]
    refine inlineStep_agree hp h ⟨fun rest hs h ht => ?_, ?_, fun ht => ?_⟩
    · simp only [T.length_lt_iff hs]
      split
      · by_cases hn : rest = []
        · subst hn
          rw [apply_nil, ht rfl, inlineExpression_nil]
          have hread : T.Agree [] (fun (_ : Expression) => T.Inside) _ _ := literal_missing ht
          rwa [apply_nil, ht rfl] at hread
        · exact ih _ ‹_› (h.inside hn) rfl
      · exact literal_missing ht
    · rw [inlineExpression_nil]
      split <;> rfl
    · have hlt := (T.length_lt_iff (List.nil_suffix (l := text))).mpr
        (List.length_pos_iff.mpr fun hn => ht.ne_nil (hn ▸ h).nil.2)
      rw [apply_nil] at hlt
      rw [if_pos hlt]
      exact inlineExpression_entryRef ht

theorem variant_agree (h : T.Within text) :
    T.Agree text (fun _ => T.Within) (variant placeable text)
      (variant placeable (T.apply text)) := by
  refine (expectMark_agree h (by simp [IsMark])).bind fun _ _ _ h => ?_
  refine (variantKey_agree h).bind fun key _ _ h => ?_
  refine (skipInlineBlank_agree h).bind fun _ rest _ h => ?_
  obtain hv | ⟨after, hs, hw, hl, hr, -, hx, hy⟩ := pattern_agree hp h
  · refine hv.bind fun value rest _ h => ?_
    cases value with
    | none => exact value_missing rfl fun hl => h.2 hl rfl
    | some value => exact (skipBlank_agree h.1).bind fun _ _ _ h => pure_agree h
  · have hread : T.Agree after (fun _ => T.Within)
        ((do skipBlank; return .mk key (.text "") : Parser Variant) after)
        ((do skipBlank; return .mk key (.text "") : Parser Variant) (T.apply after)) :=
      (skipBlank_agree hw).bind fun _ _ _ h => pure_agree h
    rw [bind_ok hx, bind_ok hy]
    exact hread.missing hs rfl hl hr

theorem variantAfter_agree (h : T.Within text) (read : List Variant × Option Nat)
    (starred : Bool) :
    T.Agree text (AfterRound (fun _ => T.Within) fun _ => T.Within)
      (variantAfter placeable read starred text)
      (variantAfter placeable read starred (T.apply text)) :=
  (variant_agree hp h).bind fun _ _ _ h => pure_agree h

theorem variantRound_agree (h : T.Within text) (read : List Variant × Option Nat) :
    T.Agree text (AfterRound (fun _ => T.Within) fun _ => T.Within)
      (variantRound placeable read text)
      (variantRound placeable read (T.apply text)) := by
  by_cases hs : text.head? = some '*'
  · obtain ⟨rest, rfl⟩ := List.head?_eq_some_iff.mp hs
    rw [apply_cons (by decide), variantRound_starred, variantRound_starred]
    exact (variantAfter_agree hp h.next read true).mono (List.suffix_cons _ _) fun _ _ => id
  · have hs' := mt (h.head?_apply (by simp [IsMark])).mp hs
    by_cases ho : text.head? = some '['
    · obtain ⟨rest, rfl⟩ := List.head?_eq_some_iff.mp ho
      have hi := (h.inside (by simp)).next (by decide)
      by_cases hn : rest.head? = some '['
      · rw [variantRound_end read hs, variantRound_end read hs']
        · exact .read (List.suffix_refl _) h
        · rw [apply_cons (by decide)]
          rintro _ ⟨⟩
          exact (hi.head?_apply (by decide) (by decide)).mpr hn
        · rintro _ ⟨⟩
          exact hn
      · have hn' := mt (hi.head?_apply (by decide) (by decide)).mp hn
        rw [apply_cons (by decide), variantRound_open read hn, variantRound_open read hn',
          ← apply_cons (by decide)]
        exact variantAfter_agree hp h read false
    · have ho' := mt (h.head?_apply (by simp [IsMark])).mp ho
      rw [variantRound_end read hs, variantRound_end read hs']
      · exact .read (List.suffix_refl _) h
      · exact fun rest hr => absurd (by rw [hr, List.head?_cons]) ho'
      · exact fun rest hr => absurd (by rw [hr, List.head?_cons]) ho

theorem variants_agree (h : T.Within text) :
    T.Agree text (fun _ => T.Within) (variants placeable text)
      (variants placeable (T.apply text)) :=
  Agree.iterate (fun _ => id) (fun read _ _ h => variantRound_agree hp h read) h ([], none)

omit hp in
theorem closePlaceable_agree (h : T.Within text) :
    T.Agree text (fun _ => T.Inside) (closePlaceable text) (closePlaceable (T.apply text)) :=
  (skipBlank_agree h).bind fun _ _ _ h => expectMark_agree h (by simp [IsMark])

theorem selectMembers_agree (h : T.Within text) (selector : Expression) :
    T.Agree text (fun _ => T.Inside) (selectMembers placeable selector text)
      (selectMembers placeable selector (T.apply text)) := by
  refine (variants_agree hp h).bind fun read rest _ h => ?_
  dsimp only
  rw [choice_apply, choice_apply]
  split
  · exact fail_agree rfl rfl nofun
  · exact (closePlaceable_agree h).bind fun _ _ _ h => pure_agree h

theorem selectTail_agree (h : T.Inside text) (selector : Expression) :
    T.Agree text (fun _ => T.Inside) (selectTail placeable selector text)
      (selectTail placeable selector (T.apply text)) := by
  obtain ⟨-, ha, hi⟩ := h.takeWhile_apply (p := Text.isInlineBlank) rfl rfl
  have hs := List.dropWhile_suffix (l := text) Text.isInlineBlank
  have members {rest : List Char} (hs : rest <:+ text) (hw : T.Within rest) :
      T.Agree text (fun _ => T.Inside)
        (selectMembers placeable selector (rest.dropWhile Text.isBlank))
        (selectMembers placeable selector ((T.apply rest).dropWhile Text.isBlank)) := by
    obtain ⟨hd, hw⟩ := hw.dropWhile_isBlank
    rw [hd]
    exact (selectMembers_agree hp hw selector).mono ((List.dropWhile_suffix _).trans hs)
      fun _ _ => id
  generalize hr : text.dropWhile Text.isInlineBlank = rest at ha hi hs
  obtain ⟨rfl, ht⟩ | ⟨next, rfl, hw⟩ | ⟨c, next, rfl, hc, hi'⟩ := hi.cases
  · rw [apply_nil, ht] at ha
    rw [selectTail_other hr (by simp) (by simp), selectTail_other ha (by simp) (by simp)]
    exact .fails hs rfl rfl nofun (.inl (by simp [ht]))
  · rw [selectTail_lineFeed hr]
    obtain he | ⟨-, he⟩ := T.apply_lineFeed_cases next <;> rw [he] at ha
    · rw [selectTail_lineFeed ha]
      exact members ((List.suffix_cons _ _).trans hs) hw
    · rw [selectTail_return ha]
      exact members ((List.suffix_cons _ _).trans hs) hw
  · rw [apply_cons hc] at ha
    by_cases hn : ∃ after, c = '\r' ∧ next = '\n' :: after
    · obtain ⟨after, rfl, rfl⟩ := hn
      have hl : T.lineEnd = ['\n'] :=
        Classical.byContradiction fun hl => hi.ne_return hl rfl
      rw [apply_lineFeed, hl] at ha
      rw [selectTail_return hr, selectTail_return ha]
      exact members ((List.suffix_cons _ _).trans ((List.suffix_cons _ _).trans hs))
        hi'.toWithin.next
    · rw [selectTail_other hr (by simpa using hc), selectTail_other ha (by simpa using hc)]
      · exact .fails hs rfl rfl nofun (.inl (apply_cons hc).symm)
      · intro after hr
        obtain ⟨rfl, he⟩ := List.cons.inj hr
        obtain ⟨after, rfl⟩ := List.head?_eq_some_iff.mp
          (T.head?_of_apply ((congrArg List.head? he).trans (List.head?_cons)))
        exact hn ⟨after, rfl, rfl⟩
      · rintro after ⟨⟩
        exact hn ⟨after, rfl, rfl⟩

omit hp in
/-- An arrow in a transcription is one of the text. -/
theorem Within.arrow_of_apply (h : T.Within text) {next : List Char}
    (ha : T.apply text = '-' :: '>' :: next) : ∃ rest, text = '-' :: '>' :: rest := by
  cases text with
  | nil =>
    obtain ht | ⟨ht, -⟩ := T.tail_cases
    · simp [ht] at ha
    · obtain ⟨c, rest, hc, h⟩ := ht.cases
      rw [apply_nil, hc] at ha
      obtain ⟨rfl, rfl⟩ := List.cons.inj ha
      simp at h
  | cons c rest =>
    by_cases hc : c = '\n'
    · subst hc
      obtain he | ⟨-, he⟩ := T.apply_lineFeed_cases rest <;> simp [he] at ha
    · rw [apply_cons hc] at ha
      obtain ⟨rfl, hr⟩ := List.cons.inj ha
      have hi := (h.inside (by simp)).next hc
      obtain ⟨after, rfl⟩ := List.head?_eq_some_iff.mp
        ((hi.head?_apply (c := '>') (by decide) (by decide)).mp (by rw [hr, List.head?_cons]))
      exact ⟨after, rfl⟩

theorem placeableTail_agree (h : T.Inside text) (inner : Expression) :
    T.Agree text (fun _ => T.Inside) (placeableTail placeable inner text)
      (placeableTail placeable inner (T.apply text)) := by
  obtain ⟨ha, hw⟩ := h.toWithin.dropWhile_isBlank
  have hs := List.dropWhile_suffix (l := text) Text.isBlank
  generalize hr : text.dropWhile Text.isBlank = rest at ha hw hs
  by_cases hc : rest.head? = some '}'
  · obtain ⟨rest, rfl⟩ := List.head?_eq_some_iff.mp hc
    have hi := (hw.inside (by simp)).next (by decide)
    rw [placeableTail_close hr, placeableTail_close (ha.trans (apply_cons (by decide)))]
    split
    · exact .fails hs rfl rfl (by simp) (.inl (apply_cons (by decide)).symm)
    · exact .read ((List.suffix_cons _ _).trans hs) hi
  · by_cases hd : ∃ next, rest = '-' :: '>' :: next
    · obtain ⟨next, rfl⟩ := hd
      have hi := ((hw.inside (by simp)).next (by decide)).next (by decide)
      rw [apply_cons (by decide), apply_cons (by decide)] at ha
      rw [placeableTail_arrow hr, placeableTail_arrow ha]
      cases hf : selectorFault? inner with
      | some fault =>
        obtain ⟨hm, he⟩ := selectorFault?_plain hf
        exact .fails hs rfl hm he (.inl (by rw [apply_cons (by decide), apply_cons (by decide)]))
      | none =>
        refine (selectTail_agree hp hi inner).mono ?_ fun _ _ => id
        exact (List.suffix_cons _ _).trans ((List.suffix_cons _ _).trans hs)
    · rw [placeableTail_other hr hc fun next hn => hd ⟨next, hn⟩,
        placeableTail_other ha (mt (hw.head?_apply (by simp [IsMark])).mp hc)]
      · exact .fails hs rfl rfl (by simp) (.inl rfl)
      · exact fun next hn => hd (hw.arrow_of_apply hn)

omit hp in
theorem startsVariantList_apply (h : T.Within text) :
    startsVariantList (T.apply text) = startsVariantList text := by
  obtain ⟨ha, hw⟩ := h.dropWhile_isBlank
  rw [startsVariantList_eq ha, startsVariantList_eq rfl]
  generalize text.dropWhile Text.isBlank = rest at hw
  have hm (c : Char) (hc : IsMark c) :
      ((T.apply rest).head? == some c) = (rest.head? == some c) := by
    rw [Bool.eq_iff_iff, beq_iff_eq, beq_iff_eq]
    exact hw.head?_apply hc
  rw [hm '*' (by simp [IsMark]), hm '[' (by simp [IsMark])]
  by_cases ho : rest.head? = some '['
  · obtain ⟨next, rfl⟩ := List.head?_eq_some_iff.mp ho
    have hi := (hw.inside (by simp)).next (by decide)
    have hn : ((T.apply next).head? == some ']') = (next.head? == some ']') := by
      rw [Bool.eq_iff_iff, beq_iff_eq, beq_iff_eq]
      exact hi.head?_apply (by decide) (by decide)
    rw [apply_cons (by decide)]
    simp [bne, hn]
  · rw [beq_false_of_ne ho]
    simp

theorem placeableBody_agree (h : T.Inside ('{' :: text)) :
    T.Agree ('{' :: text) (fun _ => T.Inside) (placeableBody placeable ('{' :: text))
      (placeableBody placeable (T.apply ('{' :: text))) := by
  have hi := h.next (by decide)
  obtain ⟨hb, hw⟩ := hi.toWithin.dropWhile_isBlank
  obtain ⟨-, hd, hn⟩ := hi.takeWhile_apply (p := Text.isInlineBlank) rfl rfl
  rw [apply_cons (by decide), placeableBody_cons, placeableBody_cons,
    startsVariantList_apply hi.toWithin, hb, hd]
  split
  · refine Agree.mono ?_ ((List.dropWhile_suffix Text.isBlank).trans (List.suffix_cons '{' text))
      fun _ _ => id
    refine (variants_agree hp hw).bind fun read rest _ h => ?_
    exact (closePlaceable_agree h).bind fun _ _ _ h => pure_agree h
  · refine Agree.mono ?_
      ((List.dropWhile_suffix Text.isInlineBlank).trans (List.suffix_cons '{' text)) fun _ _ => id
    refine (inlineExpression_agree hp hn).bind fun inner rest _ h => ?_
    exact placeableTail_agree hp h inner

end

theorem placeable_agree (T : Transcription) (room : Nat) :
    T.AgreesOnPlaceables (placeable room) := by
  induction room with
  | zero => exact fun rest _ => fail_agree rfl rfl nofun
  | succ room ih => exact fun rest h => placeableBody_agree ih h

end Fluent.Grammar.Transcription
