import Fluent.Proofs.Extension.Token
import Fluent.Proofs.Transcription.Pattern

/-!
# Patterns in front of more text

A pattern ends with a line, and whether another line goes on with it shows at the start of that
line. So more text that starts with a character of its own leaves the pattern as it is, even where
nothing of the text is left.

* `ExtendsAt`: the property;
* `pattern_extends`: it holds of patterns.
-/

namespace Fluent.Grammar

open Fluent.Grammar.Parser Fluent.Text.Reader

/-- A text that starts with a character that is not blank, or is empty. -/
def Unindented (text : List Char) : Prop := ∀ c, text.head? = some c → Text.isBlank c = false

/-- Of two readings, of `text` and of the text with `tail` behind it, the second one finds what the
first one finds. -/
def ExtendsAt {α : Type} (tail text : List Char) (x y : Except Failure (α × List Char)) : Prop :=
  ∀ a rest, x = .ok (a, rest) → rest <:+ text ∧ y = .ok (a, rest ++ tail)

section

variable {α β σ : Type} {tail text rest : List Char}

theorem ExtendsAt.keepsAt {x y : Except Failure (α × List Char)} (h : ExtendsAt tail text x y) :
    KeepsAt tail text x y := fun a rest hx => ⟨(h a rest hx).1, fun _ => (h a rest hx).2⟩

theorem KeepsAt.extendsAt {x y : Except Failure (α × List Char)} (h : KeepsAt tail text x y)
    (hn : ∀ a rest, x = .ok (a, rest) → rest ≠ []) : ExtendsAt tail text x y :=
  fun a rest hx => ⟨(h a rest hx).1, (h a rest hx).2 (hn a rest hx)⟩

theorem ExtendsAt.mono {x y : Except Failure (α × List Char)} (h : ExtendsAt tail rest x y)
    (hs : rest <:+ text) : ExtendsAt tail text x y :=
  fun a after hx => ⟨(h a after hx).1.trans hs, (h a after hx).2⟩

theorem extendsAt_ok {a : α} (hs : rest <:+ text) :
    ExtendsAt tail text (.ok (a, rest)) (.ok (a, rest ++ tail)) := by
  intro b after hx
  obtain ⟨rfl, rfl⟩ := Prod.mk.inj (Except.ok.inj hx)
  exact ⟨hs, rfl⟩

theorem extendsAt_error {failure : Failure} {y : Except Failure (α × List Char)} :
    ExtendsAt tail text (.error failure) y := nofun

theorem ExtendsAt.choice {P : Prop} [Decidable P] {x x' y y' : Except Failure (α × List Char)}
    (h : ExtendsAt tail text x y) (h' : ExtendsAt tail text x' y') :
    ExtendsAt tail text (if P then x else x') (if P then y else y') := by
  split
  · exact h
  · exact h'

theorem ExtendsAt.bind {p q : Parser α} {k l : α → Parser β} {text' : List Char}
    (h : ExtendsAt tail text (p text) (q text'))
    (hk : ∀ a rest, p text = .ok (a, rest) → rest <:+ text →
      ExtendsAt tail rest (k a rest) (l a (rest ++ tail))) :
    ExtendsAt tail text ((p >>= k) text) ((q >>= l) text') := by
  intro b after hx
  rw [bind_apply] at hx
  cases hp : p text with
  | error failure => rw [hp] at hx; cases hx
  | ok read =>
    obtain ⟨a, rest⟩ := read
    rw [hp] at hx
    obtain ⟨hs, hq⟩ := h a rest hp
    obtain ⟨hs', hl⟩ := hk a rest hp hs b after hx
    exact ⟨hs'.trans hs, by rw [bind_ok hq, hl]⟩

/-- Rounds may be repeated that find the same, from where each leaves the next one. -/
theorem ExtendsAt.iterate {round : σ → Parser (Round σ)} (between : List Char → Prop)
    (h : ∀ state rest, rest <:+ text → between rest →
      ExtendsAt tail rest (round state rest) (round state (rest ++ tail)))
    (hagain : ∀ state state' rest after, rest <:+ text → between rest →
      round state rest = .ok (.again state', after) → between after)
    (hb : between text) (state : σ) :
    ExtendsAt tail text (Text.Reader.iterate round state text)
      (Text.Reader.iterate round state (text ++ tail)) := by
  induction hn : text.length using Nat.strongRecOn generalizing text state with
  | ind n ih =>
    subst hn
    intro found rest hx
    rw [Text.Reader.iterate] at hx ⊢
    cases hr : round state text with
    | error failure => rw [hr] at hx; cases hx
    | ok read =>
      obtain ⟨reached, mid⟩ := read
      obtain ⟨hs, hr'⟩ := h state text (List.suffix_refl _) hb reached mid hr
      rw [hr] at hx
      rw [hr']
      cases reached with
      | done state =>
        obtain ⟨rfl, rfl⟩ := Prod.mk.inj (Except.ok.inj hx)
        exact ⟨hs, rfl⟩
      | again next =>
        dsimp only at hx ⊢
        have hlt : (mid ++ tail).length < (text ++ tail).length ↔ mid.length < text.length := by
          simp
        simp only [hlt]
        split at hx
        · rename_i hm
          rw [if_pos hm]
          obtain ⟨hs', hi⟩ := ih _ hm (fun state rest hr => h state rest (hr.trans hs))
            (fun state state' rest after hr => hagain state state' rest after (hr.trans hs))
            (hagain state next text mid (List.suffix_refl _) hb hr) next rfl found rest hx
          exact ⟨hs'.trans hs, hi⟩
        · rename_i hm
          rw [if_neg hm]
          obtain ⟨rfl, rfl⟩ := Prod.mk.inj (Except.ok.inj hx)
          exact ⟨hs, rfl⟩

theorem Transcription.Agree.post_of_ok {T : Transcription} {post : α → List Char → Prop} {a : α}
    {x y : Except Failure (α × List Char)} (h : T.Agree text post x y) (hx : x = .ok (a, rest)) :
    post a rest := by
  subst hx
  cases h with
  | read _ h => exact h

theorem Transcription.inside_of_endsLines (he : EndsLines text) (hn : text ≠ []) :
    (same true).Inside text where
  noReturn h := absurd rfl h
  ended _ := by
    obtain ⟨front, c, rfl⟩ := text.eq_nil_or_concat'.resolve_left hn
    simp [he c List.getLast?_concat, same]
  nonempty _ := hn

end

/-! ## Patterns -/

section

variable {tail text rest : List Char} (ht : Unindented tail)

include ht

theorem dropBlankLinesFrom_append (lineStart text : List Char) :
    dropBlankLinesFrom (lineStart ++ tail) (text ++ tail) =
      dropBlankLinesFrom lineStart text ++ tail := by
  fun_induction dropBlankLinesFrom lineStart text with
  | case1 lineStart rest ih => exact ih
  | case2 lineStart rest ih => exact ih
  | case3 lineStart rest ih => exact ih
  | case4 lineStart rest ih => exact ih
  | case5 text lineStart h₁ h₂ h₃ h₄ =>
    have hblank (c : Char) (rest : List Char) (hc : Text.isBlank c = true)
        (he : text ++ tail = c :: rest) : ∃ after, text = c :: after ∧ rest = after ++ tail := by
      cases text with
      | nil => exact absurd (ht c (by rw [← List.nil_append tail, he]; rfl)) (by simp [hc])
      | cons d after =>
        obtain ⟨rfl, rfl⟩ := List.cons.inj he
        exact ⟨after, rfl, rfl⟩
    rw [dropBlankLinesFrom]
    · intro rest he
      obtain ⟨after, rfl, -⟩ := hblank ' ' rest rfl he
      exact h₁ after rfl
    · intro rest he
      obtain ⟨after, rfl, -⟩ := hblank '\t' rest rfl he
      exact h₂ after rfl
    · intro rest he
      obtain ⟨after, rfl, -⟩ := hblank '\n' rest rfl he
      exact h₃ after rfl
    · intro rest he
      obtain ⟨after, rfl, hr⟩ := hblank '\r' _ rfl he
      cases after with
      | nil => exact absurd (ht '\n' (by rw [← List.nil_append tail, ← hr]; rfl)) (by decide)
      | cons d after => exact h₄ after (by rw [(List.cons.inj hr).1])

theorem dropBlankLines_append (text : List Char) :
    dropBlankLines (text ++ tail) = dropBlankLines text ++ tail :=
  dropBlankLinesFrom_append ht text text

/-- Whether an indented line follows shows in the text. -/
theorem head?_append_eq_space (text : List Char) :
    (text ++ tail).head? = some ' ' ↔ text.head? = some ' ' := by
  cases text with
  | nil => exact ⟨fun h => absurd (ht ' ' h) (by decide), nofun⟩
  | cons c text => exact Iff.rfl

theorem nextLine_extends (draft : Draft) (he : EndsLines rest) :
    ExtendsAt tail ('\n' :: rest) (nextLine draft ('\n' :: rest))
      (nextLine draft ('\n' :: (rest ++ tail))) := by
  have hs := dropBlankLines_suffix rest
  have hs' := hs.trans (List.suffix_cons '\n' rest)
  have hblank : (rest ++ tail).take ((rest ++ tail).length - (dropBlankLines rest ++ tail).length) =
      rest.take (rest.length - (dropBlankLines rest).length) := by
    rw [List.length_append, List.length_append, Nat.add_sub_add_right,
      List.take_append_of_le_length (Nat.sub_le _ _)]
  rw [nextLine_cons, nextLine_cons, dropBlankLines_append ht]
  simp only [head?_append_eq_space ht, hblank]
  by_cases hc : (dropBlankLines rest).head? = some ' '
  · have hn : (dropBlankLines rest).dropWhile Text.isInlineBlank ≠ [] := by
      refine (he.suffix hs).dropWhile_ne_nil _ (fun hn => ?_) rfl
      rw [hn] at hc
      cases hc
    rw [dropWhile_append_of_ne_nil hn, List.head?_append_of_ne_nil _ hn, if_pos hc, if_pos hc]
    exact (extendsAt_ok hs').choice (extendsAt_ok ((List.dropWhile_suffix _).trans hs'))
  · rw [if_neg hc, if_neg hc]
    exact extendsAt_ok hs'

variable {placeable : Parser Expression} (hp : Keeps tail placeable placeable)
  (hi : (Transcription.same true).AgreesOnPlaceables placeable)

include hp hi

theorem patternRound_extends (draft : Draft) (he : EndsLines text) (hn : text ≠ []) :
    ExtendsAt tail text (patternRound placeable draft text)
      (patternRound placeable draft (text ++ tail)) := by
  have hd := he.dropWhile_ne_nil isPatternChar hn rfl
  have hs := List.dropWhile_suffix (l := text) isPatternChar
  have htake : (text ++ tail).takeWhile isPatternChar = text.takeWhile isPatternChar :=
    takeWhile_append_of_ne_nil hd
  cases ha : text.dropWhile isPatternChar with
  | nil => exact absurd ha hd
  | cons c rest =>
    rw [ha] at hs
    have hdrop := dropWhile_append_of_cons ha tail
    have hinside := Transcription.inside_of_endsLines (he.suffix hs) (List.cons_ne_nil c rest)
    obtain rfl | rfl | rfl := dropWhile_isPatternChar_cases ha
    · rw [patternRound_lineEnd ha, patternRound_lineEnd hdrop, htake]
      exact (nextLine_extends ht _ (he.suffix hs).next).mono hs
    · have hread : ExtendsAt tail ('\\' :: rest) (escape ['\x7b', '\\'] ('\\' :: rest))
          (escape ['\x7b', '\\'] ('\\' :: (rest ++ tail))) :=
        (keeps_escape _ _ (he.suffix hs)).extendsAt fun _ _ hx =>
          ((Transcription.escape_agree (by simp) (by simp) (by decide) hinside).post_of_ok
            hx).nonempty rfl
      rw [patternRound_escape ha, patternRound_escape hdrop, htake]
      exact (hread.bind fun _ _ _ _ => extendsAt_ok (List.suffix_refl _)).mono hs
    · have hread : ExtendsAt tail ('\x7b' :: rest) (placeable ('\x7b' :: rest))
          (placeable ('\x7b' :: (rest ++ tail))) :=
        (hp _ (he.suffix hs)).extendsAt fun _ _ hx => ((hi rest hinside).post_of_ok hx).nonempty rfl
      rw [patternRound_placeable ha, patternRound_placeable hdrop, htake]
      refine extendsAt_error.choice ?_
      exact (hread.bind fun _ _ _ _ => extendsAt_ok (List.suffix_refl _)).mono hs

theorem patternParts_extends (he : EndsLines text) (hn : text ≠ []) :
    ExtendsAt tail text (patternParts placeable text) (patternParts placeable (text ++ tail)) := by
  have hagain (draft draft' : Draft) (rest after : List Char) (hs : rest <:+ text) (hr : rest ≠ [])
      (hx : patternRound placeable draft rest = .ok (.again draft', after)) : after ≠ [] := by
    have h := Transcription.patternRound_agree hi draft
      (Transcription.inside_of_endsLines (he.suffix hs) hr)
    exact (h.post_of_ok hx).1.nonempty rfl
  have rounds := ExtendsAt.iterate (· ≠ [])
    (fun draft rest hs hr => patternRound_extends ht hp hi draft (he.suffix hs) hr) hagain hn .empty
  exact rounds.bind fun _ _ _ _ => extendsAt_ok (List.suffix_refl _)

omit hp hi in
theorem endsValue_append (he : EndsLines rest) : EndsValue (rest ++ tail) ↔ EndsValue rest := by
  unfold EndsValue
  rw [Ne, Ne, head?_append_eq_space ht]
  by_cases hn : rest = []
  · simp [hn]
  · have hd := he.dropWhile_ne_nil Text.isInlineBlank hn rfl
    rw [dropWhile_append_of_ne_nil hd, List.head?_append_of_ne_nil _ hd]

/-- A pattern ends where its text ends with a line, whatever comes next. -/
theorem pattern_extends (he : EndsLines text) (hn : text ≠ []) :
    ExtendsAt tail text (pattern placeable text) (pattern placeable (text ++ tail)) := by
  have hd := he.dropWhile_ne_nil (· != '\n') hn rfl
  have hs := List.dropWhile_suffix (l := text) (· != '\n')
  have hs' := (dropBlankLines_suffix ((text.dropWhile (· != '\n')).drop 1)).trans
    ((List.drop_suffix 1 _).trans hs)
  have hdrop : ((text ++ tail).dropWhile (· != '\n')).drop 1 =
      (text.dropWhile (· != '\n')).drop 1 ++ tail := by
    rw [dropWhile_append_of_ne_nil hd,
      List.drop_append_of_le_length (List.length_pos_of_ne_nil hd)]
  rw [pattern_apply, pattern_apply]
  simp only [takeWhile_append_of_ne_nil hd, hdrop, dropBlankLines_append ht,
    endsValue_append ht (he.suffix hs')]
  refine (patternParts_extends ht hp hi he hn).choice ?_
  by_cases hv : EndsValue (dropBlankLines ((text.dropWhile (· != '\n')).drop 1))
  · rw [if_pos hv, if_pos hv]
    exact extendsAt_ok hs'
  · have hn' : dropBlankLines ((text.dropWhile (· != '\n')).drop 1) ≠ [] := by
      intro hn'
      rw [hn'] at hv
      exact hv (.inl (by simp))
    have hd' := (he.suffix hs').dropWhile_ne_nil Text.isInlineBlank hn' rfl
    have hs'' := (List.dropWhile_suffix Text.isInlineBlank).trans hs'
    rw [if_neg hv, if_neg hv, dropWhile_append_of_ne_nil hd']
    split
    · exact (patternParts_extends ht hp hi (he.suffix hs'') hd').mono hs''
    · exact patternParts_extends ht hp hi he hn

theorem keeps_pattern : Keeps tail (pattern placeable) (pattern placeable) := by
  refine keeps_of_cons (fun _ _ h => ?_) fun c text he => ?_
  · exact (Prod.mk.inj (Except.ok.inj h)).2.symm
  · exact (pattern_extends ht hp hi he (List.cons_ne_nil c text)).keepsAt

end

end Fluent.Grammar
