import Fluent.Proofs.Pattern
import Fluent.Proofs.Transcription.Token

/-!
# Patterns of a text and of its transcription

A pattern ends at the same line of a text and of its transcription, and is the same, with one
exception: where the text has no value in front of a line end, the transcription has an empty one if
its line ends start with a carriage return.

* `dropBlankLines_apply`: blank lines are passed over alike;
* `pattern_agree`: both read the same pattern, or the first one is `Emptied`.
-/

namespace Fluent.Grammar.Transcription

open Fluent.Grammar.Parser Fluent.Text.Reader

/-- What is read and left for a pattern: where carriage returns are added, a pattern is missing only
at the end of a text that is not closed. -/
def ReadsValue (T : Transcription) (value : Option Pattern) (rest : List Char) : Prop :=
  T.Within rest ∧ (T.lineEnd ≠ ['\n'] → value = none → rest = [] ∧ T.closed = false)

/-- A draft that another round goes on with: where carriage returns are added, it is not empty. -/
def Underway (T : Transcription) (draft : Draft) (rest : List Char) : Prop :=
  T.Inside rest ∧ (T.lineEnd ≠ ['\n'] → draft.isEmpty = false)

/-- A draft that the last round has left, as `ReadsValue` has it. -/
def Finished (T : Transcription) (draft : Draft) (rest : List Char) : Prop :=
  T.Within rest ∧
    (T.lineEnd ≠ ['\n'] → draft.isEmpty = true → rest = [] ∧ T.closed = false)

/-- The first of two readings of a pattern finds nothing in front of a line end and no line that
goes on with it, the second one an empty text. -/
def Emptied (T : Transcription) (text : List Char)
    (x y : Except Failure (Option Pattern × List Char)) : Prop :=
  ∃ rest, rest <:+ text ∧ T.Within rest ∧ T.lineEnd ≠ ['\n'] ∧
    (rest ≠ [] ∨ T.closed = true) ∧ EndsValue rest ∧
    x = .ok (none, rest) ∧ y = .ok (some (.text ""), T.apply rest)

/-- A reader of placeables reads one alike from a text and from its transcription. -/
def AgreesOnPlaceables (T : Transcription) (placeable : Parser Expression) : Prop :=
  ∀ rest, T.Inside ('{' :: rest) →
    T.Agree ('{' :: rest) (fun _ => T.Inside) (placeable ('{' :: rest))
      (placeable (T.apply ('{' :: rest)))

section

variable {T : Transcription} {text rest : List Char} {c : Char}

/-- Only what starts with a line feed becomes a text that does. -/
theorem head?_of_apply (h : (T.apply text).head? = some '\n') : text.head? = some '\n' := by
  cases text with
  | nil => exact absurd (T.tail_head h) (by decide)
  | cons c rest =>
    by_cases hc : c = '\n'
    · rw [hc, List.head?_cons]
    · rwa [apply_cons hc] at h

theorem dropBlankLinesFrom_apply (lineStart : List Char) (h : T.Within text) :
    dropBlankLinesFrom (T.apply lineStart) (T.apply text) =
      T.apply (dropBlankLinesFrom lineStart text) := by
  fun_induction dropBlankLinesFrom lineStart text with
  | case1 lineStart rest ih =>
    rw [apply_cons (by decide), dropBlankLinesFrom]
    exact ih h.next
  | case2 lineStart rest ih =>
    rw [apply_cons (by decide), dropBlankLinesFrom]
    exact ih h.next
  | case3 lineStart rest ih =>
    obtain he | ⟨-, he⟩ := T.apply_lineFeed_cases rest <;> rw [he, dropBlankLinesFrom] <;>
      exact ih h.next
  | case4 lineStart rest ih =>
    have hl : T.lineEnd = ['\n'] :=
      Classical.byContradiction fun hl => h.noReturn hl (List.mem_cons_self)
    rw [apply_cons (by decide), apply_lineFeed, hl]
    exact ih h.next.next
  | case5 text lineStart h₁ h₂ h₃ h₄ =>
    have hn {c : Char} (hc : ¬(c.isAlpha ∨ c = '-')) (hr : ∀ rest, text = c :: rest → False)
        (hl : c ≠ '\n') (rest : List Char) (he : T.apply text = c :: rest) : False := by
      cases text with
      | nil => exact hc (T.tail_head (by rw [← apply_nil, he, List.head?_cons]))
      | cons d text =>
        by_cases hd : d = '\n'
        · exact h₃ text (by rw [hd])
        · rw [apply_cons hd, List.cons.injEq] at he
          exact hr text (by rw [he.1])
    rw [dropBlankLinesFrom]
    · exact hn (by decide) h₁ (by decide)
    · exact hn (by decide) h₂ (by decide)
    · intro rest he
      obtain ⟨rest, rfl⟩ :=
        List.head?_eq_some_iff.mp (T.head?_of_apply (by rw [he, List.head?_cons]))
      exact h₃ rest rfl
    · intro rest he
      cases text with
      | nil => exact absurd (T.tail_head (by rw [← apply_nil, he, List.head?_cons])) (by decide)
      | cons d text =>
        by_cases hd : d = '\n'
        · exact h₃ text (by rw [hd])
        · rw [apply_cons hd, List.cons.injEq] at he
          obtain ⟨next, rfl⟩ :=
            List.head?_eq_some_iff.mp (T.head?_of_apply (by rw [he.2, List.head?_cons]))
          exact h₄ next (by rw [he.1])

theorem dropBlankLines_apply (h : T.Within text) :
    dropBlankLines (T.apply text) = T.apply (dropBlankLines text) :=
  dropBlankLinesFrom_apply text h

/-- The blank text in front of a rest holds the same but for carriage returns. -/
theorem filter_take_apply (h : T.Within text) (hs : rest <:+ text) :
    ((T.apply text).take ((T.apply text).length - (T.apply rest).length)).filter (· != '\r') =
      (text.take (text.length - rest.length)).filter (· != '\r') := by
  obtain ⟨front, rfl⟩ := hs
  have hf : T.apply (front ++ rest) =
      front.flatMap (fun c => if c = '\n' then T.lineEnd else [c]) ++ T.apply rest := by
    rw [apply, apply, List.flatMap_append, List.append_assoc]
  rw [hf, List.length_append, List.length_append, Nat.add_sub_cancel, Nat.add_sub_cancel,
    List.take_left, List.take_left]
  clear hf
  induction front with
  | nil => rfl
  | cons c front ih =>
    have ih := ih (h.next)
    obtain hl | ⟨hl, -⟩ := T.lineEnd_cases <;> by_cases hc : c = '\n' <;>
      simp_all [List.filter_cons]

theorem nextLine_agree (draft : Draft) (h : T.Within rest) :
    T.Agree ('\n' :: rest)
      (fun r after => AfterRound (fun _ => T.Inside) (fun _ => T.Within) r after ∧
        (r.state.isEmpty = true → draft.isEmpty = true))
      (nextLine draft ('\n' :: rest)) (nextLine draft ('\n' :: T.apply rest)) := by
  have hs := dropBlankLines_suffix rest
  have hw := h.suffix hs
  have hs' := hs.trans (List.suffix_cons '\n' rest)
  rw [nextLine_cons, nextLine_cons, dropBlankLines_apply h]
  simp only [hw.head?_apply (c := ' ') (by simp [IsMark])]
  split
  · have hi : T.Inside (dropBlankLines rest) := hw.inside fun hn => by simp_all
    obtain ⟨-, h₂, h₃⟩ := hi.takeWhile_apply (p := Text.isInlineBlank) rfl rfl
    rw [h₂, h₃.any_head?_apply rfl rfl]
    split
    · exact .read hs' ⟨hw, id⟩
    · have hb : draft.nextLine
            ((T.apply rest).take ((T.apply rest).length - (T.apply (dropBlankLines rest)).length)) =
          draft.nextLine (rest.take (rest.length - (dropBlankLines rest).length)) := by
        simp only [Draft.nextLine, filter_take_apply h hs]
      rw [hb]
      exact .read ((List.dropWhile_suffix _).trans hs') ⟨h₃, Draft.isEmpty_of_nextLine⟩
  · exact .read hs' ⟨hw, id⟩

theorem endsValue_apply (h : T.Within rest) : EndsValue (T.apply rest) ↔ EndsValue rest := by
  have hm : IsMark ' ' := by simp [IsMark]
  unfold EndsValue
  rw [Ne, Ne, h.head?_apply hm]
  by_cases hr : rest = []
  · simp [hr]
  · obtain ⟨-, h₂, h₃⟩ := (h.inside hr).takeWhile_apply (p := Text.isInlineBlank) rfl rfl
    rw [h₂, h₃.head?_apply (by decide) (by decide)]

theorem withoutReturn_takeWhile (h : T.Inside text) (hl : T.lineEnd ≠ ['\n']) (p : Char → Bool) :
    withoutReturn (text.takeWhile p) = text.takeWhile p := by
  refine if_neg fun hr => h.noReturn hl ?_
  exact (List.takeWhile_prefix p).mem (List.mem_of_getLast? hr)

theorem withoutReturn_append (run : List Char) : withoutReturn (run ++ ['\r']) = run := by
  rw [withoutReturn, if_pos (by simp), List.dropLast_concat]

variable {placeable : Parser Expression}
  (hp : T.AgreesOnPlaceables placeable)

include hp

theorem patternRound_agree (draft : Draft) (h : T.Inside text) :
    T.Agree text
      (fun r rest => AfterRound (fun _ => T.Inside) (fun _ => T.Within) r rest ∧
        (T.lineEnd ≠ ['\n'] → r.state.isEmpty = true →
          draft.isEmpty = true ∧ (text = [] ∨ text.head? = some '\n')))
      (patternRound placeable draft text) (patternRound placeable draft (T.apply text)) := by
  have hs := List.dropWhile_suffix (l := text) isPatternChar
  have hsplit := List.takeWhile_append_dropWhile (p := isPatternChar) (l := text)
  obtain ⟨hi, hn, h₁, h₂⟩ | ⟨rest, ha, hw, h₂, h₁⟩ := h.span_apply (p := isPatternChar) rfl rfl
  · obtain ⟨ha, ht⟩ | ⟨rest, ha, -⟩ | ⟨c, rest, ha, hc, hr⟩ := hi.cases
    · rw [ha, apply_nil, ht] at h₂
      rw [patternRound_end ha, patternRound_end h₂, h₁]
      rw [ha] at hi hs hsplit
      refine hi.readEnd ⟨hi.toWithin, fun _ he => ?_⟩
      simp only [Round.state, Draft.isEmpty_push, Bool.and_eq_true, List.isEmpty_iff] at he
      exact ⟨he.1, .inl (by rw [← hsplit, he.2]; rfl)⟩
    · rw [ha] at hn
      exact absurd rfl hn
    · rw [ha] at h₂ hi hs
      rw [apply_cons hc] at h₂
      obtain rfl | rfl | rfl := dropWhile_isPatternChar_cases ha
      · exact absurd rfl hc
      · rw [patternRound_escape ha, patternRound_escape h₂, h₁, ← apply_cons hc]
        refine Agree.mono ?_ hs fun _ _ => id
        refine (escape_agree (by simp) (by simp) hc hi).bind fun d rest _ h => ?_
        exact pure_agree ⟨h, by simp [Round.state]⟩
      · rw [patternRound_placeable ha, patternRound_placeable h₂, h₁, ← apply_cons hc]
        split
        · exact .fails hs rfl rfl nofun (.inl rfl)
        · refine Agree.mono ?_ hs fun _ _ => id
          refine (hp _ hi).bind fun value rest _ h => ?_
          exact pure_agree ⟨h, by simp [Round.state]⟩
  · have hw' : withoutReturn ((T.apply text).takeWhile isPatternChar) =
        withoutReturn (text.takeWhile isPatternChar) := by
      obtain ⟨-, h₁⟩ | ⟨hl, h₁⟩ := h₁
      · rw [h₁]
      · rw [h₁, withoutReturn_append, withoutReturn_takeWhile h hl]
    rw [patternRound_lineEnd ha, patternRound_lineEnd h₂, hw']
    rw [ha] at hs hsplit
    refine (nextLine_agree _ hw).mono hs fun r after hr => ⟨hr.1, fun hl he => ?_⟩
    have he := hr.2 he
    rw [withoutReturn_takeWhile h hl, Draft.isEmpty_push, Bool.and_eq_true, List.isEmpty_iff] at he
    exact ⟨he.1, .inr (by rw [← hsplit, he.2]; rfl)⟩

theorem patternParts_agree (h : T.Inside text) (hn : text.head? ≠ some '\n') :
    T.Agree text T.ReadsValue (patternParts placeable text)
      (patternParts placeable (T.apply text)) := by
  have round (draft : Draft) {r : Round Draft} {rest : List Char}
      (h : AfterRound (fun _ => T.Inside) (fun _ => T.Within) r rest)
      (he : T.lineEnd ≠ ['\n'] → r.state.isEmpty = false) :
      AfterRound T.Underway T.Finished r rest := by
    cases r with
    | again state => exact ⟨h, he⟩
    | done state => exact ⟨h, fun hl ht => absurd ((he hl).symm.trans ht) (by simp)⟩
  have rounds (draft : Draft) (rest : List Char) (_ : rest <:+ text) (h : T.Underway draft rest) :
      T.Agree rest (AfterRound T.Underway T.Finished) (patternRound placeable draft rest)
        (patternRound placeable draft (T.apply rest)) := by
    refine (patternRound_agree hp draft h.1).mono (List.suffix_refl _) fun r after hr => ?_
    refine round draft hr.1 fun hl => Bool.eq_false_iff.mpr fun he => ?_
    exact absurd ((h.2 hl).symm.trans (hr.2 hl he).1) (by simp)
  have first : T.Agree text (AfterRound T.Underway T.Finished)
      (patternRound placeable .empty text) (patternRound placeable .empty (T.apply text)) := by
    by_cases ht : text = []
    · subst ht
      have hread : T.Finished (Draft.empty.push []) [] :=
        ⟨h.toWithin, fun _ _ => ⟨rfl, h.nil.1⟩⟩
      rw [apply_nil, h.nil.2]
      exact h.readEnd (show AfterRound T.Underway T.Finished (.done _) [] from hread)
    · refine (patternRound_agree hp .empty h).mono (List.suffix_refl _) fun r after hr => ?_
      refine round .empty hr.1 fun hl => Bool.eq_false_iff.mpr fun he => ?_
      exact (hr.2 hl he).2.elim ht hn
  have parts := Agree.iterateFrom
    (fun draft rest h => ⟨h.1.toWithin, fun hl he => absurd ((h.2 hl).symm.trans he) (by simp)⟩)
    rounds first
  exact parts.bind fun draft rest _ h =>
    pure_agree ⟨h.1, fun hl he => h.2 hl (Draft.finish_eq_none.mp he)⟩

omit hp in
theorem head?_ne_of_value (ha : Text.dropEndWhile Text.isBlank (text.takeWhile (· != '\n')) ≠ []) :
    text.head? ≠ some '\n' := by
  intro hn
  obtain ⟨rest, rfl⟩ := List.head?_eq_some_iff.mp hn
  exact ha rfl

/-- What is read of a pattern that is plain text in one line. -/
def plainLine (line rest : List Char) : Except Failure (Option Pattern × List Char) :=
  .ok (if line.isEmpty then none
    else some (.text (String.ofList (Text.dropEndWhile Text.isBlank line))), rest)

omit hp in
/-- A plain line agrees with its transcription, unless there is nothing in it: the transcription has
a carriage return there. -/
theorem plainLine_agree {line line' : List Char} (hs : rest <:+ text) (hw : T.Within rest)
    (hr : rest ≠ [] ∨ T.closed = true) (he : EndsValue rest)
    (hl : T.lineEnd = ['\n'] ∧ line' = line ∨ T.lineEnd ≠ ['\n'] ∧ line' = line ++ ['\r'])
    (htext : Text.dropEndWhile Text.isBlank line' = Text.dropEndWhile Text.isBlank line) :
    T.Agree text T.ReadsValue (plainLine line rest) (plainLine line' (T.apply rest)) ∨
      T.Emptied text (plainLine line rest) (plainLine line' (T.apply rest)) := by
  rw [plainLine, plainLine, htext]
  obtain ⟨hl, rfl⟩ | ⟨hl, rfl⟩ := hl
  · exact .inl (.read hs ⟨hw, fun hl' => absurd hl hl'⟩)
  · cases line with
    | nil => exact .inr ⟨rest, hs, hw, hl, hr, he, rfl, rfl⟩
    | cons c line => exact .inl (.read hs ⟨hw, nofun⟩)

/-- A pattern whose line goes on to the end of the text. -/
theorem pattern_agree_last (h : T.Inside text) (ha : text.dropWhile (· != '\n') = [])
    (hi : T.Inside []) (h₁ : (T.apply text).takeWhile (· != '\n') = text.takeWhile (· != '\n'))
    (h₂ : (T.apply text).dropWhile (· != '\n') = []) :
    T.Agree text T.ReadsValue (pattern placeable text) (pattern placeable (T.apply text)) := by
  rw [pattern_apply, pattern_apply]
  simp only [h₁, h₂, ha]
  split
  · exact patternParts_agree hp h (head?_ne_of_value fun hn => by simp_all)
  · exact hi.readEnd ⟨hi.toWithin, fun _ _ => ⟨rfl, hi.nil.1⟩⟩

/-- Both readings of a pattern agree, or the first one finds nothing and the second one an empty
text. -/
theorem pattern_agree (h : T.Inside text) :
    T.Agree text T.ReadsValue (pattern placeable text) (pattern placeable (T.apply text)) ∨
      T.Emptied text (pattern placeable text) (pattern placeable (T.apply text)) := by
  obtain ⟨hi, hn, h₁, h₂⟩ | ⟨rest, ha, hw, h₂, h₁⟩ :=
    h.span_apply (p := (· != '\n')) rfl rfl
  · left
    have ha : text.dropWhile (· != '\n') = [] := by
      cases hd : text.dropWhile (· != '\n') with
      | nil => rfl
      | cons c rest =>
        have hc := List.head?_dropWhile_not (· != '\n') text
        simp_all
    rw [ha] at hi h₂
    rw [apply_nil, hi.nil.2] at h₂
    exact pattern_agree_last hp h ha hi h₁ h₂
  · have hs : '\n' :: rest <:+ text := ha ▸ List.dropWhile_suffix _
    have hs' := (dropBlankLines_suffix rest).trans ((List.suffix_cons '\n' rest).trans hs)
    have hw' := hw.suffix (dropBlankLines_suffix rest)
    have htext : Text.dropEndWhile Text.isBlank ((T.apply text).takeWhile (· != '\n')) =
        Text.dropEndWhile Text.isBlank (text.takeWhile (· != '\n')) := by
      obtain ⟨-, h₁⟩ | ⟨-, h₁⟩ := h₁
      · rw [h₁]
      · rw [h₁]
        exact List.rdropWhile_concat_pos _ _ _ rfl
    have hparts (hv : Text.dropEndWhile Text.isBlank (text.takeWhile (· != '\n')) ≠ []) :=
      patternParts_agree hp h (head?_ne_of_value hv)
    have hclosed : dropBlankLines rest ≠ [] ∨ T.closed = true := by
      refine or_iff_not_imp_left.mpr fun hr => ?_
      exact ((h.toWithin.suffix hs).ended (by simp)).mp (getLast?_of_dropBlankLines (not_not.mp hr))
    rw [pattern_apply, pattern_apply]
    simp only [ha, h₂, htext, List.drop_one, List.tail_cons, dropBlankLines_apply hw,
      endsValue_apply hw']
    split
    · exact .inl (hparts fun hn => by simp_all)
    · split
      · have hread := plainLine_agree hs' hw' hclosed ‹_› h₁ htext
        rwa [plainLine, plainLine, htext] at hread
      · have hn : dropBlankLines rest ≠ [] := by
          intro hn
          simp_all [EndsValue]
        obtain ⟨-, h₃, h₄⟩ :=
          (hw'.inside hn).takeWhile_apply (p := Text.isInlineBlank) rfl rfl
        rw [h₃]
        split
        · refine .inl (Agree.mono (patternParts_agree hp h₄ (dropWhile_dropBlankLines rest)) ?_
            fun _ _ => id)
          exact (List.dropWhile_suffix _).trans hs'
        · exact .inl (hparts fun hn => by simp_all)

end

end Fluent.Grammar.Transcription
