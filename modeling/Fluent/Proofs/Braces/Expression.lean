import Fluent.Proofs.Braces.Pattern
import Fluent.Proofs.LastLine.Pattern
import Fluent.Proofs.Transcription.Placeable

/-!
# Inline expressions inside a pair of braces

* `local_literal`: names, numbers and quoted strings;
* `local_argumentRound`, `local_referenceTail`: what follows a reference;
* `local_inlineExpression`: all of them.
-/

namespace Fluent.Grammar.Braces

open Fluent.Grammar.Parser Fluent.Text.Reader

variable {r : Nat} {m m' : Mode} {body rest text : List Char} {c : Char}
  {E : Frame → Parser Expression}

theorem stays_codeBlank : Stays InCode Text.isBlank :=
  stays_code.mono fun _ => isPlainCode_of_isBlank

theorem stays_codeInlineBlank : Stays InCode Text.isInlineBlank :=
  stays_codeBlank.mono LastLine.isBlank_of_isInlineBlank

theorem local_skipBlank : Local r (fun m _ => InCode m) (fun _ => skipBlank)
    fun _ m' rest => InCode m' ∧ Text.isBlank (ahead rest) = false :=
  local_skipWhile stays_codeBlank

theorem local_skipInlineBlank : Local r (fun m _ => InCode m) (fun _ => skipInlineBlank)
    fun _ m' _ => InCode m' :=
  (local_skipWhile stays_codeInlineBlank).mono (fun _ _ => id) fun _ _ _ post => post.1

theorem passes_code (plain : isPlainCode c = true) : Passes InCode c InCode := by
  refine ⟨?_, stays_code c plain⟩
  rintro rfl
  exact absurd plain (by decide)

/-! ## Literals -/

theorem shrinks_literal : Shrinks literal :=
  shrinks_of_agree fun text => Transcription.literal_agree (Transcription.asIs_inside text)

theorem isPlainCode_of_isNumberChar (number : isNumberChar c = true) : isPlainCode c = true := by
  simp only [isNumberChar, Bool.or_eq_true, beq_iff_eq] at number
  obtain (digit | rfl) | rfl := number
  · exact isPlainCode_of_isIdentifierChar (by simp [isIdentifierChar, Char.isAlphanum, digit])
  · rfl
  · rfl

/-- Behind a literal there is code, and a name stands in front of it if it is a reference. -/
def AfterLiteral (read : Expression) (m : Mode) (_ : List Char) : Prop :=
  InCode m ∧ ∀ name, read = .entryRef name → m = .code true

theorem local_literal : Local r (fun m _ => InCode m) (fun _ => literal) AfterLiteral where
  shrinks _ _ := shrinks_literal
  reads m body code := by
    have same (frame : Frame) := literal_apply (frame.close body)
    simp only [head?_close, leadChar?_close, Option.any_some, Option.some_inj] at same
    by_cases dollar : ahead body = '$'
    · obtain ⟨rest, rfl⟩ := exists_cons_of_ahead dollar (by decide)
      obtain ⟨m', code, move⟩ := stays_code '$' rfl m code
      have variable' : Local r (fun m _ => InCode m)
          (fun _ => do return .variableRef (← identifier)) AfterLiteral :=
        local_identifier.bind fun _ => .pure fun _ _ named => ⟨⟨true, named⟩, by rintro _ ⟨⟩⟩
      exact (variable'.reads m' rest code).skip rfl (walks_stay move)
        fun frame => (same frame).trans (if_pos rfl)
    by_cases letter : (lead body).isAlpha = true
    · have reference : Local r (fun m _ => InCode m)
          (fun _ => do return .entryRef (← entryIdentifier)) AfterLiteral :=
        local_entryIdentifier.bind fun _ => .pure fun _ _ named => ⟨⟨true, named⟩, fun _ _ => named⟩
      refine (reference.reads m body code).congr fun frame => ?_
      rw [same, if_neg dollar, if_pos letter]
    by_cases digit : (lead body).isDigit = true
    · have number : Local r (fun m _ => InCode m)
          (fun _ => do return .number (← number)) AfterLiteral :=
        (local_number (stays_code.mono fun _ => isPlainCode_of_isNumberChar)).bind fun _ =>
          .pure fun _ _ code => ⟨code, by rintro _ ⟨⟩⟩
      refine (number.reads m body code).congr fun frame => ?_
      rw [same, if_neg dollar, if_neg letter, if_pos digit]
    by_cases quote : ahead body = '"'
    · have string : Local r (fun m body => InCode m ∧ some '"' = some (ahead body))
          (fun _ => do return .string (← string)) AfterLiteral :=
        local_string.bind fun _ => .pure fun _ _ code => ⟨⟨false, code⟩, by rintro _ ⟨⟩⟩
      refine (string.reads m body ⟨code, congrArg some quote.symm⟩).congr fun frame => ?_
      rw [same, if_neg dollar, if_neg letter, if_neg digit, if_pos quote]
    · refine localAt_of_none fun frame a rest read => ?_
      rw [same, if_neg dollar, if_neg letter, if_neg digit, if_neg quote] at read
      cases read

/-! ## Calls -/

section

variable (expression : Local r (fun m _ => InCode m) E fun _ m' _ => InCode m')

include expression

theorem local_argument :
    Local r (fun m _ => InCode m) (fun frame => argument (E frame)) fun _ m' _ => InCode m' := by
  refine expression.bind fun value => ?_
  cases value with
  | entryRef name =>
    refine local_skipInlineBlank.bind fun _ => local_peek.bind fun next => ?_
    refine .choice (fun here => ?_) fun _ => .pure fun _ _ pre => pre.1
    subst here
    refine (local_advance (passes_code rfl)).bind fun _ => local_skipBlank.bind fun _ => ?_
    refine (expression.before fun _ _ pre => pre.1).bind fun value => ?_
    exact .choice (fun _ => .pure fun _ _ code => code) fun _ => .fails nofun
  | _ => exact .pure fun _ _ code => code

omit expression in
theorem local_argumentEnd (arguments : List Argument) :
    Local r (fun m _ => InCode m) (fun _ => argumentEnd arguments)
      (KeptAt (fun _ m _ => InCode m) fun _ m _ => InCode m) := by
  refine local_skipBlank.bind fun _ => local_peek.bind fun next => ?_
  split
  · exact .pure fun _ _ pre => pre.1.1
  · refine ((local_advance (passes_code rfl)).before fun _ _ pre => ⟨pre.1.1, pre.2⟩).bind ?_
    exact fun _ => .pure fun _ _ code => code
  · exact .fails nofun

theorem local_argumentNext (arguments : List Argument) :
    Local r (fun m _ => InCode m)
      (fun frame => do argumentEnd (arguments ++ [← argument (E frame)]))
      (KeptAt (fun _ m _ => InCode m) fun _ m _ => InCode m) :=
  (local_argument expression).bind fun value => local_argumentEnd (arguments ++ [value])

theorem local_argumentRound (arguments : List Argument) :
    Local r (fun m _ => InCode m) (fun frame => argumentRound (E frame) arguments)
      (KeptAt (fun _ m _ => InCode m) fun _ m _ => InCode m) where
  shrinks frame room text next rest read := by
    have blank := List.dropWhile_suffix (l := text) Text.isBlank
    rw [argumentRound_apply] at read
    dsimp only at read
    split at read
    · obtain ⟨-, rfl⟩ := Prod.mk.inj (Except.ok.inj read)
      exact List.suffix_refl _
    split at read
    · obtain ⟨-, rfl⟩ := Prod.mk.inj (Except.ok.inj read)
      exact blank
    · exact ((local_argumentNext expression arguments).shrinks frame room _ next rest read).trans
        blank
  reads m body code := by
    obtain ⟨m', code, walks⟩ := stays_codeBlank.walks_takeWhile code body
    have parts : body = body.takeWhile Text.isBlank ++ body.dropWhile Text.isBlank :=
      List.takeWhile_append_dropWhile.symm
    have same (frame : Frame) : argumentRound (E frame) arguments (frame.close body) =
        if ahead (body.dropWhile Text.isBlank) = ')' then
          .ok (.done arguments, frame.close (body.dropWhile Text.isBlank))
        else (do argumentEnd (arguments ++ [← argument (E frame)]) : Parser _)
          (frame.close (body.dropWhile Text.isBlank)) := by
      rw [argumentRound_apply]
      have filled : (frame.close body).isEmpty = false := by simp [Frame.close]
      simp only [filled, dropWhile_close frame (p := Text.isBlank) rfl, head?_close,
        Option.some_inj, Bool.false_eq_true, if_false]
    by_cases close : ahead (body.dropWhile Text.isBlank) = ')'
    · exact localAt_of_all (fun frame => (same frame).trans (if_pos close)) parts walks code
    · exact ((local_argumentNext expression arguments).reads m' _ code).skip parts walks
        fun frame => (same frame).trans (if_neg close)

/-- There are more arguments behind a comma only. -/
theorem argumentRound_onward {frame : Frame} (room : frame.room = r)
    {arguments next : List Argument}
    (read : argumentRound (E frame) arguments text = .ok (.again next, rest)) :
    rest.length < text.length := by
  have blank (text : List Char) := (List.dropWhile_suffix (l := text) Text.isBlank).length_le
  rw [argumentRound_apply] at read
  dsimp only at read
  split at read
  · cases read
  split at read
  · cases read
  obtain ⟨value, mid, first, read⟩ := exists_of_bind_ok read
  have behind := ((local_argument expression).shrinks frame room _ value mid first).length_le
  by_cases close : (mid.dropWhile Text.isBlank).head? = some ')'
  · obtain ⟨after, stop⟩ := List.head?_eq_some_iff.mp close
    rw [argumentEnd_close stop] at read
    cases read
  by_cases comma : (mid.dropWhile Text.isBlank).head? = some ','
  · obtain ⟨after, stop⟩ := List.head?_eq_some_iff.mp comma
    rw [argumentEnd_comma stop] at read
    obtain ⟨-, rfl⟩ := Prod.mk.inj (Except.ok.inj read)
    have before := blank mid
    rw [stop, List.length_cons] at before
    exact Nat.lt_of_lt_of_le before (behind.trans (blank text))
  · rw [argumentEnd_other rfl close comma] at read
    cases read

theorem local_referenceTail (name : String) :
    Local r (fun m _ => m = .code true) (fun frame => referenceTail (E frame) name)
      fun _ m' _ => InCode m' := by
  refine local_peek.bind fun next => ?_
  split
  · have point : Passes (· = .code true) '.' InCode :=
      ⟨by decide, fun m named => stays_code '.' rfl m ⟨true, named⟩⟩
    refine (local_advance point).bind fun _ => local_identifier.bind fun _ => ?_
    exact .pure fun _ _ named => ⟨true, named⟩
  · have bracket : Passes (· = .code true) '[' (· = .key true) :=
      ⟨by decide, fun m named => ⟨_, rfl, named ▸ rfl⟩⟩
    refine (local_advance bracket).bind fun _ => (local_variantKey true).bind fun _ => ?_
    exact .pure fun _ _ code => ⟨false, code⟩
  · have parenthesis : Passes (· = .code true) '(' InCode :=
      ⟨by decide, fun m named => stays_code '(' rfl m ⟨true, named⟩⟩
    refine (local_advance parenthesis).bind fun _ => ?_
    refine (Local.iterate (local_argumentRound expression)
      (fun frame room _ _ _ _ => argumentRound_onward expression room) []).bind fun _ => ?_
    refine .choice (fun _ => ?_) fun _ => .fails nofun
    exact (local_expect (passes_code rfl)).bind fun _ => .pure fun _ _ code => code
  · exact .pure fun _ _ pre => ⟨true, pre.1⟩

theorem local_inlineStep (nests : Nests r) :
    Local r (fun m _ => InCode m) (fun frame => inlineStep (placeable frame.room) (E frame))
      fun _ m' _ => InCode m' := by
  refine local_peek.bind fun next => .choice (fun here => ?_) fun _ => ?_
  · subst here
    refine (nests.reads (.code false)).mono (fun m body pre => ?_) fun _ _ _ code => ⟨false, code⟩
    obtain ⟨⟨named, rfl⟩, here⟩ := pre
    exact ⟨rfl, here⟩
  · refine (local_literal.before fun _ _ pre => pre.1).bind fun value => ?_
    cases value with
    | entryRef name =>
      exact (local_referenceTail expression name).before fun _ _ post => post.2 name rfl
    | _ => exact .pure fun _ _ post => post.1

end

theorem local_inlineExpression (nests : Nests r) :
    Local r (fun m _ => InCode m) (fun frame => inlineExpression (placeable frame.room))
      fun _ m' _ => InCode m' := by
  refine .recursive (fun frame _ => ?_) fun self expression => local_inlineStep expression nests
  exact shrinks_of_agree fun text => Transcription.inlineExpression_agree
    (Transcription.placeable_agree _ _) (Transcription.asIs_inside text)

end Fluent.Grammar.Braces
