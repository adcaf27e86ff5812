import Fluent.Proofs.LastLine.Pattern
import Fluent.Proofs.Placeable

/-!
# Placeables in front of a last line end

Blank text between the parts of a placeable may hold line ends, so that most readers do not tell a
last line end from the end of the text. Two do: arguments that stop at the end of the text behind a
parenthesis or a comma are complete, where in front of a line end one more is missing; and an arrow
at the end of the text misses the line end, where in front of one it misses variants.

* `arguments_cases`: the arguments of a call;
* `alike_selectTail`: what follows an arrow;
* `closes_inlineExpression`, `closesBraces_placeable`: inline expressions and placeables.
-/

namespace Fluent.Grammar.LastLine

open Fluent.Grammar.Parser Fluent.Text.Reader

variable {p q e f : Parser Expression} {text text' rest : List Char}

/-! ## Literals -/

theorem leadChar?_any (hm : Matches text text') {p : Char → Bool} (hp : p '\n' = false) :
    (leadChar? text').any p = (leadChar? text).any p := by
  rw [leadChar?, leadChar?]
  simp only [hm.head?_eq_some (c := '-') (by decide)]
  split
  · exact (hm.drop 1).head?_any hp
  · exact hm.head?_any hp

theorem closes_literal : Closes literal literal := by
  intro text text' hm filled
  have at' {α : Type} {r s : Parser α} (h : Closes r s) (n : Nat) :
      Alike Same text (r (text.drop n)) (s (text'.drop n)) :=
    (h _ _ (hm.drop n) (filled.suffix (List.drop_suffix n text))).within (List.drop_suffix n text)
  rw [literal_apply, literal_apply]
  simp only [hm.head?_eq_some (c := '$') (by decide), hm.head?_eq_some (c := '"') (by decide),
    leadChar?_any hm (p := Char.isAlpha) rfl, leadChar?_any hm (p := Char.isDigit) rfl]
  refine .choice (at' (closes_identifier.bind fun _ => closes_pure _) 1) ?_
  refine .choice (at' (closes_entryIdentifier.bind fun _ => closes_pure _) 0) ?_
  refine .choice (at' (closes_number.bind fun _ => closes_pure _) 0) ?_
  refine .choice (at' (closes_string.bind fun _ => closes_pure _) 0) ?_
  exact alike_error (List.suffix_refl _) hm rfl rfl

/-! ## Calls -/

theorem closes_argument (expressions : Closes e f) : Closes (argument e) (argument f) := by
  refine expressions.bind fun value => ?_
  cases value with
  | entryRef name =>
    refine closes_skipInlineBlank.bind fun _ => ?_
    refine closes_peek (P := (· = some ':')) (by decide) ?_ (closes_pure _)
    refine closes_advance.bind fun _ => closes_skipBlank.bind fun _ => ?_
    refine expressions.bind fun value => ?_
    exact (closes_pure _).choice (closes_fail rfl)
  | _ => exact closes_pure _

/-- Rounds of arguments that both go on behind a comma, or are both done in front of a
parenthesis. -/
inductive SameArguments (text : List Char) :
    Round (List Argument) × List Char → Round (List Argument) × List Char → Prop
  | again {arguments rest} : ',' :: rest <:+ text →
      SameArguments text (.again arguments, rest) (.again arguments, rest ++ ['\n'])
  | done {arguments rest} : ')' :: rest <:+ text →
      SameArguments text (.done arguments, ')' :: rest) (.done arguments, ')' :: (rest ++ ['\n']))

theorem alike_argumentRound (expressions : Closes e f) (filled : Filled text) (nonempty : text ≠ [])
    (arguments : List Argument) :
    Alike (SameArguments text) text (argumentRound e arguments text)
      (argumentRound f arguments (text ++ ['\n'])) := by
  have hs := List.dropWhile_suffix (l := text) Text.isBlank
  have hm := (Matches.ahead text).dropWhile Text.isBlank
  have nonempty' : (text ++ ['\n']).isEmpty = false := by simp
  rw [argumentRound_apply, argumentRound_apply]
  simp only [List.isEmpty_eq_false_iff.mpr nonempty, nonempty',
    hm.head?_eq_some (c := ')') (by decide), Bool.false_eq_true, if_false]
  by_cases closed : (text.dropWhile Text.isBlank).head? = some ')'
  · obtain ⟨rest, hd⟩ := List.head?_eq_some_iff.mp closed
    rw [hd] at hs hm
    rw [if_pos closed, if_pos closed, hd, hm.eq_cons]
    exact .read hs (.done hs)
  rw [if_neg closed, if_neg closed]
  refine Alike.within (Alike.bindSame ((closes_argument expressions) _ _ hm (filled.suffix hs))
    fun argument after after' ha hm => ?_) hs
  have hb := List.dropWhile_suffix (l := after) Text.isBlank
  have ht := hb.trans (ha.trans hs)
  replace hm := hm.dropWhile Text.isBlank
  by_cases close : (after.dropWhile Text.isBlank).head? = some ')'
  · obtain ⟨rest, hd⟩ := List.head?_eq_some_iff.mp close
    rw [hd] at hb ht hm
    rw [argumentEnd_close hd, argumentEnd_close hm.eq_cons]
    exact .read hb (.done ht)
  by_cases comma : (after.dropWhile Text.isBlank).head? = some ','
  · obtain ⟨rest, hd⟩ := List.head?_eq_some_iff.mp comma
    rw [hd] at hb ht hm
    rw [argumentEnd_comma hd, argumentEnd_comma hm.eq_cons]
    exact .read ((List.suffix_cons _ _).trans hb) (.again ht)
  · rw [argumentEnd_other rfl close comma,
      argumentEnd_other rfl (mt (hm.head?_eq_some (by decide)).mp close)
        (mt (hm.head?_eq_some (by decide)).mp comma)]
    exact alike_error hb hm rfl rfl

/-- Both readings of arguments find the same and leave a closing parenthesis. -/
def SameClosed (found found' : List Argument × List Char) : Prop :=
  ∃ rest, found.2 = ')' :: rest ∧ found' = (found.1, ')' :: (rest ++ ['\n']))

/-- Arguments are read alike, unless the text ends where one more may follow. -/
theorem arguments_cases (expressions : Closes e f) (missing : f [] = .error ⟨.expectedLiteral, []⟩)
    (filled : Filled text) (arguments : List Argument) :
    Alike SameClosed text (iterate (argumentRound e) arguments text)
        (iterate (argumentRound f) arguments (text ++ ['\n'])) ∨
      (∃ arguments', iterate (argumentRound e) arguments text = .ok (arguments', [])) ∧
        iterate (argumentRound f) arguments (text ++ ['\n']) = .error ⟨.expectedLiteral, []⟩ := by
  induction hn : text.length using Nat.strongRecOn generalizing text arguments with
  | ind n ih =>
    subst hn
    by_cases empty : text = []
    · subst empty
      have fails : argumentRound f arguments ['\n'] = .error ⟨.expectedLiteral, []⟩ := by
        rw [argumentRound_apply]
        exact bind_error (bind_error missing _) _
      exact .inr ⟨⟨arguments, by rw [iterate]; rfl⟩, by rw [iterate, List.nil_append, fails]⟩
    have once := alike_argumentRound expressions filled empty arguments
    rw [iterate, iterate]
    generalize argumentRound e arguments text = x at once
    generalize argumentRound f arguments (text ++ ['\n']) = y at once
    cases once with
    | stopped hr hm hk ht => exact .inl (.stopped hr hm hk ht)
    | turned hr ht => exact .inl (.turned hr ht)
    | read hs same =>
      cases same with
      | done => exact .inl (.read hs ⟨_, rfl, rfl⟩)
      | @again next rest ht =>
        have shorter : rest.length < text.length := Nat.lt_of_succ_le ht.length_le
        have shorter' : (rest ++ ['\n']).length < (text ++ ['\n']).length := by simpa using shorter
        simp only [shorter, shorter', if_true]
        exact (ih _ shorter (filled.suffix hs) next rfl).imp_left fun alike => alike.within hs

theorem alike_call (expressions : Closes e f) (missing : f [] = .error ⟨.expectedLiteral, []⟩)
    (filled : Filled rest) (name : String) :
    Alike Same rest (referenceTail e name ('(' :: rest))
      (referenceTail f name ('(' :: (rest ++ ['\n']))) := by
  rw [referenceTail_call, referenceTail_call]
  obtain alike | ⟨⟨arguments, ended⟩, fails⟩ := arguments_cases expressions missing filled []
  · refine alike.bind ?_
    rintro ⟨arguments, _⟩ _ hs ⟨rest, rfl, rfl⟩
    rw [choice_apply, choice_apply]
    refine .choice (alike_ok (List.suffix_cons _ _) (.ahead rest)) ?_
    exact .stopped (List.suffix_refl _) (.ahead (')' :: rest)) rfl nofun
  · rw [bind_ok ended, bind_error fails, choice_apply]
    split
    · exact .turned List.nil_suffix .closing
    · exact .turned List.nil_suffix .capitals

theorem closes_referenceTail (expressions : Closes e f)
    (missing : f [] = .error ⟨.expectedLiteral, []⟩) (name : String) :
    Closes (referenceTail e name) (referenceTail f name) := by
  intro text text' hm filled
  by_cases continues : text.head?.any continuesReference = true
  · cases text with
    | nil => cases continues
    | cons c rest =>
      have hs := List.suffix_cons c rest
      have filled' := filled.suffix hs
      rw [hm.eq_cons]
      simp only [List.head?_cons, Option.any_some, continuesReference, Bool.or_eq_true,
        beq_iff_eq] at continues
      obtain (rfl | rfl) | rfl := continues
      · exact Alike.within ((closes_identifier.bind fun _ => closes_pure _) _ _ (.ahead rest)
          filled') hs
      · exact Alike.within ((closes_variantKey.bind fun _ => closes_pure _) _ _ (.ahead rest)
          filled') hs
      · exact (alike_call expressions missing filled' name).within hs
  · replace continues := Bool.eq_false_iff.mpr continues
    rw [referenceTail_end continues, referenceTail_end ((hm.head?_any rfl).trans continues)]
    exact alike_ok (List.suffix_refl _) hm

/-! ## Inline expressions -/

theorem closes_inlineStep (placeables : ClosesBraces p q) (expressions : Closes e f)
    (missing : f [] = .error ⟨.expectedLiteral, []⟩) :
    Closes (inlineStep p e) (inlineStep q f) := by
  intro text text' hm filled
  rw [inlineStep, peek_bind_apply, choice_apply, inlineStep, peek_bind_apply, choice_apply]
  simp only [hm.head?_eq_some (c := '\x7b') (by decide)]
  by_cases opens : text.head? = some '\x7b'
  · obtain ⟨rest, rfl⟩ := List.head?_eq_some_iff.mp opens
    rw [if_pos opens, if_pos opens, hm.eq_cons]
    exact (placeables rest (filled.suffix (List.suffix_cons _ _))).1
  · rw [if_neg opens, if_neg opens]
    refine (closes_literal.bind fun value => ?_) text text' hm filled
    cases value with
    | entryRef name => exact closes_referenceTail expressions missing name
    | _ => exact closes_pure _

theorem closes_inlineExpression (placeables : ClosesBraces p q) :
    Closes (inlineExpression p) (inlineExpression q) := by
  intro text text' hm filled
  induction hn : text.length using Nat.strongRecOn generalizing text text' with
  | ind n ih =>
    subst hn
    rw [inlineExpression_apply, inlineExpression_apply]
    refine closes_inlineStep placeables (fun rest rest' hm' filled' => ?_) ?_ text text' hm filled
    · cases hm' with
      | ended =>
        -- At the end of the text there is no expression, however it is reached.
        rw [inlineExpression_nil, inlineExpression_nil, ite_self, ite_self]
        exact alike_error (List.suffix_refl _) .ended rfl rfl
      | ahead =>
        have stuck : Alike Same rest (.error ⟨.expectedLiteral, rest⟩)
            (.error ⟨.expectedLiteral, rest ++ ['\n']⟩ : Except Failure (Expression × List Char)) :=
          alike_error (List.suffix_refl _) (.ahead rest) rfl rfl
        cases hm with
        | ended => simpa using stuck
        | ahead =>
          simp only [List.length_append, Nat.add_lt_add_iff_right]
          split
          · exact ih _ ‹_› rest _ (.ahead rest) filled' rfl
          · exact stuck
    · rw [inlineExpression_nil, ite_self]

/-! ## Variants -/

theorem closes_variant (placeables : ClosesBraces p q) : Closes (variant p) (variant q) := by
  refine (closes_expect (by decide) rfl).bind fun _ => closes_variantKey.bind fun key => ?_
  refine closes_skipInlineBlank.bind fun _ => (closes_pattern placeables).bind fun value => ?_
  cases value with
  | none => exact closes_fail rfl
  | some value => exact closes_skipBlank.bind fun _ => closes_pure _

theorem closes_variantAfter (placeables : ClosesBraces p q) (read : List Variant × Option Nat)
    (starred : Bool) : Closes (variantAfter p read starred) (variantAfter q read starred) :=
  (closes_variant placeables).bind fun _ => closes_pure _

theorem closes_variantRound (placeables : ClosesBraces p q) (read : List Variant × Option Nat) :
    Closes (variantRound p read) (variantRound q read) := by
  intro text text' hm filled
  by_cases starred : text.head? = some '*'
  · obtain ⟨rest, rfl⟩ := List.head?_eq_some_iff.mp starred
    have hs := List.suffix_cons '*' rest
    rw [hm.eq_cons, variantRound_starred, variantRound_starred]
    exact (closes_variantAfter placeables read true _ _ (.ahead rest) (filled.suffix hs)).within hs
  by_cases opens : ∃ rest, text = '[' :: rest ∧ rest.head? ≠ some '['
  · obtain ⟨rest, rfl, single⟩ := opens
    have single' := mt ((Matches.ahead rest).head?_eq_some (by decide)).mp single
    rw [hm.eq_cons, variantRound_open read single, variantRound_open read single']
    exact closes_variantAfter placeables read false _ _ (.ahead ('[' :: rest)) filled
  · have double : ∀ rest, text = '[' :: rest → rest.head? = some '[' := fun rest he =>
      by_contra fun single => opens ⟨rest, he, single⟩
    have double' : ∀ rest', text' = '[' :: rest' → rest'.head? = some '[' := by
      rintro rest' rfl
      obtain ⟨rest, rfl, next⟩ := hm.of_cons (by decide)
      exact (next.head?_eq_some (by decide)).mpr (double rest rfl)
    rw [variantRound_end read starred double,
      variantRound_end read (mt (hm.head?_eq_some (by decide)).mp starred) double']
    exact alike_ok (List.suffix_refl _) hm

theorem closes_variants (placeables : ClosesBraces p q) : Closes (variants p) (variants q) := by
  refine Closes.iterate (fun read next rest h => ?_) (closes_variantRound placeables) ([], none)
  rw [variantRound_end read (by simp) (by simp)] at h
  cases h

theorem closes_closePlaceable : Closes closePlaceable closePlaceable :=
  closes_skipBlank.bind fun _ => closes_expect (by decide) rfl

theorem closes_selectMembers (placeables : ClosesBraces p q) (selector : Expression) :
    Closes (selectMembers p selector) (selectMembers q selector) := by
  refine (closes_variants placeables).bind fun read => (closes_fail rfl).choice ?_
  exact closes_closePlaceable.bind fun _ => closes_pure _

/-! ## Placeables -/

theorem selectMembers_nil (placeable : Parser Expression) (selector : Expression) :
    selectMembers placeable selector [] = .error ⟨.missingVariants, []⟩ := by
  have ended : variants placeable [] = .ok (([], none), []) := by
    rw [variants, iterate, variantRound_end _ (by simp) (by simp)]
  rw [selectMembers, bind_ok ended]
  rfl

/-- What follows an arrow is read alike, unless the text ends where a line end is to follow. -/
theorem alike_selectTail (placeables : ClosesBraces p q) (filled : Filled text)
    (selector : Expression) :
    Alike Same text (selectTail p selector text) (selectTail q selector (text ++ ['\n'])) := by
  have hs := List.dropWhile_suffix (l := text) Text.isInlineBlank
  have hd' := dropWhile_lineFeed (p := Text.isInlineBlank) rfl text
  have members {next : List Char} (hs : next <:+ text) :
      Alike Same text (selectMembers p selector (next.dropWhile Text.isBlank))
        (selectMembers q selector ((next ++ ['\n']).dropWhile Text.isBlank)) := by
    have hb := (List.dropWhile_suffix (l := next) Text.isBlank).trans hs
    exact (closes_selectMembers placeables selector _ _ ((Matches.ahead next).dropWhile _)
      (filled.suffix hb)).within hb
  generalize hd : text.dropWhile Text.isInlineBlank = rest at hs hd'
  by_cases lineFeed : rest.head? = some '\n'
  · obtain ⟨next, rfl⟩ := List.head?_eq_some_iff.mp lineFeed
    rw [selectTail_lineFeed hd, selectTail_lineFeed hd']
    exact members ((List.suffix_cons _ _).trans hs)
  by_cases carriageReturn : ∃ next, rest = '\r' :: '\n' :: next
  · obtain ⟨next, rfl⟩ := carriageReturn
    rw [selectTail_return hd, selectTail_return hd']
    exact members (((List.suffix_cons _ _).trans (List.suffix_cons _ _)).trans hs)
  rw [selectTail_other hd lineFeed fun next he => carriageReturn ⟨next, he⟩]
  by_cases ended : rest = []
  · subst ended
    rw [selectTail_lineFeed hd', List.dropWhile_nil, selectMembers_nil]
    exact .turned List.nil_suffix .lineEnd
  by_cases lastReturn : rest = ['\r']
  · subst lastReturn
    rw [selectTail_return hd', List.dropWhile_nil, selectMembers_nil]
    exact .turned hs .carriageReturn
  have lineFeed' : (rest ++ ['\n']).head? ≠ some '\n' := by
    rwa [List.head?_append_of_ne_nil _ ended]
  have carriageReturn' : ∀ next, rest ++ ['\n'] ≠ '\r' :: '\n' :: next := by
    intro next he
    obtain ⟨c, _ | ⟨d, rest⟩, rfl⟩ := List.exists_cons_of_ne_nil ended
    · exact lastReturn (by rw [(List.cons.inj he).1])
    · obtain ⟨rfl, after⟩ := List.cons.inj he
      exact carriageReturn ⟨rest, by rw [(List.cons.inj after).1]⟩
  rw [selectTail_other hd' lineFeed' carriageReturn']
  refine .stopped hs (.ahead rest) rfl fun fault turned => ?_
  cases turned with
  | lineEnd => exact ended rfl
  | carriageReturn => exact lastReturn rfl

theorem closes_placeableTail (placeables : ClosesBraces p q) (expression : Expression) :
    Closes (placeableTail p expression) (placeableTail q expression) := by
  intro text text' hm filled
  have hs := List.dropWhile_suffix (l := text) Text.isBlank
  replace hm := hm.dropWhile Text.isBlank
  generalize hd : text.dropWhile Text.isBlank = rest at hs hm
  generalize hd' : text'.dropWhile Text.isBlank = rest' at hm
  by_cases close : rest.head? = some '\x7d'
  · obtain ⟨next, rfl⟩ := List.head?_eq_some_iff.mp close
    obtain ⟨next', rfl, after⟩ := hm.next
    rw [placeableTail_close hd, placeableTail_close hd']
    exact .choice (alike_error hs hm rfl rfl) (alike_ok ((List.suffix_cons _ _).trans hs) after)
  by_cases arrow : ∃ next, rest = '-' :: '>' :: next
  · obtain ⟨next, rfl⟩ := arrow
    cases hm
    have hn := ((List.suffix_cons _ _).trans (List.suffix_cons _ _)).trans hs
    rw [placeableTail_arrow hd, placeableTail_arrow hd']
    cases selectorFault? expression with
    | some fault => exact .stopped hs (.ahead _) rfl nofun
    | none => exact (alike_selectTail placeables (filled.suffix hn) expression).within hn
  · have arrow' : ∀ next', rest' ≠ '-' :: '>' :: next' := by
      rintro next' rfl
      obtain ⟨rest, rfl, after⟩ := hm.of_cons (by decide)
      obtain ⟨rest, rfl, -⟩ := after.of_cons (by decide)
      exact arrow ⟨rest, rfl⟩
    rw [placeableTail_other hd close fun next he => arrow ⟨next, he⟩,
      placeableTail_other hd' (mt (hm.head?_eq_some (by decide)).mp close) arrow']
    exact alike_error hs hm rfl rfl

theorem startsVariantList_lineFeed (text : List Char) :
    startsVariantList (text ++ ['\n']) = startsVariantList text := by
  have hm := (Matches.ahead text).dropWhile Text.isBlank
  have same {rest rest' : List Char} (hm : Matches rest rest') {c : Char} (hc : c ≠ '\n') :
      (rest'.head? == some c) = (rest.head? == some c) := by
    rw [Bool.eq_iff_iff, beq_iff_eq, beq_iff_eq, hm.head?_eq_some hc]
  rw [startsVariantList_eq rfl, startsVariantList_eq rfl, same hm (by decide), same hm (by decide),
    bne, bne, same (hm.drop 1) (by decide)]

theorem closesBraces_placeableBody (placeables : ClosesBraces p q) :
    ClosesBraces (placeableBody p) (placeableBody q) := by
  intro rest filled
  have skipped (pred : Char → Bool) {r s : Parser Expression} (h : Closes r s) :
      Alike Same rest (r (rest.dropWhile pred)) (s ((rest ++ ['\n']).dropWhile pred)) := by
    have hs := List.dropWhile_suffix (l := rest) pred
    exact (h _ _ ((Matches.ahead rest).dropWhile pred) (filled.suffix hs)).within hs
  have body : Alike Same rest (placeableBody p ('\x7b' :: rest))
      (placeableBody q ('\x7b' :: (rest ++ ['\n']))) := by
    rw [placeableBody_cons, placeableBody_cons, startsVariantList_lineFeed]
    refine .choice (skipped _ ?_) (skipped _ ?_)
    · refine (closes_variants placeables).bind ?_
      rintro ⟨members, standard⟩
      exact closes_closePlaceable.bind fun _ => closes_pure _
    · exact (closes_inlineExpression placeables).bind fun expression =>
        closes_placeableTail placeables expression
  refine ⟨body.within (List.suffix_cons _ _), fun found read => ?_⟩
  rw [read] at body
  exact body.suffix

theorem closesBraces_placeable (room : Nat) : ClosesBraces (placeable room) (placeable room) := by
  induction room with
  | zero => exact fun rest _ => ⟨alike_error (List.suffix_refl _) (.ahead _) rfl rfl, nofun⟩
  | succ room ih => exact closesBraces_placeableBody ih

end Fluent.Grammar.LastLine
