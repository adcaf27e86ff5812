import Fluent.Proofs.Placeable
import Fluent.Proofs.Rendering.Pattern

/-!
# Written expressions are read back

An expression without variants is read back as a selector or an argument, in front of what separates
it from the text after it.

* `inline_literal`, `inline_reference`: how an inline expression starts;
* `iterate_arguments`: the arguments of a call;
* `readsInline_call` and others like it: each kind of expression.
-/

namespace Fluent.Grammar

open Fluent.Grammar.Parser Fluent.Text.Reader

/-- A character that separates an expression from the text after it. -/
def endsInline (c : Char) : Bool := c == ' ' || c == ',' || c == ')' || c == ':'

/-- A character that an expression starts with. -/
def startsInline (c : Char) : Bool :=
  c == '{' || c == '$' || c == '"' || c == '-' || c.isAlpha || c.isDigit

/-- An expression is read back in front of what separates it from the text after it. -/
def ReadsInline (expression : Parser Expression) (value : Expression) : Prop :=
  ∀ tail : List Char, tail.head?.any endsInline = true →
    expression (value.enclose value.render ++ tail) = .ok (value, tail)

theorem endsInline_cases {tail : List Char} (h : tail.head?.any endsInline = true) :
    ∃ c rest, tail = c :: rest ∧ (c = ' ' ∨ c = ',' ∨ c = ')' ∨ c = ':') := by
  cases tail with
  | nil => cases h
  | cons c rest => exact ⟨c, rest, rfl, by simpa [endsInline, or_assoc] using h⟩

theorem isBlank_cases {c : Char} (h : Text.isBlank c = true) :
    c = ' ' ∨ c = '\t' ∨ c = '\n' ∨ c = '\r' := by
  simpa [Text.isBlank, or_assoc] using h

theorem dropWhile_startsInline {text : List Char} (h : text.head?.any startsInline = true) :
    text.dropWhile Text.isBlank = text := by
  cases text with
  | nil => rfl
  | cons c text =>
    refine List.dropWhile_cons_of_neg fun hb => ?_
    rw [List.head?_cons, Option.any_some] at h
    obtain rfl | rfl | rfl | rfl := isBlank_cases hb <;> exact absurd h (by decide)

theorem head?_ne_of_startsInline {text : List Char} (h : text.head?.any startsInline = true)
    {c : Char}
    (hc : startsInline c = false) : text.head? ≠ some c := by
  intro he
  rw [he, Option.any_some, hc] at h
  cases h

theorem startsInline_of_isName {name : List Char} (h : isName name = true) :
    name.head?.any startsInline = true := by
  obtain ⟨ha, -⟩ := isName_cases h
  cases name with
  | nil => cases ha
  | cons c name =>
    rw [List.head?_cons, Option.any_some] at ha ⊢
    simp [startsInline, ha]

theorem startsInline_of_isEntryId {id : List Char} (h : isEntryId id = true) :
    id.head?.any startsInline = true := by
  obtain h | ⟨name, rfl, -⟩ := isEntryId_cases h
  · exact startsInline_of_isName h
  · rfl

theorem startsInline_of_number {literal : NumberLiteral} (h : literal.WellFormed) :
    literal.written.toList.head?.any startsInline = true := by
  obtain ⟨c, rest, hw, hc⟩ := exists_cons_of_any_head? (number_lead h)
  rw [Bool.or_eq_true] at hc
  rw [hw, List.head?_cons, Option.any_some, startsInline]
  obtain hc | hc := hc <;> simp [hc]

theorem startsInline_of_wellFormed {room : Nat} {value : Expression} (h : value.WellFormed room)
    (hv : value.hasVariants = false) : value.render.head?.any startsInline = true := by
  cases h with
  | number sound => exact startsInline_of_number sound
  | string => rw [Expression.render]; rfl
  | variableRef _ => rw [Expression.render]; rfl
  | entryRef sound => exact startsInline_of_isEntryId sound
  | attributeRef owner _ =>
    rw [Expression.render]
    exact any_head?_append _ (startsInline_of_isEntryId owner)
  | variantRef owner _ =>
    rw [Expression.render, List.append_assoc]
    exact any_head?_append _ (startsInline_of_isEntryId owner)
  | call sound _ =>
    rw [Expression.render, List.append_assoc]
    exact any_head?_append _ (startsInline_of_isName sound.function.1)
  | select => cases hv
  | variantList => cases hv

theorem enclose_plain {value : Expression} (h : value.hasVariants = false) (text : List Char) :
    value.enclose text = text := by
  rw [Expression.enclose, h, if_neg Bool.false_ne_true]

theorem enclose_braced {value : Expression} (h : value.hasVariants = true) (text : List Char) :
    value.enclose text = braced text := by
  rw [Expression.enclose, if_pos h]

theorem startsInline_of_inline {room : Nat} {value : Expression} (h : value.Inline room) :
    (value.enclose value.render).head?.any startsInline = true := by
  cases h with
  | plain single inner =>
    rw [enclose_plain single]
    exact startsInline_of_wellFormed inner single
  | braced several _ =>
    rw [enclose_braced several]
    rfl

section

variable {placeable : Parser Expression} {id name tail rest : List Char}

theorem leadChar?_of_isEntryId (tail : List Char) (h : isEntryId id = true) :
    (leadChar? (id ++ tail)).any Char.isAlpha = true := by
  obtain h | ⟨name, rfl, h⟩ := isEntryId_cases h
  · obtain ⟨ha, -⟩ := isName_cases h
    have ha' := any_head?_append tail ha
    rw [leadChar?, if_neg]
    · exact ha'
    · intro he
      rw [he] at ha'
      exact absurd ha' (by decide)
  · exact any_head?_append tail (isName_cases h).1

theorem literal_reference (tail : List Char) (h : isEntryId id = true)
    (ht : tail.head?.any isIdentifierChar = false) :
    literal (id ++ tail) = .ok (.entryRef (String.ofList id), tail) := by
  have hd : (id ++ tail).head? ≠ some '$' := by
    intro he
    have hl := leadChar?_of_isEntryId tail h
    rw [leadChar?, he] at hl
    exact Bool.noConfusion hl
  rw [literal_apply, if_neg hd, if_pos (leadChar?_of_isEntryId tail h)]
  exact bind_ok (entryIdentifier_append h ht) _

theorem literal_variable (h : isName name = true) (ht : tail.head?.any isIdentifierChar = false) :
    literal ('$' :: name ++ tail) = .ok (.variableRef (String.ofList name), tail) := by
  rw [literal_apply, List.cons_append, List.head?_cons, if_pos rfl]
  exact bind_ok (identifier_append h ht) _

theorem leadChar?_of_number (tail : List Char) {literal : NumberLiteral} (h : literal.WellFormed) :
    ∃ c, leadChar? (literal.written.toList ++ tail) = some c ∧ c.isDigit = true := by
  obtain ⟨⟨sign, whole, fraction, hw, hs, hne, hd, -⟩, -⟩ := h
  cases whole with
  | nil => exact absurd rfl hne
  | cons c whole =>
    have hc := List.all_eq_true.mp hd c List.mem_cons_self
    refine ⟨c, ?_, hc⟩
    rw [hw]
    obtain rfl | rfl := hs
    · refine if_neg ?_
      rintro ⟨⟩
      exact absurd hc (by decide)
    · rfl

theorem literal_number {value : NumberLiteral} (h : value.WellFormed)
    (ht : tail.head?.any Char.isDigit = false) (hp : tail.head? ≠ some '.') :
    literal (value.written.toList ++ tail) = .ok (.number value, tail) := by
  obtain ⟨c, hl, hc⟩ := leadChar?_of_number tail h
  have hd : (value.written.toList ++ tail).head? ≠ some '$' := by
    intro he
    rw [leadChar?, he] at hl
    obtain rfl : '$' = c := Option.some_inj.mp hl
    cases hc
  have ha : ¬(some c).any Char.isAlpha = true := by
    intro ha
    rw [isDigit_of_isAlpha ha] at hc
    cases hc
  rw [literal_apply, if_neg hd, hl, if_neg ha, Option.any_some, if_pos hc]
  exact bind_ok (number_append h ht hp) _

theorem literal_string (text tail : List Char) :
    literal ('"' :: spelled isStringChar text ++ '"' :: tail) =
      .ok (.string (String.ofList text), tail) := by
  rw [literal_apply, List.cons_append]
  exact bind_ok (string_spelled text tail) _

/-- A literal does not start with a brace. -/
theorem literal_head {text : List Char} {value : Expression}
    (h : literal text = .ok (value, rest)) :
    text.head? ≠ some '{' := by
  intro he
  obtain ⟨text, rfl⟩ := List.head?_eq_some_iff.mp he
  have hfail : literal ('{' :: text) = .error ⟨.expectedLiteral, '{' :: text⟩ := by
    rw [literal_apply]
    rfl
  rw [hfail] at h
  cases h

theorem inline_literal {text : List Char} {value : Expression} (hr : ∀ id, value ≠ .entryRef id)
    (h : literal text = .ok (value, rest)) :
    inlineExpression placeable text = .ok (value, rest) := by
  rw [inlineExpression_apply, inlineStep, peek_bind_apply, choice_apply, if_neg (literal_head h),
    bind_ok h]
  cases value with
  | entryRef id => exact absurd rfl (hr id)
  | _ => rfl

theorem inline_reference {text : List Char} {id : String}
    (h : literal text = .ok (.entryRef id, rest)) :
    inlineExpression placeable text = referenceTail (fun rest =>
      if rest.length < text.length then inlineExpression placeable rest
      else .error ⟨.expectedLiteral, rest⟩) id rest := by
  rw [inlineExpression_apply, inlineStep, peek_bind_apply, choice_apply, if_neg (literal_head h),
    bind_ok h]

theorem inline_braced (text : List Char) :
    inlineExpression placeable (braced text ++ tail) = placeable (braced text ++ tail) := by
  rw [inlineExpression_apply, inlineStep, peek_bind_apply, choice_apply]
  rfl

end

/-! ## Arguments -/

section

variable {expression : Parser Expression} {tail : List Char}

theorem argument_positional {value : Expression} {text : List Char}
    (h : expression text = .ok (value, tail)) (ht : tail.head? = some ',' ∨ tail.head? = some ')') :
    argument expression text = .ok (.positional value, tail) := by
  have hblank : tail.dropWhile Text.isInlineBlank = tail ∧ tail.head? ≠ some ':' := by
    cases tail with
    | nil => simp at ht
    | cons c tail =>
      simp only [List.head?_cons, Option.some_inj] at ht ⊢
      obtain rfl | rfl := ht <;> exact ⟨rfl, by decide⟩
  rw [argument, bind_ok h]
  cases value with
  | entryRef id =>
    simp only [skipInlineBlank_bind_apply, hblank.1, peek_bind_apply, choice_apply]
    rw [if_neg hblank.2]
    rfl
  | _ => rfl

theorem argument_named {name : String} {value : Expression} {text rest : List Char}
    (hn : expression text = .ok (.entryRef name, ':' :: ' ' :: rest))
    (hb : rest.dropWhile Text.isBlank = rest) (h : expression rest = .ok (value, tail))
    (hv : isNamedValue value = true) :
    argument expression text = .ok (.named name value, tail) := by
  have hskip : (' ' :: rest).dropWhile Text.isBlank = rest := hb
  rw [argument, bind_ok hn]
  change (do
    skipBlank
    let value ← expression
    if isNamedValue value then return .named name value
    else fail .expectedNamedArgumentValue : Parser Argument) (' ' :: rest) = _
  rw [skipBlank_bind_apply, hskip, bind_ok h, choice_apply, if_pos hv]
  rfl

/-- The text of an argument. -/
def renderArgument : Argument → List Char
  | .positional value => value.enclose value.render
  | .named name value => name.toList ++ ':' :: ' ' :: value.render

theorem renderArguments_cons (argument : Argument) (arguments : List Argument) :
    renderArguments (argument :: arguments) =
      renderArgument argument ++ (if arguments.isEmpty then [] else [',', ' ']) ++
        renderArguments arguments := by
  cases argument with
  | positional value => rw [renderArguments]; rfl
  | named name value =>
    rw [renderArguments, renderArgument, List.append_assoc name.toList, List.cons_append,
      List.cons_append]

/-- An argument is read back, and it starts as one. -/
structure ReadsArgument (expression : Parser Expression) (bound : Nat)
    (value : Argument) : Prop where
  lead : (renderArgument value).head?.any startsInline = true
  reads : ∀ tail, tail.head? = some ',' ∨ tail.head? = some ')' →
    (renderArgument value ++ tail).length < bound →
      argument expression (renderArgument value ++ tail) = .ok (value, tail)

/-- One argument is read, up to what follows it. -/
theorem argumentRound_reads {value : Argument} {bound : Nat} {text rest : List Char}
    (h : ReadsArgument expression bound value) (read : List Argument)
    (ht : text.dropWhile Text.isBlank = renderArgument value ++ rest)
    (hr : rest.head? = some ',' ∨ rest.head? = some ')') (hlt : text.length < bound) :
    argumentRound expression read text = argumentEnd (read ++ [value]) rest := by
  have hlead := any_head?_append rest h.lead
  have hle := (List.dropWhile_suffix (l := text) Text.isBlank).length_le
  rw [ht] at hle
  have hne : text.isEmpty = false := by
    cases text with
    | nil => rw [← ht] at hlead; cases hlead
    | cons => rfl
  rw [argumentRound_apply, ht]
  simp only [hne, Bool.false_eq_true, if_false]
  rw [if_neg (head?_ne_of_startsInline hlead (by decide)),
    bind_ok (h.reads rest hr (Nat.lt_of_le_of_lt hle hlt))]

/-- The arguments of a call are read back, blank text in front of them or not. -/
theorem iterate_arguments {arguments : List Argument} {bound : Nat}
    (hreads : ∀ value ∈ arguments, ReadsArgument expression bound value) (read : List Argument)
    {text : List Char}
    (ht : text.dropWhile Text.isBlank = renderArguments arguments ++ ')' :: tail)
    (hlt : text.length < bound) :
    iterate (argumentRound expression) read text = .ok (read ++ arguments, ')' :: tail) := by
  induction arguments generalizing read text with
  | nil =>
    have hne : text.isEmpty = false := by
      cases text with
      | nil => cases ht
      | cons => rfl
    rw [iterate, argumentRound_apply, ht, hne, List.append_nil]
    rfl
  | cons value arguments ih =>
    have hvalue := hreads value List.mem_cons_self
    have hle := (List.dropWhile_suffix (l := text) Text.isBlank).length_le
    rw [ht, renderArguments_cons, List.append_assoc, List.append_assoc] at hle
    rw [renderArguments_cons, List.append_assoc, List.append_assoc] at ht
    cases arguments with
    | nil =>
      rw [iterate, argumentRound_reads hvalue read ht (.inr rfl) hlt, argumentEnd_close rfl]
    | cons next arguments =>
      have hnext := (hreads next (List.mem_cons_of_mem _ List.mem_cons_self)).lead
      have hrest : (' ' :: (renderArguments (next :: arguments) ++ ')' :: tail)).dropWhile
          Text.isBlank = renderArguments (next :: arguments) ++ ')' :: tail := by
        refine dropWhile_startsInline (any_head?_append _ ?_)
        rw [renderArguments_cons, List.append_assoc]
        exact any_head?_append _ hnext
      have hshort : (' ' :: (renderArguments (next :: arguments) ++ ')' :: tail)).length <
          text.length := by
        simp only [List.isEmpty_cons, Bool.false_eq_true, if_false, List.length_append,
          List.length_cons, List.length_nil] at hle ⊢
        omega
      rw [iterate, argumentRound_reads hvalue read ht (.inl rfl) hlt, argumentEnd_comma rfl]
      have hothers := ih (fun _ hm => hreads _ (List.mem_cons_of_mem _ hm)) (read ++ [value])
        hrest (hshort.trans hlt)
      rw [List.append_assoc] at hothers
      exact (if_pos hshort).trans hothers

end

/-! ## Expressions -/

theorem endsInline_not {p : Char → Bool} {tail : List Char} (h : tail.head?.any endsInline = true)
    (hs : p ' ' = false) (hc : p ',' = false) (hp : p ')' = false) (hn : p ':' = false) :
    tail.head?.any p = false := by
  obtain ⟨c, rest, rfl, rfl | rfl | rfl | rfl⟩ := endsInline_cases h <;> assumption

section

variable {placeable : Parser Expression}

theorem readsInline_number {literal : NumberLiteral} (h : literal.WellFormed) :
    ReadsInline (inlineExpression placeable) (.number literal) := by
  intro tail ht
  have hp : tail.head? ≠ some '.' := by
    obtain ⟨c, rest, rfl, hc⟩ := endsInline_cases ht
    rintro ⟨⟩
    simp at hc
  exact inline_literal nofun (literal_number h (endsInline_not ht rfl rfl rfl rfl) hp)

theorem readsInline_string (text : String) :
    ReadsInline (inlineExpression placeable) (.string text) := by
  intro tail _
  have hread := literal_string text.toList tail
  rw [String.ofList_toList] at hread
  rw [enclose_plain rfl, Expression.render, List.cons_append, List.cons_append, List.append_assoc]
  exact inline_literal nofun hread

theorem readsInline_variableRef {name : String} (h : isName name.toList = true) :
    ReadsInline (inlineExpression placeable) (.variableRef name) := by
  intro tail ht
  have hread := literal_variable h (endsInline_not ht rfl rfl rfl rfl)
  rw [String.ofList_toList] at hread
  exact inline_literal nofun hread

theorem readsInline_entryRef {id : String} (h : isEntryId id.toList = true) :
    ReadsInline (inlineExpression placeable) (.entryRef id) := by
  intro tail ht
  have hread := literal_reference tail h (endsInline_not ht rfl rfl rfl rfl)
  rw [String.ofList_toList] at hread
  exact (inline_reference hread).trans (referenceTail_end (endsInline_not ht rfl rfl rfl rfl))

theorem readsInline_attributeRef {id name : String} (hi : isEntryId id.toList = true)
    (hn : isName name.toList = true) :
    ReadsInline (inlineExpression placeable) (.attributeRef id name) := by
  intro tail ht
  have hread := literal_reference ('.' :: (name.toList ++ tail)) hi rfl
  have hname := identifier_append hn (endsInline_not ht rfl rfl rfl rfl)
  rw [String.ofList_toList] at hread hname
  rw [enclose_plain rfl, Expression.render, List.append_assoc, List.cons_append]
  refine (inline_reference hread).trans ?_
  rw [referenceTail_attribute, bind_ok hname]
  rfl

theorem readsInline_variantRef {id : String} {key : VariantKey} (hi : isEntryId id.toList = true)
    (hk : key.WellFormed) : ReadsInline (inlineExpression placeable) (.variantRef id key) := by
  intro tail ht
  have hread := literal_reference ('[' :: (key.render ++ ']' :: tail)) hi rfl
  rw [String.ofList_toList] at hread
  rw [enclose_plain rfl, Expression.render, List.append_assoc, List.append_assoc, List.cons_append]
  refine (inline_reference hread).trans ?_
  rw [referenceTail_variant, bind_ok (variantKey_append hk)]
  rfl

theorem renderArgument_lead {value : Argument} {room : Nat} (h : value.value.Inline room)
    (hn : ∀ name inner, value = .named name inner →
      isEntryId name.toList = true ∧ isNamedValue inner = true) :
    (renderArgument value).head?.any startsInline = true := by
  cases value with
  | positional value => exact startsInline_of_inline h
  | named name value =>
    exact any_head?_append _ (startsInline_of_isEntryId (hn name value rfl).1)

theorem readsArgument {value : Argument} {room bound : Nat} (h : value.value.Inline room)
    (hn : ∀ name inner, value = .named name inner →
      isEntryId name.toList = true ∧ isNamedValue inner = true)
    (hread : ReadsInline (inlineExpression placeable) value.value) :
    ReadsArgument (fun rest => if rest.length < bound then inlineExpression placeable rest
      else .error ⟨.expectedLiteral, rest⟩) bound value := by
  have hlead := renderArgument_lead h hn
  have hends {tail : List Char} (ht : tail.head? = some ',' ∨ tail.head? = some ')') :
      tail.head?.any endsInline = true := by
    obtain ht | ht := ht <;> rw [ht] <;> rfl
  cases value with
  | positional value =>
    refine ⟨hlead, fun tail ht hlt => argument_positional ?_ ht⟩
    exact (if_pos hlt).trans (hread tail (hends ht))
  | named name value =>
    obtain ⟨hid, hv⟩ := hn name value rfl
    have hplain : value.hasVariants = false := by cases value <;> first | rfl | cases hv
    have hstarts := startsInline_of_inline h
    rw [Argument.value, enclose_plain hplain] at hstarts
    refine ⟨hlead, fun tail ht hlt => ?_⟩
    rw [renderArgument, List.append_assoc, List.cons_append, List.cons_append] at hlt ⊢
    have hname : inlineExpression placeable (name.toList ++ ':' :: ' ' :: (value.render ++ tail)) =
        .ok (.entryRef name, ':' :: ' ' :: (value.render ++ tail)) := readsInline_entryRef hid _ rfl
    have hvalue := hread tail (hends ht)
    rw [Argument.value, enclose_plain hplain] at hvalue
    refine argument_named ((if_pos hlt).trans hname)
      (dropWhile_startsInline (any_head?_append tail hstarts)) ((if_pos ?_).trans hvalue) hv
    simp only [List.length_append, List.length_cons] at hlt ⊢
    omega

theorem readsInline_call {function : String} {arguments : List Argument} {room : Nat}
    (h : CallWellFormed function arguments)
    (hinner : ∀ value ∈ arguments, value.value.Inline room)
    (hreads : ∀ value ∈ arguments, ReadsInline (inlineExpression placeable) value.value) :
    ReadsInline (inlineExpression placeable) (.call function arguments) := by
  intro tail _
  have hread := literal_reference ('(' :: (renderArguments arguments ++ ')' :: tail))
    (isEntryId_of_isName h.function.1) rfl
  rw [String.ofList_toList] at hread
  have hdrop : (renderArguments arguments ++ ')' :: tail).dropWhile Text.isBlank =
      renderArguments arguments ++ ')' :: tail := by
    cases arguments with
    | nil => rfl
    | cons value arguments =>
      have hlead := renderArgument_lead (hinner value List.mem_cons_self)
        fun name inner he => h.names name inner (he ▸ List.mem_cons_self)
      rw [renderArguments_cons, List.append_assoc, List.append_assoc]
      exact dropWhile_startsInline (any_head?_append _ hlead)
  have hlt : (renderArguments arguments ++ ')' :: tail).length <
      (function.toList ++ '(' :: (renderArguments arguments ++ ')' :: tail)).length := by
    simp only [List.length_append, List.length_cons]
    omega
  have harguments := iterate_arguments (fun value hm => readsArgument (hinner value hm)
    (fun name inner he => h.names name inner (he ▸ hm)) (hreads value hm)) [] hdrop hlt
  rw [enclose_plain rfl, Expression.render, List.append_assoc, List.append_assoc, List.cons_append]
  refine (inline_reference hread).trans ?_
  rw [referenceTail_call, bind_ok harguments, if_pos h.function.2]
  rfl

end

end Fluent.Grammar
