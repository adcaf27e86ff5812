import Fluent.Proofs.Rendering.Inline

/-!
# Written placeables are read back

An expression is read back between its braces, its variants with all that they hold included.

* `iterate_variants`: the variants of a select expression and its default;
* `placeableBody_select`, `placeableBody_variantList`: what stands between braces and has variants;
* `pattern_reads`: a pattern with all that it holds.
-/

namespace Fluent.Grammar

open Fluent.Grammar.Parser Fluent.Text.Reader

/-! ## Variants -/

section

variable {placeable : Parser Expression} {tail : List Char}

/-- A pattern is read back in front of a line that does not go on with it. -/
def ReadsPattern (placeable : Parser Expression) (value : Pattern) : Prop :=
  value.render ≠ [] ∧ ∀ tail, EndsLine tail →
    pattern placeable (value.render ++ '\n' :: tail) = .ok (some value, tail)

theorem renderVariants_cons (standard : Option Nat) (position : Nat) (key : VariantKey)
    (value : Pattern) (members : List Variant) (tail : List Char) :
    renderVariants standard position (.mk key value :: members) ++ tail =
      variantMark (standard == some position) ++ (key.render ++ ']' :: ' ' :: (value.render ++
        '\n' :: (renderVariants standard (position + 1) members ++ tail))) := by
  rw [renderVariants]
  simp only [List.append_assoc, List.cons_append]

theorem endsLine_variants (standard : Option Nat) (position : Nat) (members : List Variant)
    (tail : List Char) :
    EndsLine (renderVariants standard position members ++ ' ' :: '}' :: tail) := by
  cases members with
  | nil => exact ⟨rfl, fun _ => rfl⟩
  | cons member members =>
    obtain ⟨key, value⟩ := member
    rw [renderVariants, variantMark]
    split <;> exact ⟨rfl, fun _ => rfl⟩

theorem render_head (value : Pattern) : value.render.head?.any Text.isInlineBlank = false := by
  cases value with
  | text value => exact guarded_head _
  | elements parts => exact guarded_head _

/-- Blank text in front of a pattern is passed over, and no more than that. -/
theorem dropWhile_render {value : Pattern} (hne : value.render ≠ []) (rest : List Char) :
    (' ' :: (value.render ++ rest)).dropWhile Text.isInlineBlank = value.render ++ rest := by
  have hhead := render_head value
  cases hv : value.render with
  | nil => exact absurd hv hne
  | cons c text =>
    rw [hv, List.head?_cons, Option.any_some] at hhead
    exact List.dropWhile_cons_of_neg (Bool.eq_false_iff.mp hhead)

theorem variant_reads {key : VariantKey} {value : Pattern} (hk : key.WellFormed)
    (hv : ReadsPattern placeable value) (ht : EndsLine tail) :
    variant placeable ('[' :: (key.render ++ ']' :: ' ' :: (value.render ++ '\n' :: tail))) =
      .ok (.mk key value, tail.dropWhile Text.isBlank) := by
  have hopen (text : List Char) : expect '[' ('[' :: text) = .ok ((), text) := rfl
  rw [variant, bind_ok (hopen _), bind_ok (variantKey_append hk), skipInlineBlank_bind_apply,
    dropWhile_render hv.1, bind_ok (hv.2 tail ht)]
  rfl

/-- The default among the variants read so far. -/
theorem filter_succ (standard : Option Nat) (position : Nat) :
    standard.filter (· < position + 1) =
      if standard == some position then some position
      else standard.filter (· < position) := by
  cases standard with
  | none => rfl
  | some standard =>
    by_cases he : standard = position
    · subst he
      simp
    · have hlt : standard < position + 1 ↔ standard < position := by omega
      simp [Option.filter, he, hlt]

theorem key_head {key : VariantKey} (h : key.WellFormed) :
    ∃ c rest, key.render = c :: rest ∧ c ≠ '[' ∧ c ≠ ']' := by
  cases key with
  | number literal =>
    obtain ⟨c, rest, hw, hc⟩ := exists_cons_of_any_head? (number_lead h)
    refine ⟨c, rest, hw, ?_, ?_⟩ <;> rintro rfl <;> exact absurd hc (by decide)
  | keyword name =>
    obtain ⟨ha, -, -⟩ := isKeyword_cases h
    obtain ⟨c, rest, hw, hc⟩ := exists_cons_of_any_head? ha
    refine ⟨c, rest, hw, ?_, ?_⟩ <;> rintro rfl <;> exact absurd hc (by decide)

theorem dropWhile_variantMark (starred : Bool) (text : List Char) :
    (variantMark starred ++ text).dropWhile Text.isBlank =
      (if starred then ['*', '['] else ['[']) ++ text := by
  cases starred <;> rfl

/-- One variant is read, with its star and the blank text around it. -/
theorem variantRound_reads {key : VariantKey} {value : Pattern} (hk : key.WellFormed)
    (hv : ReadsPattern placeable value) (ht : EndsLine tail) (read : List Variant × Option Nat)
    (starred : Bool) :
    variantRound placeable read ((variantMark starred ++
        (key.render ++ ']' :: ' ' :: (value.render ++ '\n' :: tail))).dropWhile Text.isBlank) =
      .ok (.again (read.1 ++ [.mk key value], if starred then some read.1.length else read.2),
        tail.dropWhile Text.isBlank) := by
  have hafter : variantAfter placeable read starred
      ('[' :: (key.render ++ ']' :: ' ' :: (value.render ++ '\n' :: tail))) =
      .ok (.again (read.1 ++ [.mk key value], if starred then some read.1.length else read.2),
        tail.dropWhile Text.isBlank) := by
    rw [variantAfter, bind_ok (variant_reads hk hv ht)]
    rfl
  cases starred with
  | true =>
    refine (variantRound_starred read).trans hafter
  | false =>
    refine (variantRound_open read ?_).trans hafter
    obtain ⟨c, rest, he, hopen, -⟩ := key_head hk
    rw [he]
    exact fun h => hopen (Option.some_inj.mp h)

theorem iterate_variants {standard : Option Nat} {members : List Variant}
    (hkeys : ∀ member ∈ members, member.key.WellFormed)
    (hreads : ∀ member ∈ members, ReadsPattern placeable member.value) (read : List Variant) :
    iterate (variantRound placeable) (read, standard.filter (· < read.length))
        ((renderVariants standard read.length members ++ ' ' :: '}' :: tail).dropWhile
          Text.isBlank) =
      .ok ((read ++ members, standard.filter (· < (read ++ members).length)), '}' :: tail) := by
  induction members generalizing read with
  | nil =>
    have hend : variantRound placeable (read, standard.filter (· < read.length)) ('}' :: tail) =
        .ok (.done (read, standard.filter (· < read.length)), '}' :: tail) :=
      variantRound_end _ (by simp) fun _ he => absurd (List.cons.inj he).1 (by decide)
    rw [renderVariants, List.append_nil]
    change iterate _ _ ('}' :: tail) = _
    rw [iterate, hend]
  | cons member members ih =>
    obtain ⟨key, value⟩ := member
    have hrest := ih (fun _ hm => hkeys _ (List.mem_cons_of_mem _ hm))
      (fun _ hm => hreads _ (List.mem_cons_of_mem _ hm)) (read ++ [.mk key value])
    have hkey : key.WellFormed := hkeys _ List.mem_cons_self
    have hvalue : ReadsPattern placeable value := hreads _ List.mem_cons_self
    have hround := variantRound_reads hkey hvalue
      (endsLine_variants standard (read.length + 1) members tail)
      (read, standard.filter (· < read.length)) (standard == some read.length)
    rw [List.length_append, List.length_singleton, filter_succ, List.append_assoc] at hrest
    rw [renderVariants_cons, iterate, hround]
    refine (if_pos ?_).trans hrest
    generalize renderVariants standard (read.length + 1) members ++ ' ' :: '}' :: tail = more
    have hle := (List.dropWhile_suffix (l := more) Text.isBlank).length_le
    rw [dropWhile_variantMark]
    simp only [List.length_append, List.length_cons]
    omega

theorem variants_reads (tail : List Char) {standard : Option Nat} {members : List Variant}
    (h : VariantsWellFormed members standard)
    (hreads : ∀ member ∈ members, ReadsPattern placeable member.value) :
    variants placeable
        ((renderVariants standard 0 members ++ ' ' :: '}' :: tail).dropWhile Text.isBlank) =
      .ok ((members, standard), '}' :: tail) := by
  have hread := @iterate_variants placeable tail standard members h.keys hreads []
  have hfirst : standard.filter (· < 0) = none := by cases standard <;> rfl
  have hlast : standard.filter (· < members.length) = standard := by
    cases standard with
    | none => rfl
    | some position => exact Option.filter_some_pos (decide_eq_true (h.standard position rfl))
  rw [List.nil_append, List.length_nil, hfirst, hlast] at hread
  exact hread

/-! ## Placeables -/

theorem braced_append (text tail : List Char) :
    braced text ++ tail = '{' :: ' ' :: (text ++ ' ' :: '}' :: tail) := by
  simp only [braced, List.cons_append, List.append_assoc, List.nil_append]

/-- What stands between braces is read as an inline expression, unless it is a variant list. -/
theorem placeableBody_inline {text : List Char} (h : text.head?.any startsInline = true) :
    placeableBody placeable ('{' :: ' ' :: text) =
      (do placeableTail placeable (← inlineExpression placeable) : Parser _) text := by
  have hblank : (' ' :: text).dropWhile Text.isBlank = text := dropWhile_startsInline h
  have hlist : startsVariantList (' ' :: text) = false := by
    rw [startsVariantList_eq hblank]
    have hstar := head?_ne_of_startsInline h (show startsInline '*' = false by decide)
    have hopen := head?_ne_of_startsInline h (show startsInline '[' = false by decide)
    simp [hstar, hopen]
  have hinline : (' ' :: text).dropWhile Text.isInlineBlank = text := dropWhile_lead rfl rfl h
  rw [placeableBody_cons, hlist, hinline, if_neg Bool.false_ne_true]

theorem placeableBody_reads {value : Expression}
    (hlead : value.render.head?.any startsInline = true) (hs : isTermAttribute value = false)
    (hread : inlineExpression placeable (value.render ++ ' ' :: '}' :: tail) =
      .ok (value, ' ' :: '}' :: tail)) :
    placeableBody placeable (braced value.render ++ tail) = .ok (value, tail) := by
  rw [braced_append, placeableBody_inline (any_head?_append _ hlead), bind_ok hread,
    placeableTail_close rfl, hs, if_neg Bool.false_ne_true]

theorem placeableBody_select {selector : Expression} {standard : Option Nat}
    {members : List Variant} (h : VariantsWellFormed members standard)
    (hc : selectorFault? selector = none)
    (hlead : (selector.enclose selector.render).head?.any startsInline = true)
    (hread : ReadsInline (inlineExpression placeable) selector)
    (hreads : ∀ member ∈ members, ReadsPattern placeable member.value) :
    placeableBody placeable (braced (Expression.select selector members standard).render ++ tail) =
      .ok (.select selector members standard, tail) := by
  have hsome : members.isEmpty = false := by simpa using h.some
  have hmembers : selectMembers placeable selector
      ((renderVariants standard 0 members ++ ' ' :: '}' :: tail).dropWhile Text.isBlank) =
      .ok (.select selector members standard, tail) := by
    rw [selectMembers, bind_ok (variants_reads tail h hreads)]
    change (if members.isEmpty then fail .missingVariants else _ : Parser Expression) _ = _
    rw [hsome, if_neg Bool.false_ne_true]
    rfl
  rw [braced_append, Expression.render, List.append_assoc,
    placeableBody_inline (any_head?_append _ hlead), bind_ok (hread _ rfl), placeableTail_arrow rfl,
    hc]
  exact (selectTail_lineFeed rfl).trans hmembers

theorem placeableBody_variantList {standard : Option Nat} {members : List Variant}
    (h : VariantsWellFormed members standard)
    (hreads : ∀ member ∈ members, ReadsPattern placeable member.value) :
    placeableBody placeable (braced (Expression.variantList members standard).render ++ tail) =
      .ok (.variantList members standard, tail) := by
  have hread := variants_reads tail h hreads
  have hlist : startsVariantList (' ' :: '\n' :: (renderVariants standard 0 members ++
      ' ' :: '}' :: tail)) = true := by
    cases members with
    | nil => exact absurd rfl h.some
    | cons member members =>
      obtain ⟨key, value⟩ := member
      obtain ⟨c, rest, he, -, hc⟩ := key_head (h.keys _ List.mem_cons_self)
      have hkey : key.render = c :: rest := he
      have hblank : (' ' :: '\n' :: (variantMark (standard == some 0) ++
          (key.render ++ ']' :: ' ' :: (value.render ++ '\n' ::
            (renderVariants standard 1 members ++ ' ' :: '}' :: tail))))).dropWhile
              Text.isBlank = _ :=
        dropWhile_variantMark _ _
      rw [renderVariants_cons, startsVariantList_eq hblank, hkey]
      cases standard == some 0 with
      | true => rfl
      | false => exact bne_iff_ne.mpr fun hs => hc (Option.some_inj.mp hs)
  rw [braced_append, Expression.render, List.cons_append, placeableBody_cons, hlist, if_pos rfl]
  exact (bind_ok hread _).trans rfl

end

/-! ## Patterns -/

theorem isTermAttribute_of_hasVariants {value : Expression} (h : value.hasVariants = true) :
    isTermAttribute value = false := by
  cases value <;> first | rfl | cases h

/-- An expression is read back between its braces, and without them unless it has variants. -/
structure Reads (room : Nat) (value : Expression) : Prop where
  inline : value.hasVariants = false → ReadsInline (inlineExpression (placeable room)) value
  shown : isTermAttribute value = false →
    ∀ tail, placeable (room + 1) (braced value.render ++ tail) = .ok (value, tail)

theorem reads_of_inline {room : Nat} {value : Expression} (h : value.WellFormed room)
    (hv : value.hasVariants = false)
    (hread : ReadsInline (inlineExpression (placeable room)) value) : Reads room value where
  inline _ := hread
  shown hs tail := by
    have hread := hread (' ' :: '}' :: tail) rfl
    rw [enclose_plain hv] at hread
    exact placeableBody_reads (startsInline_of_wellFormed h hv) hs hread

mutual

/-- A pattern is read back, whatever its placeables hold. -/
theorem pattern_reads {room : Nat} {value : Pattern} :
    value.WellFormed room → ReadsPattern (placeable room) value
  | .text ends => ⟨render_text_ne_nil ends, fun _ => pattern_text ends⟩
  | .elements sound inner =>
    ⟨render_elements_ne_nil sound, fun _ => pattern_elements sound fun expression he =>
      (expression_reads (inner expression he)).shown (sound.shown expression he)⟩

theorem expression_reads {room : Nat} {value : Expression} :
    value.WellFormed room → Reads room value
  | .number sound => reads_of_inline (.number sound) rfl (readsInline_number sound)
  | .string => reads_of_inline .string rfl (readsInline_string _)
  | .variableRef sound => reads_of_inline (.variableRef sound) rfl (readsInline_variableRef sound)
  | .entryRef sound => reads_of_inline (.entryRef sound) rfl (readsInline_entryRef sound)
  | .attributeRef owner sound =>
    reads_of_inline (.attributeRef owner sound) rfl (readsInline_attributeRef owner sound)
  | .variantRef owner sound =>
    reads_of_inline (.variantRef owner sound) rfl (readsInline_variantRef owner sound)
  | .call sound inner => reads_of_inline (.call sound inner) rfl
      (readsInline_call sound inner fun argument hm => inline_reads (inner argument hm))
  | .select sound chooses chosen inner =>
    ⟨nofun, fun _ _ => placeableBody_select sound chooses (startsInline_of_inline chosen)
      (inline_reads chosen) fun member hm => pattern_reads (inner member hm)⟩
  | .variantList sound inner =>
    ⟨nofun, fun _ _ => placeableBody_variantList sound fun member hm =>
      pattern_reads (inner member hm)⟩

theorem inline_reads {room : Nat} {value : Expression} :
    value.Inline room → ReadsInline (inlineExpression (placeable room)) value
  | .plain single inner => (expression_reads inner).inline single
  | .braced several inner => fun tail _ => by
    rw [enclose_braced several, inline_braced]
    exact (expression_reads inner).shown (isTermAttribute_of_hasVariants several) tail

end

end Fluent.Grammar
