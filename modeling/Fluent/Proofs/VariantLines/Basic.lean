import Fluent.Proofs.Rendering.Resource
import Mathlib.Algebra.Group.Nat.Even

/-!
# Variants line by line

A select expression is written with one variant a line, each with a key and a text behind it. A line
without a text does not end its variant: unless it is the last one, the variant takes the whole line
below it, key and star included, for its text, and that line is no variant any more.

* `VariantLine`: a line, as it is written;
* `taken`: the lines that are left of the lines of a select expression, with the texts they take;
* `variants_lines`: the lines of a select expression are read as those that are left of them;
* `taken_complete_iff`: whether a line is left without a text.
-/

namespace Fluent.Grammar

open Fluent.Grammar.Parser Fluent.Text.Reader

/-! ## Lines -/

/-- A line of a select expression: the spaces in front of it, whether it is starred, its keyword,
and the text behind that with the spaces in between, if there is one. -/
structure VariantLine where
  indent : Nat
  starred : Bool
  key : String
  gap : Nat
  text : Option String

namespace VariantLine

/-- A text that stands for itself on a line, with no blank text around it. -/
structure Plain (text : String) : Prop where
  pattern : text.toList.all isPatternChar = true
  first : text.toList.head?.any Text.isInlineBlank = false
  ends : EndsPattern text

/-- The line is indented, its key is a keyword, and its text stands for itself. -/
structure WellFormed (line : VariantLine) : Prop where
  indented : 0 < line.indent
  key : isKeyword line.key.toList = true
  text : ∀ text, line.text = some text → Plain text

/-- What stands behind the bracket that closes the key. -/
def afterKey (line : VariantLine) : List Char :=
  match line.text with
  | some text => List.replicate line.gap ' ' ++ text.toList
  | none => []

/-- The line without its indentation. -/
def body (line : VariantLine) : List Char :=
  (if line.starred then ['*', '['] else ['[']) ++ (line.key.toList ++ ']' :: line.afterKey)

/-- The line as it is written, with its end. -/
def render (line : VariantLine) : List Char :=
  List.replicate line.indent ' ' ++ (line.body ++ ['\n'])

variable {line : VariantLine} {tail : List Char}

theorem body_head (line : VariantLine) : ∃ c rest, line.body = c :: rest ∧ (c = '*' ∨ c = '[') := by
  rw [body]
  cases line.starred with
  | true => exact ⟨'*', _, rfl, .inl rfl⟩
  | false => exact ⟨'[', _, rfl, .inr rfl⟩

theorem isPatternChar_of_isKeywordChar {c : Char} (h : isKeywordChar c = true) :
    isPatternChar c = true := by
  simp only [isPatternChar, Bool.and_eq_true, bne_iff_ne]
  refine ⟨⟨?_, ?_⟩, ?_⟩ <;> rintro rfl <;> exact absurd h (by decide)

theorem all_spaces {p : Char → Bool} (space : p ' ' = true) (count : Nat) :
    (List.replicate count ' ').all p = true :=
  List.all_eq_true.mpr fun c member => by rwa [List.eq_of_mem_replicate member]

theorem WellFormed.body_pattern (written : line.WellFormed) :
    line.body.all isPatternChar = true := by
  obtain ⟨-, key, -⟩ := isKeyword_cases written.key
  have mark : (if line.starred then ['*', '['] else ['[']).all isPatternChar = true := by
    cases line.starred <;> rfl
  have name : line.key.toList.all isPatternChar = true :=
    List.all_eq_true.mpr fun c member =>
      isPatternChar_of_isKeywordChar (List.all_eq_true.mp key c member)
  have after : line.afterKey.all isPatternChar = true := by
    rw [afterKey]
    split
    · rename_i text held
      rw [List.all_append, all_spaces rfl, (written.text text held).pattern]
      rfl
    · rfl
  rw [body, List.all_append, List.all_append, List.all_cons, mark, name, after]
  rfl

theorem WellFormed.body_last (written : line.WellFormed) {c : Char}
    (last : line.body.getLast? = some c) : Text.isBlank c = false := by
  rw [body, List.getLast?_append, List.getLast?_append, List.getLast?_cons, afterKey] at last
  split at last
  · rename_i text held
    have ends := (written.text text held).ends
    cases final : text.toList.getLast? with
    | none =>
      have empty := String.toList_eq_nil_iff.mp (List.getLast?_eq_none_iff.mp final)
      exact absurd empty ends.nonempty
    | some d =>
      rw [List.getLast?_append, final] at last
      exact ends.last c (final.trans (by simpa using last))
  · obtain rfl : ']' = c := by simpa using last
    rfl

/-- The line stands for itself as a text. -/
theorem WellFormed.body_plain (written : line.WellFormed) : Plain (String.ofList line.body) where
  pattern := by rw [String.toList_ofList, written.body_pattern]
  first := by
    obtain ⟨c, rest, head, rfl | rfl⟩ := line.body_head <;> rw [String.toList_ofList, head] <;> rfl
  ends := by
    refine ⟨fun empty => ?_, fun c last => ?_⟩
    · obtain ⟨c, rest, head, -⟩ := line.body_head
      have lists := congrArg String.toList empty
      rw [String.toList_ofList, head] at lists
      cases lists
    · rw [String.toList_ofList] at last
      exact written.body_last last

end VariantLine

/-! ## Patterns on a line -/

section

variable {placeable : Parser Expression} {text : String} {tail : List Char}

theorem dropWhile_indent {c : Char} (visible : Text.isInlineBlank c = false) (indent : Nat)
    (rest : List Char) :
    (List.replicate indent ' ' ++ c :: rest).dropWhile Text.isInlineBlank = c :: rest :=
  dropWhile_run (VariantLine.all_spaces rfl indent) visible

/-- A pattern ends in front of an indented line that starts with what ends a pattern. -/
theorem endsLine_indented {c : Char} (closes : endsPattern c = true) (indent : Nat)
    (rest : List Char) : EndsLine (List.replicate indent ' ' ++ c :: rest) := by
  have stays (lineStart : List Char) :
      dropBlankLinesFrom lineStart (List.replicate indent ' ' ++ c :: rest) = lineStart := by
    induction indent with
    | zero =>
      rw [List.replicate_zero, List.nil_append, dropBlankLinesFrom.eq_def]
      split <;> rename_i same <;> first | rfl | (cases same; cases closes)
    | succ indent ih => exact ih
  have visible : Text.isInlineBlank c = false := Bool.eq_false_iff.mpr fun blank => by
    rw [Text.isInlineBlank, Bool.or_eq_true, beq_iff_eq, beq_iff_eq] at blank
    obtain rfl | rfl := blank <;> cases closes
  exact ⟨stays _, fun _ => by rw [dropWhile_indent visible]; exact closes⟩

open VariantLine (Plain)

theorem patternParts_plain (plain : Plain text) (ends : EndsLine tail) :
    patternParts placeable (text.toList ++ '\n' :: tail) = .ok (some (.text text), tail) := by
  have noReturn : text.toList.getLast? ≠ some '\r' := fun last =>
    absurd (plain.ends.last _ last) (by decide)
  have read : iterate (patternRound placeable) .empty (text.toList ++ '\n' :: tail) =
      .ok (Draft.empty.push text.toList, tail) := by
    rw [iterate, patternRound_ends plain.pattern noReturn ends]
  rw [patternParts, bind_ok read]
  change Except.ok ((Draft.ofParts [.text text]).finish, tail) = _
  rw [Draft.finish_text plain.ends]

/-- A text is read up to the end of its line, where that is not continued. -/
theorem pattern_onLine (plain : Plain text) (ends : EndsLine tail) :
    pattern placeable (text.toList ++ '\n' :: tail) = .ok (some (.text text), tail) := by
  have nonempty : text.toList ≠ [] := by simpa using plain.ends.nonempty
  have parts : patternParts placeable (text.toList ++ '\n' :: tail) =
      .ok (some (.text (String.ofList text.toList)), tail) := by
    rw [String.ofList_toList]
    exact patternParts_plain plain ends
  have whole := pattern_plain plain.pattern nonempty (dropEndWhile_eq_self plain.ends.last) ends
    parts
  rwa [String.ofList_toList] at whole

/-- Where a line has no text, the indented line below it is read, whatever that starts with, unless
it starts with a point. -/
theorem pattern_below {next : VariantLine} (written : next.WellFormed) (ends : EndsLine tail) :
    pattern placeable ('\n' :: (next.render ++ tail)) =
      .ok (some (.text (String.ofList next.body)), tail) := by
  obtain ⟨c, rest, head, opens⟩ := next.body_head
  have closes : endsPattern c = true := by obtain rfl | rfl := opens <;> rfl
  have onward : next.render ++ tail =
      List.replicate next.indent ' ' ++ c :: (rest ++ '\n' :: tail) := by
    simp only [VariantLine.render, head, List.append_assoc, List.cons_append, List.nil_append]
  have line := endsLine_indented closes next.indent (rest ++ '\n' :: tail)
  have unindented : (next.render ++ tail).dropWhile Text.isInlineBlank =
      next.body ++ '\n' :: tail := by
    rw [onward, dropWhile_indent (by obtain rfl | rfl := opens <;> rfl), head, List.cons_append]
  rw [← onward] at line
  -- Of what ends a pattern on further lines only the point keeps one from starting on the first.
  have continues : ¬EndsValue (next.render ++ tail) := by
    rintro (unindented' | point)
    · refine unindented' ?_
      obtain ⟨indent, more⟩ := Nat.exists_eq_add_one.mpr written.indented
      rw [onward, more]
      rfl
    · rw [unindented, head] at point
      obtain rfl | rfl := opens <;> cases point
  have body : patternParts placeable ((String.ofList next.body).toList ++ '\n' :: tail) = _ :=
    patternParts_plain written.body_plain ends
  rw [String.toList_ofList] at body
  rw [pattern_apply]
  change (if EndsValue (dropBlankLines (next.render ++ tail)) then _ else patternParts placeable
    ((dropBlankLines (next.render ++ tail)).dropWhile Text.isInlineBlank)) = _
  rw [line.unblank, if_neg continues, unindented, body]

end

/-! ## Variants -/

namespace VariantLine

/-- The lines that are left when each one without a text takes the line below it for its text. -/
def taken : List VariantLine → List VariantLine
  | [] => []
  | [line] => [line]
  | line :: next :: below =>
    match line.text with
    | some _ => line :: taken (next :: below)
    | none => { line with text := some (String.ofList next.body) } :: taken below

/-- The variants that lines with texts stand for. -/
def members (lines : List VariantLine) : List Variant :=
  lines.map fun line => .mk (.keyword line.key) (.text (line.text.getD ""))

/-- The position of the last line that is starred. -/
def standard (lines : List VariantLine) : Option Nat :=
  (lines.zipIdx.filter fun pair => pair.1.starred).getLast?.map Prod.snd

theorem members_concat (lines : List VariantLine) (line : VariantLine) :
    members (lines ++ [line]) =
      members lines ++ [.mk (.keyword line.key) (.text (line.text.getD ""))] := by
  rw [members, List.map_append]
  rfl

theorem standard_concat (lines : List VariantLine) (line : VariantLine) :
    standard (lines ++ [line]) = if line.starred then some lines.length else standard lines := by
  rw [standard, List.zipIdx_append, List.filter_append, List.zipIdx_singleton, Nat.zero_add]
  cases starred : line.starred with
  | true =>
    rw [List.filter_singleton, starred]
    simp
  | false =>
    rw [List.filter_singleton, starred]
    simp [standard]

end VariantLine

open VariantLine (members members_concat standard standard_concat taken)

section

variable {placeable : Parser Expression} {read : List VariantLine} {line : VariantLine}
  {tail : List Char}

/-- A line is read up to its key, and then its pattern. -/
theorem variantRound_line (key : isKeyword line.key.toList = true) (read : List VariantLine)
    (tail : List Char) :
    variantRound placeable (members read, standard read) (line.body ++ tail) =
      match pattern placeable ((line.afterKey ++ tail).dropWhile Text.isInlineBlank) with
      | .ok (some value, rest) => .ok (.again (members read ++ [.mk (.keyword line.key) value],
          if line.starred then some read.length else standard read), rest.dropWhile Text.isBlank)
      | .ok (none, rest) => .error ⟨.variantWithoutValue, rest⟩
      | .error failure => .error failure := by
  have size : (members read).length = read.length := List.length_map _
  have opened (text : List Char) : expect '[' ('[' :: text) = .ok ((), text) := rfl
  have sound : VariantKey.WellFormed (.keyword line.key) := key
  have named : variantKey (line.key.toList ++ ']' :: (line.afterKey ++ tail)) =
      .ok (.keyword line.key, line.afterKey ++ tail) := variantKey_append sound
  have after : variantRound placeable (members read, standard read) (line.body ++ tail) =
      variantAfter placeable (members read, standard read) line.starred
        ('[' :: (line.key.toList ++ ']' :: (line.afterKey ++ tail))) := by
    rw [VariantLine.body, List.append_assoc, List.append_assoc, List.cons_append]
    cases line.starred with
    | true => exact variantRound_starred _
    | false =>
      obtain ⟨c, rest, head, other, -⟩ := key_head sound
      refine variantRound_open _ ?_
      rw [show line.key.toList = c :: rest from head]
      exact fun same => other (Option.some_inj.mp same)
  rw [after, variantAfter_eq, bind_ok (opened _), bind_ok named, skipInlineBlank_bind_apply,
    bind_apply, size]
  rcases pattern placeable ((line.afterKey ++ tail).dropWhile Text.isInlineBlank) with
    failure | ⟨_ | value, rest⟩ <;> rfl

/-- A line with a text is a variant. -/
theorem variantRound_text {text : String} (written : line.WellFormed) (held : line.text = some text)
    (ends : EndsLine tail) (read : List VariantLine) :
    variantRound placeable (members read, standard read) (line.body ++ '\n' :: tail) =
      .ok (.again (members (read ++ [line]), standard (read ++ [line])),
        tail.dropWhile Text.isBlank) := by
  have plain := written.text text held
  have value : (line.afterKey ++ '\n' :: tail).dropWhile Text.isInlineBlank =
      text.toList ++ '\n' :: tail := by
    rw [VariantLine.afterKey, held]
    cases first : text.toList with
    | nil => exact absurd (String.toList_eq_nil_iff.mp first) plain.ends.nonempty
    | cons c rest =>
      have visible := plain.first
      rw [first, List.head?_cons, Option.any_some] at visible
      simp only [first, List.append_assoc, List.cons_append]
      exact dropWhile_indent visible line.gap _
  rw [variantRound_line written.key, value, pattern_onLine plain ends, members_concat,
    standard_concat, held]
  rfl

/-- A line without a text is a variant whose text is the line below it. -/
theorem variantRound_taking {next : VariantLine} (written : line.WellFormed)
    (bare : line.text = none) (below : next.WellFormed) (ends : EndsLine tail)
    (read : List VariantLine) :
    let taking := { line with text := some (String.ofList next.body) }
    variantRound placeable (members read, standard read)
        (line.body ++ '\n' :: (next.render ++ tail)) =
      .ok (.again (members (read ++ [taking]), standard (read ++ [taking])),
        tail.dropWhile Text.isBlank) := by
  intro taking
  have value : (line.afterKey ++ '\n' :: (next.render ++ tail)).dropWhile Text.isInlineBlank =
      '\n' :: (next.render ++ tail) := by
    rw [VariantLine.afterKey, bare]
    rfl
  rw [variantRound_line written.key, value, pattern_below below ends, members_concat,
    standard_concat]
  rfl

/-- A line without a text in front of the closing brace is a fault. -/
theorem variantRound_bare (written : line.WellFormed) (bare : line.text = none)
    (read : List VariantLine) :
    variantRound placeable (members read, standard read) (line.body ++ '\n' :: '}' :: tail) =
      .error ⟨.variantWithoutValue, '}' :: tail⟩ := by
  have value : (line.afterKey ++ '\n' :: '}' :: tail).dropWhile Text.isInlineBlank =
      '\n' :: '}' :: tail := by
    rw [VariantLine.afterKey, bare]
    rfl
  have ends : EndsLine ('}' :: tail) := endsLine_indented rfl 0 tail
  rw [variantRound_line written.key, value, pattern_missing ends (.inl (by simp))]

theorem VariantLine.dropWhile_render (line : VariantLine) (tail : List Char) :
    (line.render ++ tail).dropWhile Text.isBlank = line.body ++ '\n' :: tail := by
  obtain ⟨c, rest, head, opens⟩ := line.body_head
  rw [VariantLine.render, List.append_assoc, List.append_assoc,
    dropWhile_run (all_spaces rfl line.indent)]
  · rfl
  · rw [head]
    obtain rfl | rfl := opens <;> rfl

/-- A pattern ends in front of lines and the closing brace. -/
theorem endsLine_lines (lines : List VariantLine) (tail : List Char) :
    EndsLine (lines.flatMap VariantLine.render ++ '}' :: tail) := by
  cases lines with
  | nil => exact endsLine_indented rfl 0 tail
  | cons line lines =>
    obtain ⟨c, rest, head, opens⟩ := line.body_head
    have closes : endsPattern c = true := by obtain rfl | rfl := opens <;> rfl
    have ends := endsLine_indented closes line.indent
      (rest ++ '\n' :: (lines.flatMap VariantLine.render ++ '}' :: tail))
    simpa only [List.flatMap_cons, VariantLine.render, head, List.append_assoc, List.cons_append,
      List.nil_append] using ends

/-- A line is read in a round, and reading goes on behind what the round has taken. -/
theorem iterate_line {state state' : List Variant × Option Nat} {rest : List Char}
    (round : variantRound placeable state (line.body ++ '\n' :: rest) =
      .ok (.again state', tail.dropWhile Text.isBlank)) (left : tail <:+ rest) :
    iterate (variantRound placeable) state ((line.render ++ rest).dropWhile Text.isBlank) =
      iterate (variantRound placeable) state' (tail.dropWhile Text.isBlank) := by
  have shorter : (tail.dropWhile Text.isBlank).length < (line.body ++ '\n' :: rest).length := by
    have less := ((List.dropWhile_suffix Text.isBlank).trans left).length_le
    rw [List.length_append, List.length_cons]
    omega
  rw [line.dropWhile_render, iterate, round]
  exact if_pos shorter

/-- The lines of a select expression are read as those that are left of them, the last of which
needs a text. -/
theorem variants_lines {lines : List VariantLine} (written : ∀ line ∈ lines, line.WellFormed)
    (read : List VariantLine) (tail : List Char) :
    iterate (variantRound placeable) (members read, standard read)
        ((lines.flatMap VariantLine.render ++ '}' :: tail).dropWhile Text.isBlank) =
      if (taken lines).all (·.text.isSome) then
        .ok ((members (read ++ taken lines), standard (read ++ taken lines)), '}' :: tail)
      else .error ⟨.variantWithoutValue, '}' :: tail⟩ := by
  have closed (read : List VariantLine) :
      iterate (variantRound placeable) (members read, standard read)
        (('}' :: tail).dropWhile Text.isBlank) =
      .ok ((members read, standard read), '}' :: tail) := by
    have last : variantRound placeable (members read, standard read) ('}' :: tail) =
        .ok (.done (members read, standard read), '}' :: tail) :=
      variantRound_end _ (by simp) fun _ same => absurd (List.cons.inj same).1 (by decide)
    change iterate _ _ ('}' :: tail) = _
    rw [iterate, last]
  -- A round reads one line or, where that has no text, two: the cases of `taken`.
  induction lines using VariantLine.taken.induct generalizing read with
  | case1 =>
    rw [taken, List.append_nil]
    exact closed read
  | case2 line =>
    have sound := written line List.mem_cons_self
    have ends : EndsLine ('}' :: tail) := endsLine_lines [] tail
    rw [List.flatMap_singleton, taken, List.all_cons, List.all_nil, Bool.and_true]
    cases held : line.text with
    | none =>
      rw [line.dropWhile_render, iterate, variantRound_bare sound held]
      rfl
    | some text =>
      rw [iterate_line (variantRound_text sound held ends read) (List.suffix_refl _), closed]
      rfl
  | case3 line next below text held ih =>
    have sound := written line List.mem_cons_self
    have others := ih (fun other member => written other (List.mem_cons_of_mem _ member))
      (read ++ [line])
    have ends := endsLine_lines (next :: below) tail
    rw [List.flatMap_cons, List.append_assoc,
      iterate_line (variantRound_text sound held ends read) (List.suffix_refl _), others,
      List.append_assoc, taken, held]
    simp only [List.all_cons, held, Option.isSome_some, Bool.true_and]
    rfl
  | case4 line next below bare ih =>
    have sound := written line List.mem_cons_self
    have below' := written next (List.mem_cons_of_mem _ List.mem_cons_self)
    have others := ih (fun other member =>
      written other (List.mem_cons_of_mem _ (List.mem_cons_of_mem _ member)))
      (read ++ [{ line with text := some (String.ofList next.body) }])
    have ends := endsLine_lines below tail
    rw [List.flatMap_cons, List.flatMap_cons, List.append_assoc, List.append_assoc,
      iterate_line (variantRound_taking sound bare below' ends read) (List.suffix_append _ _),
      others, List.append_assoc, taken, bare]
    simp only [List.all_cons, Option.isSome_some, Bool.true_and]
    rfl

end

/-! ## Which lines are left without a text -/

section

theorem length_rtakeWhile_cons {α : Type} (p : α → Bool) (a : α) (l : List α) :
    ((a :: l).rtakeWhile p).length =
      if l.all p = true ∧ p a = true then l.length + 1 else (l.rtakeWhile p).length := by
  have whole : ((a :: l).rtakeWhile p).length =
      ((l.reverse ++ [a]).takeWhile p).length := by
    rw [List.rtakeWhile, List.length_reverse, List.reverse_cons]
  have part : (l.rtakeWhile p).length = (l.reverse.takeWhile p).length := by
    rw [List.rtakeWhile, List.length_reverse]
  rw [whole, part, List.takeWhile_append]
  by_cases all : l.all p = true
  · have reversed : l.reverse.takeWhile p = l.reverse :=
      List.takeWhile_eq_self_iff.mpr fun b member =>
        List.all_eq_true.mp all b (List.mem_reverse.mp member)
    rw [reversed, if_pos rfl]
    by_cases first : p a = true
    · rw [if_pos ⟨all, first⟩, List.takeWhile_cons_of_pos first]
      simp
    · rw [if_neg fun both => first both.2, List.takeWhile_cons_of_neg first]
      simp
  · have shorter : (l.reverse.takeWhile p).length ≠ l.reverse.length := fun same => by
      have reversed := (List.takeWhile_prefix p).eq_of_length same
      refine all (List.all_eq_true.mpr fun b member => ?_)
      exact List.takeWhile_eq_self_iff.mp reversed b (List.mem_reverse.mpr member)
    rw [if_neg shorter, if_neg fun both => all both.1]

/-- Every line that is left has a text exactly if the lines without one at the end are even in
number: each but the last of two takes the other. -/
theorem taken_complete_iff (lines : List VariantLine) :
    (taken lines).all (·.text.isSome) = true ↔
      Even (lines.rtakeWhile (·.text.isNone)).length := by
  induction lines using VariantLine.taken.induct with
  | case1 => simp [taken]
  | case2 line =>
    rw [taken, length_rtakeWhile_cons]
    cases held : line.text <;> simp [held]
  | case3 line next below text held ih =>
    rw [taken, held, length_rtakeWhile_cons, if_neg (by simp [held])]
    simp only [List.all_cons, held, Option.isSome_some, Bool.true_and]
    exact ih
  | case4 line next below bare ih =>
    rw [taken, bare]
    simp only [List.all_cons, Option.isSome_some, Bool.true_and]
    rw [ih, length_rtakeWhile_cons, length_rtakeWhile_cons]
    by_cases all : below.all (·.text.isNone) = true
    · have same : below.rtakeWhile (·.text.isNone) = below :=
        List.rtakeWhile_eq_self_iff.mpr fun other member => List.all_eq_true.mp all other member
      by_cases last : next.text.isNone = true
      · rw [if_pos ⟨by rw [List.all_cons, last, all]; rfl, by rw [bare]; rfl⟩, same,
          List.length_cons]
        exact (Nat.even_add_one.trans (not_congr Nat.even_add_one)).trans not_not |>.symm
      · rw [if_neg fun both => last (List.all_eq_true.mp both.1 next List.mem_cons_self),
          if_neg fun both => last both.2]
    · rw [if_neg fun both => all (List.all_eq_true.mpr fun other member =>
        List.all_eq_true.mp both.1 other (List.mem_cons_of_mem _ member)),
        if_neg fun both => all both.1]

/-- Lines that all have a text are left as they are. -/
theorem taken_of_texts {lines : List VariantLine}
    (texts : ∀ line ∈ lines, line.text.isSome = true) : taken lines = lines := by
  induction lines using VariantLine.taken.induct with
  | case1 => rfl
  | case2 line => rfl
  | case3 line next below text held ih =>
    rw [taken, held, ih fun other member => texts other (List.mem_cons_of_mem _ member)]
  | case4 line next below bare ih =>
    have held := texts line List.mem_cons_self
    rw [bare] at held
    cases held

end

end Fluent.Grammar
