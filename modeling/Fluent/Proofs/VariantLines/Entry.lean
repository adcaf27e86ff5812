import Fluent.Proofs.Places
import Fluent.Proofs.VariantLines.Basic

/-!
# Entries with variants line by line

An entry that holds a select expression is kept with the lines that are left of it, or it is
rejected at its closing brace. Whatever follows it is read as it is alone.

* `placeableBody_lines`: a select expression between its braces;
* `items_select`: an entry that holds one;
* `locate_select`: the place of its fault;
* `parse_variantLines`: a text that starts with such an entry.
-/

namespace Fluent.Grammar

open Fluent.Grammar.Parser Fluent.Text.Reader
open VariantLine (members standard taken)

/-! ## Select expressions -/

section

variable {placeable : Parser Expression} {lines : List VariantLine} {tail : List Char}

/-- What is read of the lines of a select expression and the brace behind them. -/
def selected (name : String) (lines : List VariantLine) (tail : List Char) :
    Except Failure (Expression × List Char) :=
  if (taken lines).all (·.text.isSome) then
    .ok (.select (.variableRef name) (members (taken lines)) (standard (taken lines)), tail)
  else .error ⟨.variantWithoutValue, '}' :: tail⟩

theorem taken_ne_nil (nonempty : lines ≠ []) : taken lines ≠ [] := by
  fun_cases taken lines with
  | case1 => exact absurd rfl nonempty
  | case2 => exact nonempty
  | case3 => exact List.cons_ne_nil _ _
  | case4 => exact List.cons_ne_nil _ _

theorem selectMembers_lines (name : String) (written : ∀ line ∈ lines, line.WellFormed)
    (nonempty : lines ≠ []) (tail : List Char) :
    selectMembers placeable (.variableRef name)
        ((lines.flatMap VariantLine.render ++ '}' :: tail).dropWhile Text.isBlank) =
      selected name lines tail := by
  have read : variants placeable
      ((lines.flatMap VariantLine.render ++ '}' :: tail).dropWhile Text.isBlank) = _ :=
    variants_lines written [] tail
  rw [selectMembers, selected]
  by_cases complete : (taken lines).all (·.text.isSome) = true
  · rw [if_pos complete, List.nil_append] at read
    have present : (members (taken lines)).isEmpty = false := by
      simpa [members] using taken_ne_nil nonempty
    rw [bind_ok read, if_pos complete]
    change (if (members (taken lines)).isEmpty then fail .missingVariants else _ :
      Parser Expression) _ = _
    rw [present, if_neg Bool.false_ne_true]
    rfl
  · rw [if_neg complete] at read
    rw [bind_error read, if_neg complete]

/-- What stands between the braces of a select expression, its variants line by line. -/
theorem placeableBody_lines {name : String} (named : isName name.toList = true)
    (written : ∀ line ∈ lines, line.WellFormed) (nonempty : lines ≠ []) (tail : List Char) :
    placeableBody placeable ('{' :: ' ' :: '$' :: (name.toList ++ ' ' :: '-' :: '>' :: '\n' ::
        (lines.flatMap VariantLine.render ++ '}' :: tail))) = selected name lines tail := by
  have read : inlineExpression placeable ('$' :: (name.toList ++ ' ' :: '-' :: '>' :: '\n' ::
      (lines.flatMap VariantLine.render ++ '}' :: tail))) = _ :=
    readsInline_variableRef named _ rfl
  rw [placeableBody_inline rfl, bind_ok read, placeableTail_arrow rfl]
  exact (selectTail_lineFeed rfl).trans (selectMembers_lines name written nonempty tail)

/-- A pattern that is one placeable, which is read up to the end of its line. -/
theorem pattern_placeable {text : List Char} {expression : Expression} (ends : EndsLine tail)
    (read : placeable ('{' :: text) = .ok (expression, '\n' :: tail))
    (shorter : tail.length < text.length) :
    pattern placeable ('{' :: text) = .ok (some (.elements [.placeable expression]), tail) := by
  have first : patternRound placeable .empty ('{' :: text) =
      .ok (.again (Draft.empty.place expression), '\n' :: tail) := by
    rw [patternRound_placeable rfl, if_neg (by decide)]
    exact bind_ok read _
  have last : patternRound placeable (Draft.empty.place expression) ('\n' :: tail) =
      .ok (.done (Draft.empty.place expression), tail) := by
    have round : patternRound placeable (Draft.empty.place expression) ([] ++ '\n' :: tail) = _ :=
      patternRound_ends rfl (by simp) ends
    rwa [Draft.push_nil] at round
  have rounds : iterate (patternRound placeable) .empty ('{' :: text) =
      .ok (Draft.empty.place expression, tail) := by
    rw [iterate, first]
    refine (if_pos (Nat.succ_lt_succ shorter)).trans ?_
    rw [iterate, last]
  have marked : pattern placeable ([] ++ '{' :: text) = _ :=
    pattern_marked List.not_mem_nil (.inl rfl)
  rw [List.nil_append] at marked
  rw [marked, patternParts, bind_ok rounds]
  rfl

theorem pattern_placeable_fails {text : List Char} {failure : Failure}
    (fails : placeable ('{' :: text) = .error failure) :
    pattern placeable ('{' :: text) = .error failure := by
  have first : patternRound placeable .empty ('{' :: text) = .error failure := by
    rw [patternRound_placeable rfl, if_neg (by decide)]
    exact bind_error fails _
  have rounds : iterate (patternRound placeable) .empty ('{' :: text) = .error failure := by
    rw [iterate, first]
  have marked : pattern placeable ([] ++ '{' :: text) = _ :=
    pattern_marked List.not_mem_nil (.inl rfl)
  rw [List.nil_append] at marked
  rw [marked, patternParts, bind_error rounds]

end

/-! ## Entries -/

/-- An entry that holds a select expression, up to the brace behind its lines. -/
def selectStart (id name : String) (lines : List VariantLine) : String :=
  id ++ " = \x7b $" ++ name ++ " ->\n" ++ String.ofList (lines.flatMap VariantLine.render)

/-- An entry that holds a select expression with one variant a line. -/
def selectEntry (id name : String) (lines : List VariantLine) : String :=
  selectStart id name lines ++ "\x7d\n"

/-- The entry that has a select expression of a variable for its value. -/
def selection (name : String) (lines : List VariantLine) : Entry :=
  .node (some (.elements [.placeable (.select (.variableRef name) (members lines)
    (standard lines))])) none

section

variable {id name : String} {lines : List VariantLine} {tail : List Char}

theorem selectStart_toList (id name : String) (lines : List VariantLine) :
    (selectStart id name lines).toList = id.toList ++ ' ' :: '=' :: ' ' :: '{' :: ' ' :: '$' ::
      (name.toList ++ ' ' :: '-' :: '>' :: '\n' :: lines.flatMap VariantLine.render) := by
  simp [selectStart]

theorem selectEntry_toList (id name : String) (lines : List VariantLine) :
    (selectEntry id name lines).toList = (selectStart id name lines).toList ++ ['}', '\n'] :=
  String.toList_append

theorem selectEntry_append (id name : String) (lines : List VariantLine) (tail : List Char) :
    (selectEntry id name lines).toList ++ tail = id.toList ++ ' ' :: '=' :: ' ' :: '{' :: ' ' ::
      '$' :: (name.toList ++ ' ' :: '-' :: '>' :: '\n' ::
        (lines.flatMap VariantLine.render ++ '}' :: '\n' :: tail)) := by
  simp only [selectEntry_toList, selectStart_toList, List.append_assoc, List.cons_append,
    List.nil_append]

/-- The value of an entry is what is read of its select expression. -/
theorem message_select (identified : isEntryId id.toList = true) (named : isName name.toList = true)
    (written : ∀ line ∈ lines, line.WellFormed) (nonempty : lines ≠ [])
    (follows : FollowsEntry tail) :
    message ((selectEntry id name lines).toList ++ tail) =
      if (taken lines).all (·.text.isSome) then .ok ((id, selection name (taken lines)), tail)
      else .error ⟨.variantWithoutValue, '}' :: '\n' :: tail⟩ := by
  have read : entryPlaceable ('{' :: ' ' :: '$' :: (name.toList ++ ' ' :: '-' :: '>' :: '\n' ::
      (lines.flatMap VariantLine.render ++ '}' :: '\n' :: tail))) =
      selected name lines ('\n' :: tail) :=
    placeableBody_lines named written nonempty ('\n' :: tail)
  rw [selectEntry_append, message_eq, bind_ok (messageHead_reads identified _)]
  change messageBody id ('{' :: _) = _
  rw [selected] at read
  by_cases complete : (taken lines).all (·.text.isSome) = true
  · rw [if_pos complete] at read ⊢
    have value := pattern_placeable follows.endsLine read (by simp; omega)
    rw [messageBody, bind_ok value, messageTail_compact follows]
    rfl
  · rw [if_neg complete] at read ⊢
    rw [messageBody, bind_error (pattern_placeable_fails read)]

theorem nextEntry_followsEntry (follows : FollowsEntry tail) : nextEntry true tail = tail := by
  obtain rfl | ⟨c, rest, rfl, letter⟩ := follows
  · rfl
  · rw [nextEntry, if_pos (by simpa using letter)]

theorem selectEntry_getLast? (id name : String) (lines : List VariantLine) :
    (selectEntry id name lines).toList.getLast? = some '\n' := by
  rw [selectEntry_toList, List.getLast?_append]
  rfl

/-- What is found where a select expression is written is its entry or the fault of its last line,
and then what follows it. -/
theorem items_select (identified : isEntryId id.toList = true) (named : isName name.toList = true)
    (written : ∀ line ∈ lines, line.WellFormed) (nonempty : lines ≠ [])
    (follows : FollowsEntry tail) :
    items true ((selectEntry id name lines).toList ++ tail) =
      (if (taken lines).all (·.text.isSome) then .entry id (selection name (taken lines))
        else .failure ⟨.variantWithoutValue, '}' :: '\n' :: tail⟩) :: items true tail := by
  have starts : FollowsEntry ((selectEntry id name lines).toList ++ tail) := by
    rw [selectEntry_append]
    exact followsEntry_of_isEntryId identified
  have read := message_select identified named written nonempty follows
  refine items_entry_append starts (selectEntry_getLast? id name lines) ?_
  rw [attempt, entryOrComment_apply, if_pos rfl, starts.not_startsComment,
    if_neg Bool.false_ne_true]
  by_cases complete : (taken lines).all (·.text.isSome) = true
  · rw [if_pos complete] at read ⊢
    rw [bind_ok read]
    rfl
  · rw [if_neg complete] at read ⊢
    have onward : resume ((selectEntry id name lines).toList ++ tail) ('}' :: '\n' :: tail) =
        tail := by
      have behind : ('}' :: '\n' :: tail).length <
          ((selectEntry id name lines).toList ++ tail).length := by
        rw [selectEntry_append]
        simp only [List.length_append, List.length_cons]
        omega
      -- The brace is read as a line of no use, so no more than its own line is lost.
      rw [resume, if_pos behind, nextEntry, if_neg (by simp), nextEntry, if_neg (by simp)]
      exact nextEntry_followsEntry follows
    rw [bind_error read]
    exact congrArg _ onward

/-! ## Places -/

theorem count_lineFeed {text : List Char} (plain : text.all isPatternChar = true) :
    text.count '\n' = 0 :=
  List.count_eq_zero.mpr fun member => absurd (List.all_eq_true.mp plain _ member) (by decide)

theorem isPatternChar_of_isIdentifierChar {c : Char} (h : isIdentifierChar c = true) :
    isPatternChar c = true :=
  VariantLine.isPatternChar_of_isKeywordChar (by
    rw [isKeywordChar, Bool.or_eq_true]
    exact .inl h)

theorem count_lineFeed_name {name : List Char} (named : isName name = true) :
    name.count '\n' = 0 :=
  count_lineFeed (List.all_eq_true.mpr fun c member =>
    isPatternChar_of_isIdentifierChar (List.all_eq_true.mp (isName_cases named).2 c member))

theorem count_lineFeed_id {id : List Char} (identified : isEntryId id = true) :
    id.count '\n' = 0 := by
  obtain named | ⟨name, rfl, named⟩ := isEntryId_cases identified
  · exact count_lineFeed_name named
  · rw [List.count_cons_of_ne (by decide), count_lineFeed_name named]

theorem count_lineFeed_lines (written : ∀ line ∈ lines, line.WellFormed) :
    (lines.flatMap VariantLine.render).count '\n' = lines.length := by
  induction lines with
  | nil => rfl
  | cons line lines ih =>
    have others := ih fun other member => written other (List.mem_cons_of_mem _ member)
    have body := count_lineFeed (written line List.mem_cons_self).body_pattern
    have indent := count_lineFeed (VariantLine.all_spaces rfl line.indent)
    rw [List.flatMap_cons, List.count_append, others, VariantLine.render, List.count_append,
      List.count_append, indent, body, List.count_singleton_self, List.length_cons]
    omega

/-- The closing brace stands at the start of its line. -/
theorem selectStart_endsLines (id name : String) (lines : List VariantLine) :
    EndsLines (selectStart id name lines).toList := by
  have last : ('\n' :: lines.flatMap VariantLine.render).getLast? = some '\n' := by
    obtain rfl | ⟨others, line, rfl⟩ := lines.eq_nil_or_concat'
    · rfl
    · rw [List.flatMap_append, List.flatMap_singleton, VariantLine.render, ← List.append_assoc,
        ← List.append_assoc, ← List.cons_append]
      exact List.getLast?_concat
  obtain ⟨front, parts⟩ : '\n' :: lines.flatMap VariantLine.render <:+
      (selectStart id name lines).toList := by
    rw [selectStart_toList]
    exact ⟨id.toList ++ ' ' :: '=' :: ' ' :: '{' :: ' ' :: '$' :: (name.toList ++ [' ', '-', '>']),
      by simp⟩
  refine endsLines_of_getLast? ?_
  rw [← parts, List.getLast?_append, last]
  rfl

/-- The fault of a select expression stands at its closing brace, on the line below its lines. -/
theorem locate_select (identified : isEntryId id.toList = true) (named : isName name.toList = true)
    (written : ∀ line ∈ lines, line.WellFormed) (fault : Fault) (tail : List Char) :
    Failure.locate ((selectEntry id name lines).toList ++ tail) ⟨fault, '}' :: '\n' :: tail⟩ =
      ⟨fault, (selectStart id name lines).utf8ByteSize, lines.length + 2, 1⟩ := by
  have whole := selectStart_endsLines id name lines
  have lineFeeds : (selectStart id name lines).toList.count '\n' = lines.length + 1 := by
    rw [selectStart_toList]
    simp [count_lineFeed_id identified, count_lineFeed_name named, count_lineFeed_lines written]
  have placed := Failure.locate_eq whole List.not_mem_nil ⟨fault, '}' :: '\n' :: tail⟩
  rw [List.append_nil, byteSize_toList, lineFeeds] at placed
  rw [selectEntry_toList, List.append_assoc]
  exact placed

/-! ## What is found -/

/-- A select expression is read back if each of its lines has a text. If the lines without a text at
its end are odd in number, it is rejected at its closing brace. Otherwise every line without a text
takes the line below it for its text, and what is left is kept without an error. -/
theorem parse_variantLines {rest : String} (identified : isEntryId id.toList = true)
    (named : isName name.toList = true) (nonempty : lines ≠ [])
    (written : ∀ line ∈ lines, line.WellFormed) (follows : FollowsEntry rest.toList) :
    let found := Resource.parse (selectEntry id name lines ++ rest)
    let others := Resource.parse rest
    let behind := others.errors.map (.behind (selectEntry id name lines))
    let kept (left : List VariantLine) : Prop :=
      found.entries =
        Table.overlay ((∅ : Table Entry).insert id (selection name left)) others.entries ∧
      found.errors = behind
    ((∀ line ∈ lines, line.text.isSome = true) → kept lines) ∧
    (Even (lines.rtakeWhile (·.text.isNone)).length → kept (taken lines)) ∧
    (¬Even (lines.rtakeWhile (·.text.isNone)).length →
      found.entries = others.entries ∧ found.errors = ⟨.variantWithoutValue,
        (selectStart id name lines).utf8ByteSize, lines.length + 2, 1⟩ :: behind) := by
  intro found others behind kept
  have whole : EndsLines (selectEntry id name lines).toList :=
    endsLines_of_getLast? (selectEntry_getLast? id name lines)
  have items := items_select identified named written nonempty follows
  rw [← String.toList_append] at items
  have complete (all : (taken lines).all (·.text.isSome) = true) : kept (taken lines) := by
    rw [if_pos all, ← List.singleton_append] at items
    exact parse_of_items items whole
  -- Only a last line that nothing is left for keeps the entry from being read.
  refine ⟨fun texts => ?_, fun even => complete ((taken_complete_iff lines).mpr even),
    fun odd => ?_⟩
  · have same := taken_of_texts texts
    rw [same] at complete
    exact complete (List.all_eq_true.mpr texts)
  · have incomplete := mt (taken_complete_iff lines).mp odd
    rw [if_neg incomplete, ← List.singleton_append] at items
    obtain ⟨entries, errors⟩ := parse_of_items items whole
    have placed := locate_select identified named written .variantWithoutValue rest.toList
    rw [← String.toList_append] at placed
    refine ⟨entries.trans (Table.empty_overlay ..), errors.trans ?_⟩
    rw [← placed]
    rfl

/-- A line without a text takes the default for its text. -/
theorem parse_variantLines_default :
    let lines : List VariantLine := [⟨4, false, "x", 0, none⟩, ⟨3, true, "y", 1, some "Y"⟩]
    selectEntry "a" "v" lines = "a = \x7b $v ->\n    [x]\n   *[y] Y\n\x7d\n" ∧
      (Resource.parse (selectEntry "a" "v" lines ++ "")).entries =
        Table.overlay ((∅ : Table Entry).insert "a" (.node (some (.elements [.placeable
          (.select (.variableRef "v") [.mk (.keyword "x") (.text "*[y] Y")] none)])) none))
          (Resource.parse "").entries ∧
      (Resource.parse (selectEntry "a" "v" lines ++ "")).errors =
        (Resource.parse "").errors.map (.behind (selectEntry "a" "v" lines)) := by
  intro lines
  have plain : VariantLine.Plain "Y" :=
    ⟨by decide, by decide, by decide, fun c last => by
      obtain rfl : 'Y' = c := Option.some_inj.mp last
      rfl⟩
  have written : ∀ line ∈ lines, line.WellFormed := by
    intro line member
    obtain rfl | rfl : line = ⟨4, false, "x", 0, none⟩ ∨ line = ⟨3, true, "y", 1, some "Y"⟩ := by
      simpa [lines] using member
    · exact ⟨by decide, by decide, nofun⟩
    · refine ⟨by decide, by decide, fun text held => ?_⟩
      obtain rfl := Option.some_inj.mp held
      exact plain
  have identified : isEntryId "a".toList = true := by decide
  have named : isName "v".toList = true := by decide
  have follows : FollowsEntry "".toList := .inl rfl
  obtain ⟨-, kept, -⟩ :=
    parse_variantLines identified named (List.cons_ne_nil _ _) written follows
  exact ⟨by decide, kept (by decide)⟩

end

end Fluent.Grammar
