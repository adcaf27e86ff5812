import Fluent.Proofs.Indentation
import Fluent.Proofs.LastLine.Resource
import Fluent.Proofs.Translation

/-!
# Flush texts

A store dedents a text before it reads it. A flush text has neither blank lines nor indentation that
its lines share, and loses no more than a line end at its end. The bundle is that of the text
itself, and so are the kinds of the problems, unless the line end tells: that a number sign alone on
the last line is a comment, or what a last placeable lacks.

* `Text.dedent_flush`: a flush text and what is left of it;
* `Bundle.addMessages_congr`, `Bundle.addMessages_kinds`: the bundle and the problems of a text;
* `BundleStore.create_flush`: the bundle that is created from a flush text.
-/

namespace Fluent

/-! ## Lines -/

namespace Text

/-- The text without a line end at its end. -/
def dropLastLineEnd (text : List Char) : List Char :=
  if text.getLast? = some '\n' then text.dropLast else text

/-- A text whose lines are not blank, with one that starts with something else than white space. A
line end at the end of the text starts no further line. -/
structure Flush (text : List Char) : Prop where
  shown : ∀ line ∈ lines (dropLastLineEnd text), isBlankLine line = false
  unindented : ∃ line ∈ lines (dropLastLineEnd text), ∃ c, line.head? = some c ∧
    isWhiteSpace c = false

theorem not_isBlank_of_not_isWhiteSpace {c : Char} (shown : isWhiteSpace c = false) :
    isBlank c = false := by
  by_contra blank
  simp only [isBlank, Bool.not_eq_false, Bool.or_eq_true, beq_iff_eq] at blank
  obtain ((rfl | rfl) | rfl) | rfl := blank <;> exact absurd shown (by decide)

theorem dropLastLineEnd_of_ends {text : List Char} (ends : text.getLast? = some '\n') :
    dropLastLineEnd text ++ ['\n'] = text := by
  rw [dropLastLineEnd, if_pos ends]
  exact List.dropLast_append_getLast? '\n' ends

/-- All that dedenting takes from a flush text is a line end at its end. -/
theorem dedent_flush {text : String} (flush : Flush text.toList) :
    dedent text = String.ofList (dropLastLineEnd text.toList) := by
  obtain ⟨line, member, c, first, visible⟩ := flush.unindented
  have all : (lines (dropLastLineEnd text.toList)).filter (fun line => !isBlankLine line) =
      lines (dropLastLineEnd text.toList) :=
    List.filter_eq_self.mpr fun line member => by simp [flush.shown line member]
  have kept : (lines text.toList).filter (fun line => !isBlankLine line) =
      lines (dropLastLineEnd text.toList) := by
    by_cases ends : text.toList.getLast? = some '\n'
    · conv_lhs => rw [← dropLastLineEnd_of_ends ends, lines_append, List.filter_append, all]
      exact List.append_nil _
    · rwa [dropLastLineEnd, if_neg ends] at all ⊢
  have flat : sharedIndentation (lines (dropLastLineEnd text.toList)) = 0 := by
    obtain ⟨rest, rfl⟩ := List.head?_eq_some_iff.mp first
    refine (sharedIndentation_eq_iff (List.ne_nil_of_mem member)).mpr
      ⟨⟨_, member, indentation_eq_zero visible rest⟩, fun line _ => Nat.zero_le _⟩
  rw [dedent, dedentLines]
  simp only [kept]
  rw [flat, List.map_id'' fun _ => List.drop_zero, ofLines_lines]

/-- The rest of a text behind a line end is not blank, if no line is. -/
theorem Flush.filled {text : List Char} (flush : Flush text) :
    Grammar.LastLine.Filled (dropLastLineEnd text) := by
  rintro rest ⟨front, parts⟩
  have shown := parts ▸ flush.shown
  rw [lines_append] at shown
  obtain ⟨line, member⟩ := List.exists_mem_of_ne_nil _ (lines_ne_nil rest)
  obtain ⟨c, inside, visible⟩ : ∃ c ∈ line, isWhiteSpace c = false := by
    simpa [isBlankLine] using shown line (List.mem_append_right _ member)
  refine ⟨c, ?_, not_isBlank_of_not_isWhiteSpace visible⟩
  rw [← ofLines_lines rest]
  exact mem_intercalate_of_mem member inside

end Text

/-! ## Problems -/

/-- The problem of a fault, at no place. -/
def Problem.ofFault (fault : Grammar.Fault) : Problem := .grammar ⟨fault, 0, 0, 0⟩

/-- What kind a problem is of, its place and its particulars aside. A text has no problems of
evaluation. -/
def Problem.kind : Problem → Problem
  | .overriding _ _ => .overriding .message ""
  | .grammar error => .ofFault error.fault.kind
  | .evaluation problem => .evaluation problem

namespace Bundle

open Grammar (items Item)

variable (locales : List LanguageTag) (options : BundleOptions)

/-- A bundle that is made of a text has the entries of that text. -/
theorem addMessages_congr {source source' : String}
    (same : (Grammar.Resource.parse source).entries = (Grammar.Resource.parse source').entries) :
    ((empty locales options).addMessages source).1 =
      ((empty locales options).addMessages source').1 := by
  simp only [addMessages, addResource, same]

/-- A bundle that is made of a text has the problems that the text has. -/
theorem addMessages_kinds (source : String) :
    ((empty locales options).addMessages source).2.map Problem.kind =
      ((items true source.toList).filterMap Item.faultKind?).map .ofFault := by
  have free : (Grammar.Resource.parse source).entries.keys.filter
      (fun id => ((empty locales options).entryOf? id).isSome) = [] :=
    List.filter_eq_nil_iff.mpr fun id _ => by simp [entryOf_empty]
  rw [addMessages, addResource_problems, free, ← Grammar.Resource.parse_faultKinds]
  simp [Problem.kind, Function.comp_def]

end Bundle

namespace BundleStore

open Grammar (items starts)
open Grammar.LastLine (TurnsInto items_alike)

/-- A line end behind the text tells what its last line is: a number sign alone, or a placeable that
lacks something else in front of a line end than at the end of the text. -/
def LineEndTells (text : List Char) : Prop :=
  ['#'] ∈ starts true text ∨
    ∃ failure fault, .failure failure ∈ items true text ∧ TurnsInto failure fault

/-- The bundle that is created from a flush text has the entries of the text itself. The problems
are of the kinds of those of the text itself, in the same order, unless there is a line end at its
end that tells what the last line is. Where that is a number sign alone, they start with those of
the text itself; where it is a placeable, only the last one is of another kind. -/
theorem create_flush (store : BundleStore) {locale text : String} (space : String)
    {tag : LanguageTag} (parsed : LanguageTag.parse locale = .ok tag)
    (flush : Text.Flush text.toList) :
    let body := Text.dropLastLineEnd text.toList
    let ends := text.toList.getLast? = some '\n'
    let direct := (Bundle.empty [tag] store.options).addMessages text
    ∃ next problems, store.create locale space text = .ok (next, problems) ∧
      next.get? tag.normalized space = some direct.1 ∧
      (¬(ends ∧ LineEndTells body) → problems.map Problem.kind = direct.2.map Problem.kind) ∧
      (ends → ['#'] ∈ starts true body →
        direct.2.map Problem.kind <+: problems.map Problem.kind) ∧
      ∀ failure fault, ends → .failure failure ∈ items true body → TurnsInto failure fault →
        ∃ front, problems.map Problem.kind = front ++ [.ofFault failure.fault.kind] ∧
          direct.2.map Problem.kind = front ++ [.ofFault fault.kind] := by
  intro body ends direct
  have created : store.create locale space text =
      .ok (store.put tag.normalized space
          ((Bundle.empty [tag] store.options).addMessages (String.ofList body)).1,
        ((Bundle.empty [tag] store.options).addMessages (String.ofList body)).2) := by
    simp only [create, parsed, Text.dedent_flush flush]
    rfl
  refine ⟨_, _, created, ?_⟩
  rw [get_put, if_pos ⟨rfl, rfl⟩, Bundle.addMessages_kinds, Bundle.addMessages_kinds,
    String.toList_ofList]
  by_cases lineEnd : ends
  · have split : body ++ ['\n'] = text.toList := Text.dropLastLineEnd_of_ends lineEnd
    have found := items_alike true (.ahead body) flush.filled
    rw [split] at found
    obtain ⟨same, sign, turned⟩ := found.faultKinds
    refine ⟨?_, fun untold => ?_, fun _ signed => ?_, fun failure fault _ member turns => ?_⟩
    · rw [Bundle.addMessages_congr]
      rw [Grammar.Resource.parse_entries, Grammar.Resource.parse_entries, String.toList_ofList,
        found.entries]
    · rw [same.mpr fun told => untold ⟨lineEnd, told⟩]
    · rw [sign signed, List.map_append]
      exact List.prefix_append _ _
    · obtain ⟨front, kinds, kinds'⟩ := turned failure fault member turns
      exact ⟨front.map .ofFault, by rw [kinds, List.map_append]; rfl,
        by rw [kinds', List.map_append]; rfl⟩
  -- Without a line end at its end the text is read as it is.
  · have whole : body = text.toList := if_neg lineEnd
    rw [whole, String.ofList_toList]
    exact ⟨rfl, fun _ => rfl, fun h => absurd h lineEnd, fun _ _ h => absurd h lineEnd⟩

/-- An entry without an equals sign on the last line. -/
theorem create_flush_unfinished :
    let text := "a = b\nc\n"
    let tag : LanguageTag := ⟨"en", ["en"]⟩
    LanguageTag.parse "en" = .ok tag ∧ Text.Flush text.toList ∧
      ¬LineEndTells (Text.dropLastLineEnd text.toList) ∧
      ∃ next problems, (withOptions {} {}).create "en" "app" text = .ok (next, problems) ∧
        next.get? "en" "app" = some ((Bundle.empty [tag] {}).addMessages text).1 ∧
        problems.map Problem.kind = [.ofFault (.expectedToken ' ')] := by
  intro text tag
  have parsed : LanguageTag.parse "en" = .ok tag := by cbv
  have flush : Text.Flush text.toList := ⟨by decide, "a = b".toList, by decide, 'a', by decide⟩
  have attempts : starts true (Text.dropLastLineEnd text.toList) =
      ["a = b\nc".toList, "c".toList] := by cbv
  have found : items true (Text.dropLastLineEnd text.toList) =
      [.entry "a" (.text "b"), .failure ⟨.expectedToken '=', []⟩] := by cbv
  have untold : ¬LineEndTells (Text.dropLastLineEnd text.toList) := by
    rintro (signed | ⟨failure, fault, member, turned⟩)
    · simp [attempts] at signed
    · obtain rfl : failure = ⟨.expectedToken '=', []⟩ := by simpa [found] using member
      cases turned
  have errors : ((Bundle.empty [tag] {}).addMessages text).2.map Problem.kind =
      [.ofFault (.expectedToken ' ')] := by cbv
  obtain ⟨next, problems, created, made, same, -⟩ :=
    create_flush (withOptions {} {}) "app" parsed flush
  exact ⟨parsed, flush, untold, next, problems, created, made,
    (same fun told => untold told.2).trans errors⟩

/-- A select expression that ends behind its arrow lacks its variants in front of a line end, and
the line end itself without one. -/
theorem create_flush_arrow :
    let text := "a = \x7b $x ->\n"
    let tag : LanguageTag := ⟨"en", ["en"]⟩
    LanguageTag.parse "en" = .ok tag ∧ Text.Flush text.toList ∧
      ((Bundle.empty [tag] {}).addMessages text).2.map Problem.kind = [.ofFault .missingVariants] ∧
      ∃ next problems, (withOptions {} {}).create "en" "app" text = .ok (next, problems) ∧
        problems.map Problem.kind = [.ofFault .variantsOnNewLine] := by
  intro text tag
  have parsed : LanguageTag.parse "en" = .ok tag := by cbv
  have flush : Text.Flush text.toList :=
    ⟨by decide, "a = \x7b $x ->".toList, by decide, 'a', by decide⟩
  refine ⟨parsed, flush, by cbv, ?_⟩
  simp only [create, parsed]
  exact ⟨_, _, rfl, by cbv⟩

end BundleStore

end Fluent
