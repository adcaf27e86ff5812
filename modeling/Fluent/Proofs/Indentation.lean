import Mathlib.Data.List.TakeWhile
import Mathlib.Order.Basic
import Fluent.Proofs.Separators
import Fluent.Text.Dedent

/-!
# Indentation is undone

Dedenting takes away what indenting adds. Lines that start where they should are left as they are,
however far all of them are indented, with whatever white space, and whatever blank lines stand
between them; so a dedented text is left as it is.

* `lines_ofLines`, `ofLines_lines`: texts and their lines;
* `Indented`: lines as they are and as they stand in an indented text;
* `Indented.dedentLines`: dedenting the one gives the other;
* `dedent_undoes`: the same of texts, and that dedenting twice is dedenting once.
-/

namespace Fluent.Text

/-! ## Lines -/

theorem lines_eq_splitOn (text : List Char) : lines text = text.splitOn '\n' :=
  pieces_eq_splitOn '\n' text

theorem ofLines_lines (text : List Char) : ofLines (lines text) = text := by
  rw [ofLines, lines_eq_splitOn]
  exact List.intercalate_splitOn '\n'

theorem lines_ne_nil (text : List Char) : lines text ≠ [] := by
  rw [lines_eq_splitOn]
  exact List.splitOn_ne_nil '\n' text

theorem lines_append (front rest : List Char) :
    lines (front ++ '\n' :: rest) = lines front ++ lines rest := by
  simp only [lines_eq_splitOn]
  exact List.splitOn_append_cons_self front rest

theorem lines_ofLines {some : List (List Char)} (nonempty : some ≠ [])
    (single : ∀ line ∈ some, '\n' ∉ line) : lines (ofLines some) = some := by
  rw [lines_eq_splitOn, ofLines]
  exact List.splitOn_intercalate '\n' single nonempty

theorem lineFeed_not_mem_line {text line : List Char} (member : line ∈ lines text) :
    '\n' ∉ line := fun inside => by
  simpa using not_mem_piece member _ inside

/-! ## Indentation -/

theorem indentation_append {indent : List Char} (white : isBlankLine indent = true)
    (line : List Char) : indentation (indent ++ line) = indent.length + indentation line := by
  rw [indentation, List.takeWhile_append_of_pos (List.all_eq_true.mp white), List.length_append]
  rfl

theorem isBlankLine_append (front line : List Char) :
    isBlankLine (front ++ line) = (isBlankLine front && isBlankLine line) :=
  List.all_append

theorem indentation_eq_zero {c : Char} (shown : isWhiteSpace c = false) (rest : List Char) :
    indentation (c :: rest) = 0 := by
  rw [indentation, List.takeWhile_cons_of_neg (by simp [shown]), List.length_nil]

/-- What lines share is the indentation of the least indented one. -/
theorem sharedIndentation_eq_iff {all : List (List Char)} {n : Nat} (nonempty : all ≠ []) :
    sharedIndentation all = n ↔
      (∃ line ∈ all, indentation line = n) ∧ ∀ line ∈ all, n ≤ indentation line := by
  obtain ⟨least, found⟩ : ∃ least, (all.map indentation).min? = some least :=
    Option.isSome_iff_exists.mp (by simpa using nonempty)
  have shared : sharedIndentation all = n ↔ (all.map indentation).min? = some n := by
    rw [sharedIndentation, found, Option.getD_some, Option.some_inj]
  rw [shared, List.min?_eq_some_iff, List.mem_map]
  simp only [List.forall_mem_map]

/-- White space that a line starts with may be taken from it. -/
theorem drop_indentation {n : Nat} {line : List Char} (within : n ≤ indentation line) :
    isBlankLine (line.drop n) = isBlankLine line ∧
      indentation (line.drop n) = indentation line - n := by
  have white : isBlankLine (line.take n) = true := by
    have front : line.take n = (line.takeWhile isWhiteSpace).take n := by
      conv_lhs => rw [← List.takeWhile_append_dropWhile (p := isWhiteSpace) (l := line)]
      exact List.take_append_of_le_length within
    rw [front]
    exact List.all_eq_true.mpr fun c member => List.mem_takeWhile_imp (List.mem_of_mem_take member)
  have length : (line.take n).length = n :=
    List.length_take_of_le (within.trans (List.takeWhile_prefix _).length_le)
  have blank := isBlankLine_append (line.take n) (line.drop n)
  have shift := indentation_append white (line.drop n)
  rw [List.take_append_drop] at blank shift
  rw [white, Bool.true_and] at blank
  exact ⟨blank.symm, by omega⟩

/-! ## Indented lines -/

/-- Lines as they are, and as they stand in a text that indents each of them by so many white-space
characters of its own, with blank lines anywhere between them. -/
inductive Indented (n : Nat) : List (List Char) → List (List Char) → Prop
  | nil : Indented n [] []
  | blank {line : List Char} {bare shown : List (List Char)} (white : isBlankLine line = true)
    (single : '\n' ∉ line) (others : Indented n bare shown) : Indented n bare (line :: shown)
  | line {indent line : List Char} {bare shown : List (List Char)} (length : indent.length = n)
    (white : isBlankLine indent = true) (single : '\n' ∉ indent) (others : Indented n bare shown) :
    Indented n (line :: bare) ((indent ++ line) :: shown)

/-- Lines that a dedented text is made of: none is blank, and one at least is not indented. -/
structure Bare (bare : List (List Char)) : Prop where
  shown : ∀ line ∈ bare, isBlankLine line = false
  single : ∀ line ∈ bare, '\n' ∉ line
  flush : ∃ line ∈ bare, indentation line = 0

variable {n : Nat} {bare shown : List (List Char)}

theorem Indented.single (indented : Indented n bare shown) (single : ∀ line ∈ bare, '\n' ∉ line) :
    ∀ line ∈ shown, '\n' ∉ line := by
  induction indented with
  | nil => nofun
  | blank white alone others ih => exact List.forall_mem_cons.mpr ⟨alone, ih single⟩
  | line length white alone others ih =>
    obtain ⟨first, single⟩ := List.forall_mem_cons.mp single
    refine List.forall_mem_cons.mpr ⟨fun inside => ?_, ih single⟩
    exact (List.mem_append.mp inside).elim alone first

/-- The lines that are kept are the indented ones. -/
theorem Indented.kept (indented : Indented n bare shown)
    (visible : ∀ line ∈ bare, isBlankLine line = false) :
    (shown.filter fun line => !isBlankLine line).map indentation =
        bare.map (fun line => n + indentation line) ∧
      (shown.filter fun line => !isBlankLine line).map (List.drop n) = bare := by
  induction indented with
  | nil => exact ⟨rfl, rfl⟩
  | blank white alone others ih =>
    rw [List.filter_cons_of_neg (by simp [white])]
    exact ih visible
  | @line indent line bare shown length white alone others ih =>
    obtain ⟨first, visible⟩ := List.forall_mem_cons.mp visible
    have kept : isBlankLine (indent ++ line) = false := by
      rw [isBlankLine_append, first, Bool.and_false]
    rw [List.filter_cons_of_pos (by simp [kept])]
    obtain ⟨depths, lines⟩ := ih visible
    constructor
    · rw [List.map_cons, List.map_cons, depths, indentation_append white, length]
    · rw [List.map_cons, lines, ← length, List.drop_left]

/-- Dedenting indented lines leaves the lines themselves. -/
theorem Indented.dedentLines (indented : Indented n bare shown) (lines : Bare bare) :
    dedentLines shown = bare := by
  obtain ⟨depths, drop⟩ := indented.kept lines.shown
  obtain ⟨line, member, unindented⟩ := lines.flush
  have least : ((bare.map fun line => n + indentation line)).min? = some n := by
    refine List.min?_eq_some_iff.mpr ⟨List.mem_map.mpr ⟨line, member, by omega⟩, ?_⟩
    exact List.forall_mem_map.mpr fun _ _ => Nat.le_add_right n _
  simp only [Text.dedentLines, sharedIndentation, depths, least, Option.getD_some, drop]

/-- Lines are indented by nothing. -/
theorem indented_self (bare : List (List Char)) : Indented 0 bare bare := by
  induction bare with
  | nil => exact .nil
  | cons line bare ih => exact @Indented.line 0 [] line bare bare rfl rfl nofun ih

/-- Dedenting leaves bare lines, if any. -/
theorem bare_dedentLines {all : List (List Char)} (single : ∀ line ∈ all, '\n' ∉ line)
    (nonempty : dedentLines all ≠ []) : Bare (dedentLines all) := by
  simp only [dedentLines] at nonempty ⊢
  generalize kept : all.filter (fun line => !isBlankLine line) = lines at nonempty ⊢
  have some : lines ≠ [] := fun none => nonempty (by rw [none]; rfl)
  obtain ⟨⟨least, member, attained⟩, bound⟩ := (sharedIndentation_eq_iff some).mp rfl
  have visible : ∀ line ∈ lines, isBlankLine line = false ∧ '\n' ∉ line := fun line member => by
    obtain ⟨isThere, shown⟩ := List.mem_filter.mp (kept ▸ member)
    exact ⟨by simpa using shown, single line isThere⟩
  constructor
  case shown =>
    refine List.forall_mem_map.mpr fun line member => ?_
    rw [(drop_indentation (bound line member)).1, (visible line member).1]
  case single =>
    refine List.forall_mem_map.mpr fun line member inside => ?_
    exact (visible line member).2 (List.mem_of_mem_drop inside)
  case flush =>
    refine ⟨_, List.mem_map_of_mem member, ?_⟩
    rw [(drop_indentation (bound least member)).2, attained, Nat.sub_self]

/-! ## Indented texts -/

theorem dedent_ofLines (nonempty : shown ≠ []) (single : ∀ line ∈ shown, '\n' ∉ line) :
    dedent (String.ofList (ofLines shown)) = String.ofList (ofLines (dedentLines shown)) := by
  rw [dedent, String.toList_ofList, lines_ofLines nonempty single]

/-- Dedenting an indented text leaves the text of the lines themselves. -/
theorem Indented.dedent (indented : Indented n bare shown) (lines : Bare bare) :
    dedent (String.ofList (ofLines shown)) = String.ofList (ofLines bare) := by
  have some : shown ≠ [] := by
    rintro rfl
    cases indented
    exact nomatch lines.flush
  rw [dedent_ofLines some (indented.single lines.single), indented.dedentLines lines]

/-- **Dedenting.** Lines that are not blank, of which one at least starts with something else than
white space, are what dedenting leaves of a text that indents them all by equally many white-space
characters, whichever they are, and holds blank lines anywhere between them. What is dedented stays
as it is. -/
theorem dedent_undoes :
    (∀ (n : Nat) (bare shown : List (List Char)),
      (∀ line ∈ bare, isBlankLine line = false ∧ '\n' ∉ line) →
      (∃ line ∈ bare, ∃ c, line.head? = some c ∧ isWhiteSpace c = false) →
      Indented n bare shown →
        dedent (String.ofList (ofLines shown)) = String.ofList (ofLines bare)) ∧
    ∀ text, dedent (dedent text) = dedent text := by
  constructor
  · intro n bare shown lines flush indented
    refine indented.dedent ⟨fun line member => (lines line member).1,
      fun line member => (lines line member).2, ?_⟩
    obtain ⟨line, member, c, starts, visible⟩ := flush
    obtain ⟨rest, rfl⟩ := List.head?_eq_some_iff.mp starts
    exact ⟨_, member, indentation_eq_zero visible rest⟩
  · intro text
    rw [dedent.eq_def text]
    by_cases none : dedentLines (lines text.toList) = []
    · rw [none]
      rfl
    · have lines := bare_dedentLines (fun _ => lineFeed_not_mem_line) none
      exact (indented_self _).dedent lines

/-- Two lines, indented by a tab and by a no-break space, with a blank line between them. -/
theorem dedent_undoes_mixed :
    let bare := ["a = A".toList, " .b = B\r".toList]
    let shown := ["\ta = A".toList, "  \r".toList, "\u00a0 .b = B\r".toList]
    Indented 1 bare shown ∧
      dedent (String.ofList (ofLines shown)) = String.ofList (ofLines bare) := by
  intro bare shown
  have second : Indented 1 [" .b = B\r".toList] ["\u00a0 .b = B\r".toList] :=
    @Indented.line 1 ['\u00a0'] _ _ _ rfl rfl (by decide) .nil
  have indented : Indented 1 bare shown :=
    @Indented.line 1 ['\t'] _ _ _ rfl rfl (by decide) (.blank rfl (by decide) second)
  have visible : ∀ line ∈ bare, isBlankLine line = false ∧ '\n' ∉ line := by
    simpa [bare] using ⟨rfl, rfl⟩
  exact ⟨indented, dedent_undoes.1 1 bare shown visible ⟨_, List.mem_cons_self, 'a', rfl, rfl⟩
    indented⟩

end Fluent.Text
