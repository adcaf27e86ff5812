import Fluent.Proofs.Braces.Token

/-!
# Lines inside a pair of braces

A variant ends in front of a line, and which one it is does not depend on what stands behind the
braces. To the scan, a line goes on with the text of a variant or it is code again.

* `LineStart`, `dropBlankLines_close`: the blank lines inside a pair of braces;
* `AsText`: what follows is scanned as text;
* `Ended`: what follows is scanned as code, as a line starts there that ends a variant.
-/

namespace Fluent.Grammar.Braces

open Fluent.Grammar.Parser Fluent.Text.Reader

variable {k : Nat} {m m' : Mode} {ms : List Mode} {body rest run : List Char} {c : Char}
  {first : Bool}

/-! ## Blank lines -/

/-- The line that starts here is not blank. -/
def LineStart (body : List Char) : Prop :=
  ahead (body.dropWhile Text.isInlineBlank) ≠ '\n' ∧
    ¬(ahead (body.dropWhile Text.isInlineBlank) = '\r' ∧
      ahead (body.dropWhile Text.isInlineBlank).tail = '\n')

/-- A line on which all was blank so far. -/
def OnLine (first : Bool) (m : Mode) : Prop := ∃ indented, m = .line first indented

theorem isInlineBlank_cases (inline : Text.isInlineBlank c = true) : c = ' ' ∨ c = '\t' := by
  simpa [Text.isInlineBlank] using inline

theorem move_inlineBlank (inline : Text.isInlineBlank c = true) (indented : Option Bool) :
    (Mode.line first indented).move c =
      some (.stay (.line first (some (indented.getD (c = ' '))))) := by
  obtain rfl | rfl := isInlineBlank_cases inline <;> rfl

theorem stays_line (first : Bool) : Stays (OnLine first) Text.isInlineBlank := by
  rintro c inline _ ⟨indented, rfl⟩
  exact ⟨_, ⟨_, rfl⟩, move_inlineBlank inline indented⟩

/-- Whether a line is indented is known behind its indentation. -/
theorem walks_indentation (first : Bool) (body : List Char) :
    ∃ indented, Walks 0 (.line first none) (body.takeWhile Text.isInlineBlank)
      [.line first indented] ∧ (indented = some true ↔ ahead body = ' ') := by
  cases body with
  | nil => exact ⟨none, walks_nil, by simp⟩
  | cons c body =>
    by_cases inline : Text.isInlineBlank c = true
    · have known (indented : Bool) :
          Stays (· = .line first (some indented)) Text.isInlineBlank := by
        rintro c inline _ rfl
        exact ⟨_, rfl, move_inlineBlank inline _⟩
      obtain ⟨_, rfl, walks⟩ := (known (c = ' ')).walks_takeWhile rfl body
      refine ⟨some (decide (c = ' ')), ?_, by simp⟩
      rw [List.takeWhile_cons_of_pos inline]
      exact (walks_stay (move_inlineBlank inline none)).append walks
    · refine ⟨none, ?_, ?_⟩
      · rw [List.takeWhile_cons_of_neg inline]
        exact walks_nil
      · refine iff_of_false nofun ?_
        rintro rfl
        exact inline rfl

theorem walks_blankLine (inline : ∀ c ∈ run, Text.isInlineBlank c = true) :
    Walks 0 (.line first none) (run ++ ['\n']) [.line first none] ∧
      Walks 0 (.line first none) (run ++ ['\r', '\n']) [.line first none] := by
  obtain ⟨_, ⟨indented, rfl⟩, walks⟩ := (stays_line first).walks inline ⟨none, rfl⟩
  have back : Walks 0 (.line first indented) ['\r'] [.lineReturn first (indented.getD false)] :=
    walks_stay rfl
  exact ⟨walks.append (walks_stay rfl), walks.append (back.append (walks_stay rfl))⟩

theorem dropBlankLinesFrom_inline (inline : Text.isInlineBlank c = true)
    (lineStart text : List Char) :
    dropBlankLinesFrom lineStart (c :: text) = dropBlankLinesFrom lineStart text := by
  obtain rfl | rfl := isInlineBlank_cases inline <;> rfl

/-- A line that is not blank is not dropped. -/
theorem dropBlankLinesFrom_stop {front : List Char}
    (inline : ∀ c ∈ front, Text.isInlineBlank c = true)
    (other : Text.isInlineBlank (ahead body) = false) (lineFeed : ahead body ≠ '\n')
    (crlf : ¬(ahead body = '\r' ∧ ahead body.tail = '\n')) :
    LineStart (front ++ body) ∧ ∀ frame : Frame,
      dropBlankLinesFrom (frame.close (front ++ body)) (frame.close body) =
        frame.close (front ++ body) := by
  constructor
  · have whole : body.dropWhile Text.isInlineBlank = body := by
      cases body with
      | nil => rfl
      | cons c body => exact List.dropWhile_cons_of_neg (by simpa using other)
    rw [LineStart, List.dropWhile_append_of_pos inline, whole]
    exact ⟨lineFeed, crlf⟩
  · intro frame
    cases body with
    | nil => rfl
    | cons c body =>
      rw [ahead_cons] at other lineFeed crlf
      generalize frame.close (front ++ c :: body) = lineStart
      rw [close_cons, dropBlankLinesFrom.eq_def]
      split <;> rename_i same
      · exact absurd ((List.cons.inj same).1 ▸ other) (by decide)
      · exact absurd ((List.cons.inj same).1 ▸ other) (by decide)
      · exact absurd (List.cons.inj same).1 lineFeed
      · obtain ⟨rfl, behind⟩ := List.cons.inj same
        refine (crlf ⟨rfl, ?_⟩).elim
        rw [List.tail_cons, ← Option.some_inj, ← head?_close frame, behind, List.head?_cons]
      · rfl

/-- Blank lines inside a pair of braces are dropped alike in all frames. -/
theorem dropBlankLinesFrom_close (first : Bool) (front body : List Char)
    (inline : ∀ c ∈ front, Text.isInlineBlank c = true) :
    ∃ run rest, front ++ body = run ++ rest ∧ LineStart rest ∧
      Walks 0 (.line first none) run [.line first none] ∧
      ∀ frame : Frame, dropBlankLinesFrom (frame.close (front ++ body)) (frame.close body) =
        frame.close rest := by
  induction hn : body.length using Nat.strongRecOn generalizing front body with
  | ind n ih =>
    subst hn
    by_cases blank : Text.isInlineBlank (ahead body) = true
    · obtain ⟨next, parts⟩ := exists_cons_of_ne body fun same => by
        rw [same] at blank
        exact absurd blank (by decide)
      generalize ahead body = c at blank parts
      subst parts
      have inline' : ∀ d ∈ front ++ [c], Text.isInlineBlank d = true := by
        intro d member
        obtain member | member := List.mem_append.mp member
        · exact inline d member
        · exact List.mem_singleton.mp member ▸ blank
      obtain ⟨run, rest, parts, start, walks, all⟩ :=
        ih next.length (Nat.lt_succ_self _) (front ++ [c]) next inline' rfl
      rw [← List.append_cons] at parts all
      refine ⟨run, rest, parts, start, walks, fun frame => ?_⟩
      rw [close_cons, dropBlankLinesFrom_inline blank]
      exact all frame
    by_cases lineFeed : ahead body = '\n'
    · obtain ⟨next, rfl⟩ := exists_cons_of_ahead lineFeed (by decide)
      obtain ⟨run, rest, parts, start, walks, all⟩ :=
        ih next.length (Nat.lt_succ_self _) [] next nofun rfl
      rw [List.nil_append] at parts all
      exact ⟨front ++ ['\n'] ++ run, rest, by simp [parts], start,
        (walks_blankLine inline).1.append walks, all⟩
    by_cases crlf : ahead body = '\r' ∧ ahead body.tail = '\n'
    · obtain ⟨body, rfl⟩ := exists_cons_of_ahead crlf.1 (by decide)
      obtain ⟨next, rfl⟩ := exists_cons_of_ahead crlf.2 (by decide)
      obtain ⟨run, rest, parts, start, walks, all⟩ :=
        ih next.length (by rw [List.length_cons, List.length_cons]; omega) [] next nofun rfl
      rw [List.nil_append] at parts all
      exact ⟨front ++ ['\r', '\n'] ++ run, rest, by simp [parts], start,
        (walks_blankLine inline).2.append walks, all⟩
    · obtain ⟨start, all⟩ :=
        dropBlankLinesFrom_stop inline (Bool.eq_false_iff.mpr blank) lineFeed crlf
      exact ⟨[], front ++ body, rfl, start, walks_nil, all⟩

theorem dropBlankLines_close (first : Bool) (body : List Char) :
    ∃ run rest, body = run ++ rest ∧ LineStart rest ∧
      Walks 0 (.line first none) run [.line first none] ∧
      ∀ frame : Frame, dropBlankLines (frame.close body) = frame.close rest :=
  dropBlankLinesFrom_close first [] body nofun

/-! ## Text -/

/-- What follows is scanned as text up to the next character with a meaning to it. -/
def AsText (m : Mode) (body : List Char) : Prop :=
  ∀ run rest, body = run ++ rest → (∃ c ∈ run, isPatternChar c = false) →
    ∀ k ms, Walks k .text run ms → Walks k m run ms

/-- A line starts here that ends a variant. `first` as in `Mode.line`. -/
def Ended (m : Mode) (rest : List Char) : Prop :=
  ∃ first, m = .line first none ∧ LineStart rest ∧
    (ahead rest = ' ' → endsLine first (ahead (rest.dropWhile Text.isInlineBlank)) = true)

theorem stays_text : Stays (· = .text) isPatternChar := by
  rintro c plain _ rfl
  simp only [isPatternChar, Bool.and_eq_true, bne_iff_ne, ne_eq] at plain
  exact ⟨_, rfl, by simp [Mode.move, textMove, plain]⟩

theorem isPatternChar_of_isBlank (blank : Text.isBlank c = true) (other : c ≠ '\n') :
    isPatternChar c = true := by
  simp only [Text.isBlank, Bool.or_eq_true, beq_iff_eq, other, or_false] at blank
  obtain (rfl | rfl) | rfl := blank <;> rfl

theorem asText_text (body : List Char) : AsText .text body :=
  fun _ _ _ _ _ _ => id

/-- Behind the key of a variant text starts with the first line that is not blank. -/
theorem asText_value (filled : ∃ c ∈ body.takeWhile (· != '\n'), Text.isBlank c = false) :
    AsText .value body := by
  induction body with
  | nil => simp at filled
  | cons c body ih =>
    intro run rest parts special k ms walks
    obtain ⟨d, member, special⟩ := special
    cases run with
    | nil => cases member
    | cons c' run =>
      obtain ⟨rfl, behind⟩ := List.cons.inj parts
      obtain rfl | other := eq_or_ne c '\n'
      · simp at filled
      by_cases blank : Text.isBlank c = true
      · -- Blank characters keep the mode, and text as well.
        have plain := isPatternChar_of_isBlank blank other
        obtain ⟨_, rfl, move⟩ := stays_text c plain .text rfl
        have stays : Mode.value.move c = some (.stay .value) := by simp [Mode.move, other, blank]
        refine (walks_cons_stay stays).mpr ?_
        refine ih ?_ run rest behind ⟨d, ?_, special⟩ k ms ((walks_cons_stay move).mp walks)
        · simpa [other, blank] using filled
        · refine (List.mem_cons.mp member).resolve_left fun same => ?_
          simp [← same, special] at plain
      · exact walks.of_move (by simp [Mode.move, other, blank])

/-- Behind its indentation an indented line that ends no variant is text. -/
theorem asText_line (start : LineStart body)
    (continues : endsLine first (ahead (body.dropWhile Text.isInlineBlank)) = false) :
    AsText (.line first (some true)) (body.dropWhile Text.isInlineBlank) := by
  have inline := ahead_dropWhile (p := Text.isInlineBlank) rfl body
  intro run rest parts special k ms walks
  obtain ⟨d, member, special⟩ := special
  rw [LineStart, parts] at start
  rw [parts] at inline continues
  cases run with
  | nil => cases member
  | cons c run =>
    rw [List.cons_append, ahead_cons] at inline continues
    rw [List.cons_append, ahead_cons, List.tail_cons] at start
    have lineFeed : c ≠ '\n' := start.1
    obtain rfl | other := eq_or_ne c '\r'
    · -- A carriage return that ends no line waits for the next character.
      have waits :
          (Mode.line first (some true)).move '\r' = some (.stay (.lineReturn first true)) := rfl
      have plain : Mode.text.move '\r' = some (.stay .text) := rfl
      refine (walks_cons_stay waits).mpr ?_
      rw [walks_cons_stay plain] at walks
      cases run with
      | nil => exact absurd (List.mem_singleton.mp member ▸ special) (by decide)
      | cons c run =>
        have lineFeed : c ≠ '\n' := fun here => start.2 ⟨rfl, here⟩
        exact walks.of_move (by simp [Mode.move, lineFeed])
    · exact walks.of_move (by simp [Mode.move, lineFeed, other, inline, continues])

end Fluent.Grammar.Braces
