import Fluent.Proofs.Pattern
import Fluent.Proofs.Rendering.Token

/-!
# Written patterns are read back

The parts of a pattern are read in order, and the pattern ends in front of a line that does not go
on with it.

* `Draft.add_parts`: what is read of the parts of a pattern is these parts;
* `iterate_parts`: the parts are read in rounds;
* `pattern_text`, `pattern_elements`: a pattern is read back.
-/

namespace Fluent.Grammar

open Fluent.Grammar.Parser Fluent.Text.Reader

/-- A text in front of which a pattern ends: a line that is not blank, and that is not indented or
starts with what ends a pattern. -/
structure EndsLine (tail : List Char) : Prop where
  unblank : dropBlankLines tail = tail
  indented : tail.head? = some ' ' →
    (tail.dropWhile Text.isInlineBlank).head?.any endsPattern = true

/-- The placeables of a pattern are read back. -/
def ReadsParts (placeable : Parser Expression) (parts : List Element) : Prop :=
  ∀ expression, .placeable expression ∈ parts →
    ∀ tail, placeable (braced expression.render ++ tail) = .ok (expression, tail)

namespace Draft

/-- The draft with one more part of a pattern. -/
def add (draft : Draft) : Element → Draft
  | .text text => draft.push text.toList
  | .placeable expression => draft.place expression

/-- The draft of some parts; the text at their end is not closed. -/
def ofParts (parts : List Element) : Draft :=
  match parts.getLast? with
  | some (.text text) => ⟨parts.dropLast, text.toList⟩
  | _ => ⟨parts, []⟩

theorem add_text {parts : List Element} {text : String}
    (h : ∀ other, parts.getLast? ≠ some (.text other)) :
    (ofParts parts).add (.text text) = ofParts (parts ++ [.text text]) := by
  have hp : ofParts parts = ⟨parts, []⟩ := by
    rw [ofParts]
    split
    · exact absurd ‹_› (h _)
    · rfl
  rw [hp, ofParts, List.getLast?_concat, List.dropLast_concat]
  rfl

theorem add_placeable {parts : List Element} {expression : Expression}
    (h : ∀ text, .text text ∈ parts → text ≠ "") :
    (ofParts parts).add (.placeable expression) = ofParts (parts ++ [.placeable expression]) := by
  have hclose : (ofParts parts).close = ⟨parts, []⟩ := by
    rw [ofParts]
    split
    · rename_i text hl
      have hne : text.toList.isEmpty = false := by
        simpa using h text (List.mem_of_getLast? hl)
      rw [close, hne, if_neg Bool.false_ne_true, String.ofList_toList]
      simp only [List.dropLast_append_getLast? _ hl]
    · rfl
  rw [add, place, hclose, ofParts, List.getLast?_concat]

theorem add_parts {parts : List Element} (front : List Element)
    (ha : ∀ text next, ¬[.text text, .text next] <:+: front ++ parts)
    (ht : ∀ text, .text text ∈ front ++ parts → text ≠ "") :
    parts.foldl add (ofParts front) = ofParts (front ++ parts) := by
  induction parts generalizing front with
  | nil => rw [List.append_nil]; rfl
  | cons part parts ih =>
    have hstep : (ofParts front).add part = ofParts (front ++ [part]) := by
      cases part with
      | text text =>
        refine add_text fun other hl => ?_
        obtain ⟨init, rfl⟩ := List.getLast?_eq_some_iff.mp hl
        exact ha other text ⟨init, parts, by simp⟩
      | placeable expression =>
        exact add_placeable fun text hm => ht text (List.mem_append_left _ hm)
    rw [List.foldl_cons, hstep, ih (front ++ [part]), List.append_assoc]
    · rfl
    · simpa using ha
    · simpa using ht

theorem finish_text {text : String} (h : EndsPattern text) :
    (ofParts [.text text]).finish = some (.text text) := by
  have hne : text.toList.isEmpty = false := by simpa using h.nonempty
  have hb : Text.dropEndWhile Text.isBlank text.toList = text.toList := dropEndWhile_eq_self h.last
  change finish ⟨[], text.toList⟩ = _
  rw [finish, isEmpty]
  simp only [hne, hb, List.isEmpty_nil, Bool.and_false, Bool.false_eq_true, if_false, if_true,
    String.ofList_toList]

theorem finish_ofParts {parts : List Element} (h : PartsWellFormed parts) :
    (ofParts parts).finish = some (.elements parts) := by
  have hparts : parts ≠ [] := by
    rintro rfl
    exact absurd h.placed (Nat.lt_irrefl 0)
  rw [ofParts]
  split
  · rename_i text hl
    obtain ⟨init, rfl⟩ := List.getLast?_eq_some_iff.mp hl
    have hinit : init.isEmpty = false := by
      refine Bool.eq_false_iff.mpr fun he => ?_
      obtain rfl := List.isEmpty_iff.mp he
      exact absurd h.placed (Nat.lt_irrefl 0)
    have hend := h.last text hl
    have hne : text.toList.isEmpty = false := by simpa using hend.nonempty
    have hb : Text.dropEndWhile Text.isBlank text.toList = text.toList :=
      dropEndWhile_eq_self hend.last
    rw [List.dropLast_concat, finish, isEmpty]
    simp only [hne, hb, hinit, Bool.and_false, Bool.false_eq_true, if_false, String.ofList_toList]
  · have hne : parts.isEmpty = false := by simpa using hparts
    rw [finish, isEmpty]
    simp only [hne, Bool.false_and, Bool.false_eq_true, if_false, Text.dropEndWhile,
      List.reverse_nil, List.dropWhile_nil, List.isEmpty_nil, if_true]

theorem placeables_push (draft : Draft) (text : List Char) :
    (draft.push text).placeables = draft.placeables := rfl

theorem placeables_place (draft : Draft) (expression : Expression) :
    (draft.place expression).placeables = draft.placeables + 1 := by
  have hc : draft.close.placeables = draft.placeables := by
    rw [close]
    split
    · rfl
    · rw [placeables, List.countP_append]
      rfl
  rw [place, placeables, List.countP_append]
  exact congrArg (· + 1) hc

end Draft

section

variable {placeable : Parser Expression} {draft : Draft} {run tail : List Char}

theorem patternRound_spelled {c : Char} (hrun : run.all isPatternChar = true)
    (hc : CanEscape ['{', '\\'] c) :
    patternRound placeable draft (run ++ (escaped c ++ tail)) =
      .ok (.again (draft.push (run ++ [c])), tail) := by
  obtain ⟨form, he⟩ := escaped_cons c
  have hhead : (escaped c ++ tail).head?.any isPatternChar = false := by rw [he]; rfl
  have hx := hc tail
  rw [he, List.cons_append] at hx hhead ⊢
  rw [patternRound_escape (dropWhile_run hrun hhead), takeWhile_run hrun hhead]
  exact bind_ok hx _

theorem patternRound_ends (hrun : run.all isPatternChar = true) (hr : run.getLast? ≠ some '\r')
    (ht : EndsLine tail) :
    patternRound placeable draft (run ++ '\n' :: tail) = .ok (.done (draft.push run), tail) := by
  rw [patternRound_lineEnd (dropWhile_run hrun rfl), takeWhile_run hrun rfl, withoutReturn,
    if_neg hr, nextLine_cons]
  simp only [ht.unblank]
  split
  · rw [if_pos (ht.indented ‹_›)]
  · rfl

theorem patternRound_places {expression : Expression} (hrun : run.all isPatternChar = true)
    (hcount : draft.placeables < mostPlaceables)
    (hreads : placeable (braced expression.render ++ tail) = .ok (expression, tail)) :
    patternRound placeable draft (run ++ (braced expression.render ++ tail)) =
      .ok (.again ((draft.push run).place expression), tail) := by
  rw [braced, List.cons_append, List.cons_append] at hreads ⊢
  rw [patternRound_placeable (dropWhile_run hrun rfl), takeWhile_run hrun rfl,
    if_neg (Nat.not_le.mpr hcount)]
  exact bind_ok hreads _

theorem canEscape_of_not_isPatternChar {c : Char} (hc : isPatternChar c = false) :
    CanEscape ['{', '\\'] c := by
  simp only [isPatternChar, Bool.and_eq_false_iff, bne_eq_false_iff_eq, or_assoc] at hc
  obtain rfl | rfl | rfl := hc <;> exact fun tail => rfl

/-- A spelled text is read up to its last plain characters. -/
theorem iterate_patternRound {form text : List Char}
    (hs : Spells isPatternChar ['{', '\\'] form text) :
    ∃ front last, text = front ++ last ∧ last.all isPatternChar = true ∧
      ∀ tail, iterate (patternRound placeable) draft (form ++ tail) =
        iterate (patternRound placeable) (draft.push front) (last ++ tail) :=
  iterate_spells Draft.push_nil Draft.push_push (fun _ _ _ _ => patternRound_spelled) hs draft []
    rfl

/-- The parts of a pattern are read up to the end of its last line; `form` is text in front of them
that is read with them. -/
theorem iterate_parts {parts : List Element} (hreads : ReadsParts placeable parts)
    (ht : EndsLine tail) {form text : List Char}
    (hs : Spells isPatternChar ['{', '\\'] form text)
    (hcount : draft.placeables + parts.countP Element.isPlaceable ≤ mostPlaceables)
    (hr : (parts.foldl Draft.add (draft.push text)).buffer.getLast? ≠ some '\r') :
    iterate (patternRound placeable) draft (form ++ (renderParts parts ++ '\n' :: tail)) =
      .ok (parts.foldl Draft.add (draft.push text), tail) := by
  induction parts generalizing draft form text with
  | nil =>
    obtain ⟨front, last, rfl, hl, hi⟩ := iterate_patternRound hs
    have hlast : last.getLast? ≠ some '\r' := by
      intro he
      refine hr ?_
      rw [List.foldl_nil, Draft.push, List.getLast?_append, List.getLast?_append, he]
      rfl
    rw [renderParts, List.nil_append, hi, iterate, patternRound_ends hl hlast ht]
    simp only [Draft.push_push, List.foldl_nil]
  | cons part parts ih =>
    have hreads' : ReadsParts placeable parts := fun _ he => hreads _ (List.mem_cons_of_mem _ he)
    cases part with
    | text next =>
      have hnext := hs.append
        (spells_spelled (fun _ => canEscape_of_not_isPatternChar) next.toList)
      rw [renderParts, List.append_assoc, ← List.append_assoc form]
      rw [List.foldl_cons, Draft.add, Draft.push_push] at hr ⊢
      exact ih hreads' hnext (by simpa [Element.isPlaceable] using hcount) hr
    | placeable expression =>
      obtain ⟨front, last, rfl, hl, hi⟩ := iterate_patternRound hs
      have hplaced := hreads expression List.mem_cons_self (renderParts parts ++ '\n' :: tail)
      have hcount' : draft.placeables + 1 + parts.countP Element.isPlaceable ≤ mostPlaceables := by
        rw [List.countP_cons_of_pos rfl] at hcount
        omega
      have hlt : (renderParts parts ++ '\n' :: tail).length <
          (last ++ (braced expression.render ++ (renderParts parts ++ '\n' :: tail))).length := by
        simp only [braced, List.length_append, List.length_cons]
        omega
      rw [renderParts, List.append_assoc, hi, iterate,
        patternRound_places hl (by rw [Draft.placeables_push]; omega) hplaced]
      simp only [if_pos hlt]
      have hrest := @ih ((draft.push (front ++ last)).place expression) hreads' [] [] .nil
      rw [Draft.push_nil, Draft.placeables_place, Draft.placeables_push] at hrest
      rw [Draft.push_push]
      exact hrest hcount' hr

/-! ## The front of a pattern -/

theorem guarded_head (text : List Char) : (guarded text).head?.any Text.isInlineBlank = false := by
  cases text with
  | nil => rfl
  | cons c text =>
    rw [guarded]
    split
    · obtain ⟨form, he⟩ := escaped_cons c
      rw [he]
      rfl
    · exact Bool.eq_false_iff.mpr ‹_›

/-- The escape in front of a spelled text spells it too. -/
theorem guarded_spelled {text : List Char} (h : text ≠ []) :
    ∃ form, Spells isPatternChar ['{', '\\'] form text ∧
      ∀ rest, guarded (spelled isPatternChar text ++ rest) = form ++ rest := by
  cases text with
  | nil => exact absurd rfl h
  | cons c text =>
    have hs := spells_spelled (fun _ => canEscape_of_not_isPatternChar) (c :: text)
    by_cases hb : Text.isInlineBlank c = true
    · have hc : CanEscape ['{', '\\'] c ∧ isPatternChar c = true := by
        rw [Text.isInlineBlank, Bool.or_eq_true, beq_iff_eq, beq_iff_eq] at hb
        obtain rfl | rfl := hb <;> exact ⟨fun tail => rfl, rfl⟩
      refine ⟨_, .escape hc.1 (spells_spelled (fun _ => canEscape_of_not_isPatternChar) text), ?_⟩
      intro rest
      rw [spelled, List.flatMap_cons, if_pos hc.2]
      change guarded (c :: (spelled isPatternChar text ++ rest)) = _
      rw [guarded, if_pos hb, List.append_assoc]
    · refine ⟨_, hs, fun rest => ?_⟩
      rw [spelled, List.flatMap_cons]
      cases hp : isPatternChar c with
      | true => exact if_neg hb
      | false =>
        obtain ⟨form, he⟩ := escaped_cons c
        rw [if_neg Bool.false_ne_true, he]
        rfl

theorem renderParts_brace {parts : List Element} (h : 0 < parts.countP Element.isPlaceable) :
    ∃ front rest, renderParts parts = front ++ '{' :: rest ∧ '\n' ∉ front := by
  induction parts with
  | nil => cases h
  | cons part parts ih =>
    cases part with
    | text text =>
      obtain ⟨front, rest, he, hn⟩ := ih (by simpa [Element.isPlaceable] using h)
      have hs := spells_spelled (fun _ => canEscape_of_not_isPatternChar) text.toList
      refine ⟨spelled isPatternChar text.toList ++ front, rest, ?_, ?_⟩
      · rw [renderParts, he, List.append_assoc]
      · rw [List.mem_append, not_or]
        exact ⟨hs.no_lineFeed rfl, hn⟩
    | placeable expression => exact ⟨[], _, rfl, List.not_mem_nil⟩

/-- A pattern whose first line holds a brace or a backslash is read part by part. -/
theorem pattern_marked {c : Char} {front rest : List Char} (hn : '\n' ∉ front)
    (hc : c = '{' ∨ c = '\\') :
    pattern placeable (front ++ c :: rest) = patternParts placeable (front ++ c :: rest) := by
  have hfront : ∀ d ∈ front, (d != '\n') = true := fun d hd => by
    rw [bne_iff_ne]
    rintro rfl
    exact hn hd
  rw [pattern_apply]
  refine if_pos (List.any_eq_true.mpr ⟨c, mem_dropEndWhile ?_ ?_, ?_⟩)
  · rw [List.takeWhile_append_of_pos hfront, List.mem_append]
    right
    obtain rfl | rfl := hc <;> simp
  · obtain rfl | rfl := hc <;> rfl
  · obtain rfl | rfl := hc <;> rfl

/-- The parts of a pattern are read back, an escape in front of them or not. -/
theorem patternParts_guarded {parts : List Element} (hreads : ReadsParts placeable parts)
    (ht : EndsLine tail) (hcount : parts.countP Element.isPlaceable ≤ mostPlaceables)
    (htexts : ∀ text, .text text ∈ parts → text ≠ "")
    (hapart : ∀ text next, ¬[.text text, .text next] <:+: parts)
    (hr : (Draft.ofParts parts).buffer.getLast? ≠ some '\r') :
    patternParts placeable (guarded (renderParts parts) ++ '\n' :: tail) =
      .ok ((Draft.ofParts parts).finish, tail) := by
  have hadd : parts.foldl Draft.add .empty = Draft.ofParts parts := Draft.add_parts [] hapart htexts
  have hi : iterate (patternRound placeable) .empty (guarded (renderParts parts) ++ '\n' :: tail) =
      .ok (Draft.ofParts parts, tail) := by
    have hcount' : Draft.empty.placeables + parts.countP Element.isPlaceable ≤ mostPlaceables := by
      rwa [show Draft.empty.placeables = 0 from rfl, Nat.zero_add]
    rw [← hadd] at hr ⊢
    cases parts with
    | nil => exact iterate_parts hreads ht .nil hcount' hr
    | cons part parts =>
      cases part with
      | text text =>
        have hne : text.toList ≠ [] := by simpa using htexts text List.mem_cons_self
        obtain ⟨form, hs, hg⟩ := guarded_spelled hne
        rw [renderParts, hg, List.append_assoc]
        rw [List.countP_cons_of_neg Bool.false_ne_true] at hcount'
        exact iterate_parts (fun _ he => hreads _ (List.mem_cons_of_mem _ he)) ht hs hcount' hr
      | placeable expression => exact iterate_parts hreads ht .nil hcount' hr
  rw [patternParts, bind_ok hi]
  rfl

theorem guarded_brace {front : List Char} (rest : List Char) (h : '\n' ∉ front) :
    ∃ front', guarded (front ++ '{' :: rest) = front' ++ '{' :: rest ∧ '\n' ∉ front' := by
  cases front with
  | nil => exact ⟨[], rfl, h⟩
  | cons c front =>
    rw [List.cons_append, guarded]
    split
    · refine ⟨escaped c ++ front, (List.append_assoc ..).symm, ?_⟩
      rw [List.mem_append, not_or]
      exact ⟨escaped_no_lineFeed c, fun hm => h (List.mem_cons_of_mem _ hm)⟩
    · exact ⟨c :: front, rfl, h⟩

theorem pattern_elements {parts : List Element} (h : PartsWellFormed parts)
    (hreads : ReadsParts placeable parts) (ht : EndsLine tail) :
    pattern placeable ((Pattern.elements parts).render ++ '\n' :: tail) =
      .ok (some (.elements parts), tail) := by
  have hr : (Draft.ofParts parts).buffer.getLast? ≠ some '\r' := by
    rw [Draft.ofParts]
    split
    · exact fun he => absurd ((h.last _ ‹_›).last _ he) (by decide)
    · simp
  have hread := patternParts_guarded hreads ht h.few h.texts h.apart hr
  rw [Draft.finish_ofParts h] at hread
  obtain ⟨front, rest, he, hn⟩ := renderParts_brace h.placed
  obtain ⟨front', he', hn'⟩ := guarded_brace rest hn
  rw [he, he', List.append_assoc, List.cons_append] at hread
  rw [Pattern.render, he, he', List.append_assoc, List.cons_append, pattern_marked hn' (.inl rfl)]
  exact hread

/-- A plain text in one line is read without its parts. -/
theorem pattern_plain {text : List Char} (hplain : text.all isPatternChar = true) (hne : text ≠ [])
    (hend : Text.dropEndWhile Text.isBlank text = text) (ht : EndsLine tail)
    (hread : patternParts placeable (text ++ '\n' :: tail) =
      .ok (some (.text (String.ofList text)), tail)) :
    pattern placeable (text ++ '\n' :: tail) = .ok (some (.text (String.ofList text)), tail) := by
  have hall : ∀ c ∈ text, c ≠ '\n' ∧ c ≠ '\\' ∧ c ≠ '{' := fun c hm => by
    have hc := List.all_eq_true.mp hplain c hm
    simpa [isPatternChar, and_assoc] using hc
  have hline : text.all (· != '\n') = true :=
    List.all_eq_true.mpr fun c hm => bne_iff_ne.mpr (hall c hm).1
  have htake : (text ++ '\n' :: tail).takeWhile (· != '\n') = text := takeWhile_run hline rfl
  have hdrop : (text ++ '\n' :: tail).dropWhile (· != '\n') = '\n' :: tail :=
    dropWhile_run hline rfl
  have hmark : (text.any fun c => c == '{' || c == '\\') = false := by
    rw [List.any_eq_false]
    intro c hm
    simp [hall c hm]
  have hempty : text.isEmpty = false := by simpa using hne
  rw [pattern_apply, htake, hdrop]
  simp only [hend, hmark, List.drop_one, List.tail_cons, ht.unblank, hempty, Bool.false_eq_true,
    if_false]
  split
  · rfl
  · exact hread

theorem pattern_text {text : String} (h : EndsPattern text) (ht : EndsLine tail) :
    pattern placeable ((Pattern.text text).render ++ '\n' :: tail) =
      .ok (some (.text text), tail) := by
  have hne : text.toList ≠ [] := by simpa using h.nonempty
  have hend : Text.dropEndWhile Text.isBlank text.toList = text.toList :=
    dropEndWhile_eq_self h.last
  have hread : patternParts placeable (guarded (renderParts [.text text]) ++ '\n' :: tail) =
      .ok ((Draft.ofParts [.text text]).finish, tail) := by
    refine patternParts_guarded (fun _ he => ?_) ht (Nat.zero_le _) (fun _ he => ?_) ?_ ?_
    · simp at he
    · obtain rfl : _ = text := by simpa using he
      exact h.nonempty
    · intro first next hi
      have := hi.length_le
      simp at this
    · exact fun he => absurd (h.last _ he) (by decide)
  rw [Draft.finish_text h] at hread
  obtain ⟨form, hs, hg⟩ := guarded_spelled hne
  have hform : guarded (spelled isPatternChar text.toList) = form := by
    simpa using hg []
  rw [show renderParts [.text text] = spelled isPatternChar text.toList ++ [] from rfl, hg,
    List.append_nil] at hread
  rw [Pattern.render, hform]
  by_cases hb : '\\' ∈ form
  · obtain ⟨front, rest, rfl⟩ := List.append_of_mem hb
    have hn : '\n' ∉ front := fun hm => hs.no_lineFeed rfl (List.mem_append_left _ hm)
    rw [List.append_assoc, List.cons_append] at hread ⊢
    rw [pattern_marked hn (.inr rfl)]
    exact hread
  · -- Without escapes the text is its own form, and it is taken as it is where the line ends it.
    obtain ⟨rfl, hplain⟩ := hs.plain_of_no_backslash hb
    have hwhole := pattern_plain hplain hne hend ht (by rwa [String.ofList_toList])
    rwa [String.ofList_toList] at hwhole

theorem guarded_ne_nil {text : List Char} (h : text ≠ []) : guarded text ≠ [] := by
  cases text with
  | nil => exact absurd rfl h
  | cons c text =>
    obtain ⟨form, he⟩ := escaped_cons c
    rw [guarded, he]
    split <;> simp

theorem render_text_ne_nil {text : String} (h : EndsPattern text) :
    (Pattern.text text).render ≠ [] := by
  refine guarded_ne_nil fun he => ?_
  cases ht : text.toList with
  | nil => exact h.nonempty (by simpa using ht)
  | cons c rest =>
    obtain ⟨form, hc⟩ := escaped_cons c
    rw [ht, spelled, List.flatMap_cons, hc] at he
    split at he <;> cases he

theorem render_elements_ne_nil {parts : List Element} (h : PartsWellFormed parts) :
    (Pattern.elements parts).render ≠ [] := by
  obtain ⟨front, rest, he, -⟩ := renderParts_brace h.placed
  exact guarded_ne_nil (by simp [he])

end

end Fluent.Grammar
