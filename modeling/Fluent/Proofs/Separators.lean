import Fluent.Text.Space
import Mathlib.Data.List.Basic

/-!
# Texts between separators

The pieces of a text between separators are those that the library's `List.splitOnP` gives, so that
its lemmas hold of them.

* `pieces_eq_splitOnP`, `pieces_eq_splitOn`: the pieces of a text;
* `not_mem_piece`: what does not stand in a piece;
* `splitOnP_map`: the pieces of a text whose characters are exchanged;
* `map_intercalate`, `mem_intercalate`, `mem_intercalate_of_mem`: pieces put together.
-/

namespace Fluent.Text

theorem pieces_eq_splitOnP (separator : Char → Bool) (text : List Char) :
    pieces separator text = text.splitOnP separator := by
  induction text with
  | nil => rw [pieces, List.splitOnP_nil]
  | cons c rest ih =>
    rw [pieces, List.splitOnP_cons_eq_if_modifyHead, ih]
    refine ite_congr rfl (fun _ => rfl) fun _ => ?_
    cases split : rest.splitOnP separator with
    | nil => exact absurd split (List.splitOnP_ne_nil _ _)
    | cons piece others => rfl

theorem pieces_eq_splitOn (separator : Char) (text : List Char) :
    pieces (· == separator) text = text.splitOn separator := by
  rw [pieces_eq_splitOnP, List.splitOn_eq_splitOnP]

/-- There is no separator in a piece. -/
theorem not_mem_piece {separator : Char → Bool} {text piece : List Char}
    (member : piece ∈ pieces separator text) : ∀ c ∈ piece, separator c = false := by
  induction text generalizing piece with
  | nil =>
    obtain rfl := List.mem_singleton.mp member
    nofun
  | cons c rest ih =>
    rw [pieces] at member
    by_cases separates : separator c = true
    · rw [if_pos separates] at member
      obtain rfl | behind := List.mem_cons.mp member
      · nofun
      · exact ih behind
    · rw [if_neg separates] at member
      cases split : pieces separator rest with
      | nil => exact absurd (pieces_eq_splitOnP separator rest ▸ split) (List.splitOnP_ne_nil _ _)
      | cons first others =>
        rw [split] at member ih
        obtain rfl | behind := List.mem_cons.mp member
        · exact List.forall_mem_cons.mpr
            ⟨Bool.eq_false_iff.mpr separates, ih List.mem_cons_self⟩
        · exact ih (List.mem_cons_of_mem first behind)

/-- Where characters are exchanged so that separators stay separators, the pieces are those of the
text with their characters exchanged; what becomes of separators makes no difference. -/
theorem splitOnP_map {p q : Char → Bool} {f g : Char → Char} (same : ∀ c, q (f c) = p c)
    (inner : ∀ c, p c = false → f c = g c) (text : List Char) :
    (text.map f).splitOnP q = (text.splitOnP p).map (List.map g) := by
  induction text with
  | nil => simp
  | cons c rest ih =>
    rw [List.map_cons, List.splitOnP_cons_eq_if_modifyHead, List.splitOnP_cons_eq_if_modifyHead,
      ih, same]
    cases separates : p c with
    | true => rfl
    | false =>
      cases rest.splitOnP p with
      | nil => rfl
      | cons piece others => simp [inner c separates]

theorem map_intercalate (f : Char → Char) (separator : Char) (parts : List (List Char)) :
    ([separator].intercalate parts).map f = [f separator].intercalate (parts.map (List.map f)) := by
  induction parts with
  | nil => rfl
  | cons part parts ih =>
    cases parts with
    | nil => simp
    | cons next parts =>
      simp only [List.map_cons, List.intercalate_cons_cons, List.map_append, List.map_nil] at ih ⊢
      rw [ih]

theorem mem_intercalate {separator c : Char} {parts : List (List Char)}
    (member : c ∈ [separator].intercalate parts) : c = separator ∨ ∃ part ∈ parts, c ∈ part := by
  induction parts with
  | nil => cases member
  | cons part parts ih =>
    cases parts with
    | nil => exact .inr ⟨part, List.mem_cons_self, by simpa using member⟩
    | cons next parts =>
      rw [List.intercalate_cons_cons, List.mem_append, List.mem_append] at member
      obtain (inside | between) | behind := member
      · exact .inr ⟨part, List.mem_cons_self, inside⟩
      · exact .inl (List.mem_singleton.mp between)
      · exact (ih behind).imp_right fun ⟨other, mem, inside⟩ =>
          ⟨other, List.mem_cons_of_mem part mem, inside⟩

theorem mem_intercalate_of_mem {separator c : Char} {part : List Char} {parts : List (List Char)}
    (member : part ∈ parts) (inside : c ∈ part) : c ∈ [separator].intercalate parts := by
  induction parts with
  | nil => cases member
  | cons other parts ih =>
    cases parts with
    | nil =>
      obtain rfl := List.mem_singleton.mp member
      simpa using inside
    | cons next parts =>
      rw [List.intercalate_cons_cons]
      obtain rfl | behind := List.mem_cons.mp member
      · exact List.mem_append_left _ (List.mem_append_left _ inside)
      · exact List.mem_append_right _ (ih behind)

end Fluent.Text
