import Mathlib
import Fluent.Proofs.Extension.Entry
import Fluent.Proofs.Pieces

/-!
# Resources one after the other

Two texts may be joined where the first one is sound and ends with a line and the second one does
not start with blank text: what is found in the joined text is what is found in each of them.

* `items_append`: the items of the joined text, attempt by attempt;
* `parse_append`: its entries and errors.
-/

namespace Fluent.Grammar

open Fluent.Grammar.Parser Fluent.Text.Reader

variable {tail text : List Char}

/-! ## Comments -/

/-- The end of a comment is the same in front of more text, unless the text ends with the comment
and it goes on there. -/
theorem dropComment_append (tail : List Char) (he : EndsLines text) (hn : text ≠ []) :
    dropComment (text ++ tail) = dropComment text ++ tail ∨
      dropComment text = [] ∧ startsComment tail = true ∧
        dropComment (text ++ tail) = dropComment tail := by
  fun_induction dropComment text with
  | case1 rest ih => exact ih he.next.next.next (he.next.next.next_ne_nil (by decide))
  | case2 rest ih => exact ih he.next.next.next (he.next.next.next_ne_nil (by decide))
  | case3 rest h₁ h₂ =>
    cases rest with
    | nil =>
      by_cases hs : ∃ after, tail = '#' :: ' ' :: after
      · obtain ⟨after, rfl⟩ := hs
        exact .inr ⟨rfl, rfl, rfl⟩
      · by_cases hh : ∃ after, tail = '#' :: '#' :: after
        · obtain ⟨after, rfl⟩ := hh
          exact .inr ⟨rfl, rfl, rfl⟩
        · left
          rw [List.cons_append, List.nil_append, dropComment]
          · exact fun after h => hs ⟨after, h⟩
          · exact fun after h => hh ⟨after, h⟩
    | cons c rest =>
      left
      have hnext (d : Char) (after : List Char) (h : c :: rest ++ tail = '#' :: d :: after) :
          ∃ more, c :: rest = '#' :: d :: more := by
        obtain ⟨rfl, h⟩ := List.cons.inj h
        obtain ⟨e, rest, rfl⟩ := List.exists_cons_of_ne_nil (he.next.next_ne_nil (by decide))
        simp only [List.cons_append, List.cons.injEq, true_and] at h
        exact ⟨rest, by rw [h.1]⟩
      rw [List.cons_append, dropComment]
      · intro after h
        obtain ⟨more, h⟩ := hnext ' ' after h
        exact h₁ more h
      · intro after h
        obtain ⟨more, h⟩ := hnext '#' after h
        exact h₂ more h
  | case4 c rest h₁ h₂ h₃ ih =>
    rw [List.cons_append, dropComment]
    · exact ih he.next (he.next_ne_nil h₃)
    · exact fun _ h _ => h₃ h
    · exact fun _ h _ => h₃ h
    · exact h₃
  | case5 => exact absurd rfl hn

theorem Unindented.dropWhile_isBlank (ht : Unindented tail) :
    tail.dropWhile Text.isBlank = tail := by
  cases tail with
  | nil => rfl
  | cons c tail => exact List.dropWhile_cons_of_neg (by simp [ht c rfl])

/-! ## Attempts -/

/-- The text behind another one is at the start of a line, if that one ends with a line. -/
theorem atLineStart_behind (tail : List Char) (he : EndsLines text) (hn : text ≠ [])
    (lineStart : Bool) :
    atLineStart lineStart (text ++ tail) tail = true := by
  rw [atLineStart_append]
  cases hl : text.getLast? with
  | none => exact absurd (List.getLast?_eq_none_iff.mp hl) hn
  | some c => simp [he c hl]

theorem atLineStart_append_append (tail : List Char) {rest : List Char} (hs : rest <:+ text)
    (lineStart : Bool) :
    atLineStart lineStart (text ++ tail) (rest ++ tail) = atLineStart lineStart text rest := by
  obtain ⟨front, rfl⟩ := hs
  rw [List.append_assoc, atLineStart_append, atLineStart_append]

theorem startsComment_append (he : EndsLines text) (hn : text ≠ []) :
    startsComment (text ++ tail) = startsComment text := by
  obtain ⟨c, rest, rfl⟩ := List.exists_cons_of_ne_nil hn
  by_cases hc : c = '#'
  · subst hc
    obtain ⟨d, rest, rfl⟩ := List.exists_cons_of_ne_nil (he.next_ne_nil (by decide))
    rfl
  · simp [startsComment, hc]

/-- An attempt that does not fail comes to the same in front of more text, unless it is at a comment
that the text ends with and that goes on there. -/
theorem attempt_append (ht : Unindented tail) (lineStart : Bool) (he : EndsLines text)
    (hn : text ≠ []) (hsound : ∀ failure, .failure failure ∉ (attempt lineStart text).1) :
    attempt lineStart (text ++ tail) =
        ((attempt lineStart text).1, (attempt lineStart text).2 ++ tail) ∨
      attempt lineStart text = ([], []) ∧ startsComment tail = true ∧
        attempt lineStart (text ++ tail) = ([], dropComment tail) := by
  have hfails (failure : Failure) : entryOrComment lineStart text ≠ .error failure := by
    intro h
    exact hsound failure (by simp [attempt, h])
  cases lineStart with
  | false => exact absurd (entryOrComment_apply false text) (hfails _)
  | true =>
    have happly := entryOrComment_apply true
    simp only [if_true] at happly
    by_cases hc : startsComment text = true
    · have hc' : startsComment (text ++ tail) = true := (startsComment_append he hn).trans hc
      simp only [attempt, happly, hc, hc', if_true]
      obtain h | ⟨h, ht, h'⟩ := dropComment_append tail he hn
      · exact .inl (by rw [h])
      · exact .inr ⟨by rw [h], ht, by rw [h']⟩
    · have hc' : ¬startsComment (text ++ tail) = true := by rwa [startsComment_append he hn]
      left
      simp only [attempt, happly, hc, hc']
      cases hm : message text with
      | error failure =>
        refine absurd ?_ (hfails failure)
        rw [happly, if_neg hc, bind_error hm]
      | ok read =>
        obtain ⟨read, rest⟩ := read
        obtain ⟨hs, hm'⟩ := message_extends ht he read rest hm
        simp [bind_ok hm, bind_ok hm']

theorem attempt_comment (h : startsComment text = true) :
    attempt true text = ([], dropComment text) := by
  rw [attempt, entryOrComment_apply, if_pos rfl, if_pos h]

/-! ## Items -/

/-- The rest of a comment is passed over with it. -/
theorem items_comment (h : startsComment text = true) :
    items true text = items (atLineStart true text (dropComment text)) (dropComment text) := by
  obtain ⟨c, rest, rfl, -⟩ := startsComment_cases h
  rw [items_cons true (show Text.isBlank '#' = false by decide), attempt_comment h, List.nil_append]

/-- The items of a sound text and of what follows it. -/
theorem items_append (ht : Unindented tail) (lineStart : Bool) (he : EndsLines text)
    (hsound : ∀ failure, .failure failure ∉ items lineStart text) :
    items lineStart (text ++ tail) =
      items lineStart text ++ items (atLineStart lineStart text []) tail := by
  induction lineStart, text using attempts_induction with
  | blank lineStart text ih =>
    have hs := List.dropWhile_suffix (l := text) Text.isBlank
    rw [items_dropWhile lineStart text] at hsound ⊢
    rw [items_dropWhile lineStart (text ++ tail)]
    by_cases hn : text.dropWhile Text.isBlank = []
    · have hskip : (text ++ tail).dropWhile Text.isBlank = [] ++ tail := by
        rw [List.dropWhile_append, if_pos (by simpa using hn), ht.dropWhile_isBlank,
          List.nil_append]
      rw [hskip, atLineStart_append_append tail List.nil_suffix, hn, items_nil]
      rfl
    · rw [dropWhile_append_of_ne_nil hn, atLineStart_append_append tail hs,
        ih (he.suffix hs) hsound, atLineStart_trans hs List.nil_suffix]
  | ended lineStart => simp [atLineStart_self]
  | attempted lineStart c text hc ih =>
    have hs := (attempt_suffix lineStart c text).trans (List.suffix_cons c text)
    rw [items_cons lineStart hc] at hsound ⊢
    rw [List.cons_append, items_cons lineStart hc, ← List.cons_append]
    have hsound₁ (failure : Failure) (hm : .failure failure ∈ (attempt lineStart (c :: text)).1) :=
      hsound failure (List.mem_append_left _ hm)
    have hsound₂ (failure : Failure) (hm : .failure failure ∈ items
        (atLineStart lineStart (c :: text) (attempt lineStart (c :: text)).2)
        (attempt lineStart (c :: text)).2) :=
      hsound failure (List.mem_append_right _ hm)
    obtain h | ⟨h, hcomment, h'⟩ :=
      attempt_append ht lineStart he (List.cons_ne_nil c text) hsound₁
    · rw [h, atLineStart_append_append tail hs, ih (he.suffix hs) hsound₂,
        atLineStart_trans hs List.nil_suffix, List.append_assoc]
    · have hbehind := atLineStart_behind tail he (List.cons_ne_nil c text) lineStart
      have hend := atLineStart_append_append tail (List.nil_suffix (l := c :: text)) lineStart
      rw [List.nil_append] at hend
      rw [h, h', items_nil, ← hend, hbehind, items_comment hcomment,
        ← atLineStart_trans (List.suffix_append _ _) (dropComment_suffix tail), hbehind]
      rfl

/-- A sound text that ends with a line and a text that does not start with blank text are read in
one as each by itself. -/
theorem parse_append {first second : String} (hlines : EndsLines first.toList)
    (hsound : (Resource.parse first).errors = []) (hflush : Unindented second.toList) :
    (Resource.parse (first ++ second)).entries =
        (Resource.parse first).entries.overlay (Resource.parse second).entries ∧
      (Resource.parse (first ++ second)).errors =
        (Resource.parse second).errors.map (.behind first) := by
  have hfailures (failure : Failure) : .failure failure ∉ items true first.toList := by
    intro hm
    have he := Resource.mem_parse_errors.mpr ⟨failure, hm, rfl⟩
    simp [hsound] at he
  have hend : atLineStart true first.toList [] = true := by
    have h := atLineStart_of_endsLines hlines []
    rwa [List.append_nil] at h
  have hi := items_append hflush true hlines hfailures
  rw [hend, ← String.toList_append] at hi
  obtain ⟨hentries, herrors⟩ := parse_of_items hi hlines
  refine ⟨hentries, ?_⟩
  have hnone : (Resource.ofItems (first ++ second).toList (items true first.toList)).errors = [] :=
    List.filterMap_eq_nil_iff.mpr fun item hm => by
      cases item with
      | entry => rfl
      | failure failure => exact absurd hm (hfailures failure)
  rw [herrors, hnone, List.nil_append]

/-- A comment that goes on in the second text, an entry that is in both and an error. -/
theorem parse_append_comments :
    (Resource.parse ("a = x\nb = y\n# one\n" ++ "# two\nb = z\nc d\n")).entries =
        (Resource.parse "a = x\nb = y\n# one\n").entries.overlay
          (Resource.parse "# two\nb = z\nc d\n").entries ∧
      (Resource.parse ("a = x\nb = y\n# one\n" ++ "# two\nb = z\nc d\n")).errors =
        [⟨.expectedToken '=', 32, 6, 3⟩] := by
  have hsound : (Resource.parse "a = x\nb = y\n# one\n").errors = [] := by cbv
  have herrors : (Resource.parse "# two\nb = z\nc d\n").errors =
      [⟨.expectedToken '=', 14, 3, 3⟩] := by cbv
  obtain ⟨hentries, h⟩ := parse_append (endsLines_of_getLast? rfl) hsound
    (fun c hc => by cases hc; rfl : Unindented "# two\nb = z\nc d\n".toList)
  refine ⟨hentries, ?_⟩
  rw [h, herrors]
  rfl

end Fluent.Grammar
