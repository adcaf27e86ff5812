import Fluent.Proofs.Extension.Basic
import Fluent.Proofs.Items
import Fluent.Proofs.Table

/-!
# Resources in pieces

A text is read attempt by attempt, and what is found in it is put together in the order of the
attempts. What is found in a piece of a text depends neither on the pieces before it nor on where it
stands, if it starts with a line; only the places of its errors do.

* `Reached`: the states that reading a text passes through;
* `ofItems_append`: the resource of what is found in two pieces, one after the other;
* `parse_of_items`: a text of two pieces, the second of which is read as it is alone.
-/

namespace Fluent.Grammar

/-- The error of a text that has `before` in front of it. -/
def ParseError.behind (before : String) (error : ParseError) : ParseError :=
  { error with
    offset := before.utf8ByteSize + error.offset
    line := before.toList.count '\n' + error.line }

theorem atLineStart_of_endsLines {before : List Char} (h : EndsLines before) (rest : List Char) :
    atLineStart true (before ++ rest) rest = true := by
  rw [atLineStart_append]
  cases hl : before.getLast? with
  | none => rfl
  | some c => simp [h c hl]

theorem takeWhile_behind_line {before : List Char} (h : EndsLines before) (text : List Char) :
    (text.reverse ++ before.reverse).takeWhile (· != '\n') =
      text.reverse.takeWhile (· != '\n') := by
  have hb : before.reverse.takeWhile (· != '\n') = [] := by
    cases hr : before.reverse with
    | nil => rfl
    | cons c rest =>
      have hc : before.getLast? = some c := by simp [List.getLast?_eq_head?_reverse, hr]
      simp [h c hc]
  rw [List.takeWhile_append, hb, List.append_nil]
  split
  · exact (List.takeWhile_prefix _).eq_of_length ‹_› |>.symm
  · rfl

/-- A failure is placed behind a text as it is without it, the text and its lines aside. -/
theorem Failure.locate_append {before text : List Char} {failure : Failure} (h : EndsLines before)
    (hs : failure.rest <:+ text) :
    failure.locate (before ++ text) = (failure.locate text).behind (String.ofList before) := by
  obtain ⟨read, rfl⟩ := hs
  have hread : (read ++ failure.rest).take
      ((read ++ failure.rest).length - failure.rest.length) = read := by
    simp
  have hall : (before ++ (read ++ failure.rest)).take
      ((before ++ (read ++ failure.rest)).length - failure.rest.length) = before ++ read := by
    rw [← List.append_assoc, List.length_append, Nat.add_sub_cancel, List.take_left]
  simp only [locate, ParseError.behind, hread, hall, ParseError.mk.injEq, true_and]
  refine ⟨?_, ?_, ?_⟩
  · simp
  · simp [Nat.add_assoc]
  · rw [List.reverse_append, takeWhile_behind_line h]

namespace Resource

variable {source : List Char}

theorem getElem?_foldl_addTo (found : List Item) (entries : Table Entry) (id : String) :
    (found.foldl Item.addTo entries)[id]? =
      (found.foldl Item.addTo ∅)[id]?.or entries[id]? := by
  induction found generalizing entries with
  | nil => simp
  | cons item found ih =>
    rw [List.foldl_cons, List.foldl_cons, ih, ih (item.addTo ∅), Option.or_assoc]
    cases item with
    | entry name read =>
      by_cases hn : name = id <;> simp [Item.addTo, Std.ExtTreeMap.getElem?_insert, hn]
    | failure failure => simp [Item.addTo]

theorem foldl_addTo_eq_overlay (found : List Item) (entries : Table Entry) :
    found.foldl Item.addTo entries = entries.overlay (found.foldl Item.addTo ∅) :=
  Std.ExtTreeMap.ext_getElem? fun id => by
    rw [getElem?_foldl_addTo, Table.getElem?_overlay]

theorem ofItems_entries (found : List Item) :
    (ofItems source found).entries = found.foldl Item.addTo ∅ := rfl

theorem ofItems_errors (found : List Item) :
    (ofItems source found).errors = found.filterMap (Item.error? source) := rfl

theorem ofItems_append_entries (found others : List Item) :
    (ofItems source (found ++ others)).entries =
      (ofItems source found).entries.overlay (ofItems source others).entries := by
  rw [ofItems_entries, List.foldl_append, foldl_addTo_eq_overlay]
  rfl

theorem ofItems_append_errors (found others : List Item) :
    (ofItems source (found ++ others)).errors =
      (ofItems source found).errors ++ (ofItems source others).errors :=
  List.filterMap_append

/-- The items found behind a text have the errors they have without it. -/
theorem ofItems_behind {before text : List Char} {found : List Item} (h : EndsLines before)
    (hs : ∀ failure, .failure failure ∈ found → failure.rest <:+ text) :
    (ofItems (before ++ text) found).errors =
      (ofItems text found).errors.map (.behind (String.ofList before)) := by
  rw [ofItems_errors, ofItems_errors, List.map_filterMap]
  refine List.filterMap_congr fun item hm => ?_
  cases item with
  | entry => rfl
  | failure failure => simp [Item.error?, Failure.locate_append h (hs failure hm)]

theorem parse_eq (source : String) :
    parse source = ofItems source.toList (items true source.toList) := rfl

end Resource

theorem parse_empty : Resource.parse "" = ⟨∅, []⟩ := by
  rw [Resource.parse_eq, String.toList_empty, items_nil]
  rfl

/-- What is found behind a text that ends with a line is put behind what was found in it. -/
theorem parse_of_items {before next : String} {found : List Item}
    (hi : items true (before ++ next).toList = found ++ items true next.toList)
    (hb : EndsLines before.toList) :
    (Resource.parse (before ++ next)).entries =
        (Resource.ofItems (before ++ next).toList found).entries.overlay
          (Resource.parse next).entries ∧
      (Resource.parse (before ++ next)).errors =
        (Resource.ofItems (before ++ next).toList found).errors ++
          (Resource.parse next).errors.map (.behind before) := by
  have hsuffix (failure : Failure) (hm : .failure failure ∈ items true next.toList) :
      failure.rest <:+ next.toList := items_failure_suffix hm
  have hbehind := Resource.ofItems_behind hb hsuffix
  rw [← String.toList_append, String.ofList_toList] at hbehind
  rw [Resource.parse_eq, hi]
  constructor
  · exact Resource.ofItems_append_entries found _
  · rw [Resource.ofItems_append_errors, hbehind]
    rfl

/-! ## The states that reading passes through -/

theorem atLineStart_trans {lineStart : Bool} {text start rest : List Char} (hs : start <:+ text)
    (hr : rest <:+ start) :
    atLineStart (atLineStart lineStart text start) start rest =
      atLineStart lineStart text rest := by
  obtain ⟨front, rfl⟩ := hs
  obtain ⟨read, rfl⟩ := hr
  rw [atLineStart_append, atLineStart_append, ← List.append_assoc, atLineStart_append,
    List.getLast?_append]
  cases read.getLast? <;> simp

/-- Reading comes to an attempt at `start`, or to the end if that is empty, and has found so many
items before it. -/
inductive Reached (source : List Char) : List Item → List Char → Prop
  | first : Reached source [] (source.dropWhile Text.isBlank)
  | next {found start} (reached : Reached source found start) (more : start ≠ []) :
    Reached source (found ++ (attempt (atLineStart true source start) start).1)
      ((attempt (atLineStart true source start) start).2.dropWhile Text.isBlank)

namespace Reached

variable {source start : List Char} {found : List Item}

theorem attempt_rest_suffix (lineStart : Bool) (more : start ≠ []) :
    (attempt lineStart start).2 <:+ start := by
  cases start with
  | nil => exact absurd rfl more
  | cons c text => exact (attempt_suffix lineStart c text).trans (List.suffix_cons c text)

theorem suffix (reached : Reached source found start) : start <:+ source := by
  induction reached with
  | first => exact List.dropWhile_suffix _
  | next _ more ih =>
    exact (List.dropWhile_suffix _).trans ((attempt_rest_suffix _ more).trans ih)

theorem head_not_blank {c : Char} {text : List Char}
    (reached : Reached source found (c :: text)) : Text.isBlank c = false := by
  generalize hs : c :: text = start at reached
  have hc (source : List Char) (h : c :: text = source.dropWhile Text.isBlank) :
      Text.isBlank c = false := by
    have hn := List.head?_dropWhile_not Text.isBlank source
    rwa [← h] at hn
  cases reached with
  | first => exact hc _ hs
  | next => exact hc _ hs

/-- What is found in a text is what was found before an attempt and what is found from there on. -/
theorem items_eq (reached : Reached source found start) :
    items true source = found ++ items (atLineStart true source start) start := by
  induction reached with
  | first => exact items_dropWhile true source
  | @next found start reached more ih =>
    have hs := attempt_rest_suffix (atLineStart true source start) more
    obtain ⟨c, text, rfl⟩ := List.exists_cons_of_ne_nil more
    rw [ih, items_cons _ reached.head_not_blank, items_dropWhile, List.append_assoc,
      atLineStart_trans reached.suffix hs,
      atLineStart_trans (hs.trans reached.suffix) (List.dropWhile_suffix _)]

end Reached

end Fluent.Grammar
