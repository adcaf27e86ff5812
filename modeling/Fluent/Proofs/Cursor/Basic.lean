import Fluent.Proofs.Cursor.Encoding
import Fluent.Proofs.Places
import Fluent.Proofs.Reader

/-!
# Cursors follow parsers

A cursor follows a parser if, wherever it is put at the start of an end of the text, it does what
the parser does with that end: it finds the same and stops where the parser stops. A parser does not
crash, so neither does a cursor that follows one.

* `slice_crashes_iff`, `byteSlice_crashes_iff`, `byteBefore_crashes_iff`: what a cursor crashes on;
* `Agrees`: a cursor at a place does what is told, and leaves an end of the text;
* `Agrees.peek`, `Agrees.slice` and the like: one step of a cursor;
* `Agrees.bind`, `Agrees.iterate`, `Agrees.recursive`: readings put together.
-/

namespace Fluent.Cursor

open Grammar (EndsLines Failure Fault Parser byteSize exists_lines)
open Grammar.Parser (stop)
open Text.Reader (Round)

variable {α β σ : Type}

/-! ## What cursors do to an offset -/

theorem bind_apply (m : Cursor α) (k : α → Cursor β) (text : String) (offset : Nat) :
    (m >>= k) text offset = match m text offset with
      | .ok (a, stop) => k a text stop
      | .error halt => .error halt := by
  change (m text offset >>= fun x => k x.1 text x.2) = _
  cases m text offset <;> rfl

theorem get_bind_apply (k : Nat → Cursor β) (text : String) (offset : Nat) :
    (get >>= k) text offset = k offset text offset := rfl

theorem size_bind_apply (k : Nat → Cursor β) (text : String) (offset : Nat) :
    (size >>= k) text offset = k text.utf8ByteSize text offset := rfl

theorem findNewline_bind_apply (start : Nat) (k : Option Nat → Cursor β) (text : String)
    (offset : Nat) :
    (findNewline start >>= k) text offset =
      k ((((bytes text).drop start).findIdx? (· == '\n')).map (start + ·)) text offset := rfl

theorem slice_apply (start stop : Nat) (text : String) (offset : Nat) :
    slice start stop text offset =
      if start ≤ stop ∧ IsBoundary text start ∧ IsBoundary text stop then
        .ok ((String.Pos.Raw.extract text ⟨start⟩ ⟨stop⟩).toList, offset)
      else .error (.crashed (.slice start stop)) := by
  change (ite _ _ _ : Cursor _) text offset = _
  split <;> rfl

theorem byteSlice_apply (start stop : Nat) (text : String) (offset : Nat) :
    byteSlice start stop text offset =
      if start ≤ stop ∧ stop ≤ text.utf8ByteSize then
        .ok (((bytes text).drop start).take (stop - start), offset)
      else .error (.crashed (.bytes start stop)) := by
  change (ite _ _ _ : Cursor _) text offset = _
  split <;> rfl

theorem byteBefore_succ (last : Nat) (text : String) (offset : Nat) :
    byteBefore (last + 1) text offset = match (bytes text)[last]? with
      | some byte => .ok (byte, offset)
      | none => .error (.crashed (.byteBefore (last + 1))) := by
  change (match (bytes text)[last]? with
    | some byte => pure byte
    | none => crash (.byteBefore (last + 1)) : Cursor _) text offset = _
  cases (bytes text)[last]? <;> rfl

/-- A part of a text can be taken exactly if it lies in the text and both its ends are between
characters. -/
theorem slice_crashes_iff {text : String} {start stop offset : Nat} :
    (∃ crash, slice start stop text offset = .error (.crashed crash)) ↔
      ¬(start ≤ stop ∧ stop ≤ text.utf8ByteSize ∧ IsBoundary text start ∧
        IsBoundary text stop) := by
  have bounded : IsBoundary text stop → stop ≤ text.utf8ByteSize := fun boundary =>
    boundary.le_utf8ByteSize
  rw [slice_apply]
  split
  · simp only [reduceCtorEq, exists_false, false_iff, not_not]
    tauto
  · simp only [Except.error.injEq, Halt.crashed.injEq, exists_eq', true_iff]
    tauto

/-- Bytes can be taken exactly if they lie in the text. -/
theorem byteSlice_crashes_iff {text : String} {start stop offset : Nat} :
    (∃ crash, byteSlice start stop text offset = .error (.crashed crash)) ↔
      ¬(start ≤ stop ∧ stop ≤ text.utf8ByteSize) := by
  rw [byteSlice_apply]
  split <;> simp_all

theorem length_bytes (text : String) : (bytes text).length = text.utf8ByteSize := by
  rw [bytes_eq, length_codes, Grammar.byteSize_toList]

/-- There is a byte in front of the offsets behind the start of the text. -/
theorem byteBefore_crashes_iff {text : String} {start offset : Nat} :
    (∃ crash, byteBefore start text offset = .error (.crashed crash)) ↔
      ¬(0 < start ∧ start ≤ text.utf8ByteSize) := by
  cases start with
  | zero => simpa using ⟨_, rfl⟩
  | succ last =>
    rw [byteBefore_succ, ← length_bytes]
    by_cases bounded : last < (bytes text).length
    · simp [bounded]
    · simp [bounded]

/-! ## Agreement -/

/-- What a parser finds, with places for the ends of the text. -/
def located (source : String) : Except Failure (α × List Char) → Except Halt (α × Nat)
  | .ok (a, rest) => .ok (a, place source rest)
  | .error failure =>
    .error (.failed (failure.locate source.toList) (place source failure.rest))

/-- Where `rest` starts, the cursor finds what is told and leaves an end of `text`, provided that
`rest` is one and `text` is an end of the source. -/
def Agrees (source : String) (text rest : List Char) (m : Cursor α)
    (found : Except Failure (α × List Char)) : Prop :=
  text <:+ source.toList → rest <:+ text →
    m source (place source rest) = located source found ∧ stop found <:+ text

/-- On every end of the source, the cursor does what the parser does. -/
def Follows (source : String) (m : Cursor α) (p : Parser α) : Prop :=
  ∀ rest, Agrees source rest rest m (p rest)

variable {source : String} {text rest next : List Char} {c : Char} {m m' : Cursor α}
  {k : α → Cursor β} {found found' : Except Failure (α × List Char)}
  {result : Except Failure (β × List Char)} {p q : Parser α} {l : α → Parser β}

/-! ## Steps -/

theorem Agrees.pure (a : α) : Agrees source text rest (pure a) (.ok (a, rest)) :=
  fun _ ends => ⟨rfl, ends⟩

/-- A step that does not move the cursor. -/
theorem Agrees.step {a : α}
    (run : rest <:+ source.toList → m source (place source rest) = .ok (a, place source next))
    (ends : rest <:+ text → next <:+ text) (h : Agrees source text next (k a) result) :
    Agrees source text rest (m >>= k) result := by
  intro inside inner
  rw [bind_apply, run (inner.trans inside)]
  exact h inside (ends inner)

theorem Agrees.of_inside (h : text <:+ source.toList → Agrees source text rest m found) :
    Agrees source text rest m found :=
  fun inside => h inside inside

theorem Agrees.get {k : Nat → Cursor β}
    (h : Agrees source text rest (k (place source rest)) result) :
    Agrees source text rest (get >>= k) result :=
  h

theorem Agrees.size {k : Nat → Cursor β}
    (h : Agrees source text rest (k source.utf8ByteSize) result) :
    Agrees source text rest (size >>= k) result :=
  h

theorem Agrees.moveTo {k : Unit → Cursor β} (ends : next <:+ text)
    (h : Agrees source text next (k ()) result) :
    Agrees source text rest (moveTo (place source next) >>= k) result :=
  fun inside _ => h inside ends

theorem Agrees.peek {k : Option Char → Cursor β}
    (h : Agrees source text rest (k (codes rest).head?) result) :
    Agrees source text rest (peek >>= k) result :=
  Agrees.step (fun inside => by
    change Except.ok ((bytes source)[place source rest + 0]?, _) = _
    rw [bytes_getElem?_place inside, ← List.head?_eq_getElem?]) id h

theorem Agrees.peekSecond {k : Option Char → Cursor β}
    (h : Agrees source text rest (k (codes rest)[1]?) result) :
    Agrees source text rest (peekSecond >>= k) result :=
  Agrees.step (fun inside => by
    change Except.ok ((bytes source)[place source rest + 1]?, _) = _
    rw [bytes_getElem?_place inside]) id h

theorem Agrees.advance {k : Unit → Cursor β} (plain : c.toNat < 128)
    (h : Agrees source text rest (k ()) result) :
    Agrees source text (c :: rest) (advance 1 >>= k) result :=
  Agrees.step (fun inside => by
    change Except.ok ((), place source (c :: rest) + 1) = _
    rw [place_cons plain inside]) (List.suffix_cons c rest).trans h

theorem Agrees.advanceTwo {k : Unit → Cursor β} {d : Char} (hc : c.toNat < 128)
    (hd : d.toNat < 128) (h : Agrees source text rest (k ()) result) :
    Agrees source text (c :: d :: rest) (Cursor.advance 2 >>= k) result :=
  Agrees.step (fun inside => by
    change Except.ok ((), place source (c :: d :: rest) + 2) = _
    rw [place_cons hd ((List.suffix_cons c _).trans inside), place_cons hc inside])
    ((List.suffix_cons d rest).trans (List.suffix_cons c _)).trans h

theorem Agrees.skipWhile {k : Unit → Cursor β} {pred : Char → Bool} (steady : Steady pred)
    (h : Agrees source text (rest.dropWhile pred) (k ()) result) :
    Agrees source text rest (skipWhile pred >>= k) result :=
  Agrees.step (fun inside => by
    change Except.ok ((), place source rest +
      (((bytes source).drop (place source rest)).takeWhile pred).length) = _
    rw [bytes_drop_place inside, takeWhile_codes steady, length_codes, place_dropWhile pred inside])
    (List.dropWhile_suffix pred).trans h

theorem Agrees.skipBlank {k : Unit → Cursor β}
    (h : Agrees source text (rest.dropWhile Text.isBlank) (k ()) result) :
    Agrees source text rest (skipBlank >>= k) result :=
  Agrees.skipWhile (((steady_beq (by decide)).or (steady_beq (by decide))).or
    (steady_beq (by decide)) |>.or (steady_beq (by decide))) h

theorem Agrees.skipInlineBlank {k : Unit → Cursor β}
    (h : Agrees source text (rest.dropWhile Text.isInlineBlank) (k ()) result) :
    Agrees source text rest (skipInlineBlank >>= k) result :=
  Agrees.skipWhile ((steady_beq (by decide)).or (steady_beq (by decide))) h

/-- The part of the text between two of its ends. -/
theorem Agrees.slice {k : List Char → Cursor β} {start stop middle : List Char}
    (parts : start = middle ++ stop) (ends : start <:+ text)
    (h : Agrees source text rest (k middle) result) :
    Agrees source text rest (slice (place source start) (place source stop) >>= k) result := by
  intro inside
  refine Agrees.step (fun _ => ?_) id h inside
  subst parts
  have starts := ends.trans inside
  have stops := (List.suffix_append middle stop).trans starts
  have ordered : place source (middle ++ stop) ≤ place source stop :=
    (place_append middle starts).symm ▸ Nat.le_add_right _ _
  rw [slice_apply, if_pos ⟨ordered, isBoundary_place starts, isBoundary_place stops⟩,
    extract_place middle starts]

theorem Agrees.sliceToEnd {k : List Char → Cursor β} {start : List Char} (ends : start <:+ text)
    (h : Agrees source text rest (k start) result) :
    Agrees source text rest (Cursor.slice (place source start) source.utf8ByteSize >>= k) result :=
  Agrees.slice (List.append_nil start).symm ends h

theorem sliceFrom?_place (inside : rest <:+ source.toList) (offset : Nat) :
    sliceFrom? (place source rest) source offset = .ok (some rest, offset) := by
  have taken := extract_place rest (by simpa using inside : rest ++ [] <:+ _)
  rw [List.append_nil, place_nil] at taken
  change (ite _ _ _ : Cursor _) source _ = _
  rw [if_pos (isBoundary_place inside), taken]
  rfl

theorem Agrees.bumpChar {k : Unit → Cursor β} (h : Agrees source text (rest.drop 1) (k ()) result) :
    Agrees source text rest (bumpChar >>= k) result := by
  refine Agrees.step (fun inside => ?_) (List.drop_suffix 1 rest).trans h
  rw [Cursor.bumpChar, bind_apply]
  change (sliceFrom? (place source rest) >>= _) source _ = _
  rw [bind_apply, sliceFrom?_place inside]
  cases rest with
  | nil => rfl
  | cons c rest =>
    have size : byteSize [c] = c.utf8Size := by
      simp [byteSize]
    rw [List.drop_one, List.tail_cons, place_append [c] inside, size]
    rfl

/-- The place of the next line feed. -/
def newline? (source : String) (text : List Char) : Option Nat :=
  match text.dropWhile (· != '\n') with
  | [] => none
  | after => some (place source after)

theorem steady_ne_lineFeed : Steady (· != '\n') := (steady_beq (by decide)).not

theorem findIdx?_eq_none_of_not_mem {line : List Char} (lineFeedFree : '\n' ∉ line) :
    line.findIdx? (· == '\n') = none :=
  List.findIdx?_eq_none_iff.mpr fun _ member => beq_false_of_ne fun h => lineFeedFree (h ▸ member)

theorem findNewline_place {start : List Char} (starts : start <:+ source.toList) (offset : Nat) :
    findNewline (place source start) source offset = .ok (newline? source start, offset) := by
  change Except.ok ((((bytes source).drop (place source start)).findIdx? (· == '\n')).map
    (place source start + ·), _) = _
  have none_before : ((codes start).takeWhile (· != '\n')).findIdx? (· == '\n') = none :=
    findIdx?_eq_none_of_not_mem fun member => by
      simpa using List.mem_takeWhile_imp member
  rw [bytes_drop_place starts, newline?, ← List.takeWhile_append_dropWhile (p := (· != '\n'))
    (l := codes start), List.findIdx?_append, none_before, Option.none_or,
    takeWhile_codes steady_ne_lineFeed, dropWhile_codes steady_ne_lineFeed, length_codes]
  have head := List.head?_dropWhile_not (· != '\n') start
  cases hd : start.dropWhile (· != '\n') with
  | nil => simp
  | cons c after =>
    rw [hd, List.head?_cons] at head
    obtain rfl : c = '\n' := by simpa using head
    have moved := place_dropWhile (· != '\n') starts
    rw [hd] at moved
    rw [codes_plain (by decide), List.findIdx?_cons]
    simp [moved]

theorem Agrees.findNewline {k : Option Nat → Cursor β} {start : List Char} (ends : start <:+ text)
    (h : Agrees source text rest (k (newline? source start)) result) :
    Agrees source text rest (findNewline (place source start) >>= k) result := fun inside =>
  Agrees.step (fun _ => findNewline_place (ends.trans inside) _) id h inside

/-- So many bytes of the text from one of its ends on, or as many as there are. -/
theorem Agrees.byteSlice {k : List Char → Cursor β} {start : List Char} (count : Nat)
    (ends : start <:+ text) (h : Agrees source text rest (k ((codes start).take count)) result) :
    Agrees source text rest (byteSlice (place source start)
      (min (place source start + count) source.utf8ByteSize) >>= k) result := by
  intro inside
  refine Agrees.step (fun _ => ?_) id h inside
  have size := place_add_byteSize (ends.trans inside)
  rw [byteSlice_apply, if_pos (by omega), bytes_drop_place (ends.trans inside)]
  congr 2
  by_cases short : count ≤ (codes start).length
  · rw [length_codes] at short
    congr 1
    omega
  · rw [List.take_of_length_le (Nat.le_of_not_le short), List.take_of_length_le]
    rw [length_codes] at short ⊢
    omega

/-- The byte in front of the end of the text behind a character below 128. -/
theorem Agrees.byteBefore {k : Char → Cursor β} {start : List Char} (plain : c.toNat < 128)
    (ends : c :: start <:+ text) (h : Agrees source text rest (k c) result) :
    Agrees source text rest (byteBefore (place source start) >>= k) result := by
  intro inside
  refine Agrees.step (fun _ => ?_) id h inside
  have byte : (bytes source)[place source (c :: start)]? = some c := by
    rw [← List.head?_drop, bytes_drop_place (ends.trans inside), codes_plain plain,
      List.head?_cons]
  rw [place_cons plain (ends.trans inside), byteBefore_succ, byte]

/-! ## Failing -/

/-- The last line is found from the end of the text. -/
theorem lastLineStart_codes {lines line : List Char} (whole : EndsLines lines)
    (lineFeedFree : '\n' ∉ line) :
    lastLineStart (codes (lines ++ line)) = byteSize lines := by
  have absent : (codes line).reverse.findIdx? (· == '\n') = none := by
    refine findIdx?_eq_none_of_not_mem ?_
    rw [List.mem_reverse, ← List.count_eq_zero, count_codes (by decide), List.count_eq_zero]
    exact lineFeedFree
  rw [lastLineStart, length_codes, codes_append, List.reverse_append, List.findIdx?_append, absent,
    Option.none_or, List.length_reverse, length_codes]
  obtain rfl | ⟨more, c, rfl⟩ := lines.eq_nil_or_concat'
  · rfl
  · obtain rfl := whole c List.getLast?_concat
    rw [codes_append, codes_plain (by decide), codes_nil, List.reverse_append,
      List.reverse_singleton, List.singleton_append, List.findIdx?_cons, Grammar.byteSize_append]
    simp

theorem byteSlice_codes (skipped taken : List Char) {after : List Char}
    (parts : source.toList = skipped ++ taken ++ after) (offset : Nat) :
    byteSlice (byteSize skipped) (byteSize (skipped ++ taken)) source offset =
      .ok (codes taken, offset) := by
  have size : source.utf8ByteSize = byteSize (skipped ++ taken) + byteSize after := by
    rw [← Grammar.byteSize_append, ← parts, Grammar.byteSize_toList]
  have bounds : byteSize skipped ≤ byteSize (skipped ++ taken) ∧
      byteSize (skipped ++ taken) ≤ source.utf8ByteSize := by
    rw [size, Grammar.byteSize_append]
    omega
  rw [byteSlice_apply, if_pos bounds, bytes_eq, parts, List.append_assoc, codes_append,
    codes_append, Grammar.byteSize_append, Nat.add_sub_cancel_left, ← length_codes,
    ← length_codes, List.drop_left, List.take_left]

theorem fail_apply (fault : Fault) (text : String) (offset : Nat) :
    (fail fault : Cursor α) text offset = (do
      let stop := min offset text.utf8ByteSize
      let before ← byteSlice 0 stop
      let line ← byteSlice (lastLineStart before) stop
      throw (.failed ⟨fault, stop, before.count '\n' + 1, line.countP (!isContinuation ·) + 1⟩
        offset) : Cursor α) text offset := rfl

theorem fail_place (fault : Fault) (inside : rest <:+ source.toList) :
    (fail fault : Cursor α) source (place source rest) =
      .error (.failed (Failure.locate source.toList ⟨fault, rest⟩) (place source rest)) := by
  obtain ⟨front, parts⟩ := inside
  obtain ⟨lines, line, rfl, whole, lineFeedFree⟩ := exists_lines front
  have here : place source rest = byteSize (lines ++ line) := place_eq parts.symm
  have stop : min (place source rest) source.utf8ByteSize = byteSize (lines ++ line) := by
    rw [← here, Nat.min_eq_left (place_le source rest)]
  have located := Failure.locate_eq whole lineFeedFree ⟨fault, rest⟩
  rw [parts] at located
  have before := byteSlice_codes [] (lines ++ line) parts.symm (place source rest)
  have onLine := byteSlice_codes lines line parts.symm (place source rest)
  rw [fail_apply, stop, bind_apply,
    show byteSlice 0 (byteSize (lines ++ line)) source (place source rest) = _ from before]
  simp only
  rw [bind_apply, lastLineStart_codes whole lineFeedFree, onLine, located, count_codes (by decide),
    List.count_append, List.count_eq_zero.mpr lineFeedFree, Nat.add_zero]
  simp only [countP_codes]
  rfl

theorem Agrees.fail (fault : Fault) :
    Agrees source text rest (fail fault : Cursor α) (.error ⟨fault, rest⟩) :=
  fun inside ends => ⟨fail_place fault (ends.trans inside), ends⟩

theorem Agrees.fail_bind (fault : Fault) :
    Agrees source text rest (Cursor.fail fault >>= k) (.error ⟨fault, rest⟩) := fun inside ends =>
  ⟨by rw [bind_apply, fail_place fault (ends.trans inside)]; rfl, ends⟩

/-! ## Readings put together -/

theorem Agrees.last (h : Agrees source text rest (m >>= Pure.pure) found) :
    Agrees source text rest m found := by
  rwa [bind_pure] at h

theorem skipOne_bind (c : Char) (k : Unit → Cursor β) :
    skipOne c >>= k = peek >>= fun byte =>
      (if byte = some c then advance 1 else pure ()) >>= k := by
  rw [skipOne, bind_assoc]

theorem Agrees.skipOne_pos {k : Unit → Cursor β} (plain : c.toNat < 128)
    (h : Agrees source text rest (k ()) result) :
    Agrees source text (c :: rest) (skipOne c >>= k) result := by
  rw [skipOne_bind]
  refine .peek ?_
  rw [codes_plain plain, List.head?_cons, if_pos rfl]
  exact .advance plain h

theorem Agrees.skipOne_neg {k : Unit → Cursor β} (plain : c.toNat < 128)
    (other : rest.head? ≠ some c) (h : Agrees source text rest (k ()) result) :
    Agrees source text rest (skipOne c >>= k) result := by
  rw [skipOne_bind]
  refine .peek ?_
  rw [if_neg (mt (head?_codes plain rest).mp other), pure_bind]
  exact h

theorem Agrees.choice {C D : Prop} [Decidable C] [Decidable D] (same : C ↔ D)
    (held : D → Agrees source text rest m found) (failed : ¬D → Agrees source text rest m' found') :
    Agrees source text rest (if C then m else m') (if D then found else found') := by
  by_cases hd : D
  · rw [if_pos (same.mpr hd), if_pos hd]
    exact held hd
  · rw [if_neg (hd ∘ same.mp), if_neg hd]
    exact failed hd

/-- What agrees on an end of a text agrees on the text. -/
theorem Agrees.mono (h : Agrees source rest rest m found) : Agrees source text rest m found := by
  intro inside ends
  obtain ⟨run, stops⟩ := h (ends.trans inside) (List.suffix_refl _)
  exact ⟨run, stops.trans ends⟩

theorem Agrees.bind (h : Agrees source rest rest m (p rest))
    (hk : ∀ a next, next <:+ rest → p rest = .ok (a, next) →
      Agrees source text next (k a) (l a next)) :
    Agrees source text rest (m >>= k) ((p >>= l) rest) := by
  intro inside ends
  obtain ⟨run, stops⟩ := h (ends.trans inside) (List.suffix_refl _)
  rw [bind_apply, Text.Reader.bind_apply, run]
  cases hp : p rest with
  | error failure =>
    rw [hp] at stops
    exact ⟨rfl, stops.trans ends⟩
  | ok read =>
    obtain ⟨a, next⟩ := read
    rw [hp] at stops
    exact hk a next stops hp inside (stops.trans ends)

/-- A reading that always succeeds is a step. -/
theorem Agrees.step_of {a : α} (read : Agrees source rest rest m (.ok (a, next)))
    (h : Agrees source text next (k a) result) : Agrees source text rest (m >>= k) result := by
  intro inside ends
  obtain ⟨run, stops⟩ := read (ends.trans inside) (List.suffix_refl rest)
  rw [bind_apply, run]
  exact h inside (List.IsSuffix.trans stops ends)

theorem Follows.bind (h : Follows source m p) (hk : ∀ a, Follows source (k a) (l a)) :
    Follows source (m >>= k) (p >>= l) :=
  fun rest => (h rest).bind fun a next _ _ => (hk a next).mono

theorem Agrees.map {f : α → β} (h : Agrees source rest rest m (p rest)) :
    Agrees source text rest (f <$> m) ((f <$> p) rest) := by
  rw [map_eq_pure_bind, map_eq_pure_bind]
  exact h.bind fun a next _ _ => .pure (f a)

theorem expect_follows (plain : c.toNat < 128) :
    Follows source (expect c) (Grammar.Parser.expect c) := by
  intro rest
  rw [Grammar.Parser.expect_apply]
  refine .peek (.choice (head?_codes plain rest) (fun next => ?_) fun _ => .fail _)
  obtain ⟨rest, rfl⟩ := List.head?_eq_some_iff.mp next
  exact .last (.advance plain (.pure ()))

/-- A round that is not the last one uses up text. -/
def Advances (text : List Char) (found : Except Failure (Round σ × List Char)) : Prop :=
  ∀ state next, found = .ok (.again state, next) → next.length < text.length

theorem advances_again {state : σ} (shorter : next.length < text.length) :
    Advances text (.ok (.again state, next)) := by
  rintro _ _ ⟨⟩
  exact shorter

theorem Advances.mono {found : Except Failure (Round σ × List Char)} (h : Advances rest found)
    (ends : rest <:+ text) : Advances text found :=
  fun state next round => (h state next round).trans_le ends.length_le

theorem Advances.bind {l : α → Parser (Round σ)}
    (h : ∀ a next, p rest = .ok (a, next) → Advances text (l a next)) :
    Advances text ((p >>= l) rest) := by
  intro state last found
  rw [Text.Reader.bind_apply] at found
  cases read : p rest with
  | error failure =>
    rw [read] at found
    cases found
  | ok result =>
    rw [read] at found
    exact h result.1 result.2 read state last found

/-- Rounds that agree may be repeated, if each of them but the last uses up text. -/
theorem Agrees.iterate {round : σ → Cursor (Round σ)} {round' : σ → Parser (Round σ)}
    (agree : ∀ state next, next <:+ rest → next <:+ source.toList →
      Agrees source next next (round state) (round' state next) ∧
        Advances next (round' state next)) (state : σ) :
    Agrees source rest rest (iterate round state) (Text.Reader.iterate round' state rest) := by
  intro inside _
  induction hn : rest.length using Nat.strongRecOn generalizing rest state with
  | ind n ih =>
    subst hn
    obtain ⟨agrees, advances⟩ := agree state rest (List.suffix_refl _) inside
    obtain ⟨run, stops⟩ := agrees inside (List.suffix_refl _)
    rw [Cursor.iterate, Text.Reader.iterate, run]
    cases hr : round' state rest with
    | error failure =>
      rw [hr] at stops
      exact ⟨rfl, stops⟩
    | ok read =>
      obtain ⟨⟨state'⟩ | ⟨state'⟩, next⟩ := read
      · rw [hr] at stops
        have shorter := advances state' next hr
        have later := (place_lt_iff inside (stops.trans inside)).mpr shorter
        obtain ⟨run', stops'⟩ := ih next.length shorter
          (fun state after ends => agree state after (ends.trans stops))
          state' (stops.trans inside) (List.suffix_refl next) rfl
        simp only [if_pos shorter]
        refine ⟨?_, stops'.trans stops⟩
        change (if _ then _ else _) = _
        rw [if_pos ⟨later, place_le source next⟩]
        exact run'
      · rw [hr] at stops
        exact ⟨rfl, stops⟩

/-- Rounds that end with the first one. -/
theorem Agrees.iterate_done {round : σ → Cursor (Round σ)} {state last : σ}
    (h : Agrees source text text (round state) (.ok (.done last, rest))) :
    Agrees source text text (Cursor.iterate round state) (.ok (last, rest)) := by
  intro inside ends
  obtain ⟨run, stops⟩ := h inside ends
  rw [Cursor.iterate, run]
  exact ⟨rfl, stops⟩

/-- Where a step agrees that may use the readings in question on shorter text only, the readings
built from the step do. -/
theorem Agrees.recursive {step : Cursor α → Cursor α} {step' : Parser α → Parser α}
    {stuck : List Char → Failure}
    (agree : ∀ rest m p, (∀ next, next.length < rest.length → Agrees source next next m (p next)) →
      Agrees source rest rest (step m) (step' p rest)) :
    Follows source (recursive step) (Text.Reader.recursive stuck step') := by
  intro rest
  induction hn : rest.length using Nat.strongRecOn generalizing rest with
  | ind n ih =>
    subst hn
    intro inside ends
    rw [Cursor.recursive, Text.Reader.recursive]
    refine agree rest _ _ (fun next shorter => ?_) inside ends
    intro inside' ends'
    have later := (place_lt_iff inside inside').mpr shorter
    simp only [if_pos (And.intro later (place_le source next)), if_pos shorter]
    exact ih next.length shorter next rfl inside' ends'

end Fluent.Cursor
