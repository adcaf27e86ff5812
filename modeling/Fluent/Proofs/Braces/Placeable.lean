import Fluent.Proofs.Braces.Variants
import Fluent.Proofs.Soundness.Placeable

/-!
# Pairs of braces inside one another

A placeable is read from behind its opening brace on with room for one pair of braces less, and ends
at the closing brace that scanning it finds.

* `encloses_placeableInside`: a placeable from behind its opening brace on;
* `nests`: a placeable with the one brace more that it takes;
* `nesting_of_placeable`: braces that are read nest no deeper than there is room;
* `PairReads.wrap`: a pair of braces directly inside another one.
-/

namespace Fluent.Grammar.Braces

open Fluent.Grammar.Parser Fluent.Text.Reader

variable {r : Nat} {m m' : Mode} {body rest text : List Char} {c : Char}

/-! ## Closing braces -/

theorem local_skipBlank_settled : Local r Settled (fun _ => skipBlank) fun _ => Settled where
  shrinks _ _ := shrinks_skipWhile Text.isBlank
  reads m body settled := by
    have none : body.dropWhile Text.isBlank = body := by
      cases body with
      | nil => rfl
      | cons c body => exact List.dropWhile_cons_of_neg (Bool.eq_false_iff.mp settled.1)
    refine localAt_of_all (a := ()) (fun frame => ?_) (List.nil_append body).symm walks_nil settled
    refine congrArg (fun text => Except.ok ((), text)) ?_
    rw [dropWhile_close frame rfl, none]

theorem encloses_expect : Encloses r Settled fun _ => expect '}' where
  braced _ _ text a rest read := by
    rw [expect_apply] at read
    split at read
    · rename_i here
      obtain ⟨next, rfl⟩ := List.head?_eq_some_iff.mp here
      obtain ⟨-, rfl⟩ := Prod.mk.inj (Except.ok.inj read)
      exact List.suffix_refl _
    · cases read
  reads m body settled frame _ a read := by
    cases body with
    | nil =>
      exact ⟨0, Nat.zero_le _, walks_closes settled.2, .of_all fun _ => rfl⟩
    | cons c body =>
      replace read := (expect_apply '}' (frame.close (c :: body))).symm.trans read
      split at read
      · exact absurd (Prod.mk.inj (Except.ok.inj read)).2 (close_ne_tail frame body)
      · cases read

theorem encloses_closePlaceable : Encloses r Settled fun _ => closePlaceable :=
  local_skipBlank_settled.encloses fun _ => encloses_expect

theorem encloses_selectMembers (nests : Nests r) (selector : Expression) :
    Encloses r Settled fun frame => selectMembers (placeable frame.room) selector := by
  refine (local_variants nests).encloses ?_
  rintro ⟨members, standard⟩
  exact .choice (fun _ => .fails nofun) fun _ => encloses_closePlaceable.map _

/-- Whether the line that starts behind blank text is another one. -/
def startsLine (text : List Char) : Bool :=
  text.head? == some '\n' || text.head? == some '\r' && (text.drop 1).head? == some '\n'

/-- Variants start on another line than their selector. -/
theorem selectTail_apply (p : Parser Expression) (selector : Expression) (text : List Char) :
    selectTail p selector text =
      if startsLine (text.dropWhile Text.isInlineBlank) then
        selectMembers p selector (text.dropWhile Text.isBlank)
      else .error ⟨.variantsOnNewLine, text.dropWhile Text.isInlineBlank⟩ := by
  have behind := (span_span LastLine.isBlank_of_isInlineBlank text).2
  rw [behind]
  cases next : text.dropWhile Text.isInlineBlank with
  | nil => exact selectTail_other next nofun nofun
  | cons c rest =>
    by_cases lineFeed : c = '\n'
    · subst lineFeed
      rw [selectTail_lineFeed next]
      rfl
    by_cases crlf : c = '\r' ∧ rest.head? = some '\n'
    · obtain ⟨rfl, here⟩ := crlf
      obtain ⟨rest, rfl⟩ := List.head?_eq_some_iff.mp here
      rw [selectTail_return next]
      rfl
    · rw [if_neg (by simpa [startsLine, lineFeed] using crlf)]
      refine selectTail_other next (by simpa using lineFeed) fun after same => crlf ?_
      obtain ⟨rfl, rfl⟩ := List.cons.inj same
      exact ⟨rfl, rfl⟩

theorem startsLine_close (frame : Frame) (body : List Char) :
    startsLine (frame.close body) =
      (ahead body == '\n' || ahead body == '\r' && ahead body.tail == '\n') := by
  cases body with
  | nil => rfl
  | cons c body =>
    rw [startsLine, close_cons, List.head?_cons, List.drop_one, List.tail_cons, head?_close]
    rfl

theorem encloses_selectTail (nests : Nests r) (selector : Expression) :
    Encloses r (fun m _ => m = .code false)
      fun frame => selectTail (placeable frame.room) selector where
  braced frame room text x rest read := by
    rw [selectTail_apply] at read
    split at read
    · exact ((encloses_selectMembers nests selector).braced frame room _ x rest read).trans
        (List.dropWhile_suffix _)
    · cases read
  reads m body code := by
    subst code
    have same (frame : Frame) :
        selectTail (placeable frame.room) selector (frame.close body) =
          if ahead (body.dropWhile Text.isInlineBlank) == '\n' ||
              ahead (body.dropWhile Text.isInlineBlank) == '\r' &&
                ahead (body.dropWhile Text.isInlineBlank).tail == '\n' then
            selectMembers (placeable frame.room) selector
              (frame.close (body.dropWhile Text.isBlank))
          else .error ⟨.variantsOnNewLine,
            frame.close (body.dropWhile Text.isInlineBlank)⟩ := by
      rw [selectTail_apply, dropWhile_close frame rfl, dropWhile_close frame rfl,
        startsLine_close]
    by_cases line : (ahead (body.dropWhile Text.isInlineBlank) == '\n' ||
        ahead (body.dropWhile Text.isInlineBlank) == '\r' &&
          ahead (body.dropWhile Text.isInlineBlank).tail == '\n') = true
    · refine ((encloses_selectMembers nests selector).reads (.code false) _
        (settled_code body)).skip List.takeWhile_append_dropWhile.symm (walks_blank body)
        fun frame => (same frame).trans (if_pos line)
    · intro frame _ x read
      cases ((same frame).trans (if_neg line)).symm.trans read

/-- What is read behind the expression of a placeable: its closing brace, or variants. -/
theorem placeableTail_cases {p : Parser Expression} {shown x : Expression}
    (read : placeableTail p shown text = .ok (x, rest)) :
    (text.dropWhile Text.isBlank = '}' :: rest ∧ isTermAttribute shown = false ∧ x = shown) ∨
      ∃ after, text.dropWhile Text.isBlank = '-' :: '>' :: after ∧ selectorFault? shown = none ∧
        selectTail p shown after = .ok (x, rest) := by
  by_cases close : (text.dropWhile Text.isBlank).head? = some '}'
  · obtain ⟨next, stop⟩ := List.head?_eq_some_iff.mp close
    rw [placeableTail_close stop] at read
    split at read
    · cases read
    · rename_i plain
      obtain ⟨rfl, rfl⟩ := Prod.mk.inj (Except.ok.inj read)
      exact .inl ⟨stop, Bool.eq_false_iff.mpr plain, rfl⟩
  by_cases arrow : ∃ next, text.dropWhile Text.isBlank = '-' :: '>' :: next
  · obtain ⟨next, stop⟩ := arrow
    rw [placeableTail_arrow stop] at read
    split at read
    · cases read
    · exact .inr ⟨next, stop, ‹_›, read⟩
  · rw [placeableTail_other rfl close fun next stop => arrow ⟨next, stop⟩] at read
    cases read

theorem encloses_placeableTail (nests : Nests r) (shown : Expression) :
    Encloses r (fun m _ => InCode m)
      fun frame => placeableTail (placeable frame.room) shown where
  braced frame room text x rest read := by
    have blank := List.dropWhile_suffix (l := text) Text.isBlank
    obtain ⟨stop, -, -⟩ | ⟨after, stop, -, read⟩ := placeableTail_cases read
    · exact stop ▸ blank
    · refine ((encloses_selectTail nests shown).braced frame room after x rest read).trans ?_
      rw [stop] at blank
      exact ((List.suffix_cons _ _).trans (List.suffix_cons _ _)).trans blank
  reads m body code frame room x read := by
    obtain ⟨m', ⟨named, rfl⟩, walks⟩ := stays_codeBlank.walks_takeWhile code body
    have stop (frame : Frame) := dropWhile_close frame (p := Text.isBlank) rfl body
    have parts : body.takeWhile Text.isBlank ++ body.dropWhile Text.isBlank = body :=
      List.takeWhile_append_dropWhile
    generalize body.dropWhile Text.isBlank = next at stop parts
    generalize body.takeWhile Text.isBlank = run at walks parts
    subst parts
    obtain ⟨close, plain, rfl⟩ | ⟨after, arrow, none, -⟩ := placeableTail_cases read
    · have last : frame.close next = frame.close [] := (stop frame).symm.trans close
      obtain rfl := close_inj last
      rw [List.append_nil] at stop ⊢
      refine ⟨0, Nat.zero_le _, walks.append (walks_closes rfl), .of_all fun other => ?_⟩
      exact (placeableTail_close (stop other)).trans (if_neg (Bool.eq_false_iff.mp plain))
    · obtain ⟨next, rfl, behind⟩ := close_eq_cons ((stop frame).symm.trans arrow) (by decide)
      obtain ⟨next, rfl, -⟩ := close_eq_cons behind.symm (by decide)
      have hyphen : Walks 0 (.code named) ['-'] [.code true] := walks_stay rfl
      have mark : Walks 0 (.code true) ['>'] [.code false] := walks_stay rfl
      have parts : run ++ '-' :: '>' :: next = run ++ ['-', '>'] ++ next := by simp
      have select : EnclosesAt r (fun frame => placeableTail (placeable frame.room) shown) m
          (run ++ '-' :: '>' :: next) := by
        refine ((encloses_selectTail nests shown).reads _ next rfl).skip parts
          (walks.append (hyphen.append mark)) fun frame => ?_
        rw [placeableTail_arrow (stop frame), none]
        rfl
      exact select frame room x read

/-! ## Pairs of braces -/

/-- Reads a placeable from behind its opening brace on. -/
def placeableInside (p : Parser Expression) : Parser Expression :=
  fun text => placeableBody p ('{' :: text)

theorem encloses_variantList (nests : Nests r) : Encloses r Settled fun frame => (do
    let (members, standard) ← variants (placeable frame.room)
    closePlaceable
    return .variantList members standard : Parser Expression) := by
  refine (local_variants nests).encloses ?_
  rintro ⟨members, standard⟩
  exact encloses_closePlaceable.map _

theorem encloses_shown (nests : Nests r) : Encloses r (fun m _ => InCode m) fun frame =>
    inlineExpression (placeable frame.room) >>= placeableTail (placeable frame.room) :=
  (local_inlineExpression nests).encloses fun shown => encloses_placeableTail nests shown

theorem braced_placeableBody (nests : Nests r) : Braced (placeableBody (placeable r)) := by
  intro text x rest read
  cases text with
  | nil =>
    rw [placeableBody, advance_bind_apply, get_bind_apply] at read
    change (skipInlineBlank >>= _) [] = _ at read
    rw [skipInlineBlank_bind_apply, List.dropWhile_nil, bind_error inlineExpression_nil] at read
    cases read
  | cons c text =>
    refine List.IsSuffix.trans ?_ (List.suffix_cons c text)
    rw [placeableBody_cons] at read
    split at read
    · exact ((encloses_variantList nests).braced ⟨r, []⟩ rfl _ x rest read).trans
        (List.dropWhile_suffix _)
    · exact ((encloses_shown nests).braced ⟨r, []⟩ rfl _ x rest read).trans
        (List.dropWhile_suffix _)

theorem startsVariantList_close (frame : Frame) (body : List Char) :
    startsVariantList (frame.close body) =
      (ahead (body.dropWhile Text.isBlank) == '*' ||
        ahead (body.dropWhile Text.isBlank) == '[' &&
          ahead (body.dropWhile Text.isBlank).tail != ']') := by
  rw [startsVariantList_eq (dropWhile_close frame rfl body)]
  cases body.dropWhile Text.isBlank with
  | nil => rfl
  | cons c rest =>
    rw [close_cons, List.head?_cons, List.drop_one, List.tail_cons, head?_close]
    rfl

theorem encloses_placeableInside (nests : Nests r) :
    Encloses r (fun m _ => m = .code false)
      fun frame => placeableInside (placeable frame.room) where
  braced frame room text x rest read := by
    subst room
    exact ((List.suffix_cons_iff.mp (braced_placeableBody nests _ x rest read)).resolve_left
      fun same => absurd (List.cons.inj same).1 (by decide))
  reads m body code := by
    subst code
    have same (frame : Frame) :
        placeableInside (placeable frame.room) (frame.close body) =
          if startsVariantList (frame.close body) then (do
            let (members, standard) ← variants (placeable frame.room)
            closePlaceable
            return .variantList members standard : Parser _)
              (frame.close (body.dropWhile Text.isBlank))
          else (inlineExpression (placeable frame.room) >>= placeableTail (placeable frame.room))
            (frame.close (body.dropWhile Text.isInlineBlank)) := by
      rw [placeableInside, placeableBody_cons, dropWhile_close frame rfl, dropWhile_close frame rfl]
    simp only [startsVariantList_close] at same
    by_cases list : (ahead (body.dropWhile Text.isBlank) == '*' ||
        ahead (body.dropWhile Text.isBlank) == '[' &&
          ahead (body.dropWhile Text.isBlank).tail != ']') = true
    · refine ((encloses_variantList nests).reads (.code false) _ (settled_code body)).skip
        List.takeWhile_append_dropWhile.symm (walks_blank body) fun frame => ?_
      exact (same frame).trans (if_pos list)
    · obtain ⟨m', code, walks⟩ := stays_codeInlineBlank.walks_takeWhile ⟨false, rfl⟩ body
      refine ((encloses_shown nests).reads m' _ code).skip
        List.takeWhile_append_dropWhile.symm walks fun frame => ?_
      exact (same frame).trans (if_neg list)

/-- A pair of braces is read as `x` where there is room for `k` of them inside one another, and
fails for want of room where there is not. -/
structure PairReads (k : Nat) (inner : List Char) (x : Expression) : Prop where
  enough : ∀ room tail, k ≤ room →
    placeable room ('{' :: (inner ++ '}' :: tail)) = .ok (x, tail)
  short : ∀ room tail, room < k → ∃ stop,
    placeable room ('{' :: (inner ++ '}' :: tail)) = .error ⟨.tooDeeplyNested, stop⟩

/-- A pair of braces takes room for one more than what is inside. -/
theorem Reads.pair {k : Nat} {inner : List Char} {x : Expression}
    (reads : Reads (fun frame => placeableInside (placeable frame.room)) k inner Frame.tail x) :
    PairReads (k + 1) inner x where
  enough room tail deep := by
    cases room with
    | zero => exact absurd deep (Nat.not_succ_le_zero k)
    | succ room => exact reads.enough ⟨room, tail⟩ (Nat.le_of_succ_le_succ deep)
  short room tail flat := by
    cases room with
    | zero => exact ⟨_, rfl⟩
    | succ room => exact reads.short ⟨room, tail⟩ (Nat.lt_of_succ_lt_succ flat)

/-- What is read of a pair of braces is read from its inside, which ends at some closing brace. -/
theorem exists_pair (nests : Nests r) {x : Expression}
    (read : placeableInside (placeable r) text = .ok (x, rest)) :
    ∃ inner k, text = inner ++ '}' :: rest ∧ k ≤ r ∧ Walks k (.code false) (inner ++ ['}']) [] ∧
      PairReads (k + 1) inner x := by
  have encloses := encloses_placeableInside nests
  obtain ⟨inner, rfl⟩ := encloses.braced ⟨r, []⟩ rfl text x rest read
  obtain ⟨k, small, walks, reads⟩ := encloses.reads (.code false) inner rfl ⟨r, rest⟩ rfl x read
  exact ⟨inner, k, rfl, small, walks, reads.pair⟩

theorem nests (r : Nat) : Nests r := by
  induction r with
  | zero =>
    have none (text : List Char) (x : Expression) (rest : List Char) :
        placeable 0 text ≠ .ok (x, rest) := by rintro ⟨⟩
    refine ⟨fun text x rest read => absurd read (none text x rest), fun m₀ => ⟨?_, ?_⟩⟩
    · intro frame room text x rest read
      exact absurd (room ▸ read) (none text x rest)
    · intro m body _ frame room x rest read
      dsimp only at read
      exact absurd (room ▸ read) (none _ x _)
  | succ r ih =>
    have braced : Braced (placeable (r + 1)) := braced_placeableBody ih
    refine ⟨braced, fun m₀ => ⟨fun frame room => room ▸ braced.shrinks, ?_⟩⟩
    rintro m body ⟨opens, here⟩ frame room x rest read
    obtain ⟨body, rfl⟩ := exists_cons_of_ahead (Option.some_inj.mp here).symm (by decide)
    dsimp only at read
    rw [room] at read
    obtain ⟨inner, k, parts, small, walks, pair⟩ := exists_pair ih read
    have whole : frame.close body = frame.close (inner ++ '}' :: rest) :=
      parts.trans (close_append frame inner ('}' :: rest)).symm
    obtain rfl := close_inj whole
    refine ⟨k + 1, '{' :: (inner ++ ['}']), m₀, Nat.succ_le_succ small, by simp,
      walks_opens opens walks, rfl, fun frame room => ?_, fun frame room => ?_⟩
    · rw [close_cons, close_append, close_cons]
      exact pair.enough frame.room _ room
    · rw [close_cons, close_append, close_cons]
      exact pair.short frame.room _ room

/-- What is read as a placeable is a pair of braces, which nest as deep as there is room at most. -/
theorem pair_of_placeable {x : Expression} (read : placeable r ('{' :: text) = .ok (x, rest)) :
    ∃ inner k, text = inner ++ '}' :: rest ∧ k < r ∧ Walks k (.code false) (inner ++ ['}']) [] ∧
      PairReads (k + 1) inner x := by
  cases r with
  | zero => cases read
  | succ r =>
    obtain ⟨inner, k, parts, small, pair⟩ := exists_pair (nests r) read
    exact ⟨inner, k, parts, Nat.lt_succ_of_le small, pair⟩

/-- Braces that are read nest, and no deeper than there is room. -/
theorem nesting_of_placeable {inner tail : List Char} {x : Expression}
    (read : placeable r ('{' :: (inner ++ '}' :: tail)) = .ok (x, tail)) :
    ∃ k ≤ r, nesting ('{' :: (inner ++ ['}'])) = some k := by
  obtain ⟨inner', k, parts, small, walks, -⟩ := pair_of_placeable read
  obtain rfl := List.append_cancel_right parts
  exact ⟨k + 1, small, nesting_eq walks⟩

/-- A pair of braces that is read is over where scanning it says so. -/
theorem pair_of_nesting {inner tail : List Char} {x : Expression} {k : Nat}
    (read : placeable r ('{' :: (inner ++ '}' :: tail)) = .ok (x, rest))
    (depth : nesting ('{' :: (inner ++ ['}'])) = some k) :
    rest = tail ∧ PairReads k inner x ∧ ∃ k', Walks k' (.code false) (inner ++ ['}']) [] := by
  obtain ⟨inner', k', parts, -, walks, pair⟩ := pair_of_placeable read
  have within : inner' ++ ['}'] <+: inner ++ '}' :: tail :=
    ⟨rest, by rw [parts, List.append_assoc, List.singleton_append]⟩
  have within' : inner ++ ['}'] <+: inner ++ '}' :: tail :=
    ⟨tail, by rw [List.append_assoc, List.singleton_append]⟩
  suffices same : inner' ++ ['}'] = inner ++ ['}'] by
    obtain rfl := List.append_cancel_right same
    rw [eq_comm, List.append_cancel_left_eq] at parts
    obtain ⟨-, rfl⟩ := List.cons.inj parts
    obtain rfl := Option.some_inj.mp ((nesting_eq walks).symm.trans depth)
    exact ⟨rfl, pair, k', walks⟩
  obtain ⟨more, behind⟩ | ⟨more, behind⟩ := List.prefix_or_prefix_of_prefix within within'
  · rw [← behind] at depth ⊢
    rw [eq_nil_of_nesting (nesting_eq walks) depth, List.append_nil]
  · have whole := nesting_eq walks
    rw [← behind] at whole ⊢
    rw [eq_nil_of_nesting depth whole, List.append_nil]

/-- A pair of braces directly inside another one takes room for one more, and is read the same. -/
theorem PairReads.wrap {k : Nat} {inner : List Char} {x : Expression} (pair : PairReads k inner x) :
    PairReads (k + 1) ('{' :: (inner ++ ['}'])) x := by
  have shown : isTermAttribute x = false :=
    (yields_placeable k _ x [] (pair.enough k [] (Nat.le_refl k))).shown
  have same (frame : Frame) :
      placeableInside (placeable frame.room) (frame.close ('{' :: (inner ++ ['}']))) =
        (placeable frame.room >>= placeableTail (placeable frame.room))
          ('{' :: (inner ++ '}' :: '}' :: frame.tail)) := by
    have first (text : List Char) : inlineExpression (placeable frame.room) ('{' :: text) =
        placeable frame.room ('{' :: text) := by
      rw [inlineExpression_apply, inlineStep, peek_bind_apply, choice_apply]
      rfl
    rw [close_cons, close_append, placeableInside, placeableBody_cons]
    change (inlineExpression _ >>= _) ('{' :: (inner ++ '}' :: '}' :: frame.tail)) = _
    rw [bind_apply, bind_apply, first]
  refine Reads.pair ⟨fun frame deep => ?_, fun frame flat => ?_⟩
  · rw [same, bind_ok (pair.enough frame.room _ deep), placeableTail_close rfl, shown]
    rfl
  · obtain ⟨stop, fails⟩ := pair.short frame.room ('}' :: frame.tail) flat
    exact ⟨stop, by rw [same, bind_error fails]⟩

end Fluent.Grammar.Braces
