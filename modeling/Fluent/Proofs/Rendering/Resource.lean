import Fluent.Proofs.Items
import Fluent.Proofs.Rendering.Placeable
import Fluent.Proofs.Table

/-!
# Written resources are read back

Each entry is read up to the line end behind it, where the next one starts.

* `iterate_attributes`: the attributes of an entry;
* `message_render`: an entry;
* `parse_render`: a resource, with no error.
-/

namespace Fluent

/-- Pairs put into a table one after the other make up the table that lists them. -/
theorem Table.foldl_insert_toList {α : Type} (table : Table α) :
    table.toList.foldl (fun (others : Table α) pair => others.insert pair.1 pair.2) ∅ = table :=
  empty_overlay

namespace Grammar

open Fluent.Grammar.Parser Fluent.Text.Reader

/-- What may follow an entry: nothing, or another entry. -/
def FollowsEntry (tail : List Char) : Prop :=
  tail = [] ∨ ∃ c rest, tail = c :: rest ∧ (c.isAlpha = true ∨ c = '-')

section

variable {tail : List Char}

theorem FollowsEntry.head (h : FollowsEntry tail) : tail.head?.any Text.isBlank = false := by
  obtain rfl | ⟨c, rest, rfl, hc⟩ := h
  · rfl
  · refine Bool.eq_false_iff.mpr fun hb => ?_
    obtain rfl | rfl | rfl | rfl := isBlank_cases hb <;> simp at hc

theorem FollowsEntry.endsLine (h : FollowsEntry tail) : EndsLine tail := by
  have hhead := h.head
  cases tail with
  | nil => exact ⟨rfl, nofun⟩
  | cons c rest =>
    refine ⟨?_, ?_⟩
    · rw [dropBlankLines, dropBlankLinesFrom.eq_def]
      split <;> rename_i he <;> first | rfl | (cases he; cases hhead)
    · rintro ⟨⟩
      cases hhead

theorem FollowsEntry.not_startsComment (h : FollowsEntry tail) : startsComment tail = false := by
  refine Bool.eq_false_iff.mpr fun hc => ?_
  obtain ⟨c, rest, he, -⟩ := startsComment_cases hc
  obtain rfl | ⟨c, rest', rfl, ha⟩ := h
  · cases he
  · obtain ⟨rfl, -⟩ := List.cons.inj he
    simp at ha

theorem endsLine_attributes (attributes : List (String × Pattern)) (h : FollowsEntry tail) :
    EndsLine (renderAttributes attributes ++ tail) := by
  cases attributes with
  | nil => exact h.endsLine
  | cons pair attributes => exact ⟨rfl, fun _ => rfl⟩

theorem renderAttributes_cons (name : String) (value : Pattern)
    (attributes : List (String × Pattern)) (tail : List Char) :
    renderAttributes ((name, value) :: attributes) ++ tail = ' ' :: ' ' :: ' ' :: ' ' :: '.' ::
      (name.toList ++ ' ' :: '=' :: ' ' :: (value.render ++
        '\n' :: (renderAttributes attributes ++ tail))) := by
  simp only [renderAttributes, List.flatMap_cons, List.append_assoc, List.cons_append,
    List.nil_append]

theorem namedPattern_reads {name : String} {value : Pattern} (hn : isName name.toList = true)
    (hv : ReadsPattern entryPlaceable value) (ht : EndsLine tail) :
    namedPattern ('.' :: (name.toList ++ ' ' :: '=' :: ' ' :: (value.render ++ '\n' :: tail))) =
      .ok ((name, value), tail) := by
  have hname :
      identifier (name.toList ++ ' ' :: '=' :: ' ' :: (value.render ++ '\n' :: tail)) = _ :=
    identifier_append hn rfl
  have hequals (text : List Char) : expect '=' ('=' :: text) = .ok ((), text) := rfl
  have hskip (text : List Char) :
      (' ' :: '=' :: text).dropWhile Text.isInlineBlank = '=' :: text := rfl
  rw [String.ofList_toList] at hname
  rw [namedPattern, advance_bind_apply, List.drop_one, List.tail_cons, bind_ok hname,
    skipInlineBlank_bind_apply, hskip, bind_ok (hequals _), skipInlineBlank_bind_apply,
    dropWhile_render hv.1, bind_ok (hv.2 tail ht)]
  change Except.ok ((name, value), dropBlankLines tail) = _
  rw [ht.unblank]

/-- The attributes of an entry are read into a table. -/
theorem iterate_attributes {attributes : List (String × Pattern)} (ht : FollowsEntry tail)
    (hn : ∀ pair ∈ attributes, isName pair.1.toList = true)
    (hv : ∀ pair ∈ attributes, ReadsPattern entryPlaceable pair.2) (read : Table Pattern) :
    iterate attributeRound read (renderAttributes attributes ++ tail) =
      .ok (attributes.foldl (fun (others : Table Pattern) pair => others.insert pair.1 pair.2) read,
        tail) := by
  induction attributes generalizing read with
  | nil =>
    have hhead : tail.head? ≠ some ' ' := by
      intro he
      have hh := ht.head
      rw [he] at hh
      cases hh
    change iterate attributeRound read tail = .ok (read, tail)
    rw [iterate, attributeRound_apply]
    simp only [if_neg hhead]
  | cons pair attributes ih =>
    obtain ⟨name, value⟩ := pair
    have hothers := ih (fun _ hm => hn _ (List.mem_cons_of_mem _ hm))
      (fun _ hm => hv _ (List.mem_cons_of_mem _ hm)) (read.insert name value)
    have hpair := namedPattern_reads (hn _ List.mem_cons_self) (hv _ List.mem_cons_self)
      (endsLine_attributes attributes ht)
    have hround : attributeRound read (renderAttributes ((name, value) :: attributes) ++ tail) =
        .ok (.again (read.insert name value), renderAttributes attributes ++ tail) := by
      rw [renderAttributes_cons, attributeRound_apply]
      exact bind_ok hpair _
    have hlt : (renderAttributes attributes ++ tail).length <
        (renderAttributes ((name, value) :: attributes) ++ tail).length := by
      rw [renderAttributes_cons]
      simp only [List.length_cons, List.length_append]
      omega
    rw [iterate, hround]
    exact (if_pos hlt).trans hothers

/-! ## Entries -/

theorem messageHead_reads {id : String} (h : isEntryId id.toList = true) (rest : List Char) :
    messageHead (id.toList ++ ' ' :: '=' :: rest) =
      .ok (id, rest.dropWhile Text.isInlineBlank) := by
  have hid : entryIdentifier (id.toList ++ ' ' :: '=' :: rest) = _ := entryIdentifier_append h rfl
  rw [messageHead_apply, hid, String.ofList_toList]
  rfl

/-- A missing value is read as none in front of a line that does not go on with it. -/
theorem pattern_missing {placeable : Parser Expression} {rest : List Char}
    (h : EndsLine rest) (hends : EndsValue rest) :
    pattern placeable ('\n' :: rest) = .ok (none, rest) := by
  rw [pattern_apply]
  change (if EndsValue (dropBlankLines rest) then .ok (none, dropBlankLines rest) else _ :
    Except Failure (Option Pattern × List Char)) = _
  rw [h.unblank, if_pos hends]

theorem attributes?_none (ht : FollowsEntry tail) : attributes? tail = .ok (none, tail) := by
  have hhead : tail.head? ≠ some ' ' := by
    intro he
    have hh := ht.head
    rw [he] at hh
    cases hh
  rw [attributes?_apply]
  simp only [if_neg hhead]

theorem messageTail_compact {id : String} {value : Pattern} (ht : FollowsEntry tail) :
    messageTail id (some value) tail =
      .ok ((id, (Entry.node (some value) none).compact), tail) := by
  rw [messageTail, choice_apply, if_neg (by simp), bind_apply, attributes?_none ht]
  cases value <;> rfl

theorem startsAttribute_of_some {attributes : Table Pattern} (h : attributes ≠ ∅)
    (tail : List Char) : StartsAttribute (renderAttributes attributes.toList ++ tail) := by
  cases hl : attributes.toList with
  | nil => exact absurd (Std.ExtTreeMap.toList_eq_nil_iff.mp hl) h
  | cons pair others =>
    rw [renderAttributes_cons]
    exact ⟨rfl, rfl⟩

theorem messageTail_reads {id : String} {value : Option Pattern} {attributes : Table Pattern}
    (hv : EntryKind.ofId id = .term → value ≠ none)
    (ha : AttributesWellFormed deepestNesting attributes) (ht : FollowsEntry tail) :
    messageTail id value (renderAttributes attributes.toList ++ tail) =
      .ok ((id, .node value (some attributes)), tail) := by
  have hread := iterate_attributes ht
    (fun pair hm => ha.names _ _ (Std.ExtTreeMap.mem_toList_iff_getElem?_eq_some.mp hm))
    (fun pair hm => pattern_reads
      (ha.values _ _ (Std.ExtTreeMap.mem_toList_iff_getElem?_eq_some.mp hm))) ∅
  have hstart := startsAttribute_of_some ha.some tail
  rw [Table.foldl_insert_toList] at hread
  rw [messageTail_attributes hv hstart, bind_apply, hread]
  rfl

theorem message_value {id : String} {value : Pattern} {rest : List Char}
    (hid : isEntryId id.toList = true) (hv : ReadsPattern entryPlaceable value)
    (hr : EndsLine rest) :
    message (id.toList ++ ' ' :: '=' :: ' ' :: (value.render ++ '\n' :: rest)) =
      messageTail id (some value) rest := by
  rw [message_eq, bind_ok (messageHead_reads hid _), dropWhile_render hv.1, messageBody,
    bind_ok (hv.2 rest hr)]

theorem message_missing {id : String} {rest : List Char} (hid : isEntryId id.toList = true)
    (hr : EndsLine rest) (ha : StartsAttribute rest) :
    message (id.toList ++ ' ' :: '=' :: '\n' :: rest) = messageTail id none rest := by
  rw [message_eq, bind_ok (messageHead_reads hid _)]
  change messageBody id ('\n' :: rest) = _
  rw [messageBody, bind_ok (pattern_missing hr (.inr ha.2))]

theorem compact_node (value : Option Pattern) (attributes : Table Pattern) :
    (Entry.node value (some attributes)).compact = .node value (some attributes) := by
  cases value with
  | none => rfl
  | some value => cases value <;> rfl

/-- An entry is read back, as it is kept. -/
theorem message_render {id : String} {entry : Entry} (h : entry.WellFormed deepestNesting id)
    (ht : FollowsEntry tail) :
    message (entry.render id ++ tail) = .ok ((id, entry.compact), tail) := by
  cases h with
  | @text value named ends =>
    have hread := message_value named (pattern_reads (.text ends)) ht.endsLine
    rw [messageTail_compact ht] at hread
    simpa only [Entry.render, Entry.compact, List.append_assoc, List.cons_append,
      List.nil_append] using hread
  | @node value attributes named filled term values inner =>
    cases attributes with
    | none =>
      cases value with
      | none => exact absurd rfl (filled rfl)
      | some value =>
        have hread := message_value named (pattern_reads (values value rfl)) ht.endsLine
        rw [messageTail_compact ht] at hread
        simpa only [Entry.render, Option.elim_some, Option.elim_none, List.append_assoc,
          List.cons_append, List.nil_append] using hread
    | some attributes =>
      have ha := inner attributes rfl
      have hends := endsLine_attributes attributes.toList ht
      rw [compact_node, ← messageTail_reads term ha ht]
      cases value with
      | none =>
        have hread := message_missing named hends (startsAttribute_of_some ha.some tail)
        simpa only [Entry.render, Option.elim_some, Option.elim_none, List.append_assoc,
          List.cons_append, List.nil_append] using hread
      | some value =>
        have hread := message_value named (pattern_reads (values value rfl)) hends
        simpa only [Entry.render, Option.elim_some, Option.elim_none, List.append_assoc,
          List.cons_append, List.nil_append] using hread

/-! ## Resources -/

theorem followsEntry_of_isEntryId {id rest : List Char} (h : isEntryId id = true) :
    FollowsEntry (id ++ rest) := by
  obtain h | ⟨name, rfl, -⟩ := isEntryId_cases h
  · obtain ⟨ha, -⟩ := isName_cases h
    cases id with
    | nil => cases ha
    | cons c id => exact .inr ⟨c, id ++ rest, rfl, .inl ha⟩
  · exact .inr ⟨'-', name ++ rest, rfl, .inr rfl⟩

theorem followsEntry_render {id : String} {entry : Entry} (h : entry.WellFormed deepestNesting id)
    (tail : List Char) : FollowsEntry (entry.render id ++ tail) := by
  cases h with
  | text named ends =>
    rw [Entry.render, List.append_assoc, List.append_assoc]
    exact followsEntry_of_isEntryId named
  | node named filled term values inner =>
    rw [Entry.render, List.append_assoc, List.append_assoc]
    exact followsEntry_of_isEntryId named

theorem renderAttributes_getLast? (attributes : List (String × Pattern)) :
    ('\n' :: renderAttributes attributes).getLast? = some '\n' := by
  induction attributes with
  | nil => rfl
  | cons pair attributes ih =>
    obtain ⟨name, value⟩ := pair
    have hc := renderAttributes_cons name value attributes []
    rw [List.append_nil, List.append_nil] at hc
    rw [hc]
    simp only [List.getLast?_cons, List.getLast?_append, Option.getD_some] at ih ⊢
    simp [ih]

theorem render_getLast? (id : String) (entry : Entry) :
    (entry.render id).getLast? = some '\n' := by
  cases entry with
  | text value => exact List.getLast?_concat
  | node value attributes =>
    rw [Entry.render, List.getLast?_append]
    cases attributes with
    | none => rfl
    | some attributes =>
      rw [Option.elim_some, renderAttributes_getLast?]
      rfl

/-- An attempt at an entry finds one item and leaves what follows the entry, at the start of a
line. -/
theorem items_entry_append {source : List Char} {item : Item}
    (hs : FollowsEntry (source ++ tail)) (hlast : source.getLast? = some '\n')
    (hattempt : attempt true (source ++ tail) = ([item], tail)) :
    items true (source ++ tail) = item :: items true tail := by
  have hline : atLineStart true (source ++ tail) tail = true := by
    rw [atLineStart_append, hlast]
    rfl
  have hblank := hs.head
  cases hx : source ++ tail with
  | nil =>
    rw [(List.append_eq_nil_iff.mp hx).1] at hlast
    cases hlast
  | cons c rest =>
    rw [hx] at hattempt hline hblank
    rw [items_cons true hblank, hattempt, hline]
    rfl

/-- An attempt at a written entry finds it. -/
theorem items_render {id : String} {entry : Entry} (h : entry.WellFormed deepestNesting id)
    (ht : FollowsEntry tail) :
    items true (entry.render id ++ tail) = .entry id entry.compact :: items true tail := by
  have hs := followsEntry_render h tail
  have hattempt : attempt true (entry.render id ++ tail) = ([.entry id entry.compact], tail) := by
    rw [attempt, entryOrComment_apply, if_pos rfl, hs.not_startsComment,
      if_neg Bool.false_ne_true, bind_ok (message_render h ht)]
    rfl
  exact items_entry_append hs (render_getLast? id entry) hattempt

theorem items_flatMap {entries : List (String × Entry)}
    (h : ∀ pair ∈ entries, pair.2.WellFormed deepestNesting pair.1) :
    items true (entries.flatMap fun pair => pair.2.render pair.1) =
      entries.map fun pair => .entry pair.1 pair.2.compact := by
  induction entries with
  | nil => exact items_nil true
  | cons pair entries ih =>
    have hothers (pair) (hm : pair ∈ entries) := h pair (List.mem_cons_of_mem _ hm)
    have hnext : FollowsEntry (entries.flatMap fun pair => pair.2.render pair.1) := by
      cases entries with
      | nil => exact .inl rfl
      | cons next entries => exact followsEntry_render (hothers next List.mem_cons_self) _
    rw [List.flatMap_cons, items_render (h pair List.mem_cons_self) hnext, ih hothers]
    rfl

end

/-! ## Nesting -/

/-- Variant lists inside one another. -/
def nested : Nat → Pattern
  | 0 => .text "x"
  | depth + 1 => .elements [.placeable (.variantList [.mk (.keyword "a") (nested depth)] none)]

/-- The resource of one message that is made of variant lists inside one another. -/
def nestedEntries (depth : Nat) : Table Entry :=
  Table.ofPairs [("a", .node (some (nested depth)) none)]

/-- A placeable alone makes up a pattern. -/
theorem partsWellFormed_singleton {expression : Expression}
    (shown : isTermAttribute expression = false) :
    PartsWellFormed [.placeable expression] where
  placed := Nat.one_pos
  few := Nat.le_of_ble_eq_true rfl
  apart _ _ side := absurd side.length_le (Nat.not_succ_le_self 1)
  texts := by simp
  last := by simp
  shown := by simpa using shown

theorem variantsWellFormed_singleton (value : Pattern) :
    VariantsWellFormed [.mk (.keyword "a") value] none where
  some := nofun
  standard := nofun
  keys member one := by
    rw [List.mem_singleton.mp one]
    rfl

theorem nested_wellFormed (depth : Nat) : (nested depth).WellFormed depth := by
  induction depth with
  | zero => exact .text ⟨by decide, by simp [Text.isBlank]⟩
  | succ depth ih =>
    refine .elements (partsWellFormed_singleton rfl) fun value hm => ?_
    obtain rfl := Element.placeable.inj (List.mem_singleton.mp hm)
    refine .variantList (variantsWellFormed_singleton _) fun member hm => ?_
    exact List.mem_singleton.mp hm ▸ ih

theorem nestedEntries_wellFormed (depth : Nat) (id : String) (entry : Entry)
    (h : (nestedEntries depth)[id]? = some entry) : entry.WellFormed depth id := by
  rw [nestedEntries, Table.ofPairs, List.foldl_cons, List.foldl_nil,
    Std.ExtTreeMap.getElem?_insert] at h
  split at h
  · rename_i he
    obtain rfl := Std.LawfulEqCmp.eq_of_compare he
    obtain rfl := Option.some_inj.mp h
    have hid : isEntryId "a".toList = true := by decide
    refine .node hid nofun nofun (fun value hv => ?_) nofun
    obtain rfl := Option.some_inj.mp hv
    exact nested_wellFormed depth
  · simp at h

theorem pattern_nested_step {room depth : Nat} {rest : List Char} {failure : Failure}
    (h : placeable room (braced (Expression.variantList [.mk (.keyword "a") (nested depth)]
      none).render ++ rest) = .error failure) :
    pattern (placeable room) ((nested (depth + 1)).render ++ rest) = .error failure := by
  have htext : (nested (depth + 1)).render =
      braced (Expression.variantList [.mk (.keyword "a") (nested depth)] none).render := by
    rw [nested, Pattern.render, renderParts, renderParts, List.append_nil]
    rfl
  have hround : patternRound (placeable room) .empty ((nested (depth + 1)).render ++ rest) =
      .error failure := by
    rw [htext]
    refine (patternRound_placeable rfl).trans ?_
    exact (if_neg (by decide)).trans (bind_error h _)
  have hmarked : pattern (placeable room) ((nested (depth + 1)).render ++ rest) =
      patternParts (placeable room) ((nested (depth + 1)).render ++ rest) := by
    rw [htext]
    exact pattern_marked List.not_mem_nil (.inl rfl)
  rw [hmarked, patternParts, bind_error]
  rw [iterate, hround]

/-- Variant lists that nest deeper than there is room are not read. -/
theorem pattern_nested_fails {room depth : Nat} (h : room < depth) (rest : List Char) :
    ∃ failure, pattern (placeable room) ((nested depth).render ++ rest) = .error failure := by
  induction room generalizing depth rest with
  | zero =>
    obtain ⟨depth, rfl⟩ : ∃ n, depth = n + 1 := ⟨depth - 1, by omega⟩
    exact ⟨_, pattern_nested_step rfl⟩
  | succ room ih =>
    obtain ⟨depth, rfl⟩ : ∃ n, depth = n + 1 := ⟨depth - 1, by omega⟩
    obtain ⟨failure, hf⟩ := ih (Nat.lt_of_succ_lt_succ h) ('\n' :: ' ' :: '}' :: rest)
    refine ⟨failure, pattern_nested_step ?_⟩
    have hkey :
        variantKey ('a' :: ']' :: ' ' :: ((nested depth).render ++ '\n' :: ' ' :: '}' :: rest)) =
        .ok (.keyword "a", ' ' :: ((nested depth).render ++ '\n' :: ' ' :: '}' :: rest)) := rfl
    have hvariant : variant (placeable room) ('[' :: 'a' :: ']' :: ' ' :: ((nested depth).render ++
        '\n' :: ' ' :: '}' :: rest)) = .error failure := by
      have hopen (text : List Char) : expect '[' ('[' :: text) = .ok ((), text) := rfl
      rw [variant, bind_ok (hopen _), bind_ok hkey, skipInlineBlank_bind_apply,
        dropWhile_render (pattern_reads (nested_wellFormed depth)).1, bind_error hf]
    have hvariants :
      variants (placeable room) ('[' :: 'a' :: ']' :: ' ' :: ((nested depth).render ++
        '\n' :: ' ' :: '}' :: rest)) = .error failure := by
      rw [variants, iterate, variantRound_open _ (by simp), variantAfter, bind_error hvariant]
    have hlist : startsVariantList (' ' :: '\n' :: (variantMark (none == some 0) ++
        ((VariantKey.keyword "a").render ++ ']' :: ' ' :: ((nested depth).render ++
          '\n' :: (renderVariants none 1 [] ++ ' ' :: '}' :: rest))))) = true := rfl
    rw [braced_append, Expression.render, List.cons_append, renderVariants_cons, placeable,
      placeableBody_cons, hlist, if_pos rfl]
    exact bind_error hvariants _

theorem nestedEntries_not_read {depth : Nat} (h : deepestNesting < depth) :
    (Resource.parse (render (nestedEntries depth))).errors ≠ [] := by
  obtain ⟨failure, hf⟩ := pattern_nested_fails h ['\n']
  have htext : (render (nestedEntries depth)).toList =
      "a".toList ++ ' ' :: '=' :: ' ' :: ((nested depth).render ++ ['\n']) := by
    rw [render, String.toList_ofList]
    change (Entry.node (some (nested depth)) none).render "a" ++ [] = _
    simp only [Entry.render, Option.elim_some, Option.elim_none, List.append_assoc,
      List.cons_append, List.append_nil]
  have hmessage : message ("a".toList ++ ' ' :: '=' :: ' ' :: ((nested depth).render ++ ['\n'])) =
      .error failure := by
    rw [message_eq, bind_ok (messageHead_reads (by decide) _),
      dropWhile_render (pattern_reads (nested_wellFormed depth)).1, messageBody]
    exact bind_error hf _
  have hcomment : startsComment ("a".toList ++ ' ' :: '=' :: ' ' :: ((nested depth).render ++
      ['\n'])) = false := rfl
  have hmem : Item.failure failure ∈ items true (render (nestedEntries depth)).toList := by
    have hattempt : Item.failure failure ∈ (attempt true ("a".toList ++ ' ' :: '=' :: ' ' ::
        ((nested depth).render ++ ['\n']))).1 := by
      rw [attempt, entryOrComment_apply, if_pos rfl, hcomment, if_neg Bool.false_ne_true,
        bind_error hmessage]
      exact List.mem_singleton_self _
    rw [htext]
    have hitems := items_cons true (show Text.isBlank 'a' = false from rfl)
      (' ' :: '=' :: ' ' :: ((nested depth).render ++ ['\n']))
    exact hitems ▸ List.mem_append_left _ hattempt
  exact List.ne_nil_of_mem (Resource.mem_parse_errors.mpr ⟨failure, hmem, rfl⟩)

/-! ## Reading back -/

/-- A resource that is well-formed, its placeables nested no deeper than they may be, is read back
from its text without errors. -/
theorem parse_render {entries : Table Entry}
    (h : ∀ (id : String) entry, entries[id]? = some entry → entry.WellFormed deepestNesting id) :
    (Resource.parse (render entries)).entries = entries.map (fun _ entry => entry.compact) ∧
      (Resource.parse (render entries)).errors = [] := by
  have hitems : items true (render entries).toList =
      entries.toList.map fun pair => .entry pair.1 pair.2.compact := by
    rw [render, String.toList_ofList]
    exact items_flatMap fun pair hm => h _ _ (Std.ExtTreeMap.mem_toList_iff_getElem?_eq_some.mp hm)
  constructor
  · rw [Resource.parse_entries, hitems, List.foldl_map,
      ← Table.foldl_insert_toList (entries.map fun _ entry => entry.compact),
      Std.ExtTreeMap.toList_map, List.foldl_map]
    rfl
  · rw [Resource.parse_errors, hitems, List.filterMap_map]
    exact List.filterMap_eq_nil_iff.mpr fun _ _ => rfl

/-- Placeables nest as deep as they may. -/
theorem parse_render_nested :
    (Resource.parse (render (nestedEntries deepestNesting))).entries =
        (nestedEntries deepestNesting).map (fun _ entry => entry.compact) ∧
      (Resource.parse (render (nestedEntries deepestNesting))).errors = [] :=
  parse_render (nestedEntries_wellFormed deepestNesting)

/-- Nested any deeper, a resource is not read back. -/
theorem parse_render_too_deep :
    ¬∀ (room : Nat) (entries : Table Entry),
      (∀ (id : String) entry, entries[id]? = some entry → entry.WellFormed room id) →
        (Resource.parse (render entries)).entries = entries.map (fun _ entry => entry.compact) ∧
          (Resource.parse (render entries)).errors = [] := by
  intro h
  exact nestedEntries_not_read (Nat.lt_succ_self _)
    (h (deepestNesting + 1) _ (nestedEntries_wellFormed _)).2

end Grammar

end Fluent
