import Fluent.Proofs.Items
import Fluent.Proofs.LastLine.Placeable
import Fluent.Proofs.Transcription.Resource

/-!
# Resources in front of a last line end

What is found in a text and in the text with a last line end is the same, item by item, up to the
end of the text. There one item can differ: a number sign alone on the last line is no comment
without a line end behind it, and a failure can turn into another one.

* `closes_message`: an entry is read alike;
* `SameItems`: items that are the same but for the places and the particulars of faults;
* `attempt_alike`: what one attempt at an entry finds;
* `items_alike`: what is found in a text;
* `FoundAlike.entries`, `FoundAlike.faultKinds`: the entries and the faults among it.
-/

namespace Fluent.Grammar

/-- The kind of the fault that an item is. -/
def Item.faultKind? : Item → Option Fault
  | .entry _ _ => none
  | .failure found => some found.fault.kind

theorem Resource.parse_faultKinds (source : String) :
    (Resource.parse source).errors.map (·.fault.kind) =
      (items true source.toList).filterMap Item.faultKind? := by
  rw [parse_errors, List.map_filterMap]
  refine List.filterMap_congr fun item _ => ?_
  cases item <;> rfl

namespace LastLine

open Fluent.Grammar.Parser Fluent.Text.Reader
open Transcription (GoesOn dropComment_lineFeed)

theorem closes_namedPattern : Closes namedPattern namedPattern := by
  refine closes_advance.bind fun _ => closes_identifier.bind fun name => ?_
  refine closes_skipInlineBlank.bind fun _ => (closes_expect (by decide) rfl).bind fun _ => ?_
  refine closes_skipInlineBlank.bind fun _ text text' hm filled => ?_
  refine (alike_pattern (closesBraces_placeable deepestNesting) hm filled).bind ?_
  rintro ⟨value, rest⟩ ⟨_, rest'⟩ hs ⟨rfl, left⟩
  cases value with
  | none => exact alike_error (List.suffix_refl _) left.matches rfl rfl
  | some value =>
    obtain ⟨rfl, rfl⟩ | ⟨visible, rfl⟩ := left
    · exact alike_ok (List.suffix_refl _) .ended
    · have dropped := (dropBlankLines_lineFeed visible).1
      refine alike_ok (dropBlankLines_suffix rest) ?_
      rw [dropped]
      exact .ahead _

theorem closes_attributeRound (attributes : Table Pattern) :
    Closes (attributeRound attributes) (attributeRound attributes) := by
  intro text text' hm filled
  have hs := List.dropWhile_suffix (l := text) Text.isInlineBlank
  have after := hm.dropWhile Text.isInlineBlank
  rw [attributeRound_apply, attributeRound_apply]
  simp only [hm.head?_eq_some (c := ' ') (by decide), after.head?_eq_some (c := '.') (by decide)]
  refine .choice (.choice (Alike.within ?_ hs) (alike_ok hs after))
    (alike_ok (List.suffix_refl _) hm)
  exact (closes_namedPattern.bind fun read => closes_pure _) _ _ after (filled.suffix hs)

theorem closes_attributes? : Closes attributes? attributes? := by
  intro text text' hm filled
  have hs := List.dropWhile_suffix (l := text) Text.isInlineBlank
  have after := hm.dropWhile Text.isInlineBlank
  have rounds : Closes (iterate attributeRound ∅) (iterate attributeRound ∅) := by
    refine Closes.iterate (fun attributes next rest h => ?_) closes_attributeRound ∅
    rw [attributeRound_apply] at h
    cases h
  rw [attributes?_apply, attributes?_apply]
  simp only [hm.head?_eq_some (c := ' ') (by decide), after.head?_eq_some (c := '.') (by decide)]
  refine .choice (.choice ?_ (alike_ok hs after)) (alike_ok (List.suffix_refl _) hm)
  exact (rounds.bind fun _ => closes_pure _) text text' hm filled

theorem closes_messageTail (id : String) (value : Option Pattern) :
    Closes (messageTail id value) (messageTail id value) := by
  refine (closes_fail rfl).choice (closes_attributes?.bind fun attributes => ?_)
  split
  · exact closes_pure _
  · exact closes_fail rfl
  · exact closes_pure _

/-- An entry is read alike. -/
theorem closes_message : Closes message message := by
  rw [message_eq]
  refine Closes.bind ?_ fun id => ?_
  · refine closes_entryIdentifier.bind fun id => closes_skipInlineBlank.bind fun _ => ?_
    refine (closes_expect (by decide) rfl).bind fun _ => ?_
    exact closes_skipInlineBlank.bind fun _ => closes_pure id
  · exact (closes_pattern (closesBraces_placeable deepestNesting)).bind (closes_messageTail id)

/-! ## Where reading goes on -/

section

variable {text text' rest rest' : List Char}

theorem atLineStart_matches (lineStart : Bool) (hm : Matches text text') (hr : Matches rest rest')
    (hs : rest <:+ text) :
    rest' = [] ∨ atLineStart lineStart text' rest' = atLineStart lineStart text rest := by
  cases hr with
  | ended => exact .inl rfl
  | ahead =>
    right
    cases hm with
    | ended =>
      rw [List.suffix_nil.mp hs]
      rfl
    | ahead =>
      rw [atLineStart, atLineStart, List.length_append, List.length_append,
        Nat.add_sub_add_right, List.take_append_of_le_length (Nat.sub_le _ _)]

theorem items_matches (lineStart : Bool) (hm : Matches text text') (hr : Matches rest rest')
    (hs : rest <:+ text) :
    items (atLineStart lineStart text' rest') rest' =
      items (atLineStart lineStart text rest) rest' := by
  obtain rfl | same := atLineStart_matches lineStart hm hr hs
  · rw [items_nil, items_nil]
  · rw [same]

theorem nextEntry_matches (lineStart : Bool) (hm : Matches text text') :
    Matches (nextEntry lineStart text) (nextEntry lineStart text') := by
  cases hm with
  | ended => exact .ended
  | ahead =>
    induction text generalizing lineStart with
    | nil =>
      have none : nextEntry lineStart ['\n'] = [] := by cases lineStart <;> rfl
      rw [List.nil_append, none]
      exact .ended
    | cons c text ih =>
      rw [List.cons_append, nextEntry, nextEntry]
      split
      · exact .ahead (c :: text)
      · exact ih _

/-- Reading goes on at corresponding places behind failures at corresponding places. -/
theorem resume_matches (hm : Matches rest rest') (hs : rest <:+ text) (nonempty : text ≠ []) :
    Matches (resume text rest) (resume (text ++ ['\n']) rest') := by
  have next {stop stop' : List Char} (hm : Matches stop stop') (hs : stop <:+ text) :
      Matches (nextEntry (atLineStart false text stop) stop)
        (nextEntry (atLineStart false (text ++ ['\n']) stop') stop') := by
    obtain rfl | same := atLineStart_matches false (.ahead text) hm hs
    · rw [hm.eq_nil]
      exact .ended
    · rw [same]
      exact nextEntry_matches _ hm
  have positive : 0 < text.length := List.length_pos_of_ne_nil nonempty
  have shorter : rest'.length < (text ++ ['\n']).length ↔ rest.length < text.length := by
    cases hm <;> simp [positive]
  rw [resume, resume]
  simp only [shorter]
  split
  · exact next hm hs
  · exact next ((Matches.ahead text).drop 1) (List.drop_suffix 1 text)

theorem dropComment_matches (hm : Matches text text') :
    Matches (dropComment text) (dropComment text') := by
  cases hm with
  | ended => exact .ended
  | ahead =>
    fun_induction dropComment text with
    | case1 rest ih => exact ih
    | case2 rest ih => exact ih
    | case3 rest space sign =>
      have ends : ¬GoesOn (rest ++ ['\n']) := by
        rintro ⟨c, next, more, goesOn⟩
        obtain ⟨rest, rfl, hm⟩ := (more ▸ Matches.ahead rest).of_cons (by decide)
        obtain ⟨rest, rfl, -⟩ := hm.of_cons (by obtain rfl | rfl := goesOn <;> decide)
        obtain rfl | rfl := goesOn
        · exact space rest rfl
        · exact sign rest rfl
      rw [List.cons_append, dropComment_lineFeed ends]
      exact .ahead rest
    | case4 c rest space sign other ih =>
      rw [List.cons_append, dropComment]
      · exact ih
      · exact fun _ hc _ => other hc
      · exact fun _ hc _ => other hc
      · exact other
    | case5 => exact .ended

theorem startsComment_lineFeed (unsigned : text ≠ ['#']) :
    startsComment (text ++ ['\n']) = startsComment text := by
  match text with
  | [] => rfl
  | [c] =>
    have other : c ≠ '#' := fun same => unsigned (same ▸ rfl)
    simp [startsComment, other]
  | c :: d :: rest =>
    by_cases sign : c = '#'
    · subst sign
      rfl
    · simp [startsComment, sign]

end

/-! ## Items -/

/-- Items that are the same but for the places and the particulars of faults. Failures that turn
into others are not. -/
inductive SameItem : Item → Item → Prop
  | entry (id : String) (read : Entry) : SameItem (.entry id read) (.entry id read)
  | failure {failure failure' : Failure} : failure.fault.kind = failure'.fault.kind →
      (∀ fault, ¬TurnsInto failure fault) → SameItem (.failure failure) (.failure failure')

/-- Items that are the same, one by one. -/
def SameItems : List Item → List Item → Prop := List.Forall₂ SameItem

/-- What is found in a text and in the text with a last line end: the same, item by item; one
failure more, where a number sign is alone on the last line; or, last, a failure that turns into
another one. -/
inductive FoundAlike (signed : Prop) : List Item → List Item → Prop
  | same {found found'} : ¬signed → SameItems found found' → FoundAlike signed found found'
  | sign {found found'} : signed → SameItems found found' →
      FoundAlike signed (found ++ [.failure ⟨.expectedIdentifier, []⟩]) found'
  | turned {found found' failure fault} : ¬signed → SameItems found found' →
      TurnsInto failure fault →
      FoundAlike signed (found ++ [.failure failure]) (found' ++ [.failure ⟨fault, []⟩])

theorem FoundAlike.append {signed : Prop} {front front' found found' : List Item}
    (h : FoundAlike signed found found') (same : SameItems front front') :
    FoundAlike signed (front ++ found) (front' ++ found') := by
  cases h with
  | same unsigned others => exact .same unsigned (List.rel_append same others)
  | sign signed others =>
    rw [← List.append_assoc]
    exact .sign signed (List.rel_append same others)
  | turned unsigned others turned =>
    rw [← List.append_assoc, ← List.append_assoc]
    exact .turned unsigned (List.rel_append same others) turned

/-- Behind a failure that turns into another one nothing is left to read. -/
theorem TurnsInto.resume {failure : Failure} {fault : Fault} (turned : TurnsInto failure fault)
    (text : List Char) : resume text failure.rest = [] := by
  have short : failure.rest.length ≤ 1 := by cases turned <;> decide
  rw [Grammar.resume]
  split
  · generalize atLineStart false text failure.rest = lineStart
    cases turned <;> cases lineStart <;> rfl
  · rw [List.drop_of_length_le (by omega)]
    rfl

/-- An attempt comes to the same, or to a failure that turns into another one, unless it is at a
number sign alone on the last line. -/
theorem attempt_alike {lineStart : Bool} {text : List Char} (nonempty : text ≠ [])
    (filled : Filled text) (unsigned : ¬(lineStart = true ∧ text = ['#'])) :
    SameItems (attempt lineStart text).1 (attempt lineStart (text ++ ['\n'])).1 ∧
        Matches (attempt lineStart text).2 (attempt lineStart (text ++ ['\n'])).2 ∨
      ∃ failure fault, TurnsInto failure fault ∧
        attempt lineStart text = ([.failure failure], []) ∧
        attempt lineStart (text ++ ['\n']) = ([.failure ⟨fault, []⟩], []) := by
  have alike : ∀ {failure failure' : Failure}, failure.rest <:+ text →
      Matches failure.rest failure'.rest → failure.fault.kind = failure'.fault.kind →
      (∀ fault, ¬TurnsInto failure fault) →
      SameItems [.failure failure] [.failure failure'] ∧
        Matches (resume text failure.rest) (resume (text ++ ['\n']) failure'.rest) :=
    fun hs hm hk ht => ⟨.cons (.failure hk ht) .nil, resume_matches hm hs nonempty⟩
  rw [attempt, attempt, entryOrComment_apply, entryOrComment_apply]
  cases lineStart with
  | false =>
    refine .inl (alike (List.suffix_refl _) (.ahead text) rfl fun fault turned => ?_)
    cases turned
  | true =>
    rw [if_pos rfl, if_pos rfl, startsComment_lineFeed fun same => unsigned ⟨rfl, same⟩]
    by_cases comment : startsComment text = true
    · rw [if_pos comment, if_pos comment]
      exact .inl ⟨.nil, dropComment_matches (.ahead text)⟩
    · rw [if_neg comment, if_neg comment, bind_apply, bind_apply]
      have read := closes_message text _ (.ahead text) filled
      generalize message text = x at read
      generalize message (text ++ ['\n']) = y at read
      cases read with
      | @read found found' _ same =>
        obtain ⟨⟨id, entry⟩, rest⟩ := found
        obtain ⟨_, rest'⟩ := found'
        obtain ⟨rfl, hm⟩ := same
        exact .inl ⟨.cons (.entry id entry) .nil, hm⟩
      | stopped hs hm hk ht => exact .inl (alike hs hm hk ht)
      | @turned failure fault hs turned =>
        refine .inr ⟨failure, fault, turned, ?_, ?_⟩
        · exact congrArg _ (turned.resume text)
        · exact congrArg _ (TurnsInto.closing.resume _)

/-- What is found in a text and in the text with a last line end. -/
theorem items_alike (lineStart : Bool) {text text' : List Char} (hm : Matches text text')
    (filled : Filled text) :
    FoundAlike (['#'] ∈ starts lineStart text) (items lineStart text) (items lineStart text') := by
  induction lineStart, text using attempts_induction generalizing text' with
  | blank lineStart text ih =>
    have hs := List.dropWhile_suffix (l := text) Text.isBlank
    have after := hm.dropWhile Text.isBlank
    rw [starts_dropWhile, items_dropWhile lineStart text, items_dropWhile lineStart text',
      items_matches lineStart hm after hs]
    exact ih after (filled.suffix hs)
  | ended lineStart =>
    have none : items lineStart text' = [] := by
      cases hm with
      | ended => exact items_nil lineStart
      | ahead =>
        rw [items_dropWhile]
        exact items_nil _
    rw [none, items_nil, starts_apply]
    exact .same (by simp) .nil
  | attempted lineStart c text visible ih =>
    have hs := (attempt_suffix lineStart c text).trans (List.suffix_cons c text)
    rw [hm.eq_cons, items_cons lineStart visible, items_cons lineStart visible,
      starts_cons lineStart visible]
    by_cases signed : lineStart = true ∧ c :: text = ['#']
    · obtain ⟨rfl, same⟩ := signed
      obtain ⟨rfl, rfl⟩ := List.cons.inj same
      have fails : attempt true ['#'] = ([.failure ⟨.expectedIdentifier, []⟩], []) := rfl
      have passes : attempt true ['#', '\n'] = ([], []) := rfl
      rw [List.nil_append, fails, passes, items_nil, items_nil]
      exact .sign (by simp) .nil
    · have later (others : List (List Char)) :
          ['#'] ∈ (if lineStart then [c :: text] else []) ++ others ↔ ['#'] ∈ others := by
        rw [List.mem_append, or_iff_right]
        cases lineStart with
        | false => simp
        | true => exact fun hm => signed ⟨rfl, (List.mem_singleton.mp hm).symm⟩
      rw [later]
      obtain ⟨same, after⟩ | ⟨failure, fault, turned, fails, fails'⟩ :=
        attempt_alike (List.cons_ne_nil c text) filled signed
      · refine FoundAlike.append ?_ same
        rw [← List.cons_append, items_matches lineStart (.ahead (c :: text)) after hs]
        exact ih after (filled.suffix hs)
      · rw [← List.cons_append, fails, fails', items_nil, items_nil, starts_apply]
        exact .turned (by simp) .nil turned

/-! ## Entries and faults -/

section

variable {found found' : List Item}

theorem SameItems.entries (same : SameItems found found') (entries : Table Entry) :
    found.foldl Item.addTo entries = found'.foldl Item.addTo entries := by
  induction same generalizing entries with
  | nil => rfl
  | cons item _ ih =>
    cases item with
    | entry id read => exact ih _
    | failure => exact ih _

theorem SameItems.faultKinds (same : SameItems found found') :
    found.filterMap Item.faultKind? = found'.filterMap Item.faultKind? := by
  induction same with
  | nil => rfl
  | cons item _ ih =>
    cases item with
    | entry id read => exact ih
    | failure kind => simp [Item.faultKind?, kind, ih]

theorem SameItems.not_turnsInto (same : SameItems found found') {failure : Failure} {fault : Fault}
    (member : .failure failure ∈ found) : ¬TurnsInto failure fault := by
  induction same with
  | nil => cases member
  | cons item _ ih =>
    obtain same | member := List.mem_cons.mp member
    · subst same
      cases item with
      | failure _ stays => exact stays fault
    · exact ih member

/-- The entries are the same, whatever is found last. -/
theorem FoundAlike.entries {signed : Prop} (h : FoundAlike signed found found')
    (entries : Table Entry) : found.foldl Item.addTo entries = found'.foldl Item.addTo entries := by
  cases h with
  | same _ same => exact same.entries entries
  | sign _ same =>
    rw [List.foldl_append, same.entries]
    rfl
  | turned _ same =>
    rw [List.foldl_append, List.foldl_append, same.entries]
    rfl

theorem TurnsInto.kind_ne {failure : Failure} {fault : Fault} (turned : TurnsInto failure fault) :
    failure.fault.kind ≠ fault.kind := by
  cases turned <;> decide

theorem TurnsInto.unique {failure : Failure} {fault fault' : Fault}
    (turned : TurnsInto failure fault) (turned' : TurnsInto failure fault') : fault = fault' := by
  cases turned <;> cases turned' <;> rfl

/-- The kinds of the faults are the same, unless there is a number sign alone on the last line or a
failure turns into another one. -/
theorem FoundAlike.faultKinds {signed : Prop} (h : FoundAlike signed found found') :
    (found.filterMap Item.faultKind? = found'.filterMap Item.faultKind? ↔
      ¬(signed ∨ ∃ failure fault, .failure failure ∈ found ∧ TurnsInto failure fault)) ∧
    (signed → found.filterMap Item.faultKind? =
      found'.filterMap Item.faultKind? ++ [.expectedIdentifier]) ∧
    ∀ failure fault, .failure failure ∈ found → TurnsInto failure fault →
      ∃ front, found.filterMap Item.faultKind? = front ++ [failure.fault.kind] ∧
        found'.filterMap Item.faultKind? = front ++ [fault.kind] := by
  cases h with
  | same unsigned same =>
    have stays (failure : Failure) (fault : Fault) (member : .failure failure ∈ found) :
        ¬TurnsInto failure fault := same.not_turnsInto member
    refine ⟨iff_of_true same.faultKinds ?_, fun signed => absurd signed unsigned,
      fun failure fault member turned => absurd turned (stays failure fault member)⟩
    rintro (signed | ⟨failure, fault, member, turned⟩)
    · exact unsigned signed
    · exact stays failure fault member turned
  | @sign found _ signed same =>
    have more : (found ++ [Item.failure ⟨.expectedIdentifier, []⟩]).filterMap Item.faultKind? =
        found'.filterMap Item.faultKind? ++ [.expectedIdentifier] := by
      rw [List.filterMap_append, same.faultKinds]
      rfl
    refine ⟨iff_of_false ?_ (not_not_intro (.inl signed)), fun _ => more,
      fun failure fault member turned => ?_⟩
    · rw [more]
      simp
    · obtain member | last := List.mem_append.mp member
      · exact absurd turned (same.not_turnsInto member)
      · obtain rfl := Item.failure.inj (List.mem_singleton.mp last)
        cases turned
  | @turned found front' failure fault unsigned same turned =>
    have kinds : (found ++ [Item.failure failure]).filterMap Item.faultKind? =
        front'.filterMap Item.faultKind? ++ [failure.fault.kind] := by
      rw [List.filterMap_append, same.faultKinds]
      rfl
    have kinds' : (front' ++ [Item.failure ⟨fault, []⟩]).filterMap Item.faultKind? =
        front'.filterMap Item.faultKind? ++ [fault.kind] :=
      List.filterMap_append
    refine ⟨iff_of_false ?_ (not_not_intro (.inr ⟨failure, fault, by simp, turned⟩)),
      fun signed => absurd signed unsigned, fun other into member turns => ?_⟩
    · rw [kinds, kinds', List.append_cancel_left_eq]
      exact fun same => turned.kind_ne (List.singleton_inj.mp same)
    · obtain member | last := List.mem_append.mp member
      · exact absurd turns (same.not_turnsInto member)
      · obtain rfl := Item.failure.inj (List.mem_singleton.mp last)
        obtain rfl := turned.unique turns
        exact ⟨_, kinds, kinds'⟩

end

end LastLine

end Fluent.Grammar
