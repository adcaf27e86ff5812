import Fluent.Proofs.Places
import Fluent.Proofs.Returns.Placeable
import Fluent.Proofs.Soundness.Resource

/-!
# Resources without carriage returns

No entry of a text whose carriage returns only end lines holds a carriage return, at whatever depth.

* `tamely_message`: an entry as it is read;
* `tame_attempt`: behind an entry, a comment or a failure the text is tame again;
* `parse_returnless`: the entries of a resource hold no carriage return.
-/

namespace Fluent.Grammar

open Fluent.Grammar.Parser Fluent.Text.Reader

/-- No pattern of an entry holds a carriage return. -/
def EntryReturnless (entry : Entry) : Prop :=
  ∀ pattern, entry.Holds pattern → (Node.pattern pattern).Returnless

/-- No attribute holds a carriage return. -/
def ReturnlessAttributes (attributes : Table Pattern) : Prop :=
  ∀ (name : String) value, attributes[name]? = some value → (Node.pattern value).Returnless

theorem ReturnlessAttributes.insert {attributes : Table Pattern}
    (none : ReturnlessAttributes attributes) (name : String) {value : Pattern}
    (one : (Node.pattern value).Returnless) :
    ReturnlessAttributes (attributes.insert name value) := by
  intro other found held
  rw [Std.ExtTreeMap.getElem?_insert] at held
  split at held
  · exact Option.some_inj.mp held ▸ one
  · exact none other found held

theorem tamely_entryPattern : Tamely (pattern entryPlaceable) fun read =>
    ∀ value, read = some value → (Node.pattern value).Returnless :=
  tamely_pattern (tamelyAt_placeable deepestNesting)

theorem tamely_attributeRound (attributes : Table Pattern)
    (none : ReturnlessAttributes attributes) : Tamely (attributeRound attributes)
      (Kept ReturnlessAttributes ReturnlessAttributes) := by
  refine fun next => tamelyAt_peek (.choice (fun _ => ?_) fun _ => tamelyAt_pure none)
  refine tamelyAt_skipWhile rfl fun next => tamelyAt_peek ?_
  refine .choice (fun here => ?_) fun _ => tamelyAt_pure none
  refine tamelyAt_advance (by simp [here]) fun next => ?_
  refine (tamely_identifier next).bind fun name _ next => tamelyAt_skipWhile rfl fun next => ?_
  refine (tamely_expect (by decide) next).bind fun _ _ next => tamelyAt_skipWhile rfl fun next => ?_
  refine (tamely_entryPattern next).bind fun value one next => ?_
  cases value with
  | none => exact tamelyAt_fail _
  | some value =>
    refine tamelyAt_get fun text tame _ => tamelyAt_set (tame_dropBlankLines tame) fun next => ?_
    exact tamelyAt_pure (none.insert name (one value rfl))

theorem tamely_attributes? : Tamely attributes? fun read =>
    ∀ attributes, read = some attributes → ReturnlessAttributes attributes := by
  refine fun next => tamelyAt_peek (.choice (fun _ => ?_) fun _ => tamelyAt_pure nofun)
  refine tamelyAt_get fun text tame _ => tamelyAt_skipWhile rfl fun next => tamelyAt_peek ?_
  refine .choice (fun _ => tamelyAt_set tame fun next => ?_) fun _ => tamelyAt_pure nofun
  refine TamelyAt.bind (Tamely.iterate tamely_attributeRound (fun _ none => none)
    (fun name value held => by simp at held) next) fun attributes none next => tamelyAt_pure ?_
  rintro _ ⟨⟩
  exact none

theorem entryReturnless_text {text : String} (none : (Node.pattern (.text text)).Returnless) :
    EntryReturnless (.text text) := by
  rintro pattern (_ | _ | held)
  · exact none
  · cases held

theorem entryReturnless_node {value : Option Pattern} {attributes : Option (Table Pattern)}
    (none : ∀ pattern, value = some pattern → (Node.pattern pattern).Returnless)
    (others : ∀ table, attributes = some table → ReturnlessAttributes table) :
    EntryReturnless (.node value attributes) := by
  rintro pattern (_ | _ | @⟨_, name, _, held⟩)
  · exact none pattern rfl
  · cases attributes with
    | none => cases held
    | some table => exact others table rfl name pattern held

theorem tamely_message : Tamely message fun read => EntryReturnless read.2 := by
  refine fun next => (tamely_entryIdentifier next).bind fun id _ next => ?_
  refine tamelyAt_skipWhile rfl fun next => (tamely_expect (by decide) next).bind fun _ _ next => ?_
  refine tamelyAt_skipWhile rfl fun next => (tamely_entryPattern next).bind fun value none => ?_
  refine fun next => .choice (fun _ => tamelyAt_fail _) fun _ => ?_
  refine (tamely_attributes? next).bind fun attributes others next => ?_
  split
  · exact tamelyAt_pure (entryReturnless_text (none _ rfl))
  · exact tamelyAt_fail _
  · exact tamelyAt_pure (entryReturnless_node none others)

/-! ## Resources -/

/-- A comment goes on to the end of a line or of the text. -/
theorem dropComment_cases (text : List Char) :
    dropComment text = [] ∨ '\n' :: dropComment text <:+ text := by
  fun_induction dropComment text with
  | case1 rest ih => exact ih.imp_right (·.trans ⟨['\n', '#', ' '], rfl⟩)
  | case2 rest ih => exact ih.imp_right (·.trans ⟨['\n', '#', '#'], rfl⟩)
  | case3 rest => exact .inr (List.suffix_refl _)
  | case4 c rest _ _ _ ih => exact ih.imp_right (·.trans (List.suffix_cons _ _))
  | case5 => exact .inl rfl

theorem tame_dropComment {text : List Char} (tame : Tame text) : Tame (dropComment text) := by
  obtain ended | ⟨front, parts⟩ := dropComment_cases text
  · exact ended ▸ .nil
  · exact Tame.behind front (by rwa [parts])

theorem tame_resume {start stop : List Char} (tame : Tame start) (ends : stop <:+ start)
    (more : start ≠ []) : Tame (resume start stop) := by
  obtain ⟨read, parts⟩ := ends
  obtain ⟨skipped, split, -, opens, -⟩ := resume_least [] parts.symm more
  obtain ended | ⟨last, -⟩ := opens
  · exact ended ▸ .nil
  · rw [List.nil_append] at last
    obtain ⟨line, rfl⟩ := List.getLast?_eq_some_iff.mp last
    refine Tame.behind line ?_
    rwa [split, List.append_assoc] at tame

/-- Behind an entry, a comment or a failure the text is tame again. -/
theorem tame_attempt (lineStart : Bool) {start : List Char} (tame : Tame start)
    (more : start ≠ []) :
    (∀ id entry, .entry id entry ∈ (attempt lineStart start).1 → EntryReturnless entry) ∧
      Tame (attempt lineStart start).2 := by
  rw [attempt, entryOrComment_apply]
  cases lineStart with
  | false => exact ⟨by simp, tame_resume tame (List.suffix_refl start) more⟩
  | true =>
    rw [if_pos rfl]
    split_ifs
    · exact ⟨by simp, tame_dropComment tame⟩
    · rw [bind_apply]
      have ends := message_suffix start
      cases read : message start with
      | error failure =>
        rw [read] at ends
        exact ⟨by simp, tame_resume tame ends more⟩
      | ok found =>
        obtain ⟨⟨id, entry⟩, rest⟩ := found
        obtain ⟨none, onward⟩ := tamely_message.apply tame read
        refine ⟨fun other held found => ?_, onward⟩
        cases List.mem_singleton.mp found
        exact none

theorem items_returnless {lineStart : Bool} {text : List Char} (tame : Tame text) {id : String}
    {entry : Entry} (found : .entry id entry ∈ items lineStart text) : EntryReturnless entry := by
  induction lineStart, text using attempts_induction with
  | blank lineStart text ih =>
    rw [items_dropWhile] at found
    exact ih (tame.dropWhile rfl) found
  | ended => simp at found
  | attempted lineStart c text head ih =>
    obtain ⟨first, onward⟩ := tame_attempt lineStart tame (List.cons_ne_nil c text)
    rw [items_cons lineStart head, List.mem_append] at found
    exact found.elim (first id entry) (ih onward)

/-- **No carriage return leaks.** Where carriage returns stand in front of line feeds or at the end
of the source only, and none is escaped by its code, no text and no string of an entry holds one, at
whatever depth. -/
theorem parse_returnless {source id : String} {entry : Entry} {value : Pattern} {steps : List Step}
    {node : Node} {text : String} (ends : ReturnsEndLines source.toList)
    (unescaped : ¬EscapesReturn source.toList)
    (held : (Resource.parse source).entries[id]? = some entry) (holds : entry.Holds value)
    (leads : (Node.pattern value).Leads steps node) (shown : text ∈ node.texts) :
    '\r' ∉ text.toList := by
  rw [Resource.parse_entries] at held
  obtain none | found := foldl_addTo_entry held
  · simp at none
  · exact items_returnless ⟨ends, unescaped⟩ found value holds steps node leads text shown

/-- The value of a message over several lines. -/
def severalLines : Pattern :=
  .elements [.text "One\n", .placeable (.select (.variableRef "x")
    [.mk (.keyword "a") (.elements [.text "A ", .placeable (.string "s")])] (some 0))]

/-- Line ends of both kinds, and a carriage return at the end of the source. -/
theorem parse_returnless_severalLines :
    ReturnsEndLines "m = One\r\n  \x7b $x ->\n *[a] A \x7b\"s\"\x7d\r\n\x7d\r".toList ∧
      ¬EscapesReturn "m = One\r\n  \x7b $x ->\n *[a] A \x7b\"s\"\x7d\r\n\x7d\r".toList ∧
      (Resource.parse "m = One\r\n  \x7b $x ->\n *[a] A \x7b\"s\"\x7d\r\n\x7d\r").entries["m"]? =
        some (.node (some severalLines) none) ∧
      (Entry.node (some severalLines) none).Holds severalLines ∧
      (Node.pattern severalLines).Leads [] (.pattern severalLines) ∧
      "One\n" ∈ (Node.pattern severalLines).texts ∧ '\r' ∉ "One\n".toList := by
  have ends : ReturnsEndLines
      "m = One\r\n  \x7b $x ->\n *[a] A \x7b\"s\"\x7d\r\n\x7d\r".toList := by decide
  have unescaped : ¬EscapesReturn
      "m = One\r\n  \x7b $x ->\n *[a] A \x7b\"s\"\x7d\r\n\x7d\r".toList := by decide
  have held : (Resource.parse
      "m = One\r\n  \x7b $x ->\n *[a] A \x7b\"s\"\x7d\r\n\x7d\r").entries["m"]? =
        some (.node (some severalLines) none) := by cbv
  have shown : "One\n" ∈ (Node.pattern severalLines).texts := by simp [Node.texts, severalLines]
  exact ⟨ends, unescaped, held, .value, .here, shown,
    parse_returnless ends unescaped held .value .here shown⟩

end Fluent.Grammar
