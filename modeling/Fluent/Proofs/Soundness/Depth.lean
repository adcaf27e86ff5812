import Mathlib
import Fluent.Proofs.Rendering.Resource
import Fluent.Proofs.Soundness.Resource

/-!
# How deep entries go

The room for braces bounds how deep the nodes of an entry stand inside one another, but for the
arguments of calls, which take no room: there is no bound on how deep calls nest.

* `entry_levels`: the bound on the other levels;
* `deepest`: a pattern of as many levels as there can be, with calls inside one another;
* `levels_bounded_but_arguments`: how deep nodes stand by the number of calls.
-/

namespace Fluent.Grammar

/-- The bound on the levels inside an entry, arguments aside. -/
theorem entry_levels {source id : String} {entry : Entry} {pattern : Pattern} {steps : List Step}
    {node : Node} (held : (Resource.parse source).entries[id]? = some entry)
    (holds : entry.Holds pattern) (leads : (Node.pattern pattern).Leads steps node) :
    steps.length ≤ 2 * deepestNesting + steps.count .argument := by
  have fits : FitsRoom entry :=
    entry_of_parse (P := fun _ entry => FitsRoom entry) (yields_message.mono fun _ => And.right) held
  exact (fits pattern holds steps node leads).2.2

/-- Calls inside one another, the innermost with a text for its argument. -/
def nestedCalls : Nat → Expression
  | 0 => .string "x"
  | depth + 1 => .call "F" [.positional (nestedCalls depth)]

theorem nestedCalls_leads (depth : Nat) :
    (Node.expression (nestedCalls depth)).Leads (List.replicate depth .argument)
      (.expression (.string "x")) := by
  induction depth with
  | zero => exact .here
  | succ depth ih =>
    have one : Argument.positional (nestedCalls depth) ∈ [.positional (nestedCalls depth)] :=
      List.mem_cons_self
    exact .inside (.argument one) ih

theorem nestedCalls_wellFormed (room depth : Nat) : (nestedCalls depth).WellFormed room := by
  induction depth with
  | zero => exact .string
  | succ depth ih =>
    refine .call ⟨⟨by decide, by decide⟩, nofun⟩ fun argument one => ?_
    have single : (nestedCalls depth).hasVariants = false := by cases depth <;> rfl
    exact List.mem_singleton.mp one ▸ .plain single ih

/-- A pattern shows what nested calls choose. -/
def chosenByCalls (depth : Nat) : Pattern :=
  .elements [.placeable (.select (nestedCalls depth) [.mk (.keyword "a") (.text "x")] none)]

theorem chosenByCalls_leads (depth : Nat) :
    (Node.pattern (chosenByCalls depth)).Leads
      (.placeable :: .selector :: List.replicate depth .argument) (.expression (.string "x")) :=
  .inside (.placeable List.mem_cons_self) (.inside .selector (nestedCalls_leads depth))

theorem chosenByCalls_wellFormed (room depth : Nat) :
    (chosenByCalls depth).WellFormed (room + 1) := by
  refine .elements (partsWellFormed_singleton rfl) fun value part => ?_
  obtain rfl := Element.placeable.inj (List.mem_singleton.mp part)
  have single : (nestedCalls depth).hasVariants = false := by cases depth <;> rfl
  have chooses : selectorFault? (nestedCalls depth) = none := by cases depth <;> rfl
  have ends : EndsPattern "x" := ⟨by decide, by simp [Text.isBlank]⟩
  refine .select (variantsWellFormed_singleton _) chooses
    (.plain single (nestedCalls_wellFormed room depth)) fun member one => ?_
  exact List.mem_singleton.mp one ▸ .text ends

/-- Variant lists around a pattern. -/
def listed (inner : Pattern) : Nat → Pattern
  | 0 => inner
  | depth + 1 =>
    .elements [.placeable (.variantList [.mk (.keyword "a") (listed inner depth)] none)]

/-- A variant list goes down two levels for its brace. -/
theorem listed_leads {inner : Pattern} {steps : List Step} {node : Node}
    (leads : (Node.pattern inner).Leads steps node) (depth : Nat) :
    ∃ further, (Node.pattern (listed inner depth)).Leads further node ∧
      further.length = 2 * depth + steps.length ∧
      further.count .argument = steps.count .argument := by
  induction depth with
  | zero => exact ⟨steps, leads, by omega, rfl⟩
  | succ depth ih =>
    obtain ⟨further, leads, length, arguments⟩ := ih
    have one : Variant.mk (.keyword "a") (listed inner depth) ∈
        [.mk (.keyword "a") (listed inner depth)] := List.mem_cons_self
    refine ⟨.placeable :: .variant :: further, ?_, ?_, ?_⟩
    · exact .inside (.placeable List.mem_cons_self) (.inside (.listed one) leads)
    · simp only [List.length_cons]
      omega
    · simpa using arguments

theorem listed_wellFormed {inner : Pattern} {room : Nat} (sound : inner.WellFormed room)
    (depth : Nat) : (listed inner depth).WellFormed (room + depth) := by
  induction depth with
  | zero => exact sound
  | succ depth ih =>
    refine .elements (partsWellFormed_singleton rfl) fun value part => ?_
    obtain rfl := Element.placeable.inj (List.mem_singleton.mp part)
    refine .variantList (variantsWellFormed_singleton _) fun member one => ?_
    exact List.mem_singleton.mp one ▸ ih

/-- As many levels as there can be with so many calls inside one another: variant lists take up all
the room but for one brace, and in that the calls choose a variant. -/
def deepest (calls : Nat) : Pattern := listed (chosenByCalls calls) (deepestNesting - 1)

theorem deepest_wellFormed (calls : Nat) :
    (Entry.node (some (deepest calls)) none).WellFormed deepestNesting "a" := by
  have named : isEntryId "a".toList = true := by decide
  have room : 0 + 1 + (deepestNesting - 1) = deepestNesting := rfl
  refine .node named nofun nofun (fun pattern h => ?_) nofun
  obtain rfl := Option.some_inj.mp h
  exact room ▸ listed_wellFormed (chosenByCalls_wellFormed 0 calls) (deepestNesting - 1)

/-- A message is read back from its text. -/
theorem parse_entry {entry : Entry} (sound : entry.WellFormed deepestNesting "a") : ∃ source,
    (Resource.parse source).errors = [] ∧
      (Resource.parse source).entries["a"]? = some entry.compact := by
  refine ⟨String.ofList (entry.render "a"), ?_⟩
  have found : items true (entry.render "a") = [.entry "a" entry.compact] := by
    have read := items_render sound (.inl rfl : FollowsEntry [])
    rwa [List.append_nil, items_nil] at read
  rw [Resource.parse_errors, Resource.parse_entries, String.toList_ofList, found]
  exact ⟨rfl, Std.ExtTreeMap.getElem?_insert_self⟩

/-- There are so many steps from an entry that is read without errors to one of its nodes, and so
many of them go into arguments. -/
def Reaches (levels arguments : Nat) : Prop :=
  ∃ (source id : String) (entry : Entry) (pattern : Pattern) (steps : List Step) (node : Node),
    (Resource.parse source).errors = [] ∧ (Resource.parse source).entries[id]? = some entry ∧
      entry.Holds pattern ∧ (Node.pattern pattern).Leads steps node ∧
      steps.length = levels ∧ steps.count .argument = arguments

/-- With no more than `most` calls inside one another, the nodes of an entry stand no deeper inside
one another than two levels for each brace that there is room for, and `most` levels more. However
many calls that is, they are read, and go that deep. -/
theorem levels_bounded_but_arguments (most : Nat) :
    (∀ (source id : String) (entry : Entry) (pattern : Pattern) (steps : List Step) (node : Node),
      (Resource.parse source).entries[id]? = some entry → entry.Holds pattern →
        (Node.pattern pattern).Leads steps node → steps.count .argument ≤ most →
          steps.length ≤ 2 * deepestNesting + most) ∧
    Reaches (2 * deepestNesting + most) most := by
  constructor
  · intro source id entry pattern steps node held holds leads few
    have levels := entry_levels held holds leads
    omega
  · obtain ⟨source, sound, held⟩ := parse_entry (deepest_wellFormed most)
    obtain ⟨steps, leads, levels, arguments⟩ :=
      listed_leads (chosenByCalls_leads most) (deepestNesting - 1)
    refine ⟨source, "a", _, _, steps, _, sound, held, .value, leads, ?_, ?_⟩
    · rw [levels, List.length_cons, List.length_cons, List.length_replicate, deepestNesting]
      omega
    · simpa using arguments

theorem levels_bounded_oneVariant :
    (Resource.parse "a = \x7b $x ->\n   *[one] One\n\x7d\n").entries["a"]? = some oneVariant ∧
      [Step.placeable, .variant].length ≤ 2 * deepestNesting + 0 :=
  have held : (Resource.parse "a = \x7b $x ->\n   *[one] One\n\x7d\n").entries["a"]? =
      some oneVariant := by cbv
  ⟨held, (levels_bounded_but_arguments 0).1 _ _ _ _ _ _ held .value
    (.inside (.placeable List.mem_cons_self) (.inside (.variant List.mem_cons_self) .here))
    (Nat.le_refl 0)⟩

end Fluent.Grammar
