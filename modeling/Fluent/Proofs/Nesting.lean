import Fluent.Proofs.Rendering.Basic

/-!
# Nodes inside one another

The nodes of an entry are its patterns and expressions. One stands in another as a placeable, as the
selector of a select expression, as the value of a variant or as an argument of a call.

* `Node.Leads`: the way from a node to one at some depth inside it, step by step;
* `Node.Sound`: the rules of the grammar that a node keeps, whatever stands inside it;
* `Node.Bounded`: the nodes inside one are sound, and the ways to them are bounded;
* `Entry.Sound`: the rules that an entry keeps.
-/

namespace Fluent

open Grammar

/-- A pattern or an expression. -/
inductive Node where
  | pattern (pattern : Pattern)
  | expression (expression : Expression)

/-- How one node stands in another. -/
inductive Step where
  | placeable
  | selector
  | variant
  | argument
  deriving DecidableEq

/-- A node stands in another, with nothing between them. -/
inductive Node.Holds : Node → Step → Node → Prop
  | placeable {parts : List Element} {expression : Expression}
    (part : .placeable expression ∈ parts) :
    Holds (.pattern (.elements parts)) .placeable (.expression expression)
  | selector {selector : Expression} {members : List Variant} {standard : Option Nat} :
    Holds (.expression (.select selector members standard)) .selector (.expression selector)
  | variant {selector : Expression} {members : List Variant} {standard : Option Nat}
    {member : Variant} (one : member ∈ members) :
    Holds (.expression (.select selector members standard)) .variant (.pattern member.value)
  | listed {members : List Variant} {standard : Option Nat} {member : Variant}
    (one : member ∈ members) :
    Holds (.expression (.variantList members standard)) .variant (.pattern member.value)
  | argument {function : String} {arguments : List Argument} {argument : Argument}
    (one : argument ∈ arguments) :
    Holds (.expression (.call function arguments)) .argument (.expression argument.value)

/-- The way from a node to one inside it. -/
inductive Node.Leads : Node → List Step → Node → Prop
  | here {node : Node} : Leads node [] node
  | inside {node next last : Node} {step : Step} {steps : List Step} (holds : node.Holds step next)
    (leads : Leads next steps last) : Leads node (step :: steps) last

/-- A pattern is the value of an entry or of one of its attributes. -/
inductive Entry.Holds : Entry → Pattern → Prop
  | text {value : String} : Holds (.text value) (.text value)
  | value {value : Pattern} {attributes : Option (Table Pattern)} :
    Holds (.node (some value) attributes) value
  | attribute {entry : Entry} {name : String} {value : Pattern}
    (held : entry.attribute? name = some value) : Holds entry value

/-! ## Rules of the grammar -/

/-- A text that does not end in blank text. -/
def Unpadded (text : String) : Prop :=
  ∀ c, text.toList.getLast? = some c → Text.isBlank c = false

/-- An expression that variants can be chosen by: neither a reference to an entry or a variant nor
an attribute of a message. -/
def Expression.Chooses : Expression → Prop
  | .entryRef _ => False
  | .variantRef _ _ => False
  | .attributeRef id _ => EntryKind.ofId id = .term
  | _ => True

/-- The rules that a node keeps, whatever stands inside it. -/
def Node.Sound : Node → Prop
  | .pattern (.text value) => Unpadded value
  | .pattern (.elements parts) => PartsWellFormed parts
  | .expression (.number literal) => literal.WellFormed
  | .expression (.string _) => True
  | .expression (.variableRef name) => isName name.toList = true
  | .expression (.entryRef id) => isEntryId id.toList = true
  | .expression (.attributeRef id name) => isEntryId id.toList = true ∧ isName name.toList = true
  | .expression (.variantRef id key) => isEntryId id.toList = true ∧ key.WellFormed
  | .expression (.call function arguments) => CallWellFormed function arguments
  | .expression (.select selector members standard) =>
    VariantsWellFormed members standard ∧ selector.Chooses
  | .expression (.variantList members standard) => VariantsWellFormed members standard

/-- The rules that an entry keeps. No more than `deepestNesting` placeables stand inside one another
there. -/
structure Entry.Sound (id : String) (entry : Entry) : Prop where
  named : isEntryId id.toList = true
  term : EntryKind.ofId id = .term → ∀ attributes, entry ≠ .node none attributes
  filled : ∀ attributes, entry = .node none attributes →
    ∃ name value, entry.attribute? name = some value
  plain : ∀ text attributes, entry = .node (some (.text text)) attributes →
    ∃ name value, entry.attribute? name = some value
  names : ∀ name value, entry.attribute? name = some value → isName name.toList = true
  inner : ∀ pattern steps node, entry.Holds pattern → (Node.pattern pattern).Leads steps node →
    node.Sound ∧ steps.count .placeable ≤ deepestNesting

/-! ## Bounds -/

/-- How many placeables a step goes into. -/
def Step.braces : Step → Nat
  | .placeable => 1
  | _ => 0

/-- How many levels a step goes down, arguments aside. -/
def Step.levels : Step → Nat
  | .argument => 0
  | _ => 1

/-- The nodes inside one are sound, there are no more than `chain` placeables on the way to one, and
no more than `depth` steps other than into arguments. -/
def Node.Bounded (chain depth : Nat) (node : Node) : Prop :=
  ∀ steps last, node.Leads steps last →
    last.Sound ∧ steps.count .placeable ≤ chain ∧ steps.length ≤ depth + steps.count .argument

namespace Node

variable {chain depth chain' depth' : Nat} {node : Node}

theorem Bounded.mono (bounded : node.Bounded chain depth) (hc : chain ≤ chain')
    (hd : depth ≤ depth') : node.Bounded chain' depth' := by
  intro steps last leads
  obtain ⟨sound, placeables, levels⟩ := bounded steps last leads
  exact ⟨sound, Nat.le_trans placeables hc, by omega⟩

/-- The bounds of a node follow from those of what stands in it. -/
theorem bounded_of_holds (chain depth : Nat) (sound : node.Sound)
    (inner : ∀ step next, node.Holds step next → next.Bounded chain depth ∧
      chain + step.braces ≤ chain' ∧ depth + step.levels ≤ depth') :
    node.Bounded chain' depth' := by
  intro steps last leads
  cases leads with
  | here => exact ⟨sound, Nat.zero_le _, Nat.zero_le _⟩
  | @inside _ next _ step steps holds leads =>
    obtain ⟨bounded, hc, hd⟩ := inner step next holds
    obtain ⟨last_sound, placeables, levels⟩ := bounded steps last leads
    refine ⟨last_sound, ?_, ?_⟩
    · cases step <;> simp [Step.braces] at hc ⊢ <;> omega
    · cases step <;> simp [Step.levels] at hd ⊢ <;> omega

theorem bounded_text {value : String} (unpadded : Unpadded value) :
    (pattern (.text value)).Bounded chain depth :=
  bounded_of_holds 0 0 unpadded fun _ _ holds => nomatch holds

theorem bounded_elements {parts : List Element} (sound : PartsWellFormed parts)
    (inner : ∀ value, .placeable value ∈ parts → (expression value).Bounded chain depth) :
    (pattern (.elements parts)).Bounded (chain + 1) (depth + 1) := by
  refine bounded_of_holds chain depth sound fun step next holds => ?_
  cases holds with
  | placeable part => exact ⟨inner _ part, Nat.le_refl _, Nat.le_refl _⟩

theorem bounded_call {function : String} {arguments : List Argument}
    (sound : CallWellFormed function arguments)
    (inner : ∀ argument ∈ arguments, (expression argument.value).Bounded chain depth) :
    (expression (.call function arguments)).Bounded chain depth := by
  refine bounded_of_holds chain depth sound fun step next holds => ?_
  cases holds with
  | argument one => exact ⟨inner _ one, Nat.le_refl _, Nat.le_refl _⟩

theorem bounded_select {selector : Expression} {members : List Variant} {standard : Option Nat}
    (sound : VariantsWellFormed members standard) (chooses : selector.Chooses)
    (chosen : (expression selector).Bounded chain depth)
    (inner : ∀ member ∈ members, (pattern member.value).Bounded chain depth) :
    (expression (.select selector members standard)).Bounded chain (depth + 1) := by
  refine bounded_of_holds chain depth ⟨sound, chooses⟩ fun step next holds => ?_
  cases holds with
  | selector => exact ⟨chosen, Nat.le_refl _, Nat.le_refl _⟩
  | variant one => exact ⟨inner _ one, Nat.le_refl _, Nat.le_refl _⟩

theorem bounded_variantList {members : List Variant} {standard : Option Nat}
    (sound : VariantsWellFormed members standard)
    (inner : ∀ member ∈ members, (pattern member.value).Bounded chain depth) :
    (expression (.variantList members standard)).Bounded chain (depth + 1) := by
  refine bounded_of_holds chain depth sound fun step next holds => ?_
  cases holds with
  | listed one => exact ⟨inner _ one, Nat.le_refl _, Nat.le_refl _⟩

end Node

end Fluent
