import Std.Data.ExtTreeMap

/-!
# Tables by name

Entries, attributes, arguments and options are kept by name. A table holds one value per name and
lists them in ascending order of the names' characters, so two tables with the same values are
equal whatever the order in which they were filled.
-/

namespace Fluent

/-- One value per name, in ascending order of names. -/
abbrev Table (α : Type) : Type := Std.ExtTreeMap String α

/-- The table of the given pairs; a later pair wins over an earlier one of the same name. -/
def Table.ofPairs {α : Type} (pairs : List (String × α)) : Table α :=
  pairs.foldl (fun table pair => table.insert pair.1 pair.2) ∅

/-- `lower` with every pair of `upper` put over it. -/
def Table.overlay {α : Type} (lower upper : Table α) : Table α :=
  upper.toList.foldl (fun table pair => table.insert pair.1 pair.2) lower

end Fluent
