import Fluent.Table
import Fluent.Message.Pattern

/-!
# Entries

An entry is a message or a term: a value, attributes by name, or both. The id tells the two apart,
as the id of a term starts with a hyphen.
-/

namespace Fluent

/-- An entry. One that has plain text for its value and no attributes is that text. -/
inductive Entry where
  | text (value : String)
  | node (value : Option Pattern) (attributes : Option (Table Pattern))

namespace Entry

/-- The pattern of an entry that is more than plain text. -/
def pattern? : Entry → Option Pattern
  | .text _ => none
  | .node value _ => value

/-- The attribute of the given name. -/
def attribute? (entry : Entry) (name : String) : Option Pattern :=
  match entry with
  | .node _ (some attributes) => attributes[name]?
  | _ => none

end Entry

/-- The two kinds of entries. -/
inductive EntryKind where
  | message
  | term
  deriving DecidableEq, Repr

namespace EntryKind

/-- The kind of the entry with the given id. -/
def ofId (id : String) : EntryKind := if id.toList.head? = some '-' then .term else .message

/-- The name of the kind. -/
def name : EntryKind → String
  | .message => "message"
  | .term => "term"

end EntryKind

end Fluent
