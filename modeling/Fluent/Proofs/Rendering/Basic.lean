import Fluent.Grammar.Resource

/-!
# Resources written out

Every resource has a text: its entries in the order of their ids, one attribute or variant a line.
A text stands on the line of its name, with escapes for what would not stand for itself there.

* `render` writes a resource, `Pattern.render` and `Expression.render` the parts of one;
* `Entry.WellFormed` tells which entries a text can give: its placeables nest within the room that
  it is given.
-/

namespace Fluent

open Grammar

/-- The escape that stands for a character. -/
def escaped (c : Char) : List Char :=
  if c = '\n' then ['\\', 'u', '0', '0', '0', 'a']
  else if c = '\t' then ['\\', 'u', '0', '0', '0', '9']
  else if c = ' ' then ['\\', 'u', '0', '0', '2', '0']
  else ['\\', c]

/-- A text with an escape for each character that is not plain. -/
def spelled (plain : Char → Bool) (text : List Char) : List Char :=
  text.flatMap fun c => if plain c then [c] else escaped c

/-- A written pattern with an escape for blank text in front, which would be passed over. -/
def guarded : List Char → List Char
  | c :: text => if Text.isInlineBlank c then escaped c ++ text else c :: text
  | [] => []

/-- A text between braces. -/
def braced (text : List Char) : List Char := '{' :: ' ' :: text ++ [' ', '}']

/-- Whether an expression has variants, so that it stands between braces of its own. -/
def Expression.hasVariants : Expression → Bool
  | .select _ _ _ => true
  | .variantList _ _ => true
  | _ => false

/-- The text of an expression as a selector or as an argument. -/
def Expression.enclose (expression : Expression) (text : List Char) : List Char :=
  if expression.hasVariants then braced text else text

/-- The text of the key of a variant. -/
def VariantKey.render : VariantKey → List Char
  | .number literal => literal.written.toList
  | .keyword name => name.toList

/-- The text in front of the key of a variant, which has a star for the default. -/
def variantMark (starred : Bool) : List Char :=
  if starred then [' ', ' ', ' ', '*', '['] else [' ', ' ', ' ', ' ', '[']

mutual

/-- The text of a pattern. -/
def Pattern.render : Pattern → List Char
  | .text value => guarded (spelled isPatternChar value.toList)
  | .elements parts => guarded (renderParts parts)

/-- The text of the parts of a pattern. -/
def renderParts : List Element → List Char
  | [] => []
  | .text value :: parts => spelled isPatternChar value.toList ++ renderParts parts
  | .placeable expression :: parts => braced expression.render ++ renderParts parts

/-- The text of an expression between its braces. -/
def Expression.render : Expression → List Char
  | .number literal => literal.written.toList
  | .string value => '"' :: spelled isStringChar value.toList ++ ['"']
  | .variableRef name => '$' :: name.toList
  | .entryRef id => id.toList
  | .attributeRef id name => id.toList ++ '.' :: name.toList
  | .variantRef id key => id.toList ++ '[' :: key.render ++ [']']
  | .call function arguments => function.toList ++ '(' :: renderArguments arguments ++ [')']
  | .select selector members standard =>
    selector.enclose selector.render ++
      ' ' :: '-' :: '>' :: '\n' :: renderVariants standard 0 members
  | .variantList members standard => '\n' :: renderVariants standard 0 members

/-- The text of the arguments of a call. -/
def renderArguments : List Argument → List Char
  | [] => []
  | .positional value :: arguments =>
    value.enclose value.render ++ (if arguments.isEmpty then [] else [',', ' ']) ++
      renderArguments arguments
  | .named name value :: arguments =>
    name.toList ++ ':' :: ' ' :: value.render ++ (if arguments.isEmpty then [] else [',', ' ']) ++
      renderArguments arguments

/-- The text of variants, the first of which has the given position. -/
def renderVariants (standard : Option Nat) (position : Nat) : List Variant → List Char
  | [] => []
  | .mk key value :: members =>
    variantMark (standard == some position) ++ key.render ++ ']' :: ' ' :: value.render ++
      '\n' :: renderVariants standard (position + 1) members

end

/-- The text of the attributes of an entry. -/
def renderAttributes (attributes : List (String × Pattern)) : List Char :=
  attributes.flatMap fun (name, value) =>
    [' ', ' ', ' ', ' ', '.'] ++ name.toList ++ ' ' :: '=' :: ' ' :: value.render ++ ['\n']

/-- The text of an entry. -/
def Entry.render (id : String) : Entry → List Char
  | .text value => id.toList ++ ' ' :: '=' :: ' ' :: (Pattern.text value).render ++ ['\n']
  | .node value attributes =>
    id.toList ++ ' ' :: '=' :: (value.elim [] fun value => ' ' :: value.render) ++
      '\n' :: (attributes.elim [] fun attributes => renderAttributes attributes.toList)

/-- The text of a resource. -/
def render (entries : Table Entry) : String :=
  String.ofList (entries.toList.flatMap fun entry => entry.2.render entry.1)

/-- Whether a text is a name: a letter and then identifier characters. -/
def isName : List Char → Bool
  | [] => false
  | c :: rest => c.isAlpha && rest.all isIdentifierChar

/-- Whether a text is the id of an entry: a name, with a hyphen in front of it for a term. -/
def isEntryId : List Char → Bool
  | '-' :: name => isName name
  | name => isName name

/-- Whether a text is a keyword: a letter or underscore and then keyword characters, no space at the
end. -/
def isKeyword : List Char → Bool
  | [] => false
  | c :: rest => (c.isAlpha || c == '_') && rest.all isKeywordChar && rest.getLast? != some ' '

/-- A number is written in digits, with an optional minus sign in front and an optional fraction,
and has the value of that text. -/
structure NumberLiteral.WellFormed (literal : NumberLiteral) : Prop where
  written : ∃ sign whole fraction, literal.written.toList = sign ++ whole ++ fraction ∧
    (sign = [] ∨ sign = ['-']) ∧ whole ≠ [] ∧ whole.all Char.isDigit = true ∧
    (fraction = [] ∨
      ∃ digits, fraction = '.' :: digits ∧ digits ≠ [] ∧ digits.all Char.isDigit = true)
  value : Number.readFloat? literal.written.toList = some literal.value

/-- The key of a variant is a number or a keyword. -/
def VariantKey.WellFormed : VariantKey → Prop
  | .number literal => literal.WellFormed
  | .keyword name => isKeyword name.toList = true

/-- The expression that an argument passes. -/
def Argument.value : Argument → Expression
  | .positional value => value
  | .named _ value => value

/-- A text that can stand at the end of a pattern: it is not empty and does not end in blank
text. -/
structure EndsPattern (text : String) : Prop where
  nonempty : text ≠ ""
  last : ∀ c, text.toList.getLast? = some c → Text.isBlank c = false

/-- The parts of a pattern: texts that are not empty, no two of them side by side, and at least one
placeable. -/
structure PartsWellFormed (parts : List Element) : Prop where
  placed : 0 < parts.countP Element.isPlaceable
  few : parts.countP Element.isPlaceable ≤ mostPlaceables
  apart : ∀ text next, ¬[.text text, .text next] <:+: parts
  texts : ∀ text, .text text ∈ parts → text ≠ ""
  last : ∀ text, parts.getLast? = some (.text text) → EndsPattern text
  shown : ∀ expression, .placeable expression ∈ parts → isTermAttribute expression = false

/-- Variants with their default: there is one at least, and the default is one of them. -/
structure VariantsWellFormed (members : List Variant) (standard : Option Nat) : Prop where
  some : members ≠ []
  standard : ∀ position, standard = .some position → position < members.length
  keys : ∀ member ∈ members, member.key.WellFormed

/-- A function has a name in capitals, and the named ones of its arguments are strings or
numbers. -/
structure CallWellFormed (function : String) (arguments : List Argument) : Prop where
  function : isName function.toList = true ∧ isFunctionName function = true
  names : ∀ name value, .named name value ∈ arguments →
    isEntryId name.toList = true ∧ isNamedValue value = true

mutual

/-- A pattern that a text can give, with room for so many braces inside one another. -/
inductive Pattern.WellFormed : Nat → Pattern → Prop
  | text {room : Nat} {value : String} (ends : EndsPattern value) :
    Pattern.WellFormed room (.text value)
  | elements {room : Nat} {parts : List Element} (sound : PartsWellFormed parts)
    (inner : ∀ expression, .placeable expression ∈ parts → Expression.WellFormed room expression) :
    Pattern.WellFormed (room + 1) (.elements parts)

/-- An expression that can stand between braces. -/
inductive Expression.WellFormed : Nat → Expression → Prop
  | number {room : Nat} {literal : NumberLiteral} (sound : literal.WellFormed) :
    Expression.WellFormed room (.number literal)
  | string {room : Nat} {value : String} : Expression.WellFormed room (.string value)
  | variableRef {room : Nat} {name : String} (sound : isName name.toList = true) :
    Expression.WellFormed room (.variableRef name)
  | entryRef {room : Nat} {id : String} (sound : isEntryId id.toList = true) :
    Expression.WellFormed room (.entryRef id)
  | attributeRef {room : Nat} {id name : String} (owner : isEntryId id.toList = true)
    (sound : isName name.toList = true) : Expression.WellFormed room (.attributeRef id name)
  | variantRef {room : Nat} {id : String} {key : VariantKey} (owner : isEntryId id.toList = true)
    (sound : key.WellFormed) : Expression.WellFormed room (.variantRef id key)
  | call {room : Nat} {function : String} {arguments : List Argument}
    (sound : CallWellFormed function arguments)
    (inner : ∀ argument ∈ arguments, Expression.Inline room argument.value) :
    Expression.WellFormed room (.call function arguments)
  | select {room : Nat} {selector : Expression} {members : List Variant} {standard : Option Nat}
    (sound : VariantsWellFormed members standard) (chooses : selectorFault? selector = none)
    (chosen : Expression.Inline room selector)
    (inner : ∀ member ∈ members, Pattern.WellFormed room member.value) :
    Expression.WellFormed room (.select selector members standard)
  | variantList {room : Nat} {members : List Variant} {standard : Option Nat}
    (sound : VariantsWellFormed members standard)
    (inner : ∀ member ∈ members, Pattern.WellFormed room member.value) :
    Expression.WellFormed room (.variantList members standard)

/-- An expression that can be a selector or an argument; one with variants has braces around it. -/
inductive Expression.Inline : Nat → Expression → Prop
  | plain {room : Nat} {expression : Expression} (single : expression.hasVariants = false)
    (inner : Expression.WellFormed room expression) : Expression.Inline room expression
  | braced {room : Nat} {expression : Expression} (several : expression.hasVariants = true)
    (inner : Expression.WellFormed room expression) : Expression.Inline (room + 1) expression

end

/-- Attributes that a text can give: there is one at least, and each has a name. -/
structure AttributesWellFormed (room : Nat) (attributes : Table Pattern) : Prop where
  some : attributes ≠ ∅
  names : ∀ (name : String) value, attributes[name]? = .some value → isName name.toList = true
  values : ∀ (name : String) value, attributes[name]? = .some value → value.WellFormed room

/-- An entry that a text can give: a term has a value, and a message that has none has
attributes. -/
inductive Entry.WellFormed (room : Nat) (id : String) : Entry → Prop
  | text {value : String} (named : isEntryId id.toList = true) (ends : EndsPattern value) :
    WellFormed room id (.text value)
  | node {value : Option Pattern} {attributes : Option (Table Pattern)}
    (named : isEntryId id.toList = true) (filled : value = none → attributes ≠ none)
    (term : EntryKind.ofId id = .term → value ≠ none)
    (values : ∀ pattern, value = some pattern → pattern.WellFormed room)
    (inner : ∀ table, attributes = some table → AttributesWellFormed room table) :
    WellFormed room id (.node value attributes)

/-- The entry as it is kept: one that has plain text for its value and no attributes is that
text. -/
def Entry.compact : Entry → Entry
  | .node (some (.text value)) none => .text value
  | entry => entry

end Fluent
