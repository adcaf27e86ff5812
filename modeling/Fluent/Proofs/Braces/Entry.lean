import Fluent.Proofs.Braces.Placeable
import Fluent.Proofs.Recovery
import Fluent.Proofs.VariantLines.Entry

/-!
# Entries with more braces than needed

A pair of braces directly inside another one changes nothing but the room that both take together.
Where they take more than there is, the entry is left out, and so is all that stands between them,
as no line inside braces starts an entry.

* `items_entryless`: a text the lines of which start no entries;
* `not_startsEntry`: a line inside braces;
* `parse_bracedEntry`: an entry with any number of braces around its placeable.
-/

namespace Fluent.Grammar.Braces

open Fluent.Grammar.Parser Fluent.Text.Reader

variable {source text rest tail : List Char} {m m' : Mode} {c : Char}

/-! ## Lines that start no entries -/

/-- No line of the text but the first one starts an entry. -/
def Entryless (source : List Char) : Prop := ∀ rest, '\n' :: rest <:+ source → ¬StartsEntry rest

theorem lineFeed_of_atLineStart {lineStart : Bool} (within : text <:+ source)
    (known : lineStart = true → rest = text → '\n' :: text <:+ source) (left : rest <:+ text)
    (start : atLineStart lineStart text rest = true) : '\n' :: rest <:+ source := by
  obtain ⟨front, rfl⟩ := left
  rw [atLineStart_append] at start
  obtain rfl | ⟨front, c, rfl⟩ := front.eq_nil_or_concat'
  · exact known start rfl
  · rw [List.getLast?_concat] at start
    obtain rfl := eq_of_beq start
    rw [List.append_assoc] at within
    exact (List.suffix_append front _).trans within

/-- An entry is found where one starts, at the start of a line. -/
theorem startsEntry_of_attempt {lineStart : Bool} {id : String} {entry : Entry}
    (found : .entry id entry ∈ (attempt lineStart text).1) :
    lineStart = true ∧ StartsEntry text := by
  rw [attempt, entryOrComment_apply] at found
  cases lineStart with
  | false => simp at found
  | true =>
    refine ⟨rfl, ?_⟩
    rw [if_pos rfl] at found
    by_cases comment : startsComment text = true
    · simp [comment] at found
    · rw [if_neg comment, bind_apply] at found
      cases read : message text with
      | error failure => simp [read] at found
      | ok found => exact startsEntry_of_message read

theorem items_entryless (none : Entryless source) {lineStart : Bool} (within : text <:+ source)
    (known : lineStart = true → '\n' :: text <:+ source) {id : String} {entry : Entry} :
    .entry id entry ∉ items lineStart text := by
  induction lineStart, text using attempts_induction with
  | blank lineStart text ih =>
    rw [items_dropWhile]
    have left := List.dropWhile_suffix (l := text) Text.isBlank
    exact ih (left.trans within) (lineFeed_of_atLineStart within (fun start _ => known start) left)
  | ended => simp
  | attempted lineStart c text head ih =>
    have left := (attempt_suffix lineStart c text).trans (List.suffix_cons c text)
    rw [items_cons lineStart head, List.mem_append]
    rintro (found | found)
    · obtain ⟨start, opens⟩ := startsEntry_of_attempt found
      exact none _ (known start) opens
    · refine ih (left.trans within) ?_ found
      exact lineFeed_of_atLineStart within (fun start _ => known start) left

/-! ## Lines inside braces -/

/-- Behind a line feed inside braces there is code, or all is blank so far. -/
theorem move_lineFeed {move : Move} (here : m.move '\n' = some move) :
    ∃ m', move = .stay m' ∧ (m' = .code false ∨ ∃ first, m' = .line first none) := by
  cases m with
  | code named => exact ⟨_, (Option.some_inj.mp here).symm, .inl rfl⟩
  | string => cases here
  | escape inString => cases here
  | key ofReference => cases here
  | value => exact ⟨_, (Option.some_inj.mp here).symm, .inr ⟨_, rfl⟩⟩
  | text => exact ⟨_, (Option.some_inj.mp here).symm, .inr ⟨_, rfl⟩⟩
  | line first indented => exact ⟨_, (Option.some_inj.mp here).symm, .inr ⟨_, rfl⟩⟩
  | lineReturn first indented => exact ⟨_, (Option.some_inj.mp here).symm, .inr ⟨_, rfl⟩⟩

/-- The name of an entry is scanned as code, on whatever line of a pair of braces. -/
theorem walks_name {name : List Char} (code : m = .code false ∨ ∃ first, m = .line first none)
    (some : name ≠ []) (all : ∀ c ∈ name, isIdentifierChar c = true) :
    Walks 0 m name [.code true] := by
  cases name with
  | nil => exact absurd rfl some
  | cons c name =>
    have first := all c List.mem_cons_self
    have named := move_plainCode (isPlainCode_of_isIdentifierChar first) false
    rw [first] at named
    have move : m.move c = Option.some (.stay (.code true)) := by
      obtain rfl | ⟨blank, rfl⟩ := code
      · exact named
      · have other (d : Char) (h : isIdentifierChar d = false) : c ≠ d := fun same => by
          simp [← same, first] at h
        have inline : Text.isInlineBlank c = false := by
          simp [Text.isInlineBlank, other ' ' rfl, other '\t' rfl]
        have same : (Mode.line blank none).move c = (Mode.code false).move c := by
          simp [Mode.move, other '\n' rfl, other '\r' rfl, inline]
        exact same.trans named
    obtain ⟨_, rfl, walks⟩ := stays_named.walks
      (fun d member => all d (List.mem_cons_of_mem c member)) rfl
    exact (walks_stay move).append walks

/-- An entry starts with a name, and behind blank text there is an equals sign. -/
theorem startsEntry_parts (starts : StartsEntry text) : ∃ name blank next,
    text = name ++ blank ++ '=' :: next ∧ name ≠ [] ∧
      (∀ c ∈ name, isIdentifierChar c = true) ∧ ∀ c ∈ blank, Text.isInlineBlank c = true := by
  obtain ⟨c, others, first, letter⟩ := starts.cases
  obtain ⟨id, after, read, equals⟩ := starts
  rw [entryIdentifier_eq] at read
  split at read
  · obtain ⟨-, rfl⟩ := Prod.mk.inj (Except.ok.inj read)
    obtain ⟨next, equals⟩ := List.head?_eq_some_iff.mp equals
    refine ⟨text.takeWhile isIdentifierChar,
      (text.dropWhile isIdentifierChar).takeWhile Text.isInlineBlank, next, ?_, ?_,
      fun c member => List.mem_takeWhile_imp member, fun c member => List.mem_takeWhile_imp member⟩
    · rw [List.append_assoc, ← equals, List.takeWhile_append_dropWhile,
        List.takeWhile_append_dropWhile]
    · have named : isIdentifierChar c = true := by
        obtain letter | ⟨rfl, -⟩ := letter
        · exact isIdentifierChar_of_isAlpha letter
        · rfl
      rw [first, List.takeWhile_cons_of_pos named]
      exact List.cons_ne_nil _ _
  · cases read

/-- Where scanning comes to the end of all braces, no entry starts on the line: its equals sign has
no place there. -/
theorem not_startsEntry {depth n : Nat} {outer : List Mode} (deep : outer.length < depth)
    (code : m = .code false ∨ ∃ first, m = .line first none)
    (scanned : Scan.run ⟨depth, m :: outer⟩ text = some ⟨n, []⟩) (tail : List Char) :
    ¬StartsEntry (text ++ tail) := by
  intro starts
  obtain ⟨name, blank, next, parts, some, named, inline⟩ := startsEntry_parts starts
  obtain ⟨_, ⟨_, rfl⟩, walks⟩ := stays_codeInlineBlank.walks inline ⟨true, rfl⟩
  have front := (walks_name code some named).append walks depth outer deep
  obtain ⟨more, split, behind⟩ | ⟨more, split, -⟩ := List.append_eq_append_iff.mp parts.symm
  · rw [split, Scan.run_append, front, Option.bind_some] at scanned
    cases more with
    | nil => cases scanned
    | cons c more =>
      obtain ⟨rfl, -⟩ := List.cons.inj behind
      cases scanned
  · rw [split, Scan.run_append, scanned] at front
    cases more <;> cases front

theorem suffix_of_notMem {front back : List Char} (none : c ∉ front)
    (within : c :: rest <:+ front ++ back) : c :: rest <:+ back := by
  induction front with
  | nil => exact within
  | cons d front ih =>
    obtain same | within := List.suffix_cons_iff.mp within
    · exact absurd (List.cons.inj same).1 (List.ne_of_not_mem_cons none)
    · exact ih (List.not_mem_of_not_mem_cons none) within

/-- No line inside a pair of braces starts an entry. -/
theorem entryless_of_walks {k : Nat} {front inner : List Char} (noFeed : '\n' ∉ front)
    (walks : Walks k (.code false) inner []) : Entryless (front ++ '{' :: (inner ++ ['\n'])) := by
  intro rest within starts
  have opening : '\n' ∉ front ++ ['{'] := by simpa using noFeed
  rw [List.append_cons] at within
  obtain ⟨before, parts⟩ := suffix_of_notMem opening within
  obtain rfl | ⟨rest, last, rfl⟩ := rest.eq_nil_or_concat'
  · exact starts.ne_nil rfl
  · rw [← List.cons_append, ← List.append_assoc] at parts
    obtain ⟨rfl, -⟩ := List.append_inj' parts rfl
    have scanned := walks 1 [] Nat.one_pos
    rw [Scan.run_append] at scanned
    obtain ⟨⟨depth, modes⟩, -, scanned⟩ := Option.bind_eq_some_iff.mp scanned
    cases modes with
    | nil => cases scanned
    | cons m outer =>
      rw [Scan.run_cons] at scanned
      obtain ⟨move, here, scanned⟩ := Option.bind_eq_some_iff.mp scanned
      obtain ⟨m', rfl, code⟩ := move_lineFeed here
      exact not_startsEntry (Nat.lt_of_lt_of_le (Nat.lt_succ_self _) (Nat.le_max_right _ _)) code
        scanned [last] starts

/-! ## Braces around braces -/

/-- A text with so many braces on either side. -/
def enclosed (braces : Nat) (text : List Char) : List Char :=
  List.replicate braces '{' ++ text ++ List.replicate braces '}'

theorem enclosed_succ (braces : Nat) (text : List Char) :
    enclosed (braces + 1) text = '{' :: (enclosed braces text ++ ['}']) := by
  rw [enclosed, List.replicate_succ, List.replicate_succ', enclosed]
  simp only [List.cons_append, List.append_assoc]

variable {k : Nat} {inner : List Char} {x : Expression}

theorem PairReads.enclosed (pair : PairReads k inner x) (more : Nat) :
    PairReads (k + more) (enclosed more inner) x := by
  induction more with
  | zero => simpa [Braces.enclosed] using pair
  | succ more ih =>
    rw [enclosed_succ, ← Nat.add_assoc]
    exact ih.wrap

theorem walks_enclosed (walks : Walks k (.code false) (inner ++ ['}']) []) (more : Nat) :
    Walks (k + more) (.code false) (enclosed more inner ++ ['}']) [] := by
  induction more with
  | zero => simpa [enclosed] using walks
  | succ more ih =>
    rw [enclosed_succ, ← Nat.add_assoc]
    exact nesting_wrap ih

/-! ## Entries -/

/-- An entry the value of which is a text between so many braces. -/
def bracedEntry (id : String) (braces : Nat) (inner : String) : String :=
  id ++ " = " ++ String.ofList (enclosed braces inner.toList) ++ "\n"

/-- An entry the value of which is a text between braces. -/
def entryText (id : String) (inner : List Char) : List Char :=
  id.toList ++ ' ' :: '=' :: ' ' :: '{' :: (inner ++ ['}', '\n'])

theorem bracedEntry_toList (id inner : String) (more : Nat) :
    (bracedEntry id (more + 1) inner).toList = entryText id (enclosed more inner.toList) := by
  simp [bracedEntry, entryText, enclosed_succ]

section

variable {id : String} (identified : isEntryId id.toList = true)

include identified

theorem entryText_follows (inner : List Char) : FollowsEntry (entryText id inner) :=
  followsEntry_of_isEntryId identified

theorem message_entryText (inner : List Char) : message (entryText id inner) =
    messageBody id ('{' :: (inner ++ ['}', '\n'])) := by
  rw [entryText, message_eq, bind_ok (messageHead_reads identified _)]
  rfl

theorem attempt_entryText (inner : List Char) : attempt true (entryText id inner) =
    match message (entryText id inner) with
    | .ok ((id, entry), rest) => ([.entry id entry], rest)
    | .error failure => ([.failure failure], resume (entryText id inner) failure.rest) := by
  rw [attempt, entryOrComment_apply, if_pos rfl,
    (entryText_follows identified inner).not_startsComment, if_neg Bool.false_ne_true, bind_apply]
  cases message (entryText id inner) <;> rfl

theorem items_entryText (inner : List Char) :
    let found := attempt true (entryText id inner)
    items true (entryText id inner) =
      found.1 ++ items (atLineStart true (entryText id inner) found.2) found.2 := by
  have visible := (entryText_follows identified inner).head
  obtain ⟨c, rest, parts⟩ :=
    List.exists_cons_of_ne_nil (l := entryText id inner) (by simp [entryText])
  rw [parts] at visible ⊢
  exact items_cons true visible rest

/-- What is read between the braces is the value of the entry. -/
theorem items_of_placeable
    (read : entryPlaceable ('{' :: (inner ++ ['}', '\n'])) = .ok (x, ['\n'])) :
    items true (entryText id inner) =
      [.entry id (.node (some (.elements [.placeable x])) none)] := by
  have follows : FollowsEntry [] := .inl rfl
  have value := pattern_placeable follows.endsLine read (by simp)
  have first : attempt true (entryText id inner) =
      ([.entry id (.node (some (.elements [.placeable x])) none)], []) := by
    rw [attempt_entryText identified, message_entryText identified, messageBody, bind_ok value,
      messageTail_compact follows]
    rfl
  rw [items_entryText identified, first, items_nil]
  rfl

/-- An entry fails where the text between its braces does, and reading goes on behind it. -/
theorem items_of_failure {failure : Failure}
    (fails : entryPlaceable ('{' :: (inner ++ ['}', '\n'])) = .error failure) :
    ∃ rest, rest <:+ entryText id inner ∧ rest ≠ entryText id inner ∧
      items true (entryText id inner) =
        .failure failure :: items (atLineStart true (entryText id inner) rest) rest := by
  have read : message (entryText id inner) = .error failure := by
    rw [message_entryText identified, messageBody, bind_error (pattern_placeable_fails fails)]
  have first : attempt true (entryText id inner) =
      ([.failure failure], resume (entryText id inner) failure.rest) := by
    rw [attempt_entryText identified, read]
  have stop := message_suffix (entryText id inner)
  rw [read] at stop
  have found := items_entryText identified inner
  rw [first] at found
  obtain ⟨c, rest, parts⟩ :=
    List.exists_cons_of_ne_nil (l := entryText id inner) (by simp [entryText])
  rw [parts] at stop found ⊢
  have behind := resume_suffix stop
  refine ⟨_, behind.trans (List.suffix_cons c rest), fun same => ?_, found⟩
  rw [same] at behind
  exact absurd behind.length_le (Nat.not_succ_le_self rest.length)

/-- An entry without errors holds what is read between its braces. -/
theorem exists_placeable {source : String} (whole : source.toList = entryText id inner)
    (read : (Resource.parse source).errors = []) :
    ∃ x rest, entryPlaceable ('{' :: (inner ++ ['}', '\n'])) = .ok (x, rest) := by
  cases placed : entryPlaceable ('{' :: (inner ++ ['}', '\n'])) with
  | ok found => exact ⟨found.1, found.2, rfl⟩
  | error failure =>
    obtain ⟨rest, -, -, found⟩ := items_of_failure identified placed
    rw [Resource.parse_errors, whole, found] at read
    cases read

theorem parse_of_enough {source : String} (whole : source.toList = entryText id inner)
    (pair : PairReads k inner x) (enough : k ≤ deepestNesting) :
    (Resource.parse source).entries =
        (∅ : Table Entry).insert id (.node (some (.elements [.placeable x])) none) ∧
      (Resource.parse source).errors = [] := by
  have found := items_of_placeable identified (pair.enough deepestNesting ['\n'] enough)
  rw [Resource.parse_entries, Resource.parse_errors, whole, found]
  exact ⟨rfl, rfl⟩

theorem parse_of_short {source : String} (whole : source.toList = entryText id inner)
    (pair : PairReads k inner x) {k' : Nat} (walks : Walks k' (.code false) (inner ++ ['}']) [])
    (short : deepestNesting < k) :
    (Resource.parse source).entries = ∅ ∧
      ∃ error others, (Resource.parse source).errors = error :: others ∧
        error.fault = .tooDeeplyNested := by
  obtain ⟨stop, fails⟩ := pair.short deepestNesting ['\n'] short
  obtain ⟨rest, within, other, found⟩ := items_of_failure identified fails
  have entryless : Entryless (entryText id inner) := by
    have front : '\n' ∉ id.toList ++ [' ', '=', ' '] := by
      simpa using List.count_eq_zero.mp (count_lineFeed_id identified)
    have none := entryless_of_walks front walks
    simpa [entryText] using none
  have none (id' : String) (entry : Entry) : .entry id' entry ∉ items true source.toList := by
    rw [whole, found]
    rintro (_ | ⟨_, member⟩)
    refine items_entryless entryless within (lineFeed_of_atLineStart (List.suffix_refl _) ?_ within)
      member
    exact fun _ same => absurd same other
  rw [Resource.parse_entries, foldl_addTo_failures none, Resource.parse_errors, whole, found]
  exact ⟨rfl, _, _, rfl, rfl⟩

end

/-- **Braces around braces change nothing.** An entry without errors that holds a pair of braces
holds what is read between them, whatever that is. With more braces directly around them the entry
is the same as long as all of them together are no deeper than is allowed. Where they are deeper,
that is the first error, and nothing is defined. -/
theorem parse_bracedEntry {id inner : String} {k : Nat} (identified : isEntryId id.toList = true)
    (depth : nesting (enclosed 1 inner.toList) = some k)
    (read : (Resource.parse (bracedEntry id 1 inner)).errors = []) :
    ∃ x, (Resource.parse (bracedEntry id 1 inner)).entries =
        (∅ : Table Entry).insert id (.node (some (.elements [.placeable x])) none) ∧
      ∀ more,
        let found := Resource.parse (bracedEntry id (more + 1) inner)
        (k + more ≤ deepestNesting →
          found.entries = (Resource.parse (bracedEntry id 1 inner)).entries ∧ found.errors = []) ∧
        (deepestNesting < k + more → found.entries = ∅ ∧
          ∃ error others, found.errors = error :: others ∧ error.fault = .tooDeeplyNested) := by
  have bare : enclosed 0 inner.toList = inner.toList := by simp [enclosed]
  have whole := bracedEntry_toList id inner
  have base := whole 0
  rw [enclosed_succ, bare] at depth
  rw [bare] at base
  obtain ⟨x, rest, placed⟩ := exists_placeable identified base read
  obtain ⟨-, pair, k', walks⟩ := pair_of_nesting placed depth
  have enough : k ≤ deepestNesting := by
    refine Nat.le_of_not_lt fun short => ?_
    obtain ⟨-, error, others, errors, -⟩ := parse_of_short identified base pair walks short
    cases read.symm.trans errors
  obtain ⟨same, -⟩ := parse_of_enough identified base pair enough
  refine ⟨x, same, fun more => ⟨fun enough => ?_, fun short => ?_⟩⟩
  · rw [same]
    exact parse_of_enough identified (whole more) (pair.enclosed more) enough
  · exact parse_of_short identified (whole more) (pair.enclosed more) (walks_enclosed walks more)
      short

/-- A select expression with a pair of braces in a variant, and in it a brace that is none. -/
def choice : String := " $x ->\n *[one] One \x7b \"\x7d\" \x7d\n"

theorem parse_bracedEntry_choice :
    bracedEntry "a" 2 choice = "a = \x7b\x7b $x ->\n *[one] One \x7b \"\x7d\" \x7d\n\x7d\x7d\n" ∧
    nesting (enclosed 1 choice.toList) = some 2 ∧
    (Resource.parse (bracedEntry "a" 1 choice)).errors = [] ∧
    ∃ x, (Resource.parse (bracedEntry "a" 1 choice)).entries =
        (∅ : Table Entry).insert "a" (.node (some (.elements [.placeable x])) none) ∧
      ∀ more,
        let found := Resource.parse (bracedEntry "a" (more + 1) choice)
        (2 + more ≤ deepestNesting →
          found.entries = (Resource.parse (bracedEntry "a" 1 choice)).entries ∧ found.errors = []) ∧
        (deepestNesting < 2 + more → found.entries = ∅ ∧
          ∃ error others, found.errors = error :: others ∧ error.fault = .tooDeeplyNested) := by
  have depth : nesting (enclosed 1 choice.toList) = some 2 := by decide
  have read : (Resource.parse (bracedEntry "a" 1 choice)).errors = [] := by cbv
  exact ⟨by decide, depth, read, parse_bracedEntry (by decide) depth read⟩

end Fluent.Grammar.Braces
