import Mathlib
import Fluent.Cursor.Basic
import Fluent.Proofs.Restart

/-!
# Texts by their bytes

How the characters of a text show in its bytes. A character below 128 is its own byte, every other
one starts with a byte from 192 on and goes on with continuation bytes, so what is looked for below
128 is found among the bytes where it is found among the characters.

* `encoded`: the bytes of a character;
* `Steady`, `takeWhile_codes`, `dropWhile_codes`: runs of characters are runs of bytes;
* `place`: the offset in a text at which an end of it starts;
* `extract_place`, `bytes_drop_place`: what a text holds at and between such offsets.
-/

namespace Fluent.Cursor

open Grammar (byteSize byteSize_append byteSize_pos byteSize_toList)

/-! ## Characters -/

/-- The bytes of a character. -/
def encode (c : Char) : List Char := (String.utf8EncodeChar c).map Char.ofUInt8

/-- The bytes of a text. -/
def codes (text : List Char) : List Char := text.flatMap encode

/-- What the bytes of a character can be: the character, or a first byte and continuations. -/
inductive Encoded (c : Char) : List Char → Prop
  | plain : c.toNat < 128 → Encoded c [c]
  | wide {first : Char} {rest : List Char} : 192 ≤ first.toNat →
      (∀ byte ∈ rest, isContinuation byte = true) → 128 ≤ c.toNat → Encoded c (first :: rest)

theorem toNat_ofUInt8 {n : Nat} (small : n < 256) : (Char.ofUInt8 (UInt8.ofNat n)).toNat = n := by
  change (UInt8.ofNat n).toUInt32.toNat = n
  rw [UInt8.toNat_toUInt32, UInt8.toNat_ofNat', Nat.mod_eq_of_lt small]

theorem encoded (c : Char) : Encoded c (encode c) := by
  have continues (n : Nat) :
      isContinuation (Char.ofUInt8 (UInt8.ofNat (n % 64 + 128))) = true := by
    rw [isContinuation, toNat_ofUInt8 (by omega)]
    simp only [Bool.and_eq_true, decide_eq_true_eq]
    omega
  -- The cases are the lengths from one byte to four.
  unfold encode String.utf8EncodeChar
  simp only
  split
  · have same : Char.ofUInt8 (UInt8.ofNat c.val.toNat) = c :=
      Char.ext (UInt32.toNat_inj.mp (toNat_ofUInt8 (by omega)))
    rw [List.map_singleton, same]
    exact .plain (Nat.lt_succ_of_le ‹_›)
  · have large : 128 ≤ c.toNat := Nat.lt_of_not_le ‹_›
    split
    · refine .wide ?_ ?_ large
      · rw [toNat_ofUInt8 (by omega)]
        omega
      · simpa using continues _
    · split
      all_goals
        refine .wide ?_ ?_ large
        · rw [toNat_ofUInt8 (by omega)]
          omega
        · simp only [List.map_cons, List.map_nil, List.forall_mem_cons, continues, true_and]
          simp

theorem encode_plain {c : Char} (small : c.toNat < 128) : encode c = [c] := by
  have h := encoded c
  generalize encode c = code at h ⊢
  cases h with
  | plain => rfl
  | wide _ _ large => exact absurd small (Nat.not_lt.mpr large)

theorem length_encode (c : Char) : (encode c).length = c.utf8Size := by
  rw [encode, List.length_map, String.length_utf8EncodeChar]

theorem isContinuation_large {byte : Char} (h : isContinuation byte = true) :
    128 ≤ byte.toNat := by
  simp only [isContinuation, Bool.and_eq_true, decide_eq_true_eq] at h
  exact h.1

/-- One byte of a character is not a continuation. -/
theorem countP_encode (c : Char) : (encode c).countP (!isContinuation ·) = 1 := by
  have h := encoded c
  generalize encode c = code at h ⊢
  cases h with
  | plain small =>
    have first : isContinuation c = false := by
      simp only [isContinuation, Bool.and_eq_false_iff, decide_eq_false_iff_not]
      omega
    simp [first]
  | @wide first rest large continues =>
    have notContinuation : isContinuation first = false := by
      simp only [isContinuation, Bool.and_eq_false_iff, decide_eq_false_iff_not]
      omega
    have others : rest.countP (!isContinuation ·) = 0 :=
      List.countP_eq_zero.mpr fun byte member => by simp [continues byte member]
    simp [notContinuation, others]

/-! ## Texts -/

@[simp] theorem codes_nil : codes [] = [] := rfl

theorem codes_cons (c : Char) (text : List Char) : codes (c :: text) = encode c ++ codes text :=
  List.flatMap_cons

theorem codes_plain {c : Char} (small : c.toNat < 128) (text : List Char) :
    codes (c :: text) = c :: codes text := by
  rw [codes_cons, encode_plain small, List.singleton_append]

@[simp] theorem codes_append (front text : List Char) :
    codes (front ++ text) = codes front ++ codes text :=
  List.flatMap_append

theorem bytes_eq (text : String) : bytes text = codes text.toList := by
  have h : text.toByteArray = text.toList.utf8Encode := by
    rw [← String.toByteArray_ofList, String.ofList_toList]
  rw [bytes, h, List.utf8Encode, List.data_toByteArray, List.toList_toArray, List.map_flatMap]
  rfl

theorem length_codes (text : List Char) : (codes text).length = byteSize text := by
  induction text with
  | nil => rfl
  | cons c text ih =>
    rw [codes_cons, List.length_append, length_encode, ih, ← List.singleton_append,
      byteSize_append]
    simp [byteSize]

theorem count_codes {x : Char} (small : x.toNat < 128) (text : List Char) :
    (codes text).count x = text.count x := by
  induction text with
  | nil => rfl
  | cons c text ih =>
    rw [codes_cons, List.count_append, ih, ← List.singleton_append, List.count_append]
    congr 1
    have h := encoded c
    generalize encode c = code at h ⊢
    cases h with
    | plain => rfl
    | @wide first rest large continues wide =>
      have hc : c ≠ x := by
        rintro rfl
        omega
      have hfirst : first ≠ x := by
        rintro rfl
        omega
      have hrest : x ∉ rest := fun member =>
        Nat.not_lt.mpr (isContinuation_large (continues x member)) small
      simp [hc, hfirst, List.count_eq_zero.mpr hrest]

theorem countP_codes (text : List Char) :
    (codes text).countP (!isContinuation ·) = text.length := by
  induction text with
  | nil => rfl
  | cons c text ih =>
    rw [codes_cons, List.countP_append, countP_encode, ih, List.length_cons, Nat.add_comm]

/-- A text of characters below 128 is its own bytes. -/
theorem codes_eq_self {text : List Char} (plain : ∀ c ∈ text, c.toNat < 128) :
    codes text = text := by
  induction text with
  | nil => rfl
  | cons c text ih =>
    rw [codes_plain (plain c (List.mem_cons_self ..)), ih fun d member =>
      plain d (List.mem_cons_of_mem c member)]

/-- Bytes below 128 in front of a text are characters. -/
theorem take_codes {n : Nat} {text : List Char}
    (plain : ∀ byte ∈ (codes text).take n, byte.toNat < 128) :
    (codes text).take n = text.take n := by
  induction text generalizing n with
  | nil => rfl
  | cons c text ih =>
    cases n with
    | zero => rfl
    | succ n =>
      have h := encoded c
      rw [codes_cons] at plain ⊢
      generalize encode c = code at h plain ⊢
      cases h with
      | plain =>
        rw [List.singleton_append, List.take_succ_cons] at plain ⊢
        rw [ih fun byte member => plain byte (List.mem_cons_of_mem c member), List.take_succ_cons]
      | wide large =>
        rw [List.cons_append, List.take_succ_cons] at plain
        exact absurd (plain _ (List.mem_cons_self ..)) (by omega)

/-! ## Runs -/

/-- A property that the characters from 128 on either all have or all lack. -/
def Steady (p : Char → Bool) : Prop := ∃ held, ∀ c : Char, 128 ≤ c.toNat → p c = held

section

variable {p q : Char → Bool}

theorem Steady.not (h : Steady p) : Steady fun c => !p c := by
  obtain ⟨b, hb⟩ := h
  exact ⟨!b, fun c large => congrArg (! ·) (hb c large)⟩

theorem Steady.or (hp : Steady p) (hq : Steady q) : Steady fun c => p c || q c := by
  obtain ⟨b, hb⟩ := hp
  obtain ⟨d, hd⟩ := hq
  exact ⟨b || d, fun c large => by simp only [hb c large, hd c large]⟩

theorem Steady.and (hp : Steady p) (hq : Steady q) : Steady fun c => p c && q c := by
  obtain ⟨b, hb⟩ := hp
  obtain ⟨d, hd⟩ := hq
  exact ⟨b && d, fun c large => by simp only [hb c large, hd c large]⟩

theorem steady_beq {x : Char} (small : x.toNat < 128) : Steady (· == x) :=
  ⟨false, fun c large => beq_false_of_ne fun h => by
    subst h
    omega⟩

/-- Letters are below 128. -/
theorem lt_of_isAlpha {c : Char} (h : c.isAlpha = true) : c.toNat < 128 := by
  have hc : c.val.toNat = c.toNat := rfl
  simp only [Char.isAlpha, Char.isUpper, Char.isLower, Bool.or_eq_true, Bool.and_eq_true,
    decide_eq_true_eq, ge_iff_le, UInt32.le_iff_toNat_le] at h
  simp at h
  omega

/-- Digits are below 128. -/
theorem lt_of_isDigit {c : Char} (h : c.isDigit = true) : c.toNat < 128 := by
  have hc : c.val.toNat = c.toNat := rfl
  simp only [Char.isDigit, Bool.and_eq_true, decide_eq_true_eq, ge_iff_le,
    UInt32.le_iff_toNat_le] at h
  simp at h
  omega

theorem Steady.of_plain (plain : ∀ c, p c = true → c.toNat < 128) : Steady p :=
  ⟨false, fun c large => Bool.eq_false_iff.mpr fun h => Nat.not_lt.mpr large (plain c h)⟩

theorem steady_isAlpha : Steady Char.isAlpha := .of_plain fun _ => lt_of_isAlpha

theorem steady_isDigit : Steady Char.isDigit := .of_plain fun _ => lt_of_isDigit

theorem Steady.of_mem_encode (h : Steady p) (c : Char) : ∀ byte ∈ encode c, p byte = p c := by
  intro byte member
  obtain ⟨held, hheld⟩ := h
  have h := encoded c
  generalize encode c = code at h member
  revert member
  cases h with
  | plain =>
    intro member
    rw [List.mem_singleton.mp member]
  | @wide first rest large continues wide =>
    intro member
    rw [hheld c wide]
    obtain rfl | member := List.mem_cons.mp member
    · exact hheld byte (by omega)
    · exact hheld byte (isContinuation_large (continues byte member))

theorem encode_ne_nil (c : Char) : encode c ≠ [] := by
  have h := encoded c
  generalize encode c = code at h ⊢
  cases h <;> simp

theorem takeWhile_codes (h : Steady p) (text : List Char) :
    (codes text).takeWhile p = codes (text.takeWhile p) := by
  induction text with
  | nil => rfl
  | cons c text ih =>
    rw [codes_cons]
    by_cases hc : p c = true
    · rw [List.takeWhile_append_of_pos fun byte member => (h.of_mem_encode c byte member).trans hc,
        ih, List.takeWhile_cons_of_pos hc, codes_cons]
    · obtain ⟨first, rest, he⟩ := List.exists_cons_of_ne_nil (encode_ne_nil c)
      have hfirst : ¬p first = true := by
        rwa [h.of_mem_encode c first (by simp [he])]
      rw [he, List.cons_append, List.takeWhile_cons_of_neg hfirst, List.takeWhile_cons_of_neg hc,
        codes_nil]

theorem dropWhile_codes (h : Steady p) (text : List Char) :
    (codes text).dropWhile p = codes (text.dropWhile p) := by
  have parts : (codes text).takeWhile p ++ (codes text).dropWhile p =
      codes (text.takeWhile p) ++ codes (text.dropWhile p) := by
    rw [← codes_append, List.takeWhile_append_dropWhile, List.takeWhile_append_dropWhile]
  rw [takeWhile_codes h] at parts
  exact List.append_cancel_left parts

theorem any_head?_codes (h : Steady p) (text : List Char) :
    (codes text).head?.any p = text.head?.any p := by
  cases text with
  | nil => rfl
  | cons c text =>
    obtain ⟨first, rest, he⟩ := List.exists_cons_of_ne_nil (encode_ne_nil c)
    rw [codes_cons, he, List.cons_append, List.head?_cons, List.head?_cons, Option.any_some,
      Option.any_some, h.of_mem_encode c first (by simp [he])]

theorem head?_codes {x : Char} (small : x.toNat < 128) (text : List Char) :
    (codes text).head? = some x ↔ text.head? = some x := by
  have any (o : Option Char) : o = some x ↔ o.any (· == x) = true := by
    cases o <;> simp
  rw [any, any_head?_codes (steady_beq small), ← any]

theorem any_getLast?_codes {p : Char → Bool} (h : Steady p) (text : List Char) :
    (codes text).getLast?.any p = text.getLast?.any p := by
  obtain rfl | ⟨front, c, rfl⟩ := text.eq_nil_or_concat'
  · rfl
  · have code := List.dropLast_concat_getLast (encode_ne_nil c)
    rw [codes_append, codes_cons, codes_nil, List.append_nil, ← code, ← List.append_assoc,
      List.getLast?_concat, List.getLast?_concat, Option.any_some, Option.any_some,
      h.of_mem_encode c _ (List.getLast_mem _)]

theorem getLast?_codes {x : Char} (small : x.toNat < 128) (text : List Char) :
    ((codes text).getLast? == some x) = (text.getLast? == some x) := by
  have any (o : Option Char) : (o == some x) = o.any (· == x) := by
    cases o <;> rfl
  rw [any, any_getLast?_codes (steady_beq small), ← any]

theorem eq_cons_of_head?_codes {x : Char} {text : List Char} (next : (codes text).head? = some x)
    (small : x.toNat < 128) : ∃ rest, text = x :: rest :=
  List.head?_eq_some_iff.mp ((head?_codes small text).mp next)

/-- The next byte is a character below 128 exactly if the next character is. -/
theorem exists_head?_codes (c : Char) (text : List Char) : ∃ byte,
    (codes (c :: text)).head? = some byte ∧ ∀ x : Char, x.toNat < 128 → (byte = x ↔ c = x) := by
  obtain ⟨byte, rest, he⟩ := List.exists_cons_of_ne_nil (encode_ne_nil c)
  refine ⟨byte, by rw [codes_cons, he, List.cons_append, List.head?_cons], fun x small => ?_⟩
  have same := head?_codes small (c :: text)
  rwa [codes_cons, he, List.cons_append, List.head?_cons, List.head?_cons, Option.some_inj,
    Option.some_inj] at same

theorem second_codes {c : Char} (small : c.toNat < 128) (text : List Char) :
    (codes (c :: text))[1]? = (codes text).head? := by
  rw [codes_plain small, List.getElem?_cons_succ, List.head?_eq_getElem?]

/-- Two bytes below 128 are next exactly if they are the next characters. -/
theorem twoBytes_codes {c d : Char} (hc : c.toNat < 128) (hd : d.toNat < 128) {text : List Char} :
    (codes text).head? = some c ∧ (codes text)[1]? = some d ↔ ∃ rest, text = c :: d :: rest := by
  constructor
  · rintro ⟨first, second⟩
    obtain ⟨text, rfl⟩ := List.head?_eq_some_iff.mp ((head?_codes hc text).mp first)
    rw [second_codes hc, head?_codes hd] at second
    obtain ⟨rest, rfl⟩ := List.head?_eq_some_iff.mp second
    exact ⟨rest, rfl⟩
  · rintro ⟨rest, rfl⟩
    rw [second_codes hc, codes_plain hc, codes_plain hd]
    exact ⟨rfl, rfl⟩

/-- A byte below 128 is a character of the text. -/
theorem exists_of_getElem?_codes {x : Char} (small : x.toNat < 128) {text : List Char}
    {distance : Nat} (byte : (codes text)[distance]? = some x) :
    ∃ front rest, text = front ++ x :: rest ∧ byteSize front = distance := by
  induction text generalizing distance with
  | nil => cases byte
  | cons c text ih =>
    rw [codes_cons] at byte
    by_cases inside : distance < (encode c).length
    · rw [List.getElem?_append_left inside] at byte
      have h := encoded c
      generalize encode c = code at h inside byte
      cases h with
      | plain =>
        obtain rfl := Nat.lt_one_iff.mp inside
        obtain rfl := Option.some_inj.mp byte
        exact ⟨[], text, rfl, rfl⟩
      | wide large continues =>
        obtain rfl | member := List.mem_cons.mp (List.mem_of_getElem? byte)
        · omega
        · exact absurd (isContinuation_large (continues x member)) (Nat.not_le.mpr small)
    · rw [List.getElem?_append_right (Nat.le_of_not_lt inside)] at byte
      obtain ⟨front, rest, rfl, size⟩ := ih byte
      refine ⟨c :: front, rest, rfl, ?_⟩
      rw [← length_codes, codes_cons, List.length_append, length_codes, size]
      omega

theorem codes_eq_nil {text : List Char} : codes text = [] ↔ text = [] := by
  cases text with
  | nil => simp
  | cons c text => simp [codes_cons, encode_ne_nil]

end

/-! ## Places -/

/-- The offset at which the end `rest` of a text starts. -/
def place (source : String) (rest : List Char) : Nat := source.utf8ByteSize - byteSize rest

section

variable {source : String} {front rest next : List Char}

@[simp] theorem place_nil (source : String) : place source [] = source.utf8ByteSize := rfl

@[simp] theorem place_toList (source : String) : place source source.toList = 0 := by
  rw [place, byteSize_toList, Nat.sub_self]

theorem byteSize_le_of_suffix (inside : rest <:+ next) : byteSize rest ≤ byteSize next := by
  obtain ⟨front, rfl⟩ := inside
  simp

theorem place_add_byteSize (inside : rest <:+ source.toList) :
    place source rest + byteSize rest = source.utf8ByteSize := by
  have := byteSize_le_of_suffix inside
  rw [byteSize_toList] at this
  rw [place]
  omega

theorem place_le (source : String) (rest : List Char) : place source rest ≤ source.utf8ByteSize :=
  Nat.sub_le _ _

theorem place_append (front : List Char) (inside : front ++ rest <:+ source.toList) :
    place source rest = place source (front ++ rest) + byteSize front := by
  have h := place_add_byteSize inside
  have h' := place_add_byteSize ((List.suffix_append front rest).trans inside)
  rw [byteSize_append] at h
  omega

theorem place_eq (h : source.toList = front ++ rest) : place source rest = byteSize front := by
  rw [place_append front (by rw [h]), ← h, place_toList, Nat.zero_add]

theorem place_cons {c : Char} (small : c.toNat < 128) (inside : c :: rest <:+ source.toList) :
    place source rest = place source (c :: rest) + 1 := by
  have := place_append [c] inside
  rwa [← length_codes, codes_plain small] at this

theorem place_dropWhile (p : Char → Bool) (inside : rest <:+ source.toList) :
    place source (rest.dropWhile p) = place source rest + byteSize (rest.takeWhile p) := by
  have parts := List.takeWhile_append_dropWhile (p := p) (l := rest)
  have := place_append (rest.takeWhile p) (by rwa [parts] : _ ++ rest.dropWhile p <:+ _)
  rwa [parts] at this

/-- Of two ends of a text the shorter one starts later. -/
theorem place_lt_iff (inside : rest <:+ source.toList) (inside' : next <:+ source.toList) :
    place source rest < place source next ↔ next.length < rest.length := by
  obtain hs | hs := List.suffix_or_suffix_of_suffix inside inside'
  · obtain ⟨front, rfl⟩ := hs
    have := place_append front inside'
    simp only [List.length_append]
    omega
  · obtain ⟨front, rfl⟩ := hs
    rw [place_append front inside]
    cases front with
    | nil => simp [byteSize]
    | cons c front =>
      have := byteSize_pos (List.cons_ne_nil c front)
      simp only [List.length_append, List.length_cons]
      omega

theorem bytes_drop_place (inside : rest <:+ source.toList) :
    (bytes source).drop (place source rest) = codes rest := by
  obtain ⟨front, h⟩ := inside
  rw [bytes_eq, ← h, codes_append, place_eq h.symm, ← length_codes, List.drop_left]

theorem bytes_getElem?_place (inside : rest <:+ source.toList) (distance : Nat) :
    (bytes source)[place source rest + distance]? = (codes rest)[distance]? := by
  rw [← List.getElem?_drop, bytes_drop_place inside]

theorem isBoundary_place (inside : rest <:+ source.toList) :
    IsBoundary source (place source rest) := by
  obtain ⟨front, h⟩ := inside
  refine String.Pos.Raw.isValid_iff_exists_append.mpr
    ⟨String.ofList front, String.ofList rest, ?_, ?_⟩
  · rw [← String.ofList_append, h, String.ofList_toList]
  · rw [place_eq h.symm]
    rfl

/-- Every offset between characters is the start of an end of the text. -/
theorem exists_place {offset : Nat} (boundary : IsBoundary source offset) :
    ∃ rest, rest <:+ source.toList ∧ offset = place source rest := by
  obtain ⟨front, rest, rfl, size⟩ := String.Pos.Raw.isValid_iff_exists_append.mp boundary
  refine ⟨rest.toList, ⟨front.toList, String.toList_append.symm⟩, ?_⟩
  rw [place_eq String.toList_append, byteSize_toList]
  exact congrArg String.Pos.Raw.byteIdx size

/-- A byte below 128 stands between characters. -/
theorem isBoundary_of_byte {x : Char} (small : x.toNat < 128) {offset : Nat}
    (byte : (bytes source)[offset]? = some x) : IsBoundary source offset := by
  rw [bytes_eq] at byte
  obtain ⟨front, rest, parts, rfl⟩ := exists_of_getElem?_codes small byte
  rw [← place_eq parts]
  exact isBoundary_place ⟨front, parts.symm⟩

theorem extract_place (middle : List Char) (inside : middle ++ rest <:+ source.toList) :
    (String.Pos.Raw.extract source ⟨place source (middle ++ rest)⟩ ⟨place source rest⟩).toList =
      middle := by
  obtain ⟨front, h⟩ := inside
  have hs : source = String.ofList (front ++ middle ++ rest) := by
    rw [List.append_assoc, h, String.ofList_toList]
  have size (text : List Char) : byteSize text = String.utf8Len text :=
    String.utf8ByteSize_ofList text
  rw [place_append middle ⟨front, h⟩, place_eq h.symm, size, size, hs, String.extract_of_valid,
    String.toList_ofList]

end

end Fluent.Cursor
