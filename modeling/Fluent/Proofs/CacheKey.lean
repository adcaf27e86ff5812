import Fluent.Format.Options
import Fluent.Proofs.Number.MarkedText

/-!
# Keys tell option sets apart

The text of an option value shows where it ends, and a name ends at the equals sign behind it,
provided that the name has none itself. So a key is the key of one option set only.

* `OptionValue.keyText_selfDelimiting`: the texts of option values;
* `Options.cacheKey_injective`: the keys of option sets.
-/

namespace Fluent.Format

open Text (SelfDelimiting)

theorem OptionValue.keyText_selfDelimiting :
    SelfDelimiting (fun _ : OptionValue => True) keyText := by
  intro value value' rest rest' _ _ same
  have closed {text : List Char} : (')' :: text).head?.any (· != ')') = false := rfl
  cases value with
  | text value =>
    cases value' with
    | text value' =>
      simp only [keyText, List.append_assoc, List.append_cancel_left_eq] at same
      obtain ⟨texts, rests⟩ := Text.quoted_selfDelimiting _ _ _ _ trivial trivial same
      exact ⟨congrArg _ (String.toList_inj.mp texts), (List.cons.inj rests).2⟩
    | number => cases same
    | flag => cases same
  | number value =>
    cases value' with
    | number value' =>
      simp only [keyText, List.append_assoc, List.append_cancel_left_eq] at same
      obtain ⟨numbers, rests⟩ := Text.run_cancel (Number.markedText_unclosed value)
        (Number.markedText_unclosed value') closed closed same
      exact ⟨congrArg _ (Number.markedText_injective numbers), (List.cons.inj rests).2⟩
    | text => cases same
    | flag => cases same
  | flag value =>
    cases value' with
    | flag value' => cases value <;> cases value' <;> simp_all [keyText]
    | text => cases same
    | number => cases same

theorem OptionValue.keyText_injective {value value' : OptionValue}
    (h : value.keyText = value'.keyText) : value = value' :=
  (keyText_selfDelimiting value value' [] [] trivial trivial (congrArg (· ++ []) h)).1

namespace Options

/-- An option set by the texts that its values have in keys. -/
def texts (options : Options) : Table (List Char) := options.map fun _ value => value.keyText

theorem texts_injective : Function.Injective texts := by
  intro options options' h
  refine Std.ExtTreeMap.ext_getElem? fun name => ?_
  have values : options[name]?.map OptionValue.keyText =
      options'[name]?.map OptionValue.keyText := by
    simpa [texts] using congrArg (·[name]?) h
  exact Option.map_injective (fun _ _ => OptionValue.keyText_injective) values

/-- No name has an equals sign in it, as none has that a resource can give. -/
def Plain (options : Options) : Prop :=
  ∀ option ∈ options.toList, option.1.toList.all (· != '=') = true

/-- The text of one option in a key. -/
def keyPart (option : String × OptionValue) : List Char :=
  option.1.toList ++ '=' :: option.2.keyText ++ [';']

theorem keyPart_selfDelimiting :
    SelfDelimiting (fun option => option.1.toList.all (· != '=') = true) keyPart := by
  rintro ⟨name, value⟩ ⟨name', value'⟩ rest rest' plain plain' same
  simp only [keyPart, List.append_assoc, List.cons_append, List.nil_append] at same
  obtain ⟨names, values⟩ := Text.run_cancel plain plain' rfl rfl same
  obtain ⟨rfl, rests⟩ := OptionValue.keyText_selfDelimiting _ _ _ _ trivial trivial
    (List.cons.inj values).2
  obtain rfl := String.toList_inj.mp names
  exact ⟨rfl, (List.cons.inj rests).2⟩

/-- Option sets with the same key are the same. -/
theorem cacheKey_injective {options options' : Options} (plain : options.Plain)
    (plain' : options'.Plain) (h : options.cacheKey = options'.cacheKey) : options = options' := by
  have some (option : String × OptionValue) (text : List Char) : [] ≠ keyPart option ++ text := by
    simp [keyPart]
  have texts : options.toList.flatMap keyPart = options'.toList.flatMap keyPart :=
    String.ofList_injective h
  have lists := keyPart_selfDelimiting.flatMap (fun option text _ => some option text)
    (fun option text _ => some option text) plain plain' (congrArg (· ++ []) texts)
  exact Std.ExtTreeMap.toList_inj.mp lists.1

end Options

end Fluent.Format
