import Fluent.Table
import Mathlib.Data.String.Basic

/-!
# What tables hold

A table put over another one hides what the lower one holds under the same names. The names in the
list of a table are different, and in order.
-/

namespace Fluent.Table

variable {α : Type} {lower upper : Table α}

theorem overlay_eq_insertMany : lower.overlay upper = lower.insertMany upper.toList :=
  (Std.ExtTreeMap.insertMany_list_eq_foldl).symm

@[simp] theorem getElem?_overlay (name : String) :
    (lower.overlay upper)[name]? = upper[name]?.or lower[name]? := by
  rw [overlay_eq_insertMany]
  cases held : upper[name]? with
  | some value =>
    exact Std.ExtTreeMap.getElem?_insertMany_list_of_mem Std.ReflCmp.compare_self
      Std.ExtTreeMap.distinct_keys_toList (Std.ExtTreeMap.mem_toList_iff_getElem?_eq_some.mpr held)
  | none =>
    rw [Std.ExtTreeMap.getElem?_insertMany_list_of_contains_eq_false]
    · simp
    · rw [Std.ExtTreeMap.map_fst_toList_eq_keys, Std.ExtTreeMap.contains_keys,
        Std.ExtTreeMap.contains_eq_isSome_getElem?, held, Option.isSome_none]

@[simp] theorem overlay_empty : lower.overlay ∅ = lower :=
  Std.ExtTreeMap.ext_getElem? fun name => by simp

@[simp] theorem empty_overlay : (∅ : Table α).overlay upper = upper :=
  Std.ExtTreeMap.ext_getElem? fun name => by simp

theorem lookup_toList (table : Table α) (name : String) :
    table.toList.lookup name = table[name]? := by
  cases held : table[name]? with
  | none =>
    rw [List.lookup_eq_none_iff]
    intro pair hm
    rw [bne_iff_ne]
    rintro rfl
    cases held.symm.trans (Std.ExtTreeMap.mem_toList_iff_getElem?_eq_some.mp hm)
  | some value =>
    obtain ⟨before, after, split⟩ := List.append_of_mem
      (Std.ExtTreeMap.mem_toList_iff_getElem?_eq_some.mpr held)
    have distinct := table.distinct_keys_toList
    rw [split, List.pairwise_append] at distinct
    rw [List.lookup_eq_some_iff]
    refine ⟨before, after, split, fun pair hm => ?_⟩
    rw [bne_iff_ne]
    rintro rfl
    exact distinct.2.2 pair hm _ List.mem_cons_self Std.ReflCmp.compare_self

theorem keys_ascending (table : Table α) : table.keys.Pairwise (· < ·) :=
  table.ordered_keys.imp compare_lt_iff_lt.mp

end Fluent.Table
