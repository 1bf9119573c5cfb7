import Mathlib.Data.List.Basic
import Std.Data.TreeMap.Lemmas

/-!
# Sorted maps

What is said about the rows of a map, in the order of their keys, carries over to its values and
survives what is put where nobody looks.
-/

namespace LinkKeeper

variable {κ ν β : Type} {cmp : κ → κ → Ordering}

theorem values_eq_map (m : Std.TreeMap κ ν cmp) : m.values = m.toList.map (·.2) := by
  have hfold : m.values = m.foldr (fun _ value l => value :: l) [] := rfl
  rw [hfold, Std.TreeMap.foldr_eq_foldr_toList]
  induction m.toList with
  | nil => rfl
  | cons pair l ih => rw [List.foldr_cons, ih, List.map_cons]

/-- What is left out of the rows anyway may be put there. -/
theorem filterMap_toList_insert [Std.TransCmp cmp] [Std.LawfulEqCmp cmp] [DecidableEq κ]
    (m : Std.TreeMap κ ν cmp) {place : κ} {f : κ × ν → Option β}
    (hf : ∀ value, f (place, value) = none) (value : ν) :
    (m.insert place value).toList.filterMap f = m.toList.filterMap f := by
  have hrest : ∀ n : Std.TreeMap κ ν cmp,
      (n.filter fun key _ => key != place).toList.filterMap f = n.toList.filterMap f := by
    intro n
    rw [Std.TreeMap.toList_filter, List.filterMap_filter]
    refine List.filterMap_congr fun pair _ => ?_
    obtain ⟨key, kept⟩ := pair
    by_cases hkey : key = place
    · simp [hkey, hf]
    · simp [hkey]
  have hsame : ((m.insert place value).filter fun key _ => key != place).Equiv
      (m.filter fun key _ => key != place) := by
    refine Std.TreeMap.Equiv.of_forall_constGet?_eq fun key => ?_
    rw [Std.TreeMap.getElem?_filter', Std.TreeMap.getElem?_filter', Std.TreeMap.getElem?_insert]
    by_cases hkey : key = place
    · simp [hkey]
    · rw [if_neg fun heq => hkey (Std.LawfulEqCmp.eq_of_compare heq).symm]
  rw [← hrest, hsame.toList_eq, hrest]

end LinkKeeper
