import Mathlib.Data.List.Count
import PatternTraversal.Alias

/-!
# Series of changes to a map

A map is often filled by changing one key after the other. What is found under a key afterwards is
what the changes of this key make of what was found there before, the other changes leaving it.
-/

namespace PatternTraversal

variable {κ β : Type} [Ord κ] [Std.TransOrd κ] [Std.LawfulEqOrd κ] [DecidableEq κ]

/-- Look-up after a series of changes: only those of the key count. -/
theorem getElem?_foldl_alter {ι : Type} (changes : List ι) (key : ι → κ)
    (change : ι → Option β → Option β) (entries : Std.ExtTreeMap κ β) (k : κ) :
    (changes.foldl (fun entries i => entries.alter (key i) (change i)) entries)[k]? =
      (changes.filter fun i => key i = k).foldl (fun known? i => change i known?) entries[k]? := by
  induction changes generalizing entries with
  | nil => rfl
  | cons i rest ih =>
    rw [List.foldl_cons, ih, Std.ExtTreeMap.getElem?_alter]
    by_cases h : key i = k
    · simp [h]
    · simp [h]

/-- Changing different keys changes each one of them once and no other one. -/
theorem getElem?_foldl_alter_of_nodup {keys : List κ} (hnodup : keys.Nodup)
    (change : Option β → Option β) (entries : Std.ExtTreeMap κ β) (k : κ) :
    (keys.foldl (fun entries key => entries.alter key change) entries)[k]? =
      if k ∈ keys then change entries[k]? else entries[k]? := by
  refine (getElem?_foldl_alter keys id (fun _ => change) entries k).trans ?_
  simp only [id_eq, List.filter_eq, hnodup.count]
  split <;> rfl

end PatternTraversal
