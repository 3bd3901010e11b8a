import Std.Data.TreeMap

/-!
# Tables

The values that a table lists are what is found in it under its keys, in the order of these.
-/

namespace Freshness

section Values

variable {κ β : Type} [Ord κ]

theorem values_eq (t : Std.TreeMap κ β) : t.values = t.toList.map Prod.snd := by
  change t.foldr (fun _ v values => v :: values) [] = _
  rw [Std.TreeMap.foldr_eq_foldr_toList]
  induction t.toList with
  | nil => rfl
  | cons row rest ih => simp [ih]

theorem length_values [Std.TransOrd κ] (t : Std.TreeMap κ β) : t.values.length = t.size := by
  rw [values_eq, List.length_map, Std.TreeMap.length_toList]

theorem mem_values_iff [Std.TransOrd κ] [Std.LawfulEqOrd κ] {t : Std.TreeMap κ β} {v : β} :
    v ∈ t.values ↔ ∃ k : κ, t[k]? = some v := by
  rw [values_eq, List.mem_map]
  simp only [Prod.exists, Std.TreeMap.mem_toList_iff_getElem?_eq_some,
    exists_eq_right]

/-- Values that are kept under keys of their own are listed in the order of these. -/
theorem pairwise_values_of_keyed [Std.TransOrd κ] [Std.LawfulEqOrd κ] {t : Std.TreeMap κ β}
    {key : β → κ} (h : ∀ (k : κ) v, t[k]? = some v → key v = k) :
    t.values.Pairwise fun v w => compare (key v) (key w) = .lt := by
  rw [values_eq, List.pairwise_map]
  refine Std.TreeMap.ordered_keys_toList.imp_of_mem ?_
  intro a b ha hb hlt
  rw [h a.1 a.2 (Std.TreeMap.mem_toList_iff_getElem?_eq_some.mp ha),
    h b.1 b.2 (Std.TreeMap.mem_toList_iff_getElem?_eq_some.mp hb)]
  exact hlt

end Values
end Freshness
