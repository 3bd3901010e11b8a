import Freshness.Graph
import Freshness.Proofs.Table
import Mathlib.Logic.Relation

/-!
# The two directions of a graph

The table of the units that refer to each symbol is the inverse of the table of the
symbols that each unit refers to.  A graph made from references is well formed as soon
as its units are kept under their own identities, and nothing more about its tables is
needed to reason about it.
-/

namespace Freshness

/-- Every unit is kept under its own identity. -/
def UnitMap.Keyed (units : UnitMap) : Prop :=
  ∀ (id : Identity) (unit : CompiledUnit),
    units[id]? = some unit → unit.id = id

theorem keyed_foldl_insert
    (units : List CompiledUnit) {map : UnitMap} (hmap : map.Keyed) :
    UnitMap.Keyed
      (units.foldl (fun map unit => map.insert unit.id unit) map) := by
  induction units generalizing map with
  | nil => exact hmap
  | cons unit rest ih =>
      apply ih
      intro id u hu
      rw [Std.TreeMap.getElem?_insert] at hu
      split at hu
      next hid =>
        obtain rfl := Option.some.inj hu
        simpa using hid
      next => exact hmap id u hu

theorem keyed_ofUnits (units : List CompiledUnit) :
    (Scan.ofUnits units).Keyed := by
  apply keyed_foldl_insert
  intro id unit h
  simp at h

/-- Units are listed in the order of their identities. -/
theorem UnitMap.Keyed.pairwise_values {units : UnitMap} (h : units.Keyed) :
    units.values.Pairwise fun a b => compare a.id b.id = .lt :=
  pairwise_values_of_keyed h

theorem UnitMap.Keyed.pairwise_ne {units : UnitMap} (h : units.Keyed) :
    units.values.Pairwise (·.id ≠ ·.id) :=
  h.pairwise_values.imp fun hlt hid => by simp [hid] at hlt

namespace DependencyGraph

/-- A change to `symbol` affects the unit `id`, which refers to it. -/
def Affects (g : DependencyGraph) (symbol id : Identity) : Prop :=
  symbol ∈ g.references id

/-- The units have their own identities, and the tables of references in the two
directions say the same about units of the graph. -/
structure WellFormed (g : DependencyGraph) : Prop where
  keyed : UnitMap.Keyed g.units
  affectedBy_iff :
    ∀ symbol id, id ∈ g.affectedBy.getD symbol {} ↔ g.Affects symbol id
  contains_of_affects :
    ∀ symbol id, g.Affects symbol id → g.contains id = true

theorem mem_addEdge
    (table : Std.TreeMap Identity (Std.TreeSet Identity))
    (id x symbol s : Identity) :
    x ∈ (addEdge id table symbol).getD s {} ↔
      (s = symbol ∧ x = id) ∨ x ∈ table.getD s {} := by
  rw [addEdge, Std.TreeMap.getD_insert]
  by_cases hs : symbol = s
  · subst hs
    simp [Std.TreeSet.mem_insert, @eq_comm _ x]
  · have hne : compare symbol s ≠ .eq := by simpa using hs
    rw [if_neg hne]
    simp [Ne.symm hs]

theorem mem_foldl_addEdge
    (table : Std.TreeMap Identity (Std.TreeSet Identity))
    (id x s : Identity) (symbols : List Identity) :
    x ∈ (symbols.foldl (addEdge id) table).getD s {} ↔
      (s ∈ symbols ∧ x = id) ∨ x ∈ table.getD s {} := by
  induction symbols generalizing table with
  | nil => simp
  | cons symbol rest ih =>
      rw [List.foldl_cons, ih, mem_addEdge, List.mem_cons]
      constructor
      · rintro (⟨hs, hx⟩ | ⟨hs, hx⟩ | hx)
        · exact Or.inl ⟨Or.inr hs, hx⟩
        · exact Or.inl ⟨Or.inl hs, hx⟩
        · exact Or.inr hx
      · rintro (⟨hs | hs, hx⟩ | hx)
        · exact Or.inr (Or.inl ⟨hs, hx⟩)
        · exact Or.inl ⟨hs, hx⟩
        · exact Or.inr (Or.inr hx)

theorem mem_foldl_invert
    (table : Std.TreeMap Identity (Std.TreeSet Identity))
    (rows : List (Identity × List Identity)) (x s : Identity) :
    x ∈ (rows.foldl (fun table row => row.2.foldl (addEdge row.1) table)
        table).getD s {} ↔
      (∃ row ∈ rows, s ∈ row.2 ∧ x = row.1) ∨ x ∈ table.getD s {} := by
  induction rows generalizing table with
  | nil => simp
  | cons row rest ih =>
      rw [List.foldl_cons, ih, mem_foldl_addEdge]
      constructor
      · rintro (⟨r, hr, hs⟩ | hs | hx)
        · exact Or.inl ⟨r, List.mem_cons_of_mem row hr, hs⟩
        · exact Or.inl ⟨row, List.mem_cons_self, hs⟩
        · exact Or.inr hx
      · rintro (⟨r, hr, hs⟩ | hx)
        · rcases List.mem_cons.mp hr with rfl | hrest
          · exact Or.inr (Or.inl hs)
          · exact Or.inl ⟨r, hrest, hs⟩
        · exact Or.inr (Or.inr hx)

/-- A unit is listed under a symbol exactly when the symbol is listed under the
unit. -/
theorem mem_invert
    (forward : Std.TreeMap Identity (List Identity)) (s x : Identity) :
    x ∈ (invert forward).getD s {} ↔ s ∈ forward.getD x [] := by
  rw [invert, Std.TreeMap.foldl_eq_foldl_toList, mem_foldl_invert]
  simp only [Std.TreeMap.getD_emptyc, Std.TreeSet.not_mem_emptyc, or_false]
  constructor
  · rintro ⟨⟨id, symbols⟩, hrow, hs, rfl⟩
    have hget := Std.TreeMap.mem_toList_iff_getElem?_eq_some.mp hrow
    rw [Std.TreeMap.getD_eq_getD_getElem?, hget]
    exact hs
  · intro hs
    rw [Std.TreeMap.getD_eq_getD_getElem?] at hs
    cases hget : forward[x]? with
    | none => simp [hget] at hs
    | some symbols =>
        rw [hget] at hs
        exact ⟨(x, symbols),
          Std.TreeMap.mem_toList_iff_getElem?_eq_some.mpr hget, hs, rfl⟩

theorem references_ofReferences
    (units : UnitMap) (given : Std.TreeMap Identity (List Identity))
    (id : Identity) :
    (ofReferences units given).references id =
      if units.contains id then given.getD id [] else [] := by
  simp only [references, ofReferences, Std.TreeMap.getD_eq_getD_getElem?,
    Std.TreeMap.getElem?_map]
  cases hget : units[id]? with
  | none => simp [Std.TreeMap.contains_eq_isSome_getElem?, hget]
  | some unit => simp [Std.TreeMap.contains_eq_isSome_getElem?, hget]

/-- Every unit has its references in the table. -/
theorem getElem?_forward {units : UnitMap} (given : Std.TreeMap Identity (List Identity))
    {id : Identity} {unit : CompiledUnit} (hunit : units[id]? = some unit) :
    (ofReferences units given).forward[id]? = some ((ofReferences units given).references id) := by
  simp only [references, ofReferences, Std.TreeMap.getD_eq_getD_getElem?,
    Std.TreeMap.getElem?_map, hunit, Option.map_some, Option.getD_some]

theorem wellFormed_ofReferences
    {units : UnitMap} (hkeyed : units.Keyed)
    (given : Std.TreeMap Identity (List Identity)) :
    (ofReferences units given).WellFormed where
  keyed := hkeyed
  affectedBy_iff symbol id := mem_invert _ symbol id
  contains_of_affects symbol id h := by
    rw [Affects, references_ofReferences] at h
    by_cases hid : units.contains id = true
    · exact hid
    · simp [hid] at h

namespace WellFormed

variable {g : DependencyGraph}

theorem unit?_id (hg : g.WellFormed) {id : Identity} {unit : CompiledUnit}
    (h : g.unit? id = some unit) : unit.id = id :=
  hg.keyed id unit h

theorem mem_filterMap_unit? (hg : g.WellFormed)
    (ids : List Identity) (unit : CompiledUnit) :
    unit ∈ ids.filterMap g.unit? ↔
      g.unit? unit.id = some unit ∧ unit.id ∈ ids := by
  rw [List.mem_filterMap]
  constructor
  · rintro ⟨id, hmem, hunit⟩
    rw [hg.unit?_id hunit]
    exact ⟨hunit, hmem⟩
  · rintro ⟨hunit, hmem⟩
    exact ⟨unit.id, hmem, hunit⟩

/-- The units listed under some identities are the units of the graph with these
identities. -/
theorem mem_unitsOf (hg : g.WellFormed)
    (ids : Std.TreeSet Identity) (unit : CompiledUnit) :
    unit ∈ g.unitsOf ids ↔ g.unit? unit.id = some unit ∧ unit.id ∈ ids := by
  rw [unitsOf, hg.mem_filterMap_unit?, Std.TreeSet.mem_toList]

/-- The dependents of a symbol are the units that refer to it. -/
theorem mem_dependents (hg : g.WellFormed)
    (symbol : Identity) (unit : CompiledUnit) :
    unit ∈ g.dependents symbol ↔
      g.unit? unit.id = some unit ∧ g.Affects symbol unit.id := by
  rw [dependents, hg.mem_unitsOf, hg.affectedBy_iff]

theorem exists_unit_of_affects (hg : g.WellFormed)
    {symbol id : Identity} (h : g.Affects symbol id) :
    ∃ unit, g.unit? id = some unit := by
  have hcontains := hg.contains_of_affects symbol id h
  rw [contains, Std.TreeMap.contains_eq_isSome_getElem?] at hcontains
  exact Option.isSome_iff_exists.mp hcontains

end WellFormed
end DependencyGraph
end Freshness
