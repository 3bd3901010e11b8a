import Freshness.Proofs.Graph

/-!
# The references of a graph and their inverse

A graph that is made from references has a row of references for each of its units and for nothing
else.  The table of the units that refer to a symbol is the inverse of these rows: it has the symbols
that occur in them, each with the units whose rows they occur in.
-/

namespace Freshness
namespace DependencyGraph

/-- No symbol is kept without a unit that refers to it. -/
def NoneEmpty (table : Std.TreeMap Identity (Std.TreeSet Identity)) : Prop :=
  ∀ (symbol : Identity) ids, table[symbol]? = some ids → ids.isEmpty = false

theorem NoneEmpty.addEdge {table : Std.TreeMap Identity (Std.TreeSet Identity)}
    (h : NoneEmpty table) (id symbol : Identity) : NoneEmpty (addEdge id table symbol) := by
  intro s ids hids
  rw [DependencyGraph.addEdge, Std.TreeMap.getElem?_insert] at hids
  split at hids
  next => rw [← Option.some.inj hids, Std.TreeSet.isEmpty_insert]
  next => exact h s ids hids

theorem NoneEmpty.foldl_addEdge {table : Std.TreeMap Identity (Std.TreeSet Identity)}
    (h : NoneEmpty table) (id : Identity) (symbols : List Identity) :
    NoneEmpty (symbols.foldl (DependencyGraph.addEdge id) table) := by
  induction symbols generalizing table with
  | nil => exact h
  | cons symbol rest ih => exact ih (h.addEdge id symbol)

theorem noneEmpty_invert (forward : Std.TreeMap Identity (List Identity)) :
    NoneEmpty (invert forward) := by
  have hrows : ∀ (rows : List (Identity × List Identity)) table, NoneEmpty table →
      NoneEmpty (rows.foldl (fun table row => row.2.foldl (addEdge row.1) table) table) := by
    intro rows
    induction rows with
    | nil => exact fun table h => h
    | cons row rest ih => exact fun table h => ih _ (h.foldl_addEdge row.1 row.2)
  rw [invert, Std.TreeMap.foldl_eq_foldl_toList]
  exact hrows _ _ fun symbol ids hids => by simp at hids

theorem getElem?_forward_ofReferences (units : UnitMap)
    (given : Std.TreeMap Identity (List Identity)) (id : Identity) :
    (ofReferences units given).forward[id]? =
      if id ∈ units then some (given.getD id []) else none := by
  rw [ofReferences, Std.TreeMap.getElem?_map]
  cases hunit : units[id]? with
  | none => simp [Std.TreeMap.mem_iff_isSome_getElem?, hunit]
  | some unit => simp [Std.TreeMap.mem_iff_isSome_getElem?, hunit]

namespace WellFormed

variable {g : DependencyGraph}

/-- The units with some identities are listed in the order of these. -/
theorem pairwise_unitsOf (hg : g.WellFormed) (ids : Std.TreeSet Identity) :
    (g.unitsOf ids).Pairwise fun a b => compare a.id b.id = .lt := by
  refine List.Pairwise.filterMap g.unit? ?_ Std.TreeSet.ordered_toList
  intro id id' hlt unit hunit unit' hunit'
  rw [hg.unit?_id hunit, hg.unit?_id hunit']
  exact hlt

end WellFormed

/-- A graph that is made from references has those that are given for its units, and lists the units
that refer to a symbol: each once, in the order of their identities, and no other. -/
theorem ofReferences_inverse {units : UnitMap} (hkeyed : units.Keyed)
    (given : Std.TreeMap Identity (List Identity)) :
    (∀ id : Identity, (ofReferences units given).forward[id]? =
      if id ∈ units then some (given.getD id []) else none) ∧
    (∀ symbol id : Identity, id ∈ (ofReferences units given).affectedBy.getD symbol {} ↔
      symbol ∈ (ofReferences units given).forward.getD id []) ∧
    (∀ (symbol : Identity) ids, (ofReferences units given).affectedBy[symbol]? = some ids →
      ids.isEmpty = false ∧ ∀ id ∈ ids, id ∈ units) ∧
    ∀ symbol : Identity,
      (((ofReferences units given).dependents symbol).Pairwise fun a b =>
        compare a.id b.id = .lt) ∧
      ∀ unit, unit ∈ (ofReferences units given).dependents symbol ↔
        units[unit.id]? = some unit ∧ symbol ∈ given.getD unit.id [] := by
  have hgraph := wellFormed_ofReferences hkeyed given
  have hforward := getElem?_forward_ofReferences units given
  refine ⟨hforward, hgraph.affectedBy_iff, fun symbol ids hids => ⟨?_, ?_⟩, fun symbol => ⟨?_, ?_⟩⟩
  · exact noneEmpty_invert _ symbol ids hids
  · intro id hid
    have haffects : (ofReferences units given).Affects symbol id := by
      rw [← hgraph.affectedBy_iff, Std.TreeMap.getD_eq_getD_getElem?, hids]
      exact hid
    exact Std.TreeMap.mem_iff_contains.mpr (hgraph.contains_of_affects symbol id haffects)
  · exact hgraph.pairwise_unitsOf _
  · intro unit
    rw [hgraph.mem_dependents]
    refine and_congr_right fun hunit => ?_
    have hmem : unit.id ∈ units :=
      Std.TreeMap.mem_iff_isSome_getElem?.mpr (Option.isSome_iff_exists.mpr ⟨unit, hunit⟩)
    rw [Affects, references, Std.TreeMap.getD_eq_getD_getElem?, hforward, if_pos hmem]
    rfl

/-! ## Two units and a class that is not there -/

def firstUnit : CompiledUnit := ⟨"a.A", Path.ofString "/o/a/A.class", Path.ofString "a/A"⟩

def secondUnit : CompiledUnit := ⟨"a.B", Path.ofString "/o/a/B.class", Path.ofString "a/B"⟩

/-- References of the first unit, with a symbol twice and one that names no unit, and references of
a class that is not there. -/
def pairReferences : Std.TreeMap Identity (List Identity) :=
  (({} : Std.TreeMap Identity (List Identity)).insert "a.A" ["a.B", "lib.Util", "a.B"]).insert
    "a.Ghost" ["lib.Util"]

theorem ofReferences_inverse_pair :
    (Scan.ofUnits [secondUnit, firstUnit]).Keyed ∧
    (ofReferences (Scan.ofUnits [secondUnit, firstUnit]) pairReferences).forward["a.B"]? =
      some [] ∧
    (ofReferences (Scan.ofUnits [secondUnit, firstUnit]) pairReferences).forward["a.Ghost"]? =
      none ∧
    ∀ unit, unit ∈ (ofReferences (Scan.ofUnits [secondUnit, firstUnit]) pairReferences).dependents
      "lib.Util" ↔ unit = firstUnit := by
  have hkeyed : (Scan.ofUnits [secondUnit, firstUnit]).Keyed := keyed_ofUnits _
  obtain ⟨hforward, -, -, hdependents⟩ := ofReferences_inverse hkeyed pairReferences
  refine ⟨hkeyed, ?_, ?_, fun unit => ((hdependents "lib.Util").2 unit).trans ⟨?_, ?_⟩⟩
  · rw [hforward]
    simp [Scan.ofUnits, firstUnit, secondUnit, pairReferences, Std.TreeMap.getD_insert]
  · rw [hforward]
    simp [Scan.ofUnits, firstUnit, secondUnit]
  · rintro ⟨hunit, hsymbol⟩
    rw [pairReferences, Std.TreeMap.getD_insert, Std.TreeMap.getD_insert] at hsymbol
    split at hsymbol
    next hghost =>
      have hid : unit.id = "a.Ghost" := (Std.compare_eq_iff_eq.mp hghost).symm
      simp [Scan.ofUnits, firstUnit, secondUnit, hid] at hunit
    next =>
      split at hsymbol
      next hfirst =>
        have hid : unit.id = "a.A" := (Std.compare_eq_iff_eq.mp hfirst).symm
        simpa [Scan.ofUnits, firstUnit, secondUnit, hid, eq_comm] using hunit
      next => simp at hsymbol
  · rintro rfl
    exact ⟨by simp [Scan.ofUnits, firstUnit],
      by simp [pairReferences, firstUnit, Std.TreeMap.getD_insert]⟩

end DependencyGraph
end Freshness
