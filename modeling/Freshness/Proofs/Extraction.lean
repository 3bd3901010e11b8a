import Freshness.Extraction
import Freshness.Proofs.Graph

/-!
# Building the graph
-/

namespace Freshness

variable {ε : Type}

namespace DependencyGraph

/-- A graph that has been built is made from the references that were found. -/
theorem eq_ofReferences_of_build
    {fs : FileSystem} {units : UnitMap} {cache : Option Cache} {extract : Extractor ε}
    {graph : DependencyGraph} {g : Gathering}
    (h : build fs units cache extract = (.ok graph, g)) :
    graph = ofReferences units g.forward := by
  unfold build at h
  split at h
  · cases h
  · cases h
    rfl

theorem snd_build (fs : FileSystem) (units : UnitMap) (cache : Option Cache)
    (extract : Extractor ε) :
    (build fs units cache extract).2 =
      (Gathering.addUnits cache extract { fileSystem := fs } units.values).2 := by
  rw [build]
  split
  next heq => rw [heq]
  next heq => rw [heq]

end DependencyGraph

namespace Gathering

theorem fileSystem_addUnit (extract : Extractor ε) (g : Gathering)
    (unit : CompiledUnit) :
    (g.addUnit none extract unit).2.fileSystem = g.fileSystem := by
  simp only [addUnit, Option.bind_none]
  split
  · rfl
  · split <;> rfl

/-- Without a cache, finding references leaves the tree alone. -/
theorem fileSystem_addUnits (extract : Extractor ε) (g : Gathering)
    (units : List CompiledUnit) :
    (g.addUnits none extract units).2.fileSystem = g.fileSystem := by
  induction units generalizing g with
  | nil => rfl
  | cons unit rest ih =>
      have hstep := fileSystem_addUnit extract g unit
      rw [addUnits]
      split
      next e g' herror =>
        rw [herror] at hstep
        exact hstep
      next g' hok =>
        rw [hok] at hstep
        exact (ih g').trans hstep

/-- The references that the extractor finds in the artifact of a unit. -/
def HasReferences (fs : FileSystem) (extract : Extractor ε) (unit : CompiledUnit)
    (symbols : List Identity) : Prop :=
  ∃ bytes, fs.read unit.absolute = .ok bytes ∧ extract bytes = .ok symbols

theorem HasReferences.unique {fs : FileSystem} {extract : Extractor ε} {unit : CompiledUnit}
    {symbols symbols' : List Identity} (h : HasReferences fs extract unit symbols)
    (h' : HasReferences fs extract unit symbols') : symbols = symbols' := by
  obtain ⟨bytes, hread, hextract⟩ := h
  obtain ⟨bytes', hread', hextract'⟩ := h'
  rw [hread] at hread'
  cases hread'
  rw [hextract] at hextract'
  exact Except.ok.inj hextract'

theorem addUnit_of_get {cache : Option Cache} (extract : Extractor ε) {g : Gathering}
    {unit : CompiledUnit} {symbols : List Identity}
    (h : cache.bind (·.get g.fileSystem unit) = some symbols) :
    g.addUnit cache extract unit = (.ok (), g.hit unit symbols) := by
  rw [addUnit, h]

theorem addUnit_of_references {cache : Option Cache} {extract : Extractor ε} {g : Gathering}
    {unit : CompiledUnit} {symbols : List Identity}
    (hmiss : cache.bind (·.get g.fileSystem unit) = none)
    (h : HasReferences g.fileSystem extract unit symbols) :
    g.addUnit cache extract unit = (.ok (), (g.consult unit).keep cache unit symbols) := by
  obtain ⟨bytes, hread, hextract⟩ := h
  rw [addUnit, hmiss]
  simp only [hread, hextract]

theorem exists_references_of_addUnit {extract : Extractor ε} {g g' : Gathering}
    {unit : CompiledUnit} (h : g.addUnit none extract unit = (.ok (), g')) :
    ∃ symbols, HasReferences g.fileSystem extract unit symbols := by
  simp only [addUnit, Option.bind_none] at h
  split at h
  · cases h
  next bytes hread =>
    split at h
    · cases h
    next symbols hextract => exact ⟨symbols, bytes, hread, hextract⟩

/-- The references of the first unit come from its artifact. -/
theorem addUnits_cons {cache : Option Cache} {extract : Extractor ε} {g : Gathering}
    {unit : CompiledUnit} {symbols : List Identity}
    (hmiss : cache.bind (·.get g.fileSystem unit) = none)
    (h : HasReferences g.fileSystem extract unit symbols) (rest : List CompiledUnit) :
    g.addUnits cache extract (unit :: rest) =
      ((g.consult unit).keep cache unit symbols).addUnits cache extract rest := by
  rw [addUnits, addUnit_of_references hmiss h]

/-- All references are found if those of each unit are. -/
theorem exists_addUnits {extract : Extractor ε} {g : Gathering}
    {units : List CompiledUnit}
    (h : ∀ unit ∈ units, ∃ symbols, HasReferences g.fileSystem extract unit symbols) :
    ∃ g', g.addUnits none extract units = (.ok (), g') := by
  induction units generalizing g with
  | nil => exact ⟨g, rfl⟩
  | cons unit rest ih =>
      obtain ⟨⟨symbols, hunit⟩, hrest⟩ := List.forall_mem_cons.mp h
      rw [addUnits_cons rfl hunit]
      exact ih hrest

/-- What is found for an identity are the references of a unit that has it. -/
theorem references_of_addUnits {extract : Extractor ε} {g g' : Gathering}
    {units : List CompiledUnit} (h : g.addUnits none extract units = (.ok (), g')) :
    (∀ unit ∈ units, unit.id ∈ g'.forward) ∧
    (∀ id, id ∈ g.forward → id ∈ g'.forward) ∧
    ∀ (id : Identity) symbols, g'.forward[id]? = some symbols →
      g.forward[id]? = some symbols ∨
        ∃ unit ∈ units, unit.id = id ∧ HasReferences g.fileSystem extract unit symbols := by
  induction units generalizing g with
  | nil =>
      cases h
      exact ⟨by simp, fun _ hid => hid, fun _ _ h => Or.inl h⟩
  | cons unit rest ih =>
      rw [addUnits] at h
      split at h
      · cases h
      next g₁ hstep =>
        obtain ⟨symbols, hunit⟩ := exists_references_of_addUnit hstep
        rw [addUnit_of_references rfl hunit] at hstep
        cases hstep
        obtain ⟨hunits, hkept, hfound⟩ := ih h
        refine ⟨?_, ?_, ?_⟩
        · rw [List.forall_mem_cons]
          refine ⟨hkept unit.id ?_, hunits⟩
          exact Std.TreeMap.mem_insert.mpr (Or.inl (by simp))
        · intro id hid
          exact hkept id (Std.TreeMap.mem_insert.mpr (Or.inr hid))
        · intro id symbols' hsymbols
          rcases hfound id symbols' hsymbols with hbefore | ⟨unit', hmem, hid, hrefs⟩
          · change (g.forward.insert unit.id symbols)[id]? = some symbols' at hbefore
            rw [Std.TreeMap.getElem?_insert] at hbefore
            split at hbefore
            next hid =>
              cases hbefore
              exact Or.inr ⟨unit, List.mem_cons_self, by simpa using hid, hunit⟩
            next => exact Or.inl hbefore
          · exact Or.inr ⟨unit', List.mem_cons_of_mem unit hmem, hid, hrefs⟩

end Gathering

namespace DependencyGraph

open Gathering

/-- Without a cache, a graph that has been built has the references of its units. -/
theorem references_of_build
    {fs : FileSystem} {units : UnitMap} (hkeyed : units.Keyed) {extract : Extractor ε}
    {graph : DependencyGraph} {g : Gathering}
    (h : build fs units none extract = (.ok graph, g))
    {id : Identity} {unit : CompiledUnit} (hunit : units[id]? = some unit) :
    HasReferences fs extract unit (graph.references id) := by
  rw [eq_ofReferences_of_build h, references_ofReferences,
    Std.TreeMap.contains_eq_isSome_getElem?, hunit]
  unfold build at h
  split at h
  · cases h
  next g' hadd =>
    cases h
    obtain ⟨hunits, -, hfound⟩ := references_of_addUnits hadd
    have hid : unit.id = id := hkeyed id unit hunit
    have hmem := hunits unit (mem_values_iff.mpr ⟨id, hunit⟩)
    rw [hid, Std.TreeMap.mem_iff_isSome_getElem?] at hmem
    obtain ⟨symbols, hsymbols⟩ := Option.isSome_iff_exists.mp hmem
    rcases hfound id symbols hsymbols with hnone | ⟨unit', hmem', hid', hrefs⟩
    · simp at hnone
    · obtain ⟨id', hunit'⟩ := mem_values_iff.mp hmem'
      obtain rfl : id' = id := (hkeyed id' unit' hunit').symm.trans hid'
      rw [hunit] at hunit'
      cases hunit'
      simpa [Std.TreeMap.getD_eq_getD_getElem?, hsymbols] using hrefs

/-- Without a cache, a graph is built if the references of its units can be found. -/
theorem exists_build
    {fs : FileSystem} {units : UnitMap} {extract : Extractor ε}
    (h : ∀ (id : Identity) unit, units[id]? = some unit →
      ∃ symbols, HasReferences fs extract unit symbols) :
    ∃ graph g, build fs units none extract = (.ok graph, g) := by
  have hunits : ∀ unit ∈ units.values, ∃ symbols,
      HasReferences ({ fileSystem := fs } : Gathering).fileSystem extract unit symbols := by
    intro unit hmem
    obtain ⟨id, hunit⟩ := mem_values_iff.mp hmem
    exact h id unit hunit
  obtain ⟨g, hadd⟩ := exists_addUnits hunits
  rw [build, hadd]
  exact ⟨_, g, rfl⟩

end DependencyGraph
end Freshness
