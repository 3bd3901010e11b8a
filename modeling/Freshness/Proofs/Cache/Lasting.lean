import Freshness.Proofs.Cache.Building
import Freshness.Proofs.Cache.Confinement
import Freshness.Proofs.FileSystem.Alike
import Freshness.Proofs.FileSystem.Rewriting

/-!
# What outlasts a change of the tree

A cache stays sound when files come and go, and what counts in it for a unit is right as long as
neither the entry nor the artifact is another file than before.  While references are looked for,
what counts for the units stays right, whether or not the search fails.
-/

namespace Freshness

open FileSystem

variable {ε : Type} {cache : Cache} {extract : Extractor ε} {fs fs' : FileSystem}
  {unit : CompiledUnit} {dirs : List Name} {stem : Name} {touched : Location → Prop}

namespace FileSystem

/-- The file at a path, if there is one, was there before. -/
def Recalls (fs fs' : FileSystem) (p : Path) : Prop :=
  ∀ e, e.node ≠ .directory → fs'.lookup? p = some e → fs.lookup? p = some e

/-- Where files are only deleted, every file that is left was there before. -/
theorem Rewritten.recalls (h : Rewritten touched fs fs') (hgone : ∀ l, touched l → fs'.entry? l = none)
    (p : Path) : Recalls fs fs' p := by
  intro e he hp
  rcases h.lookup?_or_touched he hp with hbefore | ⟨l, hl, hresolve⟩
  · exact hbefore
  · simp only [lookup?, hresolve, hgone l hl] at hp
    cases hp

end FileSystem

namespace Cache

/-! ## The cache directory -/

/-- A cache is sound whatever files come and go. -/
theorem Sound.of_rewritten (hsound : cache.Sound fs) (h : Rewritten touched fs fs')
    (htree : fs'.WellFormed) : cache.Sound fs' := by
  refine ⟨htree, ?_, ?_⟩
  · intro base hbase names hne target hnode
    have hdirectory := htree.node?_of_descend hne (isSome_entry?_of_node? hnode)
    have hkept : ¬touched base := fun ht => (h.after base ht).not_directory hdirectory
    have hlink : ¬touched (base.descend names) := fun ht => (h.after _ ht).not_link target hnode
    rw [At, h.origin_eq] at hbase
    exact hsound.noLink base (h.leads_of_leads hbase hkept) names hne target
      (h.symm.grown.node?_kept hlink hnode)
  · obtain ⟨known, rest, m, hway, hm, hrest⟩ := hsound.steady
    rw [h.origin_eq]
    by_cases ht : touched m
    · by_cases hknown : known = []
      · subst hknown
        exact ⟨[], rest, _, hway, Leads.stay, hrest⟩
      · obtain ⟨init, last, m', rfl, hm', hdirectory, hlast⟩ :=
          Leads.exists_directory hsound.tree hm hknown (h.before m ht).not_directory
        refine ⟨init, last :: rest, m', by rw [hway, List.append_assoc]; rfl,
          h.grown.leads hm' (h.grown.not_touched hdirectory), ?_⟩
        simpa [hrest] using hlast.symm
    · exact ⟨known, rest, m, hway, h.grown.leads hm ht, hrest⟩

theorem Sound.of_alike (hsound : cache.Sound fs) (h : Alike fs fs') : cache.Sound fs' := by
  refine ⟨h.wellFormed hsound.tree, ?_, ?_⟩
  · intro base hbase names hne target hnode
    rw [At, h.origin_eq] at hbase
    rw [h.node?_eq] at hnode
    exact hsound.noLink base (h.symm.preserves.leads hbase id) names hne target hnode
  · obtain ⟨known, rest, m, hway, hm, hrest⟩ := hsound.steady
    rw [h.origin_eq]
    exact ⟨known, rest, m, hway, h.preserves.leads hm id, hrest⟩

/-! ## What counts for a unit -/

/-- What counts in the cache for a unit is what the extractor finds in its artifact. -/
def Trusts (cache : Cache) (fs : FileSystem) (extract : Extractor ε) (unit : CompiledUnit) : Prop :=
  ∀ held, cache.get fs unit = some held → Gathering.HasReferences fs extract unit held

theorem Trusts.of_recalls (h : cache.Trusts fs extract unit) (hplaced : unit.Placed fs' dirs stem)
    (htree : fs'.WellFormed) (hentry : Recalls fs fs' (cache.entryPath unit))
    (hartifact : Recalls fs fs' unit.absolute) : cache.Trusts fs' extract unit := by
  intro held hheld
  obtain ⟨entry, artifact, content, text, hentry', hartifact', hlt, haccess, hnode, htext, hlines⟩ :=
    get_eq_some_iff.mp hheld
  obtain ⟨bytes, hbytes⟩ := hplaced.exists_content htree hartifact'
  have hbefore := hartifact artifact (by simp [hbytes]) hartifact'
  obtain ⟨found, hread, hextract⟩ := h held (get_eq_some_iff.mpr ⟨entry, artifact, content, text,
    hentry entry (by simp [hnode]) hentry', hbefore, hlt, haccess, hnode, htext, hlines⟩)
  obtain ⟨artifact', hlookup, hopen, hfound⟩ := read_eq_ok_iff.mp hread
  obtain rfl := Option.some.inj (hbefore.symm.trans hlookup)
  exact ⟨found, read_eq_ok_iff.mpr ⟨_, hartifact', hopen, hfound⟩, hextract⟩

theorem Trusts.of_alike (h : cache.Trusts fs extract unit) (halike : Alike fs fs') :
    cache.Trusts fs' extract unit := by
  intro held hheld
  obtain ⟨hnewer, content, hcontent, htext⟩ := get_eq_some_iff_isNewer.mp hheld
  rw [halike.isNewer_eq] at hnewer
  obtain ⟨bytes, hread, hextract⟩ := h held
    (get_eq_some_iff_isNewer.mpr ⟨hnewer, content, halike.read_iff.mp hcontent, htext⟩)
  exact ⟨bytes, halike.read_of_read hread, hextract⟩

theorem Trusts.of_not_newer (h : fs.isNewer (cache.entryPath unit) unit.absolute = false) :
    cache.Trusts fs extract unit := by
  intro held hheld
  rw [get_of_not_newer h] at hheld
  cases hheld

end Cache

namespace Gathering

/-- What counts for some units is right, and each of them has its place. -/
structure Reliable (cache : Cache) (extract : Extractor ε) (units : List CompiledUnit)
    (fs : FileSystem) : Prop where
  sound : cache.Sound fs
  placed : ∀ unit ∈ units, ∃ dirs stem, unit.Placed fs dirs stem
  trusts : cache.Trustworthy fs extract units

variable {units : List CompiledUnit}

theorem reliable_addUnit (g : Gathering)
    (hfits : ∀ bytes symbols, extract bytes = .ok symbols → ∀ symbol ∈ symbols, Lines.Fits symbol)
    (h : Reliable cache extract units g.fileSystem) (hunit : unit ∈ units)
    (hids : ∀ other ∈ units, other.id = unit.id → other = unit) :
    Reliable cache extract units (g.addUnit (some cache) extract unit).2.fileSystem := by
  rcases fileSystem_addUnit_cases (some cache) extract g unit with
    hsame | ⟨_, ⟨⟩, symbols, hmiss, hfound, hput⟩
  · rw [hsame]
    exact h
  · obtain ⟨dirs, stem, hplaced⟩ := h.placed unit hunit
    have hspares := Cache.spares_put h.sound hplaced.named symbols
    rw [hput]
    refine ⟨hspares.sound cache rfl, ?_, ?_⟩
    · intro other hother
      obtain ⟨dirs', stem', hotherPlaced⟩ := h.placed other hother
      exact ⟨dirs', stem', (hspares.artifact hotherPlaced).1⟩
    · intro other hother held hheld
      obtain ⟨dirs', stem', hotherPlaced⟩ := h.placed other hother
      by_cases hid : other.id = unit.id
      · obtain rfl := hids other hother hid
        obtain ⟨bytes, -, hextract⟩ := id hfound
        obtain rfl := Cache.eq_of_get_put h.sound hplaced hmiss (hfits bytes symbols hextract) hheld
        exact hspares.hasReferences hplaced hfound
      · have hget : cache.get (cache.put g.fileSystem unit symbols).2 other =
            cache.get g.fileSystem other := hspares.bind_get hotherPlaced hid
        rw [hget] at hheld
        exact hspares.hasReferences hotherPlaced (h.trusts other hother held hheld)

/-- What counts for some units stays right while references are looked for, up to the first
error. -/
theorem reliable_addUnits (g : Gathering)
    (hfits : ∀ bytes symbols, extract bytes = .ok symbols → ∀ symbol ∈ symbols, Lines.Fits symbol)
    (hids : ∀ unit ∈ units, ∀ other ∈ units, other.id = unit.id → other = unit)
    (h : Reliable cache extract units g.fileSystem) {rest : List CompiledUnit} (hrest : rest ⊆ units) :
    Reliable cache extract units (g.addUnits (some cache) extract rest).2.fileSystem := by
  induction rest generalizing g with
  | nil => exact h
  | cons unit rest ih =>
      obtain ⟨hunit, hrest⟩ := List.cons_subset.mp hrest
      have hstep := reliable_addUnit g hfits h hunit (hids unit hunit)
      rw [addUnits]
      split
      next error g' hadd =>
        rw [hadd] at hstep
        exact hstep
      next g' hadd =>
        rw [hadd] at hstep
        exact ih g' hstep hrest

end Gathering
end Freshness
