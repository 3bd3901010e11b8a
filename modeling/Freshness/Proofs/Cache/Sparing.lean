import Freshness.Extraction
import Freshness.Proofs.Cache.Reading

/-!
# What working with a cache spares

Keeping references changes the entries of the units whose references are kept, and nothing else that
a run reads: all artifacts, all other entries and all files outside the cache directory stay as they
are.
-/

namespace Freshness
namespace Cache

open FileSystem Freshness.Path

variable {cache : Cache} {fs fs' : FileSystem} {unit : CompiledUnit} {dirs : List Name}
  {stem : Name} {symbols : List Identity}

/-- The location is below the cache directory. -/
def Below (cache : Cache) (fs : FileSystem) (l : Location) : Prop :=
  ∃ base names, cache.At fs base ∧ fs.node? base = some .directory ∧ names ≠ [] ∧
    l = base.descend names

/-- From one tree to the next only entries of units that are not spared are written. -/
structure Spares (cache : Option Cache) (spared : CompiledUnit → Prop) (fs fs' : FileSystem) :
    Prop where
  sound : ∀ c ∈ cache, c.Sound fs'
  artifact : ∀ {unit dirs stem}, CompiledUnit.Placed unit fs dirs stem →
    unit.Placed fs' dirs stem ∧ fs'.lookup? unit.absolute = fs.lookup? unit.absolute
  entry : ∀ c ∈ cache, ∀ {unit dirs stem}, CompiledUnit.Named unit dirs stem → spared unit →
    KeepsFile fs fs' (c.entryPath unit)
  below : ∀ c ∈ cache, ∀ l, c.Below fs l → c.Below fs' l
  outside : ∀ l e, e.node ≠ .directory → (∀ c ∈ cache, ¬c.Below fs' l) →
    (fs'.entry? l = some e ↔ fs.entry? l = some e)

namespace Spares

variable {cache : Option Cache} {spared : CompiledUnit → Prop}

theorem refl (hsound : ∀ c ∈ cache, c.Sound fs) : Spares cache spared fs fs where
  sound := hsound
  artifact h := ⟨h, rfl⟩
  entry _ _ _ _ _ _ _ := KeepsFile.refl fs _
  below _ _ _ h := h
  outside _ _ _ _ := Iff.rfl

theorem trans {fs'' : FileSystem} (h : Spares cache spared fs fs')
    (h' : Spares cache spared fs' fs'') : Spares cache spared fs fs'' where
  sound := h'.sound
  artifact hunit := by
    obtain ⟨hplaced, hsame⟩ := h.artifact hunit
    obtain ⟨hplaced', hsame'⟩ := h'.artifact hplaced
    exact ⟨hplaced', hsame'.trans hsame⟩
  entry c hc _ _ _ hnamed hspared :=
    (h.entry c hc hnamed hspared).trans (h'.entry c hc hnamed hspared)
  below c hc l hl := h'.below c hc l (h.below c hc l hl)
  outside l e he hl := (h'.outside l e he hl).trans
    (h.outside l e he fun c hc hbelow => hl c hc (h'.below c hc l hbelow))

theorem mono {spared' : CompiledUnit → Prop} (h : Spares cache spared fs fs')
    (hspared : ∀ unit, spared' unit → spared unit) : Spares cache spared' fs fs' where
  sound := h.sound
  artifact := h.artifact
  entry c hc _ _ _ hnamed hunit := h.entry c hc hnamed (hspared _ hunit)
  below := h.below
  outside := h.outside

theorem bind_get (h : Spares cache spared fs fs') (hplaced : unit.Placed fs dirs stem)
    (hspared : spared unit) :
    cache.bind (·.get fs' unit) = cache.bind (·.get fs unit) := by
  cases cache with
  | none => rfl
  | some c => exact get_congr (h.entry c rfl hplaced.named hspared) (h.artifact hplaced).2

theorem read_eq_ok_iff (h : Spares cache spared fs fs') (hplaced : unit.Placed fs dirs stem)
    {bytes : Bytes} : fs'.read unit.absolute = .ok bytes ↔ fs.read unit.absolute = .ok bytes := by
  rw [FileSystem.read_eq_ok_iff, FileSystem.read_eq_ok_iff, (h.artifact hplaced).2]

end Spares

/-! ## Keeping the references of one unit -/

theorem Advances.spares {written : List (List Name)} (h : cache.Advances written fs fs')
    (hsound : cache.Sound fs) (hnamed : unit.Named dirs stem)
    (hwritten : written ⊆ [temporaryNames dirs stem, entryNames dirs stem]) :
    Spares (some cache) (fun other => other.id ≠ unit.id) fs fs' where
  sound := by
    rintro _ ⟨⟩
    exact h.sound hsound
  artifact hplaced := h.placed hsound.tree hwritten hplaced
  entry := by
    rintro _ ⟨⟩ other dirs' stem' hother hid
    rw [entryPath_eq cache hother]
    refine h.keepsFile hsound (by simp [entryNames]) (isName_entryNames hother) fun hmem => ?_
    rcases List.mem_cons.mp (hwritten hmem) with htemporary | hentry
    · exact entryNames_ne_temporaryNames _ _ _ _ htemporary
    · obtain ⟨rfl, rfl⟩ := entryNames_inj.mp (List.mem_singleton.mp hentry)
      exact hid (hother.id_eq hnamed)
  below := by
    rintro _ ⟨⟩ l ⟨base, names, hbase, hnode, hne, rfl⟩
    obtain ⟨hbase', hnode'⟩ := h.at_kept hbase hnode
    exact ⟨base, names, hbase', hnode', hne, rfl⟩
  outside := by
    intro l e he hl
    refine h.grown.entry?_iff ?_ he
    rintro ⟨base, names, hbase, hnames, rfl⟩
    have hne : names ≠ [] := by
      rcases List.mem_cons.mp (hwritten hnames) with rfl | hentry
      · simp [temporaryNames]
      · simp [List.mem_singleton.mp hentry, entryNames]
    have hnode := h.directory (List.ne_nil_of_mem hnames) base hbase
    exact hl cache rfl ⟨base, names, hbase, hnode, hne, rfl⟩

theorem spares_put (hsound : cache.Sound fs) (hnamed : unit.Named dirs stem)
    (symbols : List Identity) :
    Spares (some cache) (fun other => other.id ≠ unit.id) fs (cache.put fs unit symbols).2 := by
  rcases put_cases hsound hnamed symbols with
    ⟨-, written, hwritten, hadvances⟩ | ⟨-, hadvances, -⟩
  · refine hadvances.spares hsound hnamed fun names hnames => ?_
    rw [List.mem_singleton.mp (hwritten hnames)]
    exact List.mem_cons_self
  · exact hadvances.spares hsound hnamed (List.Subset.refl _)

/-- The entry of a unit is what it was if its references could not be kept. -/
theorem get_put_of_error (hsound : cache.Sound fs) (hplaced : unit.Placed fs dirs stem)
    {e : CacheError} (herror : (cache.put fs unit symbols).1 = .error e) :
    cache.get (cache.put fs unit symbols).2 unit = cache.get fs unit := by
  have hspares := spares_put hsound hplaced.named symbols
  rcases put_cases hsound hplaced.named symbols with
    ⟨-, written, hwritten, hadvances⟩ | ⟨hok, -⟩
  · have hother : entryNames dirs stem ∉ written := fun hmem =>
      entryNames_ne_temporaryNames _ _ _ _ (List.mem_singleton.mp (hwritten hmem))
    have hsame := hadvances.keepsFile hsound (by simp [entryNames])
      (isName_entryNames hplaced.named) hother
    rw [← entryPath_eq cache hplaced.named] at hsame
    exact get_congr hsame (hspares.artifact hplaced).2
  · rw [hok] at herror
    cases herror

/-- What is read after the references of a unit have been kept is what was kept. -/
theorem eq_of_get_put (hsound : cache.Sound fs) (hplaced : unit.Placed fs dirs stem)
    (hmiss : cache.get fs unit = none) (hfits : ∀ symbol ∈ symbols, Lines.Fits symbol)
    {found : List Identity} (h : cache.get (cache.put fs unit symbols).2 unit = some found) :
    found = symbols := by
  rcases put_cases hsound hplaced.named symbols with
    ⟨⟨e, herror⟩, -⟩ | ⟨-, hadvances, base, hbase, -, hcontent, -⟩
  · rw [get_put_of_error hsound hplaced herror, hmiss] at h
    cases h
  · obtain ⟨entry, artifact, content, text, hentry, -, -, -, hnode, htext, rfl⟩ :=
      get_eq_some_iff.mp h
    rw [entryPath_eq cache hplaced.named] at hentry
    obtain ⟨base', hbase', hentry', -⟩ := exists_of_lookup? (hadvances.sound hsound)
      (by simp [entryNames]) (isName_entryNames hplaced.named) (by simp [hnode]) hentry
    obtain rfl := hbase.unique hbase'
    rw [node?_of_some hentry', hnode] at hcontent
    obtain rfl := Node.file.inj (Option.some.inj hcontent)
    rw [Utf8.decode?_encode] at htext
    obtain rfl := Option.some.inj htext
    exact Lines.nonempty_ofList hfits

end Cache
end Freshness
