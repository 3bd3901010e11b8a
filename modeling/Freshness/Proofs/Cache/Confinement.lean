import Freshness.Proofs.Cache.Sparing
import Freshness.Proofs.Extraction

/-!
# Where a cache writes

A cache writes the entries of the units that it is given and the files that become entries, and it
creates directories.  Nothing else changes, wherever its root leads and whatever links there are, as
long as no link has the place of an entry or of a file that becomes one.  That is so if no link is
below the directory that the root leads to, also once directories have been created, and if no link
at all is called like an entry or like a file that becomes one.
-/

namespace Freshness

open FileSystem Freshness.Path

namespace Cache

/-- The tree is `fs` after directories have been created for some entries. -/
inductive Prepares (cache : Cache) (fs : FileSystem) : FileSystem → Prop
  | start : Prepares cache fs fs
  | next {made : FileSystem} {unit : CompiledUnit} {dirs : List Name} {stem : Name}
      (h : Prepares cache fs made) (hnamed : unit.Named dirs stem) :
      Prepares cache fs (made.createDirectories ((cache.entryPath unit).parent?.getD ⟨[]⟩)).2

/-- No link is below the directory that the root of the cache leads to, now or after directories
have been created for entries. -/
def Clear (cache : Cache) (fs : FileSystem) : Prop :=
  ∀ made, cache.Prepares fs made → ∀ base, cache.At made base → made.NoLinkBelow base

/-- No link is called like the entry of one of the units, or like the file that becomes it. -/
def NoLinkNamed (units : List CompiledUnit) (fs : FileSystem) : Prop :=
  ∀ unit ∈ units, ∀ dirs stem, CompiledUnit.Named unit dirs stem →
    ∀ name ∈ [temporaryName stem, entryName stem], ∀ (d : Location) target,
      fs.node? (d.child name) ≠ some (.link target)

/-- The location is that of the entry of a unit, or of the file that becomes the entry. -/
def Owns (cache : Cache) (fs : FileSystem) (unit : CompiledUnit) (l : Location) : Prop :=
  ∃ d dirs stem, cache.LeadsBelow fs dirs d ∧ fs.node? d = some .directory ∧
    unit.Named dirs stem ∧ ∃ name ∈ [temporaryName stem, entryName stem], l = d.child name

/-- The location is that of a file that the cache, if there is one, keeps for one of the units. -/
def Owned (cache : Option Cache) (units : List CompiledUnit) (fs : FileSystem) (l : Location) :
    Prop :=
  ∃ c ∈ cache, ∃ unit ∈ units, c.Owns fs unit l

/-- From one tree to the next the cache has written its own files only: all other files and links
are the same, every path to one of them still leads there, and no directory is gone. -/
structure Confined (cache : Option Cache) (units : List CompiledUnit) (fs fs' : FileSystem) :
    Prop where
  tree : fs'.WellFormed
  directory : ∀ l, fs.node? l = some .directory → fs'.node? l = some .directory
  owned : ∀ l, Owned cache units fs l → Owned cache units fs' l
  entry : ∀ l e, e.node ≠ .directory → ¬Owned cache units fs' l →
    (fs'.entry? l = some e ↔ fs.entry? l = some e)
  found : ∀ p l, fs.resolve p = .ok l → ¬Owned cache units fs' l → fs'.resolve p = .ok l
  artifact : ∀ {unit dirs stem}, CompiledUnit.Placed unit fs dirs stem →
    unit.Placed fs' dirs stem ∧ fs'.lookup? unit.absolute = fs.lookup? unit.absolute

/-- A condition that keeps links away from the places of the entries, and that holds again after
references have been kept. -/
structure Guards (cache : Option Cache) (units : List CompiledUnit) (guard : FileSystem → Prop) :
    Prop where
  unlinked : ∀ c ∈ cache, ∀ {fs unit dirs stem}, WellFormed fs → guard fs → unit ∈ units →
    CompiledUnit.Named unit dirs stem →
      c.Unlinked (fs.createDirectories ((c.entryPath unit).parent?.getD ⟨[]⟩)).2 dirs stem
  put : ∀ c ∈ cache, ∀ {fs unit dirs stem}, WellFormed fs → guard fs → unit ∈ units →
    CompiledUnit.Named unit dirs stem → ∀ symbols, guard (c.put fs unit symbols).2

/-- No link diverts what the cache writes, because none is below the directory that its root leads
to, or because none is called like one of its files. -/
def Undiverted (cache : Option Cache) (units : List CompiledUnit) (fs : FileSystem) : Prop :=
  (∀ c ∈ cache, c.Clear fs) ∨ ∀ _c ∈ cache, NoLinkNamed units fs

variable {cache : Cache} {fs made fs' : FileSystem} {unit : CompiledUnit} {dirs : List Name}
  {stem : Name} {units : List CompiledUnit} {l : Location}

/-! ## Where the root leads -/

theorem Prepares.trans {fs'' : FileSystem} (h : cache.Prepares fs fs')
    (h' : cache.Prepares fs' fs'') : cache.Prepares fs fs'' := by
  induction h' with
  | start => exact h
  | next _ hnamed ih => exact .next ih hnamed

theorem Prepares.wellFormed (h : cache.Prepares fs made) (htree : fs.WellFormed) :
    made.WellFormed := by
  induction h with
  | start => exact htree
  | next _ _ ih => exact ih.createDirectories _

theorem Clear.of_prepares (h : cache.Clear fs) (hmade : cache.Prepares fs made) :
    cache.Clear made :=
  fun made' hmade' => h made' (hmade.trans hmade')

theorem Sound.of_prepares (h : cache.Sound fs) (hmade : cache.Prepares fs made) :
    cache.Sound made := by
  induction hmade with
  | start => exact h
  | next _ hnamed ih =>
      exact (advances_createDirectories ih (along_parent_entryPath cache hnamed)).sound ih

theorem Sound.clear (h : cache.Sound fs) : cache.Clear fs :=
  fun _ hmade => (h.of_prepares hmade).noLink

/-- Where the root leads somewhere already, it goes back to no directory that is missing. -/
theorem Clear.sound {base : Location} (h : cache.Clear fs) (htree : fs.WellFormed)
    (hbase : cache.At fs base) : cache.Sound fs :=
  ⟨htree, h fs .start, cache.way, [], base, (List.append_nil _).symm, hbase, by simp⟩

/-! ## The files of the cache -/

theorem Owns.of_grown {touched : Location → Prop} (h : cache.Owns fs unit l)
    (hgrown : Grown touched fs fs') : cache.Owns fs' unit l := by
  obtain ⟨d, dirs, stem, hd, hnode, hnamed, hname⟩ := h
  refine ⟨d, dirs, stem, ?_, hgrown.directory_kept hnode, hnamed, hname⟩
  rw [LeadsBelow, hgrown.origin_eq]
  exact hgrown.leads hd (hgrown.not_touched hnode)

/-- The files of the cache stay where they are when other files are gone. -/
theorem Owns.of_without {gone : Location → Prop} (h : cache.Owns fs unit l)
    (hwithout : Without fs gone fs') (hfiles : ∀ l, gone l → fs.HasFile l) :
    cache.Owns fs' unit l := by
  obtain ⟨d, dirs, stem, hd, hnode, hnamed, hname⟩ := h
  have hkept : ¬gone d := fun hgone => hwithout.not_directory d hgone hnode
  refine ⟨d, dirs, stem, ?_, (hwithout.node?_kept hkept).trans hnode, hnamed, hname⟩
  rw [LeadsBelow, hwithout.origin_eq]
  exact (hwithout.smaller hfiles).leads hd hkept

/-- A file of the cache is called after a stem with the endings of the cache. -/
theorem Owns.exists_child (h : cache.Owns fs unit l) :
    ∃ (d : Location) (stem : Name), l = d.child (stem ++ Utf8.encode ".dep") ∨
      l = d.child (stem ++ Utf8.encode ".dep" ++ Utf8.encode ".tmp") := by
  obtain ⟨d, dirs, stem, -, -, -, name, hname, rfl⟩ := h
  rcases List.mem_cons.mp hname with rfl | hentry
  · exact ⟨d, stem, Or.inr rfl⟩
  · rw [List.mem_singleton.mp hentry]
    exact ⟨d, stem, Or.inl rfl⟩

theorem Owned.ne_artifact {cache : Option Cache} (h : Owned cache units fs l) (base : Location) :
    l ≠ base.descend (CompiledUnit.artifactNames dirs stem) := by
  obtain ⟨c, -, unit, -, d, dirs', stem', -, -, -, name, hname, rfl⟩ := h
  exact child_ne_artifactNames hname

namespace Confined

variable {cache : Option Cache}

theorem refl (htree : fs.WellFormed) : Confined cache units fs fs where
  tree := htree
  directory _ h := h
  owned _ h := h
  entry _ _ _ _ := Iff.rfl
  found _ _ h _ := h
  artifact h := ⟨h, rfl⟩

theorem trans {fs'' : FileSystem} (h : Confined cache units fs fs')
    (h' : Confined cache units fs' fs'') : Confined cache units fs fs'' where
  tree := h'.tree
  directory l hl := h'.directory l (h.directory l hl)
  owned l hl := h'.owned l (h.owned l hl)
  entry l e he hl :=
    (h'.entry l e he hl).trans (h.entry l e he fun hown => hl (h'.owned l hown))
  found p l hp hl := h'.found p l (h.found p l hp fun hown => hl (h'.owned l hown)) hl
  artifact hunit := by
    obtain ⟨hplaced, hsame⟩ := h.artifact hunit
    obtain ⟨hplaced', hsame'⟩ := h'.artifact hplaced
    exact ⟨hplaced', hsame'.trans hsame⟩

/-- A tree in which only files of the cache are written. -/
theorem of_grown {touched : Location → Prop} (h : Grown touched fs fs') (htree : fs.WellFormed)
    (htree' : fs'.WellFormed) (htouched : ∀ l, touched l → Owned cache units fs' l) :
    Confined cache units fs fs' where
  tree := htree'
  directory _ := h.directory_kept
  owned := by
    rintro l ⟨c, hc, unit, hunit, howns⟩
    exact ⟨c, hc, unit, hunit, howns.of_grown h⟩
  entry l e he hl := h.entry?_iff (fun ht => hl (htouched l ht)) he
  found _ l hp hl := h.preserves.resolve hp fun ht => hl (htouched l ht)
  artifact hunit := hunit.of_grown h htree fun base ht => (htouched _ ht).ne_artifact base rfl

/-- An artifact that is found afterwards is where it was before. -/
theorem exists_artifact (h : Confined cache units fs fs') (htree : fs.WellFormed)
    (hplaced : unit.Placed fs dirs stem) (hfile : fs'.isFile unit.absolute = true) :
    ∃ l, fs.resolve unit.absolute = .ok l ∧ fs.HasFile l ∧ ¬Owned cache units fs' l ∧
      fs'.HasFile l ∧ ∀ purpose m, fs'.locate purpose unit.absolute = .ok (.found m) → m = l := by
  obtain ⟨hplaced', hsame⟩ := h.artifact hplaced
  obtain ⟨base, -, hlocate⟩ := hplaced.exists_location htree
  obtain ⟨base', hfile', hlocate'⟩ := hplaced'.exists_location h.tree
  have hbefore : fs.isFile unit.absolute = true := by
    rw [isFile, ← hsame]
    exact hfile
  obtain ⟨l, hl, hlfile⟩ := isFile_iff.mp hbefore
  have hnot : ¬Owned cache units fs' l := by
    rw [hlocate .inspect l (resolve_eq_ok_iff_locate.mp hl)]
    exact fun howned => howned.ne_artifact base rfl
  have hl' := h.found _ _ hl hnot
  obtain rfl := hlocate' .inspect l (resolve_eq_ok_iff_locate.mp hl')
  exact ⟨_, hl, hlfile, hnot, hfile', hlocate'⟩

end Confined

/-! ## Keeping references -/

theorem wellFormed_put (htree : fs.WellFormed) (symbols : List Identity) :
    (cache.put fs unit symbols).2.WellFormed := by
  have hmade := htree.createDirectories ((cache.entryPath unit).parent?.getD ⟨[]⟩)
  rcases put_eq_or cache fs unit symbols rfl with ⟨-, hput⟩ | ⟨hput, -⟩
  · rw [hput]
    exact hmade
  · rw [hput]
    exact wellFormed_writeEntry hmade symbols

theorem WritesAt.owns {names : List Name} {d : Location} (h : cache.WritesAt dirs names d fs fs')
    (hnamed : unit.Named dirs stem) {name : Name}
    (hname : name ∈ [temporaryName stem, entryName stem]) :
    cache.Owns fs' unit (d.child name) := by
  refine ⟨d, dirs, stem, ?_, h.grown.directory_kept h.directory, hnamed, name, hname, rfl⟩
  rw [LeadsBelow, h.grown.origin_eq]
  exact h.grown.leads h.leads (h.grown.not_touched h.directory)

/-- Keeping the references of a unit creates directories and writes files of the cache, where no
link is in the way. -/
theorem exists_grown_put (htree : fs.WellFormed) (hnamed : unit.Named dirs stem)
    (hunlinked : cache.Unlinked
      (fs.createDirectories ((cache.entryPath unit).parent?.getD ⟨[]⟩)).2 dirs stem)
    (symbols : List Identity) :
    ∃ touched, Grown touched fs (cache.put fs unit symbols).2 ∧
      ∀ l, touched l → cache.Owns (cache.put fs unit symbols).2 unit l := by
  have hmade := htree.createDirectories ((cache.entryPath unit).parent?.getD ⟨[]⟩)
  have hgrown := grown_createDirectories htree ((cache.entryPath unit).parent?.getD ⟨[]⟩)
  rcases put_eq_or cache fs unit symbols rfl with ⟨-, hput⟩ | ⟨hput, -⟩
  · rw [hput]
    exact ⟨_, hgrown, fun _ => False.elim⟩
  · rw [hput]
    rcases writeEntry_cases hmade hnamed hunlinked symbols with
      ⟨-, hsame | ⟨d, hwrites⟩⟩ | ⟨-, d, hwrites, -⟩
    · rw [hsame]
      exact ⟨_, hgrown, fun _ => False.elim⟩
    · refine ⟨_, hgrown.trans_of_imp hwrites.grown fun _ => False.elim, ?_⟩
      rintro l ⟨name, hname, rfl⟩
      exact hwrites.owns hnamed (List.mem_cons.mpr (Or.inl (List.mem_singleton.mp hname)))
    · refine ⟨_, hgrown.trans_of_imp hwrites.grown fun _ => False.elim, ?_⟩
      rintro l ⟨name, hname, rfl⟩
      exact hwrites.owns hnamed hname

/-! ## Conditions that keep links away -/

/-- Where something is written, the root of the cache leads somewhere. -/
theorem exists_at_of_write (hnamed : unit.Named dirs stem) {content : Bytes}
    (h : fs.write (cache.temporaryPath unit) content = .ok fs') : ∃ base, cache.At fs base := by
  rw [write] at h
  cases hlocate : fs.locate .write (cache.temporaryPath unit) with
  | error e =>
      rw [hlocate] at h
      cases h
  | ok place =>
      have hwalk := (locate_eq_ok_iff.mp hlocate).2
      rw [(neighbours cache hnamed).route_left, origin_temporaryPath cache fs hnamed,
        List.append_assoc] at hwalk
      obtain ⟨base, -, hbase, -⟩ := walk_append (by simp) hwalk
      exact ⟨base, hbase.dropDots⟩

theorem writeEntry_of_not_at (hnamed : unit.Named dirs stem) (symbols : List Identity)
    (h : ∀ base, ¬cache.At fs base) : cache.writeEntry fs unit symbols = fs := by
  rw [writeEntry]
  split
  next => rfl
  next written hwrite =>
    obtain ⟨base, hbase⟩ := exists_at_of_write hnamed hwrite
    exact absurd hbase (h base)

theorem Clear.put (h : cache.Clear fs) (htree : fs.WellFormed) (hnamed : unit.Named dirs stem)
    (symbols : List Identity) : cache.Clear (cache.put fs unit symbols).2 := by
  have hmade : cache.Prepares fs
      (fs.createDirectories ((cache.entryPath unit).parent?.getD ⟨[]⟩)).2 := .next .start hnamed
  have hclear := h.of_prepares hmade
  rcases put_eq_or cache fs unit symbols rfl with ⟨-, hput⟩ | ⟨hput, -⟩
  · rw [hput]
    exact hclear
  · rw [hput]
    by_cases hany : ∃ base, cache.At
        (fs.createDirectories ((cache.entryPath unit).parent?.getD ⟨[]⟩)).2 base
    · obtain ⟨base, hbase⟩ := hany
      have hsound := hclear.sound (hmade.wellFormed htree) hbase
      rcases advances_writeEntry hsound hnamed symbols with
        ⟨-, written, -, hadvances⟩ | ⟨-, hadvances, -⟩
      · exact (hadvances.sound hsound).clear
      · exact (hadvances.sound hsound).clear
    · rw [writeEntry_of_not_at hnamed symbols (not_exists.mp hany)]
      exact hclear

theorem guards_clear (cache : Option Cache) (units : List CompiledUnit) :
    Guards cache units fun fs => ∀ c ∈ cache, c.Clear fs where
  unlinked c hc _ _ _ _ _ hclear _ hnamed :=
    unlinked_of_noLinkBelow ((hclear c hc).of_prepares (.next .start hnamed) _ .start) hnamed
  put c hc _ _ _ _ htree hclear _ hnamed symbols := by
    rintro c' hc'
    obtain rfl := Option.mem_unique hc hc'
    exact (hclear c hc).put htree hnamed symbols

theorem guards_noLinkNamed (cache : Option Cache) (units : List CompiledUnit) :
    Guards cache units fun fs => ∀ _c ∈ cache, NoLinkNamed units fs := by
  have hunlinked : ∀ {c : Cache} {fs unit dirs stem}, WellFormed fs → NoLinkNamed units fs →
      unit ∈ units → CompiledUnit.Named unit dirs stem →
        c.Unlinked (fs.createDirectories ((c.entryPath unit).parent?.getD ⟨[]⟩)).2 dirs stem := by
    intro c fs unit dirs stem htree hlinks hunit hnamed d _ name hname target hnode
    exact hlinks unit hunit dirs stem hnamed name hname d target
      ((grown_createDirectories htree _).link_of_link hnode)
  constructor
  · exact fun c hc _ _ _ _ htree hlinks => hunlinked htree (hlinks c hc)
  · intro c hc fs unit dirs stem htree hlinks hunit hnamed symbols _ _ other hother dirs' stem'
      hnamed' name hname d target hnode
    obtain ⟨touched, hgrown, -⟩ :=
      exists_grown_put htree hnamed (hunlinked htree (hlinks c hc) hunit hnamed) symbols
    exact hlinks c hc other hother dirs' stem' hnamed' name hname d target
      (hgrown.link_of_link hnode)

theorem noLinkNamed_of_forall (h : ∀ l target, fs.node? l ≠ some (.link target)) :
    NoLinkNamed units fs :=
  fun _ _ _ _ _ _ _ _ target => h _ target

/-- One of two conditions is enough. -/
theorem Guards.or {cache : Option Cache} {guard guard' : FileSystem → Prop}
    (h : Guards cache units guard) (h' : Guards cache units guard') :
    Guards cache units fun fs => guard fs ∨ guard' fs where
  unlinked c hc _ _ _ _ htree hguard hunit hnamed := by
    rcases hguard with hguard | hguard
    · exact h.unlinked c hc htree hguard hunit hnamed
    · exact h'.unlinked c hc htree hguard hunit hnamed
  put c hc _ _ _ _ htree hguard hunit hnamed symbols := by
    rcases hguard with hguard | hguard
    · exact Or.inl (h.put c hc htree hguard hunit hnamed symbols)
    · exact Or.inr (h'.put c hc htree hguard hunit hnamed symbols)

theorem guards_undiverted (cache : Option Cache) (units : List CompiledUnit) :
    Guards cache units (Undiverted cache units) :=
  (guards_clear cache units).or (guards_noLinkNamed cache units)

theorem Guards.confined_put {cache : Option Cache} {guard : FileSystem → Prop}
    (h : Guards cache units guard) {c : Cache} (hc : c ∈ cache) (htree : fs.WellFormed)
    (hguard : guard fs) (hunit : unit ∈ units) (hnamed : unit.Named dirs stem)
    (symbols : List Identity) : Confined cache units fs (c.put fs unit symbols).2 := by
  obtain ⟨touched, hgrown, howns⟩ :=
    exists_grown_put htree hnamed (h.unlinked c hc htree hguard hunit hnamed) symbols
  exact Confined.of_grown hgrown htree (wellFormed_put htree symbols)
    fun l hl => ⟨c, hc, unit, hunit, howns l hl⟩

end Cache

namespace Gathering

variable {ε : Type} {cache : Option Cache} {units : List CompiledUnit}
  {guard : FileSystem → Prop}

/-- Looking for the references of a unit leaves the tree alone or keeps what was found in the
artifact, of which nothing counted in the cache. -/
theorem fileSystem_addUnit_cases (cache : Option Cache) (extract : Extractor ε) (g : Gathering)
    (unit : CompiledUnit) :
    (g.addUnit cache extract unit).2.fileSystem = g.fileSystem ∨
      ∃ c ∈ cache, ∃ symbols, c.get g.fileSystem unit = none ∧
        HasReferences g.fileSystem extract unit symbols ∧
        (g.addUnit cache extract unit).2.fileSystem = (c.put g.fileSystem unit symbols).2 := by
  unfold addUnit
  split
  next => exact Or.inl rfl
  next hmiss =>
    split
    next => exact Or.inl rfl
    next bytes hread =>
      split
      next => exact Or.inl rfl
      next symbols hextract =>
        cases cache with
        | none => exact Or.inl rfl
        | some c => exact Or.inr ⟨c, rfl, symbols, hmiss, ⟨bytes, hread, hextract⟩, rfl⟩

theorem confined_addUnit (hguards : Cache.Guards cache units guard) (extract : Extractor ε)
    (g : Gathering) {unit : CompiledUnit} (htree : g.fileSystem.WellFormed)
    (hguard : guard g.fileSystem) (hnamed : ∃ dirs stem, unit.Named dirs stem)
    (hunit : unit ∈ units) :
    Cache.Confined cache units g.fileSystem (g.addUnit cache extract unit).2.fileSystem ∧
      guard (g.addUnit cache extract unit).2.fileSystem := by
  rcases fileSystem_addUnit_cases cache extract g unit with
    hsame | ⟨c, hc, symbols, -, -, hput⟩
  · rw [hsame]
    exact ⟨Cache.Confined.refl htree, hguard⟩
  · obtain ⟨dirs, stem, hnamed⟩ := hnamed
    rw [hput]
    exact ⟨hguards.confined_put hc htree hguard hunit hnamed symbols,
      hguards.put c hc htree hguard hunit hnamed symbols⟩

/-- Looking for the references of units in order, up to the first error, writes files of the cache
only. -/
theorem confined_addUnits (hguards : Cache.Guards cache units guard) (extract : Extractor ε)
    (g : Gathering) {rest : List CompiledUnit} (htree : g.fileSystem.WellFormed)
    (hguard : guard g.fileSystem) (hnamed : ∀ unit ∈ rest, ∃ dirs stem, unit.Named dirs stem)
    (hunits : rest ⊆ units) :
    Cache.Confined cache units g.fileSystem (g.addUnits cache extract rest).2.fileSystem := by
  induction rest generalizing g with
  | nil => exact Cache.Confined.refl htree
  | cons unit rest ih =>
      obtain ⟨hname, hnames⟩ := List.forall_mem_cons.mp hnamed
      obtain ⟨hunit, hrest⟩ := List.cons_subset.mp hunits
      obtain ⟨hstep, hguard'⟩ := confined_addUnit hguards extract g htree hguard hname hunit
      rw [addUnits]
      split
      next error g' hadd =>
        rw [hadd] at hstep
        exact hstep
      next g' hadd =>
        rw [hadd] at hstep hguard'
        exact hstep.trans (ih g' hstep.tree hguard' hnames hrest)

end Gathering
end Freshness
