import Freshness.Proofs.Cache.Directory
import Freshness.Proofs.CompiledUnit
import Freshness.Proofs.FileSystem.Neighbours

/-!
# Writing an entry

The entry of a unit is written under a temporary name next to its place and then moved there.
Whatever fails on the way, nothing below the cache directory is written but the temporary file,
and the entry itself only by the move that comes last.
-/

namespace Freshness
namespace Cache

open FileSystem Freshness.Path

variable {cache : Cache} {fs fs' : FileSystem} {base : Location} {unit : CompiledUnit}
  {dirs : List Name} {stem : Name}

/-! ## Where an entry is written -/

/-- What a file name of the cache has after the stem of the unit's name. -/
structure IsSuffix (suffix : String) : Prop where
  length_le : 3 ≤ (Utf8.encode suffix).length
  no_separator : separator ∉ Utf8.encode suffix

theorem isSuffix_entry : IsSuffix ".dep" := ⟨by decide, by decide⟩

theorem isSuffix_temporary : IsSuffix ".tmp" := ⟨by decide, by decide⟩

theorem IsSuffix.isName {suffix : String} (h : IsSuffix suffix) {name : Name}
    (hname : IsName name) : IsName (name ++ Utf8.encode suffix) := by
  have hlength := h.length_le
  refine ⟨by simp [hname.ne_nil], ?_, ?_, ?_⟩
  · intro hdot
    have hsame := congrArg List.length hdot
    simp at hsame
    omega
  · intro hdots
    have hsame := congrArg List.length hdots
    simp at hsame
    omega
  · rw [List.mem_append, not_or]
    exact ⟨hname.no_separator, h.no_separator⟩

/-- What the entry of a unit is called. -/
def entryName (stem : Name) : Name := stem ++ Utf8.encode ".dep"

/-- What the file that becomes an entry is called. -/
def temporaryName (stem : Name) : Name := entryName stem ++ Utf8.encode ".tmp"

/-- The names below the cache directory that lead to the entry of a unit. -/
def entryNames (dirs : List Name) (stem : Name) : List Name := dirs ++ [entryName stem]

/-- The names below the cache directory that lead to the file that becomes an entry. -/
def temporaryNames (dirs : List Name) (stem : Name) : List Name := dirs ++ [temporaryName stem]

theorem entryNames_inj {dirs' : List Name} {stem' : Name} :
    entryNames dirs stem = entryNames dirs' stem' ↔ dirs = dirs' ∧ stem = stem' := by
  simp [entryNames, entryName]

theorem entryNames_ne_temporaryNames (dirs dirs' : List Name) (stem stem' : Name) :
    entryNames dirs stem ≠ temporaryNames dirs' stem' := by
  intro h
  have hlast := List.singleton_inj.mp (List.append_inj_right' h (by simp))
  have hsuffix : Utf8.encode ".dep" = Utf8.encode ".tmp" :=
    List.append_inj_right' hlast (by decide)
  revert hsuffix
  decide

theorem isName_concat {suffix : String} (hsuffix : IsSuffix suffix) {name : Name}
    (hnames : ∀ other ∈ dirs ++ [name], IsName other) :
    ∀ other ∈ dirs ++ [name ++ Utf8.encode suffix], IsName other := by
  obtain ⟨hdirs, hlast⟩ := List.forall_mem_append.mp hnames
  refine List.forall_mem_append.mpr ⟨hdirs, List.forall_mem_singleton.mpr ?_⟩
  exact hsuffix.isName (List.forall_mem_singleton.mp hlast)

theorem append_join_ofBody (root : Path) (suffix : String) {name : Name} (hname : name ≠ []) :
    (root.join (ofBody (dirs ++ [name]))).append suffix =
      root.join (ofBody (dirs ++ [name ++ Utf8.encode suffix])) := by
  have hne : (ofBody (dirs ++ [name])).bytes ≠ [] := by
    cases dirs <;> simp [ofBody, ofPieces, hname]
  rw [join_append root hne]
  congr 1
  rw [append, ← bytes_ofBody_append]

theorem isName_entryNames (hnamed : unit.Named dirs stem) :
    ∀ name ∈ entryNames dirs stem, IsName name :=
  isName_concat isSuffix_entry hnamed.isName

theorem isName_temporaryNames (hnamed : unit.Named dirs stem) :
    ∀ name ∈ temporaryNames dirs stem, IsName name :=
  isName_concat isSuffix_temporary (isName_entryNames hnamed)

theorem entryPath_eq (cache : Cache) (hnamed : unit.Named dirs stem) :
    cache.entryPath unit = cache.root.descend (entryNames dirs stem) := by
  have hstem := hnamed.isName stem (by simp)
  rw [entryPath, hnamed.relative, append_join_ofBody cache.root ".dep" hstem.ne_nil]
  exact join_ofBody cache.root (by simp) (isName_entryNames hnamed)

theorem endsInSeparator_entryPath (cache : Cache) (unit : CompiledUnit) :
    endsInSeparator (cache.entryPath unit) = false := by
  rw [endsInSeparator, entryPath, append, List.getLast?_append]
  rfl

theorem temporaryPath_eq (cache : Cache) (hnamed : unit.Named dirs stem) :
    cache.temporaryPath unit = cache.root.descend (temporaryNames dirs stem) := by
  have hname := isName_entryNames hnamed (entryName stem) (by simp [entryNames])
  rw [temporaryPath, entryPath_eq cache hnamed, ← join_ofBody cache.root (by simp [entryNames])
    (isName_entryNames hnamed), entryNames, append_join_ofBody cache.root ".tmp" hname.ne_nil]
  exact join_ofBody cache.root (by simp) (isName_temporaryNames hnamed)

/-- The directories that are created for an entry are on the way to it. -/
theorem along_parent_entryPath (cache : Cache) (hnamed : unit.Named dirs stem) :
    ((cache.entryPath unit).parent?.getD ⟨[]⟩).bytes = [] ∨
      cache.Along dirs ((cache.entryPath unit).parent?.getD ⟨[]⟩) := by
  cases hparent : (cache.entryPath unit).parent? with
  | none => exact Or.inl rfl
  | some q =>
      rw [entryPath_eq cache hnamed] at hparent
      refine (parent?_spec hparent).imp_right ?_
      rintro ⟨habsolute, name, hroute⟩
      have hnames := isName_entryNames hnamed
      rw [isAbsolute_descend _ hnames] at habsolute
      refine ⟨habsolute, ?_⟩
      rw [route_descend _ hnames, cache.withoutDots_route_append hnames, entryNames,
        ← List.append_assoc] at hroute
      rw [List.append_inj_left' hroute rfl]
      exact List.prefix_rfl

/-- The entry of a unit and the file that becomes the entry are next to each other. -/
theorem neighbours (cache : Cache) (hnamed : unit.Named dirs stem) :
    Neighbours (cache.temporaryPath unit) (cache.entryPath unit) (route cache.root ++ dirs)
      (temporaryName stem) (entryName stem) := by
  have hentry := isName_entryNames hnamed
  have htemporary := isName_temporaryNames hnamed
  have hentryName : IsName (entryName stem) := hentry _ (by simp [entryNames])
  have htemporaryName : IsName (temporaryName stem) := htemporary _ (by simp [temporaryNames])
  rw [temporaryPath_eq cache hnamed, entryPath_eq cache hnamed]
  refine ⟨?_, ?_, ?_, ?_, ⟨htemporaryName.ne_dot, hentryName.ne_dot⟩,
    ⟨htemporaryName.ne_dots, hentryName.ne_dots⟩⟩
  · rw [isAbsolute_descend _ htemporary, isAbsolute_descend _ hentry]
  · rw [route_descend _ htemporary, temporaryNames, List.append_assoc]
  · rw [route_descend _ hentry, entryNames, List.append_assoc]
  · intro heq
    apply entryNames_ne_temporaryNames dirs dirs stem stem
    rw [entryNames, temporaryNames, heq]

theorem origin_temporaryPath (cache : Cache) (fs : FileSystem) (hnamed : unit.Named dirs stem) :
    fs.origin (cache.temporaryPath unit) = fs.origin cache.root := by
  rw [temporaryPath_eq cache hnamed, origin_descend fs _ (isName_temporaryNames hnamed)]

/-- No link has the place of the entry of a unit, or of the file that becomes the entry. -/
def Unlinked (cache : Cache) (fs : FileSystem) (dirs : List Name) (stem : Name) : Prop :=
  ∀ d, cache.LeadsBelow fs dirs d → ∀ name ∈ [temporaryName stem, entryName stem],
    ∀ target, fs.node? (d.child name) ≠ some (.link target)

/-- Files have been written under some names in a directory of the cache, and nothing else. -/
structure WritesAt (cache : Cache) (dirs names : List Name) (d : Location)
    (fs fs' : FileSystem) : Prop where
  leads : cache.LeadsBelow fs dirs d
  directory : fs.node? d = some .directory
  grown : Grown (fun l => ∃ name ∈ names, l = d.child name) fs fs'

/-! ## Writing an entry -/

/-- What is done for the entry of a unit once the directories on the way to it are there. -/
def writeEntry (cache : Cache) (made : FileSystem) (unit : CompiledUnit)
    (symbols : List Identity) : FileSystem :=
  match made.write (cache.temporaryPath unit) (Utf8.encode (Lines.ofList symbols)) with
  | .error _ => made
  | .ok written =>
      match written.move (cache.temporaryPath unit) (cache.entryPath unit) with
      | .error _ => (written.delete (cache.temporaryPath unit)).toOption.getD written
      | .ok moved => moved

/-- The entry of a unit is written under its temporary name and comes to its place. -/
def Completes (cache : Cache) (made : FileSystem) (unit : CompiledUnit)
    (symbols : List Identity) : Prop :=
  ∃ written moved,
    made.write (cache.temporaryPath unit) (Utf8.encode (Lines.ofList symbols)) = .ok written ∧
    written.move (cache.temporaryPath unit) (cache.entryPath unit) = .ok moved

/-- Keeping the references of a unit creates directories and, if that goes well, writes the
entry. -/
theorem put_eq_or (cache : Cache) (fs : FileSystem) (unit : CompiledUnit)
    (symbols : List Identity) {made : FileSystem}
    (hmade : (fs.createDirectories ((cache.entryPath unit).parent?.getD ⟨[]⟩)).2 = made) :
    ((∃ e, (cache.put fs unit symbols).1 = .error e) ∧ (cache.put fs unit symbols).2 = made) ∨
      ((cache.put fs unit symbols).2 = cache.writeEntry made unit symbols ∧
        ((cache.put fs unit symbols).1 = .ok () ↔ cache.Completes made unit symbols)) := by
  subst hmade
  rw [put, writeEntry, Completes]
  split
  next e made hmade =>
    rw [hmade]
    exact Or.inl ⟨⟨_, rfl⟩, rfl⟩
  next made hmade =>
    rw [hmade]
    right
    split
    next e hwrite => simp [hwrite]
    next written hwrite =>
      rw [hwrite]
      dsimp only
      split
      next e hmove => simp [hmove]
      next moved hmove => simp [hmove]

theorem wellFormed_writeEntry (htree : fs.WellFormed) (symbols : List Identity) :
    (cache.writeEntry fs unit symbols).WellFormed := by
  rw [writeEntry]
  split
  next => exact htree
  next written hwrite =>
    have hwritten := htree.write hwrite
    split
    next =>
      cases hdelete : written.delete (cache.temporaryPath unit) with
      | error e => exact hwritten
      | ok deleted => exact hwritten.delete hdelete
    next moved hmove => exact hwritten.move hmove

/-- Writing the entry of a unit moves its temporary file, with the references in it, to the place of
the entry, or else writes the temporary file at most. -/
theorem writeEntry_cases (htree : fs.WellFormed) (hnamed : unit.Named dirs stem)
    (hunlinked : cache.Unlinked fs dirs stem) (symbols : List Identity) :
    (¬cache.Completes fs unit symbols ∧ (cache.writeEntry fs unit symbols = fs ∨
      ∃ d, cache.WritesAt dirs [temporaryName stem] d fs (cache.writeEntry fs unit symbols))) ∨
    (cache.Completes fs unit symbols ∧ ∃ d,
      cache.WritesAt dirs [temporaryName stem, entryName stem] d fs
        (cache.writeEntry fs unit symbols) ∧
      (cache.writeEntry fs unit symbols).resolve (cache.entryPath unit) =
        .ok (d.child (entryName stem)) ∧
      (cache.writeEntry fs unit symbols).node? (d.child (entryName stem)) =
        some (.file (Utf8.encode (Lines.ofList symbols))) ∧
      (cache.writeEntry fs unit symbols).node? (d.child (temporaryName stem)) = none) := by
  have hneighbours := neighbours cache hnamed
  have hbelow : ∀ d, Leads fs (fs.origin (cache.temporaryPath unit)) (route cache.root ++ dirs) d →
      cache.LeadsBelow fs dirs d := by
    intro d hd
    rw [origin_temporaryPath cache fs hnamed] at hd
    exact LeadsBelow.of_leads (fun _ => hnamed.isName_of_mem_dirs) hd
  have hplain : EndsPlainly fs (cache.temporaryPath unit) (route cache.root ++ dirs)
      (temporaryName stem) :=
    ⟨hneighbours.route_left, hneighbours.ne_dot.1, hneighbours.ne_dots.1,
      fun d hd => hunlinked d (hbelow d hd) _ List.mem_cons_self⟩
  rw [writeEntry, Completes]
  split
  next e hwrite =>
    rw [hwrite]
    exact Or.inl ⟨by simp, Or.inl rfl⟩
  next written hwrite =>
    rw [hwrite]
    obtain ⟨d, hd, hdirectory, hgrown, hcontent⟩ := hplain.grown_write htree hwrite
    have hd' : Leads written (written.origin (cache.temporaryPath unit))
        (route cache.root ++ dirs) d := by
      rw [hgrown.origin_eq]
      exact hgrown.leads hd (hgrown.not_touched hdirectory)
    split
    next e hmove =>
      refine Or.inl ⟨by simp [hmove], Or.inr ⟨d, hbelow d hd, hdirectory, ?_⟩⟩
      simp only [List.mem_singleton, exists_eq_left]
      cases hdelete : written.delete (cache.temporaryPath unit) with
      | error e => exact hgrown
      | ok deleted =>
          obtain ⟨d'', hd'', hgrown'⟩ :=
            (hplain.of_grown hd hdirectory hgrown).grown_delete hdelete
          obtain rfl := hd'.unique hd'' rfl
          exact hgrown.trans hgrown'
    next moved hmove =>
      have hlink : ∀ target, written.node? (d.child (entryName stem)) ≠ some (.link target) :=
        fun target hnode => hunlinked d (hbelow d hd) (entryName stem) (by simp) target
          (hgrown.link_of_link hnode)
      obtain ⟨hgrown', hfile, hgone⟩ := hneighbours.grown_move hd' hcontent hlink hmove
      refine Or.inr ⟨by simp [hmove], d, ⟨hbelow d hd, hdirectory, ?_⟩, ?_, hfile, hgone⟩
      · simpa using hgrown.trans_of_imp hgrown' fun l hl => Or.inl hl
      · exact hneighbours.resolve_of_move hgrown' hd' hfile (endsInSeparator_entryPath cache unit)
          hmove

theorem unlinked_of_noLinkBelow (h : ∀ base, cache.At fs base → fs.NoLinkBelow base)
    (hnamed : unit.Named dirs stem) : cache.Unlinked fs dirs stem := by
  intro d hd name _ target
  obtain ⟨base, hbase, rfl⟩ := hd.exists_base h fun _ => hnamed.isName_of_mem_dirs
  rw [← Location.descend_concat]
  exact h base hbase _ (by simp) target

/-- What is written in a directory of a cache without links is written below the cache directory. -/
theorem WritesAt.exists_advances {names : List Name} {d : Location}
    (h : cache.WritesAt dirs names d fs fs') (hsound : cache.Sound fs) (htree' : fs'.WellFormed)
    (hdirs : ∀ name ∈ dirs, IsName name) :
    ∃ base, cache.At fs base ∧ fs.node? base = some .directory ∧ d = base.descend dirs ∧
      cache.Advances (names.map fun name => dirs ++ [name]) fs fs' := by
  obtain ⟨base, hbase, rfl⟩ := h.leads.exists_base hsound.noLink hdirs
  have hnode : fs.node? base = some .directory := by
    by_cases hnil : dirs = []
    · subst hnil
      exact h.directory
    · exact hsound.tree.node?_of_descend hnil (isSome_entry?_of_node? h.directory)
  refine ⟨base, hbase, hnode, rfl, Advances.of_grown ?_ hbase hnode htree'⟩
  have hgrown := h.grown
  simp only [← Location.descend_concat] at hgrown
  simpa using hgrown

/-- What `writeEntry_cases` says of a cache without links. -/
theorem advances_writeEntry (hsound : cache.Sound fs) (hnamed : unit.Named dirs stem)
    (symbols : List Identity) :
    (¬cache.Completes fs unit symbols ∧ ∃ written ⊆ [temporaryNames dirs stem],
      cache.Advances written fs (cache.writeEntry fs unit symbols)) ∨
    (cache.Completes fs unit symbols ∧
      cache.Advances [temporaryNames dirs stem, entryNames dirs stem] fs
        (cache.writeEntry fs unit symbols) ∧
      ∃ base, cache.At (cache.writeEntry fs unit symbols) base ∧
        (cache.writeEntry fs unit symbols).resolve (cache.entryPath unit) =
          .ok (base.descend (entryNames dirs stem)) ∧
        (cache.writeEntry fs unit symbols).node? (base.descend (entryNames dirs stem)) =
          some (.file (Utf8.encode (Lines.ofList symbols))) ∧
        (cache.writeEntry fs unit symbols).node? (base.descend (temporaryNames dirs stem)) =
          none) := by
  have htree' : (cache.writeEntry fs unit symbols).WellFormed :=
    wellFormed_writeEntry hsound.tree symbols
  have hdirs : ∀ name ∈ dirs, IsName name := fun _ => hnamed.isName_of_mem_dirs
  rcases writeEntry_cases hsound.tree hnamed
    (unlinked_of_noLinkBelow hsound.noLink hnamed) symbols with
    ⟨hfails, hsame | ⟨d, hwrites⟩⟩ | ⟨hcompletes, d, hwrites, hresolve, hfile, hgone⟩
  · rw [hsame]
    exact Or.inl ⟨hfails, [], List.nil_subset _, Advances.refl hsound.tree⟩
  · obtain ⟨base, -, -, -, hadvances⟩ := hwrites.exists_advances hsound htree' hdirs
    exact Or.inl ⟨hfails, _, List.Subset.refl _, hadvances⟩
  · obtain ⟨base, hbase, hnode, rfl, hadvances⟩ := hwrites.exists_advances hsound htree' hdirs
    simp only [← Location.descend_concat] at hresolve hfile hgone
    exact Or.inr ⟨hcompletes, hadvances, base, (hadvances.at_kept hbase hnode).1, hresolve, hfile,
      hgone⟩

/-- Keeping the references of a unit moves its temporary file, with the references in it, to the
place of the entry, or else fails and writes the temporary file at most. -/
theorem put_cases (hsound : cache.Sound fs) (hnamed : unit.Named dirs stem)
    (symbols : List Identity) :
    ((∃ e, (cache.put fs unit symbols).1 = .error e) ∧
      ∃ written ⊆ [temporaryNames dirs stem],
        cache.Advances written fs (cache.put fs unit symbols).2) ∨
    ((cache.put fs unit symbols).1 = .ok () ∧
      cache.Advances [temporaryNames dirs stem, entryNames dirs stem] fs
        (cache.put fs unit symbols).2 ∧
      ∃ base, cache.At (cache.put fs unit symbols).2 base ∧
        (cache.put fs unit symbols).2.resolve (cache.entryPath unit) =
          .ok (base.descend (entryNames dirs stem)) ∧
        (cache.put fs unit symbols).2.node? (base.descend (entryNames dirs stem)) =
          some (.file (Utf8.encode (Lines.ofList symbols))) ∧
        (cache.put fs unit symbols).2.node? (base.descend (temporaryNames dirs stem)) =
          none) := by
  have hparents := advances_createDirectories hsound (along_parent_entryPath cache hnamed)
  rcases put_eq_or cache fs unit symbols rfl with ⟨herror, hput⟩ | ⟨hput, hok⟩
  · rw [hput]
    exact Or.inl ⟨herror, [], List.nil_subset _, hparents⟩
  · rw [hput]
    rcases advances_writeEntry (hparents.sound hsound) hnamed symbols with
      ⟨hfails, written, hwritten, hadvances⟩ | ⟨hcompletes, hadvances, hcontent⟩
    · refine Or.inl ⟨?_, written, hwritten, hparents.trans hadvances⟩
      cases hresult : (cache.put fs unit symbols).1 with
      | error e => exact ⟨e, rfl⟩
      | ok => exact absurd (hok.mp hresult) hfails
    · exact Or.inr ⟨hok.mpr hcompletes, hparents.trans hadvances, hcontent⟩

end Cache
end Freshness
