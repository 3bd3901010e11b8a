import Freshness.Proofs.Cache.Entry
import Freshness.Proofs.Scan
import Freshness.Proofs.Text.Lines
import Freshness.Proofs.Text.Utf8

/-!
# Reading an entry

What counts of an entry is read off two files: the entry, and the artifact it must be newer than.
Keeping the references of one unit changes neither file for any other unit, nor any file outside the
cache directory, and what is read afterwards for the unit itself is what was kept.
-/

namespace Freshness

open FileSystem Freshness.Path

variable {fs fs' : FileSystem} {unit : CompiledUnit} {dirs : List Name} {stem : Name}

namespace FileSystem

theorem read_eq_ok_iff {p : Path} {content : Bytes} :
    fs.read p = .ok content ↔
      ∃ e, fs.lookup? p = some e ∧ e.access ≠ .locked ∧ e.node = .file content := by
  unfold read lookup?
  cases hresolve : fs.resolve p with
  | error e => simp [bind, Except.bind]
  | ok l =>
      cases hentry : fs.entry? l with
      | none => simp [bind, Except.bind, hentry, throw, throwThe, MonadExceptOf.throw]
      | some e =>
          obtain ⟨node, modified, access⟩ := e
          cases node <;> cases access <;>
            simp [bind, Except.bind, hentry, throw, throwThe, MonadExceptOf.throw, pure,
              Except.pure]

theorem isNewer_iff {candidate reference : Path} :
    fs.isNewer candidate reference = true ↔ ∃ e e', fs.lookup? candidate = some e ∧
      fs.lookup? reference = some e' ∧ e'.modified < e.modified := by
  unfold isNewer modified?
  cases fs.lookup? candidate <;> cases fs.lookup? reference <;> simp

/-- The file at a path, if there is one, is the same in both trees. -/
def KeepsFile (fs fs' : FileSystem) (p : Path) : Prop :=
  ∀ e, e.node ≠ .directory → (fs'.lookup? p = some e ↔ fs.lookup? p = some e)

theorem KeepsFile.refl (fs : FileSystem) (p : Path) : KeepsFile fs fs p := fun _ _ => Iff.rfl

theorem KeepsFile.trans {fs'' : FileSystem} {p : Path} (h : KeepsFile fs fs' p)
    (h' : KeepsFile fs' fs'' p) : KeepsFile fs fs'' p :=
  fun e he => (h' e he).trans (h e he)

end FileSystem

namespace CompiledUnit

/-- What is found at the path of a unit is a file. -/
theorem Placed.exists_content (h : unit.Placed fs dirs stem) (htree : fs.WellFormed) {e : Entry}
    (he : fs.lookup? unit.absolute = some e) : ∃ content, e.node = .file content := by
  obtain ⟨base, ⟨content, hcontent⟩, hlocate⟩ := h.exists_location htree
  cases hresolve : fs.resolve unit.absolute with
  | error error => simp [lookup?, hresolve] at he
  | ok l =>
      obtain rfl := hlocate _ _ (resolve_eq_ok_iff_locate.mp hresolve)
      simp only [lookup?, hresolve] at he
      rw [node?_of_some he] at hcontent
      exact ⟨content, Option.some.inj hcontent⟩

/-- An artifact that is not written is where it was, and is as it was. -/
theorem Placed.of_grown {touched : Location → Prop} (h : unit.Placed fs dirs stem)
    (hgrown : Grown touched fs fs') (htree : fs.WellFormed)
    (hnot : ∀ base : Location, ¬touched (base.descend (artifactNames dirs stem))) :
    unit.Placed fs' dirs stem ∧ fs'.lookup? unit.absolute = fs.lookup? unit.absolute := by
  obtain ⟨hnamed, root, base, hbase, ⟨content, hcontent⟩, habsolute⟩ := h
  have hne : artifactNames dirs stem ≠ [] := by simp [artifactNames]
  have hnode := htree.node?_of_descend hne (isSome_entry?_of_node? hcontent)
  refine ⟨⟨hnamed, root, base, ?_, ⟨content, hgrown.node?_kept (hnot base) hcontent⟩, habsolute⟩,
    ?_⟩
  · rw [hgrown.origin_eq]
    exact hgrown.leads hbase (hgrown.not_touched hnode)
  · rw [habsolute]
    exact hgrown.lookup?_descend htree hbase rfl hne ⟨content, hcontent⟩ (hnot base)

end CompiledUnit

namespace Cache

variable {cache : Cache} {written : List (List Name)}

/-- What counts is read from an entry that is newer than the artifact. -/
theorem get_eq_some_iff_isNewer {symbols : List Identity} :
    cache.get fs unit = some symbols ↔
      fs.isNewer (cache.entryPath unit) unit.absolute = true ∧
        ∃ content, fs.read (cache.entryPath unit) = .ok content ∧
          (Utf8.decode? content).map Lines.nonempty = some symbols := by
  unfold get
  dsimp only
  split
  next hnewer =>
    cases hread : fs.read (cache.entryPath unit) <;> simp [hnewer]
  next hnewer => simp [hnewer]

theorem get_eq_some_iff {symbols : List Identity} :
    cache.get fs unit = some symbols ↔
      ∃ entry artifact content text, fs.lookup? (cache.entryPath unit) = some entry ∧
        fs.lookup? unit.absolute = some artifact ∧ artifact.modified < entry.modified ∧
        entry.access ≠ .locked ∧ entry.node = .file content ∧
        Utf8.decode? content = some text ∧ symbols = Lines.nonempty text := by
  rw [get_eq_some_iff_isNewer]
  constructor
  · rintro ⟨hnewer, content, hread, htext⟩
    obtain ⟨entry, artifact, hentry, hartifact, hlt⟩ := isNewer_iff.mp hnewer
    obtain ⟨entry', hentry', haccess, hnode⟩ := read_eq_ok_iff.mp hread
    obtain rfl := Option.some.inj (hentry.symm.trans hentry')
    obtain ⟨text, hdecode, rfl⟩ := Option.map_eq_some_iff.mp htext
    exact ⟨entry, artifact, content, text, hentry, hartifact, hlt, haccess, hnode, hdecode, rfl⟩
  · rintro ⟨entry, artifact, content, text, hentry, hartifact, hlt, haccess, hnode, htext, rfl⟩
    exact ⟨isNewer_iff.mpr ⟨entry, artifact, hentry, hartifact, hlt⟩, content,
      read_eq_ok_iff.mpr ⟨entry, hentry, haccess, hnode⟩, by rw [htext, Option.map_some]⟩

theorem get_of_not_newer (h : fs.isNewer (cache.entryPath unit) unit.absolute = false) :
    cache.get fs unit = none := by
  simp [get, h]

theorem get_congr (hentry : KeepsFile fs fs' (cache.entryPath unit))
    (hartifact : fs'.lookup? unit.absolute = fs.lookup? unit.absolute) :
    cache.get fs' unit = cache.get fs unit := by
  ext symbols
  rw [get_eq_some_iff, get_eq_some_iff, hartifact]
  refine exists_congr fun entry => exists_congr fun artifact => exists_congr fun content =>
    exists_congr fun text => ?_
  by_cases hfile : entry.node = .file content
  · rw [hentry entry (by simp [hfile])]
  · simp [hfile]

/-! ## What is left alone -/

theorem exists_of_lookup? (hsound : cache.Sound fs) {names : List Name} (hne : names ≠ [])
    (hnames : ∀ name ∈ names, IsName name) {e : Entry} (he : e.node ≠ .directory)
    (h : fs.lookup? (cache.root.descend names) = some e) :
    ∃ base, cache.At fs base ∧ fs.entry? (base.descend names) = some e ∧
      fs.HasFile (base.descend names) := by
  unfold lookup? at h
  split at h
  next l hresolve =>
    obtain ⟨base, hbase, rfl⟩ := exists_at_of_resolve hsound hnames hresolve
    refine ⟨base, hbase, h, ?_⟩
    obtain ⟨content, hcontent⟩ := isPlain_of_not_link
      (by rw [node?_of_some h]; exact fun hsame => he (Option.some.inj hsame))
      (hsound.noLink base hbase names hne) _ (node?_of_some h)
    exact ⟨content, by rw [node?_of_some h, hcontent]⟩
  next => cases h

/-- A file at other names below the cache directory is left alone. -/
theorem Advances.keepsFile (h : cache.Advances written fs fs') (hsound : cache.Sound fs)
    {names : List Name} (hne : names ≠ []) (hnames : ∀ name ∈ names, IsName name)
    (hother : names ∉ written) : KeepsFile fs fs' (cache.root.descend names) := by
  have hnot : ∀ base, cache.At fs' base → ¬cache.Holds fs' written (base.descend names) := by
    intro base hbase hheld
    obtain ⟨names', hnames', heq⟩ := (Holds.of_at hbase).mp hheld
    rw [Location.descend_inj.mp heq] at hother
    exact hother hnames'
  by_cases hfile : ∃ base, cache.At fs base ∧ fs.HasFile (base.descend names)
  · obtain ⟨base, hbase, content, hcontent⟩ := hfile
    have hnode := hsound.tree.node?_of_descend hne (isSome_entry?_of_node? hcontent)
    intro e _
    rw [h.grown.lookup?_descend hsound.tree hbase cache.withoutDots_way hne ⟨content, hcontent⟩
      (hnot base (h.at_kept hbase hnode).1)]
  · intro e he
    constructor
    · intro hlookup
      obtain ⟨base, hbase, hentry, -⟩ :=
        exists_of_lookup? (h.sound hsound) hne hnames he hlookup
      have hold := (h.grown.entry?_iff (hnot base hbase) he).mp hentry
      have hnode := hsound.tree.node?_of_descend hne (by rw [hold]; rfl)
      rcases h.follows base hbase with hat | hnone
      · obtain ⟨content, hcontent⟩ := isPlain_of_not_link
          (by rw [node?_of_some hold]; exact fun hsame => he (Option.some.inj hsame))
          (hsound.noLink base hat names hne) _ (node?_of_some hold)
        exact absurd ⟨base, hat, content, by rw [node?_of_some hold, hcontent]⟩ hfile
      · rw [node?, hnone] at hnode
        cases hnode
    · intro hlookup
      obtain ⟨base, hbase, -, hhasFile⟩ := exists_of_lookup? hsound hne hnames he hlookup
      exact absurd ⟨base, hbase, hhasFile⟩ hfile

theorem getLast?_of_mem {name : Name} (h : name ∈ [temporaryName stem, entryName stem]) :
    name.getLast? = some 0x70 := by
  rcases List.mem_cons.mp h with rfl | hentry
  · rw [temporaryName, List.getLast?_append]
    rfl
  · rw [List.mem_singleton.mp hentry, entryName, List.getLast?_append]
    rfl

/-- No file of the cache is called like an artifact. -/
theorem child_ne_artifactNames {base d : Location} {name stem' : Name}
    (h : name ∈ [temporaryName stem', entryName stem']) :
    d.child name ≠ base.descend (CompiledUnit.artifactNames dirs stem) := by
  rw [CompiledUnit.artifactNames, Location.descend_concat]
  intro heq
  obtain ⟨-, rfl⟩ := Location.child_inj.mp heq
  have hlast := getLast?_of_mem h
  have hend : (dot :: Utf8.encode Identity.compiledExtension).getLast? = some 0x73 := by decide
  rw [List.getLast?_append, hend, Option.some_or] at hlast
  cases hlast

theorem ne_descend_artifactNames {base base' : Location} {names dirs' : List Name} {stem' : Name}
    (h : names ∈ [temporaryNames dirs' stem', entryNames dirs' stem']) :
    base.descend (CompiledUnit.artifactNames dirs stem) ≠ base'.descend names := by
  obtain ⟨name, hname, rfl⟩ : ∃ name ∈ [temporaryName stem', entryName stem'],
      names = dirs' ++ [name] := by
    simpa [temporaryNames, entryNames] using h
  rw [Location.descend_concat]
  exact (child_ne_artifactNames hname).symm

/-- An artifact is left alone, for no file of the cache has a name like it. -/
theorem Advances.placed (h : cache.Advances written fs fs') (htree : fs.WellFormed)
    {dirs' : List Name} {stem' : Name}
    (hwritten : written ⊆ [temporaryNames dirs' stem', entryNames dirs' stem'])
    (hunit : unit.Placed fs dirs stem) :
    unit.Placed fs' dirs stem ∧ fs'.lookup? unit.absolute = fs.lookup? unit.absolute := by
  refine hunit.of_grown h.grown htree fun base => ?_
  rintro ⟨base', names, -, hnames, heq⟩
  exact ne_descend_artifactNames (hwritten hnames) heq

end Cache
end Freshness
