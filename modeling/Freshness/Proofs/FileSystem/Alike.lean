import Freshness.Proofs.Cache.Reading
import Freshness.Proofs.Classpath

/-!
# Trees that look alike

Whoever reads a tree sees the nodes, their times and what is locked.  Nobody sees what may be
written, which deletions are refused or what time it is.  So in two trees that differ in the latter
only, every path leads to the same place, and the same files are found, listed and read.  A
classpath answers the same.
-/

namespace Freshness

namespace FileSystem

/-- What a reader sees of an entry. -/
def Entry.seen (e : Entry) : Node × Timestamp × Bool :=
  (e.node, e.modified, e.access = .locked)

/-- Readers see the same in both trees. -/
structure Alike (fs fs' : FileSystem) : Prop where
  workingDirectory : fs'.workingDirectory = fs.workingDirectory
  seen : ∀ l, (fs'.entry? l).map Entry.seen = (fs.entry? l).map Entry.seen

namespace Alike

variable {fs fs' : FileSystem} {l : Location} {p : Path}

theorem symm (h : Alike fs fs') : Alike fs' fs :=
  ⟨h.workingDirectory.symm, fun l => (h.seen l).symm⟩

theorem exists_entry (h : Alike fs fs') {e : Entry} (he : fs.entry? l = some e) :
    ∃ e', fs'.entry? l = some e' ∧ Entry.seen e' = Entry.seen e := by
  have hseen := h.seen l
  rw [he, Option.map_some] at hseen
  exact Option.map_eq_some_iff.mp hseen

theorem node?_eq (h : Alike fs fs') (l : Location) : fs'.node? l = fs.node? l := by
  have hnode := congrArg (Option.map Prod.fst) (h.seen l)
  rw [Option.map_map, Option.map_map] at hnode
  exact hnode

theorem hasFile_iff (h : Alike fs fs') : fs'.HasFile l ↔ fs.HasFile l := by
  rw [HasFile, HasFile, h.node?_eq]

theorem wellFormed (h : Alike fs fs') (htree : fs.WellFormed) : fs'.WellFormed :=
  htree.of_node?_eq h.node?_eq

/-! ## Where paths lead -/

theorem enter_of_enter (h : Alike fs fs') (henter : fs.enter l = .ok ()) :
    fs'.enter l = .ok () := by
  obtain ⟨modified, access, hentry⟩ := entry?_of_enter henter
  obtain ⟨⟨node', modified', access'⟩, hentry', hseen⟩ := h.exists_entry hentry
  rw [enter, hentry] at henter
  rw [enter, hentry']
  obtain ⟨rfl, rfl, hlocked⟩ : node' = .directory ∧ modified' = modified ∧
      (decide (access' = Access.locked) = decide (access = Access.locked)) := by
    simpa [Entry.seen] using hseen
  cases access <;> cases access' <;> simp_all

theorem preserves (h : Alike fs fs') : Preserves (fun _ => False) fs fs' where
  workingDirectory := h.workingDirectory
  enter := h.enter_of_enter
  node _ hnode := (h.node?_eq _).trans hnode
  plain := False.elim

theorem origin_eq (h : Alike fs fs') (p : Path) : fs'.origin p = fs.origin p :=
  h.preserves.origin_eq p

theorem resolve_iff (h : Alike fs fs') : fs'.resolve p = .ok l ↔ fs.resolve p = .ok l :=
  ⟨fun hl => h.symm.preserves.resolve hl id, fun hl => h.preserves.resolve hl id⟩

/-! ## What is at a path -/

theorem seen_lookup? (h : Alike fs fs') (p : Path) :
    (fs'.lookup? p).map Entry.seen = (fs.lookup? p).map Entry.seen := by
  unfold lookup?
  cases hresolve : fs.resolve p with
  | ok l =>
      rw [h.resolve_iff.mpr hresolve]
      exact h.seen l
  | error e =>
      cases hresolve' : fs'.resolve p with
      | ok l =>
          rw [h.resolve_iff.mp hresolve'] at hresolve
          cases hresolve
      | error e' => rfl

theorem isFile_eq (h : Alike fs fs') (p : Path) : fs'.isFile p = fs.isFile p := by
  rw [Bool.eq_iff_iff, isFile_iff, isFile_iff]
  simp only [h.resolve_iff, h.hasFile_iff]

theorem isDirectory_eq (h : Alike fs fs') (p : Path) : fs'.isDirectory p = fs.isDirectory p := by
  rw [Bool.eq_iff_iff, isDirectory_iff, isDirectory_iff]
  simp only [h.resolve_iff, h.node?_eq]

theorem modified?_eq (h : Alike fs fs') (p : Path) : fs'.modified? p = fs.modified? p := by
  have hmodified := congrArg (Option.map fun seen => seen.2.1) (h.seen_lookup? p)
  rw [Option.map_map, Option.map_map] at hmodified
  exact hmodified

theorem isNewer_eq (h : Alike fs fs') (p q : Path) : fs'.isNewer p q = fs.isNewer p q := by
  rw [isNewer, isNewer, h.modified?_eq, h.modified?_eq]

theorem read_of_read (h : Alike fs fs') {content : Bytes} (hread : fs.read p = .ok content) :
    fs'.read p = .ok content := by
  obtain ⟨e, he, haccess, hnode⟩ := read_eq_ok_iff.mp hread
  have hseen := h.seen_lookup? p
  rw [he, Option.map_some] at hseen
  obtain ⟨e', he', hsame⟩ := Option.map_eq_some_iff.mp hseen
  obtain ⟨hnode', -, hlocked⟩ : e'.node = e.node ∧ e'.modified = e.modified ∧
      decide (e'.access = .locked) = decide (e.access = .locked) := by
    simpa [Entry.seen] using hsame
  exact read_eq_ok_iff.mpr ⟨e', he', by simp_all, hnode'.trans hnode⟩

theorem read_iff (h : Alike fs fs') {content : Bytes} :
    fs'.read p = .ok content ↔ fs.read p = .ok content :=
  ⟨h.symm.read_of_read, h.read_of_read⟩

/-! ## What is listed -/

theorem mem_unlisted (h : Alike fs fs') (d : Location) :
    d ∈ fs'.unlisted ↔ d ∈ fs.unlisted := by
  have hmem : ∀ {fs fs' : FileSystem}, Alike fs fs' → d ∈ fs.unlisted → d ∈ fs'.unlisted := by
    intro fs fs' h hd
    obtain ⟨modified, hentry⟩ := FileSystem.mem_unlisted.mp hd
    obtain ⟨⟨node', modified', access'⟩, hentry', hseen⟩ := h.exists_entry hentry
    obtain ⟨rfl, rfl, rfl⟩ : node' = .directory ∧ modified' = modified ∧ access' = .locked := by
      simpa [Entry.seen] using hseen
    exact FileSystem.mem_unlisted.mpr ⟨modified', hentry'⟩
  exact ⟨hmem h.symm, hmem h⟩

theorem fileNames_eq (h : Alike fs fs') (base : Location) :
    fs'.fileNames base = fs.fileNames base := by
  refine eq_of_mem_iff (pairwise_fileNames fs' base) (pairwise_fileNames fs base) fun names => ?_
  rw [mem_fileNames, mem_fileNames, h.hasFile_iff, cutsOff_congr h.mem_unlisted]

theorem filesBelow_eq (h : Alike fs fs') (root : Path) :
    fs'.filesBelow root = fs.filesBelow root := by
  cases hresolve : fs.resolve root with
  | ok base =>
      rw [filesBelow_of_ok hresolve, filesBelow_of_ok (h.resolve_iff.mpr hresolve),
        h.fileNames_eq]
  | error e =>
      cases hresolve' : fs'.resolve root with
      | ok base =>
          rw [h.resolve_iff.mp hresolve'] at hresolve
          cases hresolve
      | error e' => rw [filesBelow, filesBelow, hresolve, hresolve']

theorem compiledUnits_eq (h : Alike fs fs') (roots : List Path) :
    Scan.compiledUnits fs' roots = Scan.compiledUnits fs roots := by
  have hbelow : Scan.unitsBelow fs' = Scan.unitsBelow fs := by
    funext root
    rw [Scan.unitsBelow, Scan.unitsBelow, h.filesBelow_eq]
  rw [Scan.compiledUnits, Scan.compiledUnits, hbelow]

theorem sourceUnits_eq (h : Alike fs fs') (roots : List Path) :
    Scan.sourceUnits fs' roots = Scan.sourceUnits fs roots := by
  have hbelow : Scan.sourcesBelow fs' = Scan.sourcesBelow fs := by
    funext root
    rw [Scan.sourcesBelow, Scan.sourcesBelow, h.filesBelow_eq]
  rw [Scan.sourceUnits, Scan.sourceUnits, hbelow]

theorem oneToOne (h : Alike fs fs') {roots : List Path} (hunique : Scan.OneToOne fs roots) :
    Scan.OneToOne fs' roots := by
  have hcarries : ∀ {l id}, Scan.Carries fs' roots l id → Scan.Carries fs roots l id := by
    rintro l id ⟨root, hroot, base, names, unit, hbase, hnames, hunit⟩
    rw [h.fileNames_eq] at hnames
    exact ⟨root, hroot, base, names, unit, h.resolve_iff.mp hbase, hnames, hunit⟩
  exact ⟨fun hl hm => hunique.file (hcarries hl) (hcarries hm),
    fun hid hid' => hunique.identity (hcarries hid) (hcarries hid')⟩

/-! ## What a classpath answers -/

theorem archiveNames_eq (h : Alike fs fs') (p : Path) :
    ClasspathEntry.archiveNames fs' p = ClasspathEntry.archiveNames fs p := by
  unfold ClasspathEntry.archiveNames
  cases hread : fs.read p with
  | ok content => rw [h.read_of_read hread]
  | error e =>
      cases hread' : fs'.read p with
      | ok content =>
          rw [h.read_iff.mp hread'] at hread
          cases hread
      | error e' => rfl

theorem ofPaths_eq (h : Alike fs fs') (paths : List Path) :
    Classpath.ofPaths fs' paths = Classpath.ofPaths fs paths := by
  have hplace : ClasspathEntry.ofPath? fs' = ClasspathEntry.ofPath? fs := by
    funext p
    rw [ClasspathEntry.ofPath?, ClasspathEntry.ofPath?, h.isDirectory_eq, h.isFile_eq]
  rw [Classpath.ofPaths, Classpath.ofPaths, hplace]

theorem answer_eq (h : Alike fs fs') (classpath : Classpath) :
    Classpath.answer fs' classpath = Classpath.answer fs classpath := by
  have hlookup : ∀ name, ClasspathEntry.lookup fs' name = ClasspathEntry.lookup fs name := by
    intro name
    funext entry
    cases entry with
    | directory p => rw [ClasspathEntry.lookup, ClasspathEntry.lookup, h.isFile_eq]
    | archive p names =>
        rw [ClasspathEntry.lookup, ClasspathEntry.lookup, h.archiveNames_eq]
  funext symbol
  simp only [Classpath.answer, Classpath.resolve, Classpath.fst_lookupFirst, hlookup]

end Alike
end FileSystem
end Freshness
