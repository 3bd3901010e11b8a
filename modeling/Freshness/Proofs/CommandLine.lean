import Freshness.CommandLine.Program
import Freshness.FileSystem.Arrangement
import Freshness.Proofs.FileSystem.Absolute
import Freshness.Proofs.Path.Ancestors
import Freshness.Proofs.Settings
import Mathlib

/-!
# The settings of a project

A project is a directory with a configuration file, as it is written up to its last component.  A
run belongs to it if it is started in the directory or below, and no configuration file is nearer,
or if its arguments name the file.  Where exactly it is started makes no difference to its settings
then, unless its arguments hold paths.  These are seen from the working directory, and configured
ones from the project.
-/

namespace Freshness

namespace Configuration

variable {fs fs' : FileSystem}

theorem isName_fileName : IsName fileName := by
  constructor <;> decide

theorem load_of_entries (h : fs'.entries = fs.entries) {p : Path} (hp : p.isAbsolute = true) :
    load fs' p = load fs p := by
  rw [load, load, FileSystem.read_of_entries h hp]

theorem load_eq_of_components {p q : Path} (hp : fs.isFile p = true) (hq : fs.isFile q = true)
    (h : p.components = q.components) : load fs p = load fs q := by
  rw [load, load, FileSystem.read_eq_of_components hp hq h]

/-- The file in the first directory that has one is what is found. -/
theorem find?_of_ancestors {start dir : Path} {before after : List Path}
    (hancestors : start.ancestors = before ++ dir :: after)
    (hbefore : ∀ p ∈ before, fs.isFile (p.child fileName) = false)
    (hfile : fs.isFile (dir.child fileName) = true) :
    find? fs start = some (dir.child fileName) := by
  rw [find?_eq_find?_candidates, candidates, hancestors, List.map_append, List.map_cons,
    List.find?_eq_some_iff_append]
  refine ⟨hfile, before.map (·.child fileName), after.map (·.child fileName), rfl, ?_⟩
  intro p hp
  obtain ⟨q, hq, rfl⟩ := List.mem_map.mp hp
  simp [hbefore q hq]

end Configuration

namespace Settings

variable {fs fs' : FileSystem}

theorem checkSourceRoots_of_entries (h : fs'.entries = fs.entries) {roots : List Path}
    (hroots : ∀ p ∈ roots, p.isAbsolute = true) :
    checkSourceRoots fs' roots = checkSourceRoots fs roots := by
  have hfind : roots.find? (!fs'.isDirectory ·) = roots.find? (!fs.isDirectory ·) := by
    rw [← List.head?_filter, ← List.head?_filter]
    congr 1
    refine List.filter_congr fun p hp => ?_
    rw [FileSystem.isDirectory_of_entries h (hroots p hp)]
  rw [checkSourceRoots, checkSourceRoots, hfind]

theorem checkCacheRoot_of_entries (h : fs'.entries = fs.entries) {root? : Option Path}
    (hroot : ∀ p, root? = some p → p.isAbsolute = true) :
    checkCacheRoot fs' root? = checkCacheRoot fs root? := by
  cases root? with
  | none => rfl
  | some root =>
      have habsolute := hroot root rfl
      rw [checkCacheRoot, checkCacheRoot, FileSystem.pathExists_of_entries h habsolute,
        FileSystem.isDirectory_of_entries h habsolute]

/-- Settings of which no path depends on the working directory are the same in all of them. -/
theorem resolve_of_entries (h : fs'.entries = fs.entries) {c : Configuration} {o : Overrides}
    {base : Path} (hroots : o.sourceRoots = []) (hcache : o.cacheRoot = none)
    (hbase : base.isAbsolute = true) : resolve fs' c o base = resolve fs c o base := by
  have hcheckRoots : checkSourceRoots fs' (merge c o base).sourceRoots =
      checkSourceRoots fs (merge c o base).sourceRoots := by
    refine checkSourceRoots_of_entries h fun p hp => ?_
    simp only [merge, hroots, orElse, List.isEmpty_nil, if_true] at hp
    obtain ⟨inner, -, rfl⟩ := List.mem_map.mp hp
    exact Path.isAbsolute_join hbase inner
  have hcheckCache : checkCacheRoot fs' (merge c o base).cacheRoot =
      checkCacheRoot fs (merge c o base).cacheRoot := by
    refine checkCacheRoot_of_entries h fun p hp => ?_
    simp only [merge, hcache, Option.none_or] at hp
    obtain ⟨inner, -, rfl⟩ := Option.map_eq_some_iff.mp hp
    exact Path.isAbsolute_join hbase inner
  rw [resolve, resolve, check, check, hcheckRoots, hcheckCache]

end Settings

namespace CommandLine

open Freshness.Configuration (fileName)

variable {fs fs' : FileSystem} {project cwd cwd' : Path} {g g' : Given}

/-- A run in the directory `cwd` with the given arguments has its configuration from the file in
the directory `project`. -/
inductive Configures (fs : FileSystem) (project cwd : Path) (g : Given) : Prop
  /-- The file is named, by an absolute path. -/
  | named {dir : Path} (hconfig : g.config = some (dir.child fileName))
      (habsolute : dir.isAbsolute = true) (hdir : dir.trimEnd = project)
      (hfile : fs.isFile (dir.child fileName) = true) : Configures fs project cwd g
  /-- No file is named, and the one in the project is the nearest. -/
  | nearest {before after : List Path} {dir : Path} (hconfig : g.config = none)
      (habsolute : cwd.isAbsolute = true) (hancestors : cwd.ancestors = before ++ dir :: after)
      (hbefore : ∀ p ∈ before, fs.isFile (p.child fileName) = false)
      (hdir : dir.trimEnd = project) (hfile : fs.isFile (dir.child fileName) = true) :
      Configures fs project cwd g

/-- The arguments hold no paths but that of a configuration file. -/
structure Pathless (g : Given) : Prop where
  srcdir : g.srcdir = []
  destdir : g.destdir = []
  cache : g.cache = none
  classpath : g.classpath = []

/-- The arguments ask for the same depth of invalidation, and for the same report of the graph. -/
structure SameSwitches (g g' : Given) : Prop where
  closure : .closure ∈ g'.flags ↔ .closure ∈ g.flags
  dump : .dump ∈ g'.flags ↔ .dump ∈ g.flags

/-- Where the paths of settings come from: the arguments, as seen from the working directory, or
else the configuration, as seen from the project. -/
structure Effective (project cwd : Path) (c : Configuration) (g : Given) (s : Settings) : Prop where
  sourceRoots : Settings.Layered project (g.srcdir.map cwd.join) c.sourceRoots s.sourceRoots
  outputRoots : Settings.Layered project (g.destdir.map cwd.join) c.outputRoots s.outputRoots ∨
    g.destdir = [] ∧ c.outputRoots = [] ∧ s.outputRoots = s.sourceRoots
  cacheRoot : Settings.Layered project (g.cache.map cwd.join).toList c.cacheRoot.toList
    s.cacheRoot.toList
  classpath : Settings.Layered project (g.classpath.map cwd.join) c.classpath s.classpath

theorem effective_of_merged {c : Configuration} {s : Settings}
    (h : Settings.Merged c (overrides cwd g) project s) : Effective project cwd c g s := by
  refine ⟨h.sourceRoots, ?_, h.cacheRoot, h.classpath⟩
  by_cases hgiven : (overrides cwd g).outputRoots ≠ [] ∨ c.outputRoots ≠ []
  · exact Or.inl (h.outputRoots hgiven)
  · obtain ⟨hflags, hconfigured⟩ := not_or.mp hgiven
    have hnil := not_not.mp hflags
    exact Or.inr ⟨List.map_eq_nil_iff.mp hnil, not_not.mp hconfigured,
      h.outputRoots_default hnil (not_not.mp hconfigured)⟩

theorem overrides_eq (h : Pathless g) (h' : Pathless g') (hswitches : SameSwitches g g') :
    overrides cwd' g' = overrides cwd g := by
  simp [overrides, h.srcdir, h.destdir, h.cache, h.classpath, h'.srcdir, h'.destdir, h'.cache,
    h'.classpath, hswitches.closure, hswitches.dump]

theorem components_child {dir : Path} (h : dir.isAbsolute = true) :
    (dir.child fileName).components = dir.components ++ [.normal fileName] := by
  have hne : dir.bytes ≠ [] := by
    intro hnil
    simp [Path.isAbsolute, hnil] at h
  exact Path.components_descend hne (List.cons_ne_nil fileName [])
    (List.forall_mem_singleton.mpr Configuration.isName_fileName)

/-- The file a run is configured with is the one in the project, and the project is where configured
paths are seen from. -/
theorem Configures.exists_file (h : Configures fs project cwd g) :
    ∃ dir : Path, dir.isAbsolute = true ∧ dir.trimEnd = project ∧
      fs.isFile (dir.child fileName) = true ∧
      configuration fs cwd g.config =
        (Configuration.load fs (dir.child fileName)).map fun c => (c, project) := by
  have hloaded : ∀ dir : Path, dir.trimEnd = project →
      (g.config.map cwd.join).or (Configuration.find? fs cwd) = some (dir.child fileName) →
      configuration fs cwd g.config =
        (Configuration.load fs (dir.child fileName)).map fun c => (c, project) := by
    intro dir hdir hpath
    rw [configuration, hpath]
    simp only [Path.parent?_child dir Configuration.isName_fileName, Option.getD_some, hdir]
    cases Configuration.load fs (dir.child fileName) <;> rfl
  cases h with
  | @named dir hconfig habsolute hdir hfile =>
      have hjoin : cwd.join (dir.child fileName) = dir.child fileName :=
        Path.join_of_isAbsolute
          ((Path.isAbsolute_child dir Configuration.isName_fileName).trans habsolute)
      refine ⟨dir, habsolute, hdir, hfile, hloaded dir hdir ?_⟩
      rw [hconfig, Option.map_some, hjoin, Option.some_or]
  | @nearest before after dir hconfig habsolute hancestors hbefore hdir hfile =>
      have hmem : dir ∈ cwd.ancestors := by simp [hancestors]
      refine ⟨dir, Path.isAbsolute_of_mem_ancestors hmem habsolute, hdir, hfile,
        hloaded dir hdir ?_⟩
      rw [hconfig, Option.map_none, Option.none_or,
        Configuration.find?_of_ancestors hancestors hbefore hfile]

/-- Two files of one project are one file, whose content is the same in every working directory. -/
theorem load_eq_of_trimEnd (hentries : fs'.entries = fs.entries) {dir dir' : Path}
    (habsolute : dir.isAbsolute = true) (habsolute' : dir'.isAbsolute = true)
    (hdir : dir'.trimEnd = dir.trimEnd) (hfile : fs.isFile (dir.child fileName) = true)
    (hfile' : fs'.isFile (dir'.child fileName) = true) :
    Configuration.load fs' (dir'.child fileName) = Configuration.load fs (dir.child fileName) := by
  have hchild : (dir'.child fileName).isAbsolute = true :=
    (Path.isAbsolute_child dir' Configuration.isName_fileName).trans habsolute'
  have hcomponents : (dir'.child fileName).components = (dir.child fileName).components := by
    rw [components_child habsolute, components_child habsolute', ← Path.components_trimEnd dir',
      hdir, Path.components_trimEnd]
  rw [FileSystem.isFile_of_entries hentries hchild] at hfile'
  rw [Configuration.load_of_entries hentries hchild,
    Configuration.load_eq_of_components hfile' hfile hcomponents]

theorem settings_of_configuration {loaded : Except ConfigError Configuration}
    (h : configuration fs cwd g.config = loaded.map fun c => (c, project)) :
    settings fs cwd g =
      loaded.bind fun c => Settings.resolve fs c (overrides cwd g) project := by
  rw [settings, h]
  cases loaded <;> rfl

/-- Without paths among the arguments, all runs of a project have the same settings. -/
theorem settings_eq_of_configures (hentries : fs'.entries = fs.entries)
    (h : Configures fs project cwd g) (h' : Configures fs' project cwd' g') (hpaths : Pathless g)
    (hpaths' : Pathless g') (hswitches : SameSwitches g g') :
    settings fs' cwd' g' = settings fs cwd g := by
  obtain ⟨dir, habsolute, hdir, hfile, hconfiguration⟩ := h.exists_file
  obtain ⟨dir', habsolute', hdir', hfile', hconfiguration'⟩ := h'.exists_file
  have hproject : project.isAbsolute = true := by
    rw [← hdir, Path.isAbsolute_trimEnd, habsolute]
  rw [settings_of_configuration hconfiguration, settings_of_configuration hconfiguration',
    load_eq_of_trimEnd hentries habsolute habsolute' (hdir'.trans hdir.symm) hfile hfile',
    overrides_eq hpaths hpaths' hswitches]
  congr 1
  funext c
  exact Settings.resolve_of_entries hentries (by simp [overrides, hpaths.srcdir])
    (by simp [overrides, hpaths.cache]) hproject

/-- What a run of a project has for settings: the values of the configuration with those of the
arguments before them, if they pass the check. -/
theorem exists_effective_of_configures (h : Configures fs project cwd g) :
    ∃ file : Path, file.parent? = some project ∧ file.fileName? = some fileName ∧
      fs.isFile file = true ∧
      (∀ e, Configuration.load fs file = .error e → settings fs cwd g = .error e) ∧
      ∀ c, Configuration.load fs file = .ok c →
        ∃ s, Effective project cwd c g s ∧ settings fs cwd g = (s.check fs).map fun _ => s := by
  obtain ⟨dir, habsolute, hdir, hfile, hconfiguration⟩ := h.exists_file
  have hsettings := settings_of_configuration hconfiguration
  refine ⟨dir.child fileName, ?_, ?_, hfile, ?_, ?_⟩
  · rw [Path.parent?_child dir Configuration.isName_fileName, hdir]
  · rw [Path.fileName?, components_child habsolute, List.getLast?_concat]
  · intro e hload
    rw [hsettings, hload]
    rfl
  · intro c hload
    refine ⟨Settings.merge c (overrides cwd g) project,
      effective_of_merged (Settings.merged_iff.mpr rfl), ?_⟩
    rw [hsettings, hload]
    simp only [Except.bind, Settings.resolve]
    cases (Settings.merge c (overrides cwd g) project).check fs <;> rfl

/-- The working directory makes no difference to the runs of one project whose arguments hold no
paths.  What the paths of their settings are seen from is never mixed. -/
theorem settings_of_configures (h : Configures fs project cwd g) :
    (∀ (fs' : FileSystem) (cwd' : Path) (g' : Given), fs'.entries = fs.entries →
      Configures fs' project cwd' g' → Pathless g → Pathless g' → SameSwitches g g' →
      settings fs' cwd' g' = settings fs cwd g) ∧
    ∃ file : Path, file.parent? = some project ∧ file.fileName? = some fileName ∧
      fs.isFile file = true ∧
      (∀ e, Configuration.load fs file = .error e → settings fs cwd g = .error e) ∧
      ∀ c, Configuration.load fs file = .ok c →
        ∃ s, Effective project cwd c g s ∧ settings fs cwd g = (s.check fs).map fun _ => s := by
  constructor
  · intro fs' cwd' g' hentries h' hpaths hpaths' hswitches
    exact settings_eq_of_configures hentries h h' hpaths hpaths' hswitches
  · exact exists_effective_of_configures h

/-- A project with one source file. -/
def projectTree : FileSystem :=
  ((FileSystem.empty 2).addFile (Path.ofString "/p/classprune.toml") 1
    (Utf8.encode "source_roots = ['s']")).addFile (Path.ofString "/p/s/A.java") 1 []

/-- The same tree in the directory of the source file. -/
def projectTreeInside : FileSystem :=
  { projectTree with workingDirectory := .ofNames [Utf8.encode "p", Utf8.encode "s"] }

/-- The arguments that name the configuration file of the project. -/
def namingFile : Given where
  config := some (Path.ofString "/p/classprune.toml")

theorem settings_of_configures_project :
    Configures projectTree (Path.ofString "/p") (Path.ofString "/") namingFile ∧
    projectTreeInside.entries = projectTree.entries ∧
    Configures projectTreeInside (Path.ofString "/p") (Path.ofString "/p/s") {} ∧
    Pathless namingFile ∧ Pathless {} ∧ SameSwitches namingFile {} ∧
    settings projectTreeInside (Path.ofString "/p/s") {} =
      settings projectTree (Path.ofString "/") namingFile := by
  have hfile : projectTree.isFile ((Path.ofString "/p").child fileName) = true := by cbv
  have hnone : projectTree.isFile ((Path.ofString "/p/s").child fileName) = false := by cbv
  have hchild : (Path.ofString "/p").child fileName = Path.ofString "/p/classprune.toml" := by
    decide
  have hproject : (Path.ofString "/p").trimEnd = Path.ofString "/p" := by decide
  have hnamed : Configures projectTree (Path.ofString "/p") (Path.ofString "/") namingFile :=
    .named (congrArg some hchild.symm) (by decide) hproject hfile
  have hentries : projectTreeInside.entries = projectTree.entries := rfl
  have hancestors : (Path.ofString "/p/s").ancestors =
      [Path.ofString "/p/s"] ++ Path.ofString "/p" :: [Path.ofString "/"] := by cbv
  have hbefore : ∀ p ∈ [Path.ofString "/p/s"],
      projectTreeInside.isFile (p.child fileName) = false := by
    rw [List.forall_mem_singleton, FileSystem.isFile_of_entries hentries (by decide), hnone]
  have hinside : projectTreeInside.isFile ((Path.ofString "/p").child fileName) = true := by
    rw [FileSystem.isFile_of_entries hentries (by decide), hfile]
  have hnearest : Configures projectTreeInside (Path.ofString "/p") (Path.ofString "/p/s") {} :=
    .nearest rfl (by decide) hancestors hbefore hproject hinside
  have hpathless : Pathless namingFile := ⟨rfl, rfl, rfl, rfl⟩
  have hpathless' : Pathless {} := ⟨rfl, rfl, rfl, rfl⟩
  have hswitches : SameSwitches namingFile {} := ⟨Iff.rfl, Iff.rfl⟩
  refine ⟨hnamed, hentries, hnearest, hpathless, hpathless', hswitches, ?_⟩
  exact (settings_of_configures hnamed).1 _ _ _ hentries hnearest hpathless hpathless' hswitches

end CommandLine
end Freshness
