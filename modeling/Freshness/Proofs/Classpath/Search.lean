import Freshness.Proofs.Classpath
import Freshness.Proofs.Text.Spelling

/-!
# Looking a library up afresh

The answers of a classpath are those of a search that keeps nothing: it goes through the paths in
their order, reads every archive that it comes to, and stops at the first path that supplies the
class file.  Which archives earlier lookups have read makes no difference, and neither does the
classpath before.
-/

namespace Freshness

namespace ClasspathEntry

/-- The library that the place at `p` supplies for the class file `name`, looked up afresh. -/
def supplier? (fs : FileSystem) (name : String) (p : Path) : Option Path :=
  if fs.isDirectory p then
    if fs.isFile (p.join (Path.ofString name)) then some (p.join (Path.ofString name)) else none
  else if p.extension?.any isArchiveExtension && fs.isFile p then
    if (archiveNames fs p).contains name then some p else none
  else none

/-- A path supplies a library for the class file `name`: a directory the file at its place, and an
archive that lists the name itself. -/
inductive Supplies (fs : FileSystem) (name : String) : Path → Path → Prop
  | directory {p : Path} (hdirectory : fs.isDirectory p = true)
      (hfile : fs.isFile (p.join (Path.ofString name)) = true) :
      Supplies fs name p (p.join (Path.ofString name))
  | archive {p : Path} {extension : String} {content : Bytes} {names : List String}
      (hfile : fs.isFile p = true) (hextension : p.extension? = some (Utf8.encode extension))
      (hletters : extension.toLower = "jar" ∨ extension.toLower = "zip")
      (hread : fs.read p = .ok content) (hnames : Archive.names? content = some names)
      (hmem : name ∈ names) : Supplies fs name p p

/-- The extensions of archives are `jar` and `zip`, in any case. -/
theorem isArchiveExtension_iff {name : Name} : isArchiveExtension name = true ↔
    ∃ extension, name = Utf8.encode extension ∧
      (extension.toLower = "jar" ∨ extension.toLower = "zip") := by
  rw [isArchiveExtension]
  cases hdecode : Utf8.decode? name with
  | none =>
      refine ⟨nofun, ?_⟩
      rintro ⟨extension, hname, -⟩
      rw [Utf8.decode?_eq_some_iff.mpr hname] at hdecode
      cases hdecode
  | some text =>
      obtain rfl := Utf8.decode?_eq_some_iff.mp hdecode
      constructor
      · intro h
        exact ⟨text, rfl, of_decide_eq_true h⟩
      · rintro ⟨extension, hname, hletters⟩
        obtain rfl := Utf8.encode_injective hname
        exact decide_eq_true hletters

theorem any_isArchiveExtension_iff {p : Path} :
    p.extension?.any isArchiveExtension = true ↔
      ∃ extension, p.extension? = some (Utf8.encode extension) ∧
        (extension.toLower = "jar" ∨ extension.toLower = "zip") := by
  cases p.extension? with
  | none => simp
  | some last => simp only [Option.any_some, isArchiveExtension_iff, Option.some.injEq]

theorem mem_archiveNames {fs : FileSystem} {p : Path} {name : String} :
    name ∈ archiveNames fs p ↔ ∃ content names, fs.read p = .ok content ∧
      Archive.names? content = some names ∧ name ∈ names := by
  rw [archiveNames]
  cases hread : fs.read p with
  | error e => simp
  | ok content =>
      cases hnames : Archive.names? content with
      | none => simp [hnames]
      | some names => simp [hnames]

theorem supplier?_eq_some_iff {fs : FileSystem} {name : String} {p library : Path} :
    supplier? fs name p = some library ↔ Supplies fs name p library := by
  constructor
  · intro h
    rw [supplier?] at h
    split at h
    next hdirectory =>
      split at h
      next hfile =>
        cases h
        exact .directory hdirectory hfile
      next => cases h
    next =>
      split at h
      next harchive =>
        split at h
        next hmem =>
          cases h
          obtain ⟨hextension, hfile⟩ := Bool.and_eq_true_iff.mp harchive
          obtain ⟨extension, hlast, hletters⟩ := any_isArchiveExtension_iff.mp hextension
          obtain ⟨content, names, hread, hnames, hname⟩ :=
            mem_archiveNames.mp (List.contains_iff_mem.mp hmem)
          exact .archive hfile hlast hletters hread hnames hname
        next => cases h
      next => cases h
  · rintro (⟨hdirectory, hfile⟩ | ⟨hfile, hextension, hletters, hread, hnames, hmem⟩)
    · rw [supplier?, if_pos hdirectory, if_pos hfile]
    · have harchive : (p.extension?.any isArchiveExtension && fs.isFile p) = true := by
        rw [hfile, Bool.and_true]
        exact any_isArchiveExtension_iff.mpr ⟨_, hextension, hletters⟩
      have hcontains : (archiveNames fs p).contains name = true :=
        List.contains_iff_mem.mpr (mem_archiveNames.mpr ⟨_, _, hread, hnames, hmem⟩)
      rw [supplier?, isDirectory_eq_false_of_isFile hfile, if_neg Bool.false_ne_true,
        if_pos harchive, if_pos hcontains]

/-- The place that a path stands for answers as the path does. -/
theorem bind_lookup_ofPath? (fs : FileSystem) (name : String) (p : Path) :
    ((ofPath? fs p).bind fun entry => (entry.lookup fs name).1) = supplier? fs name p := by
  rw [ofPath?, supplier?]
  split
  · rfl
  · split
    · rfl
    · rfl

end ClasspathEntry

namespace Classpath

/-- The library that the first path supplies which supplies any, looked up afresh. -/
def search (fs : FileSystem) (paths : List Path) (symbol : Identity) : Option Path :=
  paths.findSome? (ClasspathEntry.supplier? fs (entryName symbol))

/-- What the first path supplies which supplies anything, or nothing if none does. -/
inductive FirstMatch (fs : FileSystem) (paths : List Path) (symbol : Identity) :
    Option Path → Prop
  | found {before after : List Path} {p library : Path} (hpaths : paths = before ++ p :: after)
      (hsupplies : ClasspathEntry.Supplies fs (entryName symbol) p library)
      (hbefore : ∀ q ∈ before, ∀ other,
        ¬ ClasspathEntry.Supplies fs (entryName symbol) q other) :
      FirstMatch fs paths symbol (some library)
  | missing (hpaths : ∀ q ∈ paths, ∀ other,
        ¬ ClasspathEntry.Supplies fs (entryName symbol) q other) :
      FirstMatch fs paths symbol none

/-- A classpath is set, and symbols are looked up in it while the files stay as they are. -/
structure Session where
  fs : FileSystem
  paths : List Path
  symbols : List Identity

/-- The answers in one session; what the classpath was before is replaced. -/
def Session.run (session : Session) : StateM Classpath (List (Option Path)) := do
  set (ofPaths session.fs session.paths)
  session.symbols.mapM (resolve session.fs)

theorem supplier?_eq_none_iff {fs : FileSystem} {name : String} {p : Path} :
    ClasspathEntry.supplier? fs name p = none ↔
      ∀ library, ¬ ClasspathEntry.Supplies fs name p library := by
  rw [Option.eq_none_iff_forall_ne_some]
  simp only [ne_eq, ClasspathEntry.supplier?_eq_some_iff]

theorem search_eq_iff {fs : FileSystem} {paths : List Path} {symbol : Identity}
    {found : Option Path} : search fs paths symbol = found ↔ FirstMatch fs paths symbol found := by
  have hnone : ∀ paths : List Path,
      (∀ q ∈ paths, ClasspathEntry.supplier? fs (entryName symbol) q = none) ↔
        ∀ q ∈ paths, ∀ other, ¬ ClasspathEntry.Supplies fs (entryName symbol) q other := by
    intro paths
    simp only [supplier?_eq_none_iff]
  rw [search]
  constructor
  · rintro rfl
    cases hfound : paths.findSome? (ClasspathEntry.supplier? fs (entryName symbol)) with
    | none => exact .missing ((hnone paths).mp (List.findSome?_eq_none_iff.mp hfound))
    | some library =>
        obtain ⟨before, p, after, hpaths, hp, hbefore⟩ := List.findSome?_eq_some_iff.mp hfound
        exact .found hpaths (ClasspathEntry.supplier?_eq_some_iff.mp hp)
          ((hnone before).mp hbefore)
  · rintro (⟨hpaths, hp, hbefore⟩ | hpaths)
    · exact List.findSome?_eq_some_iff.mpr
        ⟨_, _, _, hpaths, ClasspathEntry.supplier?_eq_some_iff.mpr hp, (hnone _).mpr hbefore⟩
    · exact List.findSome?_eq_none_iff.mpr ((hnone paths).mpr hpaths)

theorem findSome?_filterMap {α β γ : Type} (f : α → Option β) (g : β → Option γ)
    (items : List α) : (items.filterMap f).findSome? g = items.findSome? fun a => (f a).bind g := by
  induction items with
  | nil => rfl
  | cons a rest ih =>
      rw [List.filterMap_cons, List.findSome?_cons]
      cases f a with
      | none => exact ih
      | some b =>
          rw [List.findSome?_cons, Option.bind_some, ih]

/-- A classpath that has read nothing yet answers as the search does. -/
theorem answer_ofPaths (fs : FileSystem) (paths : List Path) (symbol : Identity) :
    answer fs (ofPaths fs paths) symbol = search fs paths symbol := by
  calc answer fs (ofPaths fs paths) symbol
      = (paths.filterMap (ClasspathEntry.ofPath? fs)).findSome?
          fun entry => (entry.lookup fs (entryName symbol)).1 :=
        fst_lookupFirst fs (entryName symbol) _
    _ = paths.findSome? fun p =>
          (ClasspathEntry.ofPath? fs p).bind fun entry =>
            (entry.lookup fs (entryName symbol)).1 := findSome?_filterMap _ _ paths
    _ = search fs paths symbol := by
        simp only [ClasspathEntry.bind_lookup_ofPath?]
        rfl

theorem mapM_state {τ α β : Type} {f : α → StateM τ β} {g : α → β} {valid : τ → Prop}
    (h : ∀ a s, valid s → (f a s).1 = g a ∧ valid (f a s).2)
    (items : List α) {s : τ} (hs : valid s) :
    (items.mapM f s).1 = items.map g ∧ valid (items.mapM f s).2 := by
  induction items generalizing s with
  | nil => exact ⟨rfl, hs⟩
  | cons a rest ih =>
      obtain ⟨hvalue, hvalid⟩ := h a s hs
      obtain ⟨hvalues, hvalids⟩ := ih hvalid
      rw [List.mapM_cons, List.map_cons, ← hvalue, ← hvalues]
      exact ⟨rfl, hvalids⟩

/-- In one session every symbol is answered as the search answers it, whatever was looked up
before it and whatever the classpath was before. -/
theorem Session.fst_run (session : Session) (classpath : Classpath) :
    (session.run classpath).1 = session.symbols.map (search session.fs session.paths) := by
  have hanswers := (mapM_state (gives_resolve session.fs (ofPaths session.fs session.paths))
    session.symbols rfl).1
  calc (session.run classpath).1
      = (session.symbols.mapM (resolve session.fs) (ofPaths session.fs session.paths)).1 := rfl
    _ = session.symbols.map (answer session.fs (ofPaths session.fs session.paths)) := hanswers
    _ = session.symbols.map (search session.fs session.paths) :=
        List.map_congr_left fun symbol _ => answer_ofPaths session.fs session.paths symbol

/-- One classpath after the other answers every symbol with what the first of its own paths
supplies that supplies anything. -/
theorem run_sessions_eq_search (sessions : List Session) (classpath : Classpath) :
    (sessions.mapM Session.run classpath).1 =
        sessions.map (fun session => session.symbols.map (search session.fs session.paths)) ∧
      ∀ fs paths symbol found,
        search fs paths symbol = found ↔ FirstMatch fs paths symbol found := by
  constructor
  · have hsession : ∀ (session : Session) (state : Classpath), True →
        (session.run state).1 = session.symbols.map (search session.fs session.paths) ∧ True :=
      fun session state _ => ⟨session.fst_run state, trivial⟩
    exact (mapM_state hsession sessions trivial).1
  · intro fs paths symbol found
    exact search_eq_iff

end Classpath
end Freshness
