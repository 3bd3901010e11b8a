import Mathlib
import Freshness.FileSystem.Arrangement
import Freshness.Proofs.Classpath
import Freshness.Proofs.ClassFile.References
import Freshness.Proofs.Path.Join

/-!
# Libraries within the classpath

A library is an archive of the classpath, or a file strictly below one of its directories: the dots
of a symbol become separators, so none is left for a `..` on the way.  This holds for every symbol
that does not begin with a dot or a slash.  The class file of one that does is named from the root
directory, and such a name leads out of the classpath.
-/

namespace Freshness

namespace Classpath

/-- A symbol whose class file is named from the root directory. -/
def FromRoot (symbol : Identity) : Prop :=
  symbol.toList.head? = some '.' ∨ symbol.toList.head? = some '/'

theorem isAbsolute_entryName {symbol : Identity} :
    (Path.ofString (entryName symbol)).isAbsolute = true ↔ FromRoot symbol := by
  rw [Path.isAbsolute_ofString, FromRoot, entryName, String.toList_append, String.toList_ofList]
  cases symbol.toList with
  | nil => decide
  | cons c rest =>
      by_cases hdot : c = '.'
      · simp [hdot]
      · simp [hdot]

/-- The pieces of the name of a class file are names, but for the empty ones before the last: the
only dot is that of the extension. -/
theorem exists_pieces_entryName (symbol : Identity) :
    ∃ init last, Path.pieces (Path.ofString (entryName symbol)).bytes = init ++ [last] ∧
      (∀ piece ∈ init, piece = [] ∨ IsName piece) ∧ IsName last := by
  obtain ⟨letters, hletters⟩ : ∃ letters, letters =
      String.ofList (symbol.toList.map fun c => if c = '.' then '/' else c) := ⟨_, rfl⟩
  have hdot : Path.dot ∉ Utf8.encode letters := by
    refine Utf8.not_mem_encode (c := '.') (by decide) ?_
    rw [hletters, String.toList_ofList, List.mem_map]
    rintro ⟨c, -, hc⟩
    split at hc
    next => exact absurd hc (by decide)
    next hne => exact hne hc
  have hextension : Path.separator ∉ Utf8.encode ".class" := by decide
  obtain ⟨init, stem, hpieces⟩ := Path.exists_pieces (Utf8.encode letters)
  have hown := hpieces [] List.not_mem_nil
  rw [List.append_nil, List.append_nil] at hown
  have hseparator : ∀ piece ∈ init ++ [stem], Path.separator ∉ piece := by
    rw [← hown]
    exact fun piece hpiece => Path.separator_not_mem_of_mem_pieces hpiece
  refine ⟨init, stem ++ Utf8.encode ".class", ?_, ?_, ?_⟩
  · rw [Path.ofString, entryName, ← hletters, Utf8.encode_append]
    exact hpieces _ hextension
  · intro piece hpiece
    have hmem : piece ∈ init ++ [stem] := List.mem_append_left _ hpiece
    have hnone : Path.dot ∉ piece := fun hb => hdot (Path.mem_of_mem_pieces (hown ▸ hmem) hb)
    by_cases hnil : piece = []
    · exact Or.inl hnil
    · refine Or.inr ⟨hnil, ?_, ?_, hseparator piece hmem⟩
      · rintro rfl
        exact hnone List.mem_cons_self
      · rintro rfl
        exact hnone List.mem_cons_self
  · have hlength : (Utf8.encode ".class").length = 6 := by decide
    have hlong : ∀ short : Name, short.length < 6 → stem ++ Utf8.encode ".class" ≠ short := by
      rintro short hshort rfl
      rw [List.length_append, hlength] at hshort
      omega
    refine ⟨hlong _ (by decide), hlong _ (by decide), hlong _ (by decide), ?_⟩
    rw [List.mem_append, not_or]
    exact ⟨hseparator stem (by simp), hextension⟩

/-- A class file is strictly below the directory in which it is looked up, unless it is named from
the root directory. -/
theorem strictlyBelow_join (dir : Path) {symbol : Identity} (hsymbol : ¬ FromRoot symbol) :
    dir.StrictlyBelow (dir.join (Path.ofString (entryName symbol))) := by
  have hrelative : (Path.ofString (entryName symbol)).isAbsolute = false :=
    Bool.eq_false_iff.mpr (mt isAbsolute_entryName.mp hsymbol)
  obtain ⟨init, last, hpieces, hinit, hlast⟩ := exists_pieces_entryName symbol
  have hall : ∀ piece ∈ init ++ [last], piece = [] ∨ IsName piece :=
    List.forall_mem_append.mpr ⟨hinit, List.forall_mem_singleton.mpr (Or.inr hlast)⟩
  have hfirst : (Path.ofString (entryName symbol)).first ∈ init ++ [last] := by
    rw [← hpieces, ← Path.first_cons_body]
    exact List.mem_cons_self
  have hdot : (Path.ofString (entryName symbol)).first ≠ [Path.dot] := by
    rcases hall _ hfirst with hnil | hname
    · simp [hnil]
    · exact hname.ne_dot
  have hbytes : (Path.ofString (entryName symbol)).bytes ≠ [] := by
    intro hnil
    rw [hnil] at hpieces
    have hsingle : [] ++ [[]] = init ++ [last] := hpieces
    obtain ⟨-, hend⟩ := List.append_inj' hsingle rfl
    exact hlast.ne_nil (List.cons.inj hend).1.symm
  have hcomponents := Path.components_join dir hbytes hrelative hdot
  refine ⟨(init ++ [last]).filter (· ≠ []), ?_, ?_, ?_⟩
  · have hmem : last ∈ (init ++ [last]).filter (· ≠ []) := by simp [hlast.ne_nil]
    exact List.ne_nil_of_mem hmem
  · intro name hname
    obtain ⟨hmem, hne⟩ := List.mem_filter.mp hname
    exact (hall name hmem).resolve_left (of_decide_eq_true hne)
  · rw [hcomponents, hpieces, Path.filterMap_component?_filter hall]

/-- A library is an archive of the classpath, or it lies strictly below one of the directories. -/
def Covers (classpath : Classpath) (library : Path) : Prop :=
  (∃ names, ClasspathEntry.archive library names ∈ classpath.entries) ∨
    ∃ dir, ClasspathEntry.directory dir ∈ classpath.entries ∧ dir.StrictlyBelow library

/-- Where a library comes from. -/
theorem exists_entry_of_answer {fs : FileSystem} {classpath : Classpath} {symbol : Identity}
    {library : Path} (h : answer fs classpath symbol = some library) :
    (∃ names, ClasspathEntry.archive library names ∈ classpath.entries) ∨
      ∃ dir, ClasspathEntry.directory dir ∈ classpath.entries ∧
        library = dir.join (Path.ofString (entryName symbol)) := by
  obtain ⟨entry, hmem, hlookup⟩ := exists_mem_of_answer h
  cases entry with
  | directory dir =>
      simp only [ClasspathEntry.lookup, Option.ite_none_right_eq_some, Option.some_inj] at hlookup
      exact Or.inr ⟨dir, hmem, hlookup.2.symm⟩
  | archive p names =>
      simp only [ClasspathEntry.lookup, Option.ite_none_right_eq_some, Option.some_inj] at hlookup
      obtain ⟨-, rfl⟩ := hlookup
      exact Or.inl ⟨names, hmem⟩

/-- The library of a symbol is within the classpath, unless the class file is named from the root
directory; then it is an archive or the file with that name. -/
theorem covers_of_resolve {fs : FileSystem} {classpath : Classpath} {symbol : Identity}
    {library : Path} (h : (resolve fs symbol classpath).1 = some library) :
    (¬ FromRoot symbol → classpath.Covers library) ∧
      (FromRoot symbol → (∃ names, ClasspathEntry.archive library names ∈ classpath.entries) ∨
        library = Path.ofString (entryName symbol)) := by
  obtain harchive | ⟨dir, hdir, hlibrary⟩ := exists_entry_of_answer h
  · exact ⟨fun _ => Or.inl harchive, fun _ => Or.inl harchive⟩
  · rw [hlibrary]
    constructor
    · intro hsymbol
      exact Or.inr ⟨dir, hdir, strictlyBelow_join dir hsymbol⟩
    · intro hsymbol
      exact Or.inr (if_pos (Or.inl (isAbsolute_entryName.mpr hsymbol)))

/-! ## A directory and a file outside of it -/

/-- A class below the directory `/l`, and one beside it. -/
def outsideTree : FileSystem :=
  [("/l/p/B.class", 1, []), ("/x/B.class", 1, [])].foldl
    (fun fs (p, time, content) => fs.addFile (Path.ofString p) time content)
    (FileSystem.empty 3)

theorem covers_of_resolve_nested :
    ¬ FromRoot "p.B" ∧
    (resolve outsideTree "p.B" (ofPaths outsideTree [Path.ofString "/l"])).1 =
      some (Path.ofString "/l/p/B.class") ∧
    (ofPaths outsideTree [Path.ofString "/l"]).Covers (Path.ofString "/l/p/B.class") := by
  have hsymbol : ¬ FromRoot "p.B" := by
    rw [FromRoot]
    decide
  have hfound : (resolve outsideTree "p.B" (ofPaths outsideTree [Path.ofString "/l"])).1 =
      some (Path.ofString "/l/p/B.class") := by cbv
  exact ⟨hsymbol, hfound, (covers_of_resolve hfound).1 hsymbol⟩

/-- The bytes of a name that begins with a slash. -/
def outsideBytes : ClassFile.Counted 2 UInt8 := ⟨Utf8.encode "/x/B", by decide⟩

/-- A class file can refer to a class whose library is outside of the classpath. -/
theorem not_covers_of_resolve :
    ¬ ∀ bytes symbols, ClassFile.references bytes = .ok symbols → ∀ symbol ∈ symbols,
      ∀ fs paths library, (resolve fs symbol (ofPaths fs paths)).1 = some library →
        (ofPaths fs paths).Covers library := by
  intro h
  have hname : ClassFile.classEntryType? (Utf8.decodeLossy outsideBytes.items) = some "/x/B" := by
    decide
  have hfound : (resolve outsideTree (ClassFile.toSymbol "/x/B")
      (ofPaths outsideTree [Path.ofString "/l"])).1 = some (Path.ofString "/x/B.class") := by cbv
  have hentries : (ofPaths outsideTree [Path.ofString "/l"]).entries =
      [.directory (Path.ofString "/l")] := by cbv
  have hcovers := h _ _ (ClassFile.references_referring outsideBytes hname (by decide)) _
    List.mem_cons_self outsideTree [Path.ofString "/l"] _ hfound
  rw [Covers, hentries] at hcovers
  obtain ⟨names, hmem⟩ | ⟨dir, hmem, names, -, -, hcomponents⟩ := hcovers
  · cases List.mem_singleton.mp hmem
  · cases List.mem_singleton.mp hmem
    have hlibrary : (Path.ofString "/x/B.class").components =
        [.root, .normal (Utf8.encode "x"), .normal (Utf8.encode "B.class")] := by decide
    have hdir : (Path.ofString "/l").components = [.root, .normal (Utf8.encode "l")] := by decide
    rw [hlibrary, hdir] at hcomponents
    simp only [List.cons_append, List.cons.injEq, true_and, Component.normal.injEq,
      List.nil_append] at hcomponents
    exact absurd hcomponents.1 (by decide)

end Classpath
end Freshness
