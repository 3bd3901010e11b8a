import Mathlib
import Freshness.Proofs.Cache.Building
import Freshness.Proofs.ClassFile.References
import Freshness.Proofs.FileSystem.Replacing

/-!
# References that are read back

An entry is a file of lines, and nothing in a reference is written in a special way.  So what is read
from an entry that has been written are the lines that the references have become, and these are
the references unless a newline, or a carriage return at the end, comes out of a class file.
-/

namespace Freshness

namespace FileSystem

theorem exists_route (bytes : Bytes) : ∃ init last, ∀ suffix : Bytes, suffix ≠ [] →
    Path.separator ∉ suffix → route ⟨bytes ++ suffix⟩ = init ++ [last ++ suffix] := by
  obtain ⟨init, last, hpieces⟩ := Path.exists_pieces bytes
  refine ⟨init.filter (· ≠ []), last, fun suffix hne hsuffix => ?_⟩
  rw [route_eq, hpieces suffix hsuffix, List.filter_append,
    List.filter_cons_of_pos (by simp [hne]), List.filter_nil]

end FileSystem

namespace Cache

open FileSystem

variable {cache : Cache} {fs fs' : FileSystem} {unit : CompiledUnit} {symbols : List Identity}

theorem isAbsolute_append {p : Path} (h : p.bytes ≠ []) (suffix : String) :
    (p.append suffix).isAbsolute = p.isAbsolute := by
  rw [Path.append, Path.isAbsolute, Path.isAbsolute, List.head?_append_of_ne_nil _ h]

/-- An entry is written next to its place. -/
theorem exists_neighbours (cache : Cache) (unit : CompiledUnit) : ∃ init last last',
    Neighbours (cache.temporaryPath unit) (cache.entryPath unit) init last last' := by
  obtain ⟨init, last, hroute⟩ := exists_route (cache.root.join unit.relative).bytes
  have hleft : route (cache.temporaryPath unit) =
      init ++ [last ++ (Utf8.encode ".dep" ++ Utf8.encode ".tmp")] := by
    rw [← hroute _ (by decide) (by decide), ← List.append_assoc]
    rfl
  have hright : route (cache.entryPath unit) = init ++ [last ++ Utf8.encode ".dep"] :=
    hroute _ (by decide) (by decide)
  have hshort : (Utf8.encode ".dep").length = 4 ∧ (Utf8.encode ".tmp").length = 4 := by decide
  have hlong : ∀ (suffix : Bytes) (name : Name), name.length < 4 →
      last ++ (Utf8.encode ".dep" ++ suffix) ≠ name := by
    rintro suffix _ hname rfl
    simp only [List.length_append, hshort] at hname
    omega
  have hentry : (cache.entryPath unit).bytes ≠ [] :=
    List.append_ne_nil_of_right_ne_nil _ (by decide)
  refine ⟨init, _, _, isAbsolute_append hentry ".tmp", hleft, hright, ?_, ?_, ?_⟩
  · intro heq
    have hlength := congrArg List.length heq
    simp only [List.length_append, hshort] at hlength
    omega
  · exact ⟨hlong _ _ (by decide), by simpa using hlong [] [Path.dot] (by decide)⟩
  · exact ⟨hlong _ _ (by decide), by simpa using hlong [] [Path.dot, Path.dot] (by decide)⟩

/-- An entry that has been kept has come to its place in three steps. -/
theorem exists_of_put (h : cache.put fs unit symbols = (.ok (), fs')) :
    ∃ made written,
      fs.createDirectories ((cache.entryPath unit).parent?.getD ⟨[]⟩) = (.ok (), made) ∧
      made.write (cache.temporaryPath unit) (Utf8.encode (Lines.ofList symbols)) = .ok written ∧
      written.move (cache.temporaryPath unit) (cache.entryPath unit) = .ok fs' := by
  unfold put at h
  dsimp only at h
  split at h
  next => cases h
  next made hmade =>
    split at h
    next => cases h
    next written hwrite =>
      split at h
      next => cases h
      next moved hmove =>
        obtain ⟨-, rfl⟩ := Prod.mk.inj h
        exact ⟨made, written, hmade, hwrite, hmove⟩

/-- The entry that has been kept is the file of the symbols, wherever it is found. -/
theorem exists_lookup?_of_put (htree : fs.WellFormed)
    (hput : cache.put fs unit symbols = (.ok (), fs')) {e : Entry}
    (hentry : fs'.lookup? (cache.entryPath unit) = some e) :
    ∃ time, fs'.lookup? (cache.entryPath unit) =
      some ⟨.file (Utf8.encode (Lines.ofList symbols)), time, .free⟩ := by
  obtain ⟨made, written, hmade, hwrite, hmove⟩ := exists_of_put hput
  have hmadeTree := htree.createDirectories ((cache.entryPath unit).parent?.getD ⟨[]⟩)
  rw [hmade] at hmadeTree
  obtain ⟨init, last, last', hneighbours⟩ := exists_neighbours cache unit
  unfold lookup? at hentry ⊢
  cases hresolve : fs'.resolve (cache.entryPath unit) with
  | ok x => exact hasFreeFile_of_resolve hmadeTree hneighbours hwrite hmove hresolve
  | error e =>
      rw [hresolve] at hentry
      cases hentry

/-- Whatever symbols have been kept, what is read are the lines that they have become. -/
theorem get_of_put (htree : fs.WellFormed) (hput : cache.put fs unit symbols = (.ok (), fs'))
    (hnewer : fs'.isNewer (cache.entryPath unit) unit.absolute = true) :
    cache.get fs' unit = some (Lines.nonempty (Lines.ofList symbols)) := by
  obtain ⟨e, artifact, hentry, -, -⟩ := isNewer_iff.mp hnewer
  obtain ⟨time, hlookup⟩ := exists_lookup?_of_put htree hput hentry
  have hread : fs'.read (cache.entryPath unit) = .ok (Utf8.encode (Lines.ofList symbols)) :=
    read_eq_ok_iff.mpr ⟨_, hlookup, by simp, rfl⟩
  refine get_eq_some_iff_isNewer.mpr ⟨hnewer, _, hread, ?_⟩
  rw [Utf8.decode?_encode, Option.map_some]

end Cache

namespace DependencyGraph

open Gathering

variable {cache : Cache} {fs : FileSystem}

/-- A second building from the cache comes to the graph of the first. -/
theorem exists_build_build {ε : Type} {extract : Extractor ε} {roots : List Path}
    (hsound : cache.Sound fs)
    (hfound : ∀ unit ∈ (Scan.compiledUnits fs roots).values, ∃ symbols,
      HasReferences fs extract unit symbols ∧ ∀ symbol ∈ symbols, Lines.Fits symbol)
    (htrust : cache.Trustworthy fs extract (Scan.compiledUnits fs roots).values) :
    ∃ graph g g',
      build fs (Scan.compiledUnits fs roots) (some cache) extract = (.ok graph, g) ∧
      build g.fileSystem (Scan.compiledUnits fs roots) (some cache) extract = (.ok graph, g') ∧
      g'.consulted.reverse = (cache.missed g.fileSystem
        (Scan.compiledUnits fs roots).values).map CompiledUnit.id := by
  obtain ⟨references, graph, -, g, -, hbuild, hgathers⟩ :=
    exists_build_gathers hsound hfound htrust
  have hdistinct : (Scan.compiledUnits fs roots).values.Pairwise (·.id ≠ ·.id) :=
    (keyed_ofUnits _).pairwise_ne
  obtain ⟨g', hadd', hgathers'⟩ := gathers_addUnits { fileSystem := g.fileSystem }
    (hgathers.spares.sound cache rfl) hdistinct hgathers.serves
  refine ⟨graph, g, g', hbuild, ?_, ?_⟩
  · have hforward : g'.forward = g.forward := hgathers'.forward.trans hgathers.forward.symm
    rw [build, hadd', eq_ofReferences_of_build hbuild, ← hforward]
  · rw [hgathers'.consulted, List.append_nil, List.reverse_reverse]

/-- What a class file refers to is read back from the cache just when every reference can stand on a
line, and then a second building from the cache comes to the graph of the first. -/
theorem references_survive :
    (∀ {cache : Cache} {fs fs' : FileSystem} {unit : CompiledUnit} {bytes : Bytes}
      {symbols : List Identity}, fs.WellFormed → ClassFile.references bytes = .ok symbols →
      cache.put fs unit symbols = (.ok (), fs') →
      fs'.isNewer (cache.entryPath unit) unit.absolute = true →
        (cache.get fs' unit = some symbols ↔ ∀ symbol ∈ symbols, Lines.Unbroken symbol)) ∧
    ∀ {cache : Cache} {fs : FileSystem} {roots : List Path}, cache.Sound fs →
      (∀ unit ∈ (Scan.compiledUnits fs roots).values, ∃ symbols,
        HasReferences fs ClassFile.references unit symbols ∧
          ∀ symbol ∈ symbols, Lines.Unbroken symbol) →
      cache.Trustworthy fs ClassFile.references (Scan.compiledUnits fs roots).values →
        ∃ graph g g',
          build fs (Scan.compiledUnits fs roots) (some cache) ClassFile.references =
            (.ok graph, g) ∧
          build g.fileSystem (Scan.compiledUnits fs roots) (some cache) ClassFile.references =
            (.ok graph, g') ∧
          g'.consulted.reverse = (cache.missed g.fileSystem
            (Scan.compiledUnits fs roots).values).map CompiledUnit.id := by
  constructor
  · intro cache fs fs' unit bytes symbols htree hextract hput hnewer
    rw [Cache.get_of_put htree hput hnewer, Option.some.injEq]
    constructor
    · intro h symbol hsymbol
      exact (Lines.fits_of_nonempty_ofList h symbol hsymbol).unbroken
    · intro h
      exact Lines.nonempty_ofList (ClassFile.fits_of_references hextract h)
  · intro cache fs roots hsound hfound htrust
    refine exists_build_build hsound (fun unit hunit => ?_) htrust
    obtain ⟨symbols, ⟨bytes, hread, hextract⟩, hlines⟩ := hfound unit hunit
    exact ⟨symbols, ⟨bytes, hread, hextract⟩, ClassFile.fits_of_references hextract hlines⟩

/-! ## A class that mentions another -/

/-- The class `A` alone. -/
def loneTree (artifact : Bytes) : FileSystem :=
  (FileSystem.empty 4).addFile (Path.ofString "/o/A.class") 1 artifact

theorem wellFormed_loneTree (artifact : Bytes) : (loneTree artifact).WellFormed :=
  (FileSystem.WellFormed.empty 4).addFile _ _ _

theorem read_loneTree (artifact : Bytes) :
    (loneTree artifact).read classA.absolute = .ok artifact := by
  cbv

/-- The tree once the class has its entry. -/
def loneLeft (artifact : Bytes) (symbols : List Identity) : FileSystem :=
  (usedCache.put (loneTree artifact) classA symbols).2

theorem put_loneTree (artifact : Bytes) (symbols : List Identity) :
    usedCache.put (loneTree artifact) classA symbols = (.ok (), loneLeft artifact symbols) := by
  refine Prod.ext ?_ rfl
  rw [Cache.put]
  dsimp only
  generalize Utf8.encode (Lines.ofList symbols) = content
  cbv

theorem isNewer_loneLeft (artifact : Bytes) (symbols : List Identity) :
    (loneLeft artifact symbols).isNewer (usedCache.entryPath classA) classA.absolute = true := by
  rw [loneLeft, Cache.put]
  generalize Utf8.encode (Lines.ofList symbols) = content
  cbv

theorem sound_loneTree (artifact : Bytes) : usedCache.Sound (loneTree artifact) := by
  have hnodes : (loneTree artifact).entries.toList.map (fun row => row.2.node) =
      [.directory, .directory, .file artifact] := by
    cbv
  exact sound_usedCache (wellFormed_loneTree artifact) (by rw [hnodes]; simp)

theorem values_loneTree (artifact : Bytes) :
    (Scan.compiledUnits (loneTree artifact) classRoots).values = [classA] := by
  cbv

theorem trustworthy_loneTree (artifact : Bytes) {ε : Type} (extract : Extractor ε) :
    usedCache.Trustworthy (loneTree artifact) extract
      (Scan.compiledUnits (loneTree artifact) classRoots).values := by
  have hmiss : usedCache.get (loneTree artifact) classA = none :=
    Cache.get_of_not_newer (by cbv)
  rw [values_loneTree]
  exact List.forall_mem_singleton.mpr (by simp [hmiss])

/-- The class file of `A`, which mentions the class of the given name. -/
def mention (text : String) (hshort : (Utf8.encode text).length < 256 ^ 2) : Bytes :=
  (ClassFile.referring ⟨Utf8.encode text, hshort⟩).encode

theorem references_mention {text : String} (hshort : (Utf8.encode text).length < 256 ^ 2)
    (hname : ClassFile.classEntryType? (Utf8.decodeLossy (Utf8.encode text)) = some text)
    (hplain : ClassFile.toSymbol text = text) (hother : text ≠ "A") :
    ClassFile.references (mention text hshort) = .ok [text] := by
  have hreferences := ClassFile.references_referring ⟨Utf8.encode text, hshort⟩ hname
    (by rwa [hplain])
  rwa [hplain] at hreferences

def mentionB : Bytes := mention "B" (by decide)

theorem references_survive_line :
    usedCache.put (loneTree mentionB) classA ["B"] = (.ok (), loneLeft mentionB ["B"]) ∧
    usedCache.get (loneLeft mentionB ["B"]) classA = some ["B"] ∧
    ∃ graph g g',
      build (loneTree mentionB) (Scan.compiledUnits (loneTree mentionB) classRoots)
        (some usedCache) ClassFile.references = (.ok graph, g) ∧
      build g.fileSystem (Scan.compiledUnits (loneTree mentionB) classRoots)
        (some usedCache) ClassFile.references = (.ok graph, g') ∧
      g'.consulted.reverse = (usedCache.missed g.fileSystem
        (Scan.compiledUnits (loneTree mentionB) classRoots).values).map CompiledUnit.id := by
  have hextract : ClassFile.references mentionB = .ok ["B"] :=
    references_mention _ (by decide) (by decide) (by decide)
  have hline : ∀ symbol ∈ ["B"], Lines.Unbroken symbol :=
    List.forall_mem_singleton.mpr ⟨by decide, by decide⟩
  refine ⟨put_loneTree _ _, ?_, ?_⟩
  · exact (references_survive.1 (wellFormed_loneTree mentionB) hextract
      (put_loneTree _ _) (isNewer_loneLeft _ _)).mpr hline
  · refine references_survive.2 (sound_loneTree mentionB) ?_ (trustworthy_loneTree _ _)
    rw [values_loneTree]
    exact List.forall_mem_singleton.mpr
      ⟨["B"], ⟨mentionB, read_loneTree mentionB, hextract⟩, hline⟩

/-- A reference with a newline in it comes back as two. -/
theorem not_references_survive :
    ¬∀ (cache : Cache) (fs fs' : FileSystem) (unit : CompiledUnit) (bytes : Bytes)
      (symbols : List Identity), fs.WellFormed → fs.read unit.absolute = .ok bytes →
      ClassFile.references bytes = .ok symbols → cache.put fs unit symbols = (.ok (), fs') →
      fs'.isNewer (cache.entryPath unit) unit.absolute = true →
        cache.get fs' unit = some symbols := by
  intro h
  have hextract : ClassFile.references (mention "B\nC" (by decide)) = .ok ["B\nC"] :=
    references_mention _ (by decide) (by decide) (by decide)
  have hread := h usedCache _ _ classA _ _ (wellFormed_loneTree _) (read_loneTree _) hextract
    (put_loneTree _ _) (isNewer_loneLeft _ _)
  have hlines : Lines.nonempty (Lines.ofList ["B\nC"]) = ["B", "C"] := by cbv
  rw [Cache.get_of_put (wellFormed_loneTree _) (put_loneTree _ _) (isNewer_loneLeft _ _), hlines]
    at hread
  simp at hread

end DependencyGraph
end Freshness
