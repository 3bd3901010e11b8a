import Freshness.Proofs.FileSystem.Walk
import Freshness.Proofs.InternalName
import Freshness.Proofs.Scan
import Freshness.Proofs.Text.Spelling

/-!
# What a scan comes to

A scan walks below one root after the other.  Its sightings are the files that it comes to and whose
names spell an identity; a file that it comes to from several roots is sighted several times.  Which
sightings there are, and which comes first, depends on the tree and the roots only.
-/

namespace Freshness

open FileSystem

namespace Identity

/-- Names spell the segments that they are the bytes of. -/
theorem segments?_map_normal {names : List Name} {segments : List String} :
    segments? (names.map .normal) = some segments ↔ names = segments.map Utf8.encode := by
  constructor
  · intro h
    induction names generalizing segments with
    | nil =>
        cases h
        rfl
    | cons name rest ih =>
        simp only [List.map_cons, segments?, Option.bind_eq_bind, Option.bind_eq_some_iff] at h
        obtain ⟨segment, hsegment, others, hothers, heq⟩ := h
        cases heq
        rw [ih hothers, Utf8.decode?_eq_some_iff.mp hsegment, List.map_cons]
  · rintro rfl
    rw [List.map_map]
    exact segments?_map_encode segments

end Identity

namespace Scan

/-- A file as a scan comes to it: from which of the roots, and by which directories and which stem
its path below the root spells an identity. -/
@[ext]
structure Sighting where
  position : Nat
  root : Path
  dirs : List String
  stem : String

namespace Sighting

variable (s : Sighting) (extension : String)

/-- The segments of the identity. -/
def segments : List String := s.dirs ++ [s.stem]

/-- The identity that the file carries. -/
def id : Identity := ".".intercalate s.segments

/-- The names that lead to the file from the root. -/
def names : List Name :=
  s.dirs.map Utf8.encode ++ [Utf8.encode s.stem ++ Path.dot :: Utf8.encode extension]

/-- The path under which the scan comes to the file. -/
def path : Path := s.root.descend (s.names extension)

/-- The path of the file below its root, without the extension. -/
def location : Path := Path.ofBody (s.segments.map Utf8.encode)

/-- The file as a compiled unit. -/
def unit : CompiledUnit := ⟨s.id, s.path Identity.compiledExtension, s.location⟩

/-- The file as a source. -/
def source : SourceUnit := ⟨s.id, s.path Identity.sourceExtension⟩

/-- A scan of the roots for files with the extension comes to this one. -/
structure IsSeen (fs : FileSystem) (roots : List Path) : Prop where
  root : roots[s.position]? = some s.root
  stem : IsName (Utf8.encode s.stem)
  reached : ∃ base, fs.Reaches s.root base (s.names extension)

/-- A scan comes to the file `s` before it comes to `t`: roots in their order, and below each one in
the order of the walk. -/
def Before (s t : Sighting) : Prop :=
  s.position < t.position ∨
    s.position = t.position ∧ ComesBefore (s.names extension) (t.names extension)

theorem names_ne_nil : s.names extension ≠ [] := by
  simp [names]

theorem Before.asymm {extension : String} {s t : Sighting} (h : s.Before extension t) :
    ¬ t.Before extension s := by
  rintro (hlt | ⟨heq, hbefore⟩)
  · rcases h with hlt' | ⟨heq', -⟩ <;> omega
  · rcases h with hlt' | ⟨-, hbefore'⟩
    · omega
    · exact hbefore'.asymm hbefore

theorem eq_of_names_eq {extension : String} {s t : Sighting} (hposition : t.position = s.position)
    (hroot : t.root = s.root) (hnames : t.names extension = s.names extension) : t = s := by
  obtain ⟨hdirs, hstem⟩ := List.append_inj' hnames rfl
  have hencoded := List.append_cancel_right (List.cons.inj hstem).1
  exact Sighting.ext hposition hroot (List.map_injective_iff.mpr Utf8.encode_injective hdirs)
    (Utf8.encode_injective hencoded)

/-! ## Reading a sighting off the names -/

/-- The sighting of the file that the names lead to, if they spell an identity. -/
def ofNames? (position : Nat) (root : Path) (names : List Name) : Option Sighting :=
  match Identity.ofRelative? (Path.ofBody names) extension with
  | none => none
  | some (location, _) =>
      match Identity.segments? location.components with
      | none => none
      | some segments => segments.getLast?.map (⟨position, root, segments.dropLast, ·⟩)

variable {extension}

/-- Names that spell an identity are those of a sighting. -/
theorem exists_of_ofRelative? {names : List Name} (hne : names ≠ [])
    (hnames : ∀ name ∈ names, IsName name) {location : Path} {id : Identity}
    (h : Identity.ofRelative? (Path.ofBody names) extension = some (location, id)) (position : Nat)
    (root : Path) :
    ∃ s, ofNames? extension position root names = some s ∧ s.position = position ∧ s.root = root ∧
      s.names extension = names ∧ IsName (Utf8.encode s.stem) ∧ s.location = location ∧ s.id = id := by
  obtain ⟨dirs, stem, rfl, hisName, hlocation, segments, hsegments, hid⟩ :=
    Identity.of_ofRelative? hne hnames h
  have hcomponents : location.components = (dirs ++ [stem]).map .normal := by
    rw [hlocation, Path.components_ofBody_of_isName (by simp) hisName]
  have hspelled := hsegments
  rw [hcomponents, Identity.segments?_map_normal] at hspelled
  have hsegmentsNe : segments ≠ [] := by
    rintro rfl
    simp at hspelled
  obtain ⟨init, last, rfl⟩ : ∃ init last, segments = init ++ [last] :=
    ⟨_, _, (List.dropLast_concat_getLast hsegmentsNe).symm⟩
  rw [List.map_append, List.map_singleton] at hspelled
  obtain ⟨hdirs, hstem⟩ := List.append_inj' hspelled rfl
  obtain rfl := hdirs
  obtain rfl := (List.cons.inj hstem).1
  refine ⟨⟨position, root, init, last⟩, ?_, rfl, rfl, rfl, ?_, ?_, hid.symm⟩
  · rw [ofNames?, h]
    dsimp only
    rw [hsegments]
    simp
  · exact hisName _ (by simp)
  · rw [hlocation, Sighting.location, segments]
    simp

theorem ofNames?_eq_some_iff (hextension : InternalName.IsExtension extension) {names : List Name}
    (hne : names ≠ []) (hnames : ∀ name ∈ names, IsName name) {position : Nat} {root : Path}
    {s : Sighting} :
    ofNames? extension position root names = some s ↔
      s.position = position ∧ s.root = root ∧ s.names extension = names ∧
        IsName (Utf8.encode s.stem) := by
  constructor
  · intro h
    cases hrelative : Identity.ofRelative? (Path.ofBody names) extension with
    | none =>
        rw [ofNames?, hrelative] at h
        cases h
    | some found =>
        obtain ⟨location, id⟩ := found
        obtain ⟨t, ht, hposition, hroot, htnames, hstem, -, -⟩ :=
          exists_of_ofRelative? hne hnames hrelative position root
        rw [h] at ht
        obtain rfl := Option.some.inj ht
        exact ⟨hposition, hroot, htnames, hstem⟩
  · rintro ⟨rfl, rfl, rfl, hstem⟩
    have hisName : ∀ name ∈ s.dirs.map Utf8.encode ++ [Utf8.encode s.stem], IsName name := by
      refine List.forall_mem_append.mpr ⟨?_, List.forall_mem_singleton.mpr hstem⟩
      exact (List.forall_mem_append.mp hnames).1
    have hsegments : s.segments.map Utf8.encode =
        s.dirs.map Utf8.encode ++ [Utf8.encode s.stem] := by
      rw [segments, List.map_append, List.map_singleton]
    have hrelative : Identity.ofRelative? (Path.ofBody (s.names extension)) extension =
        some (Path.ofBody (s.dirs.map Utf8.encode ++ [Utf8.encode s.stem]),
          ".".intercalate s.segments) :=
      Identity.ofRelative?_ofBody hsegments hisName hextension.no_dot hextension.no_separator
    obtain ⟨t, ht, hposition, hroot, htnames, -, -, -⟩ :=
      exists_of_ofRelative? hne hnames hrelative s.position s.root
    rw [ht, eq_of_names_eq hposition hroot htnames]

/-- What is made of a file below a root is made of its sighting. -/
theorem map_ofNames? {names : List Name} (hne : names ≠ []) (hnames : ∀ name ∈ names, IsName name)
    {root : Path} (hroot : root.bytes ≠ []) (position : Nat) {α : Type}
    (view : Path → Path × Identity → α) :
    (((root.descend names).relativeTo? root).bind fun below =>
        (Identity.ofRelative? below extension).map (view (root.descend names))) =
      (ofNames? extension position root names).map fun s =>
        view (s.path extension) (s.location, s.id) := by
  rw [Path.relativeTo?_descend hroot hne hnames, Option.bind_some]
  cases h : Identity.ofRelative? (Path.ofBody names) extension with
  | none =>
      rw [ofNames?, h]
      rfl
  | some found =>
      obtain ⟨location, id⟩ := found
      obtain ⟨s, hs, -, hsroot, hsnames, -, hlocation, hid⟩ :=
        exists_of_ofRelative? hne hnames h position root
      rw [hs, Option.map_some, Option.map_some, path, hsroot, hsnames, hlocation, hid]

/-! ## What a walk below a root sights -/

/-- The sighting of a file that a walk lists, unless it lies too deep. -/
def ofListed? (extension : String) (position : Nat) (root : Path) (names : List Name) :
    Option Sighting :=
  (writtenBelow? root names).bind fun _ => ofNames? extension position root names

theorem ofListed?_eq_some_iff {fs : FileSystem} (htree : fs.WellFormed)
    (hextension : InternalName.IsExtension extension) {base : Location} {names : List Name}
    (hnames : names ∈ fs.fileNames base) {position : Nat} {root : Path} {s : Sighting} :
    ofListed? extension position root names = some s ↔
      (root.descend names.dropLast).bytes.length ≤ maximalPathLength ∧
        s.position = position ∧ s.root = root ∧ s.names extension = names ∧
          IsName (Utf8.encode s.stem) := by
  obtain ⟨hne, hfile, -⟩ := mem_fileNames.mp hnames
  have hisName := htree.isName_of_hasFile hfile
  rw [ofListed?, writtenBelow?, ← ofNames?_eq_some_iff hextension hne hisName]
  split
  next hlong => simp [Nat.not_le_of_lt hlong]
  next hshort => simp [Nat.le_of_not_lt hshort]

end Sighting

/-- The sightings below one root, in the order of the walk. -/
def sightingsBelow (fs : FileSystem) (extension : String) (position : Nat) (root : Path) :
    List Sighting :=
  match fs.resolve root with
  | .error _ => []
  | .ok base => (fs.fileNames base).filterMap (Sighting.ofListed? extension position root)

/-- The sightings below the roots. -/
def sightings (fs : FileSystem) (roots : List Path) (extension : String) : List Sighting :=
  roots.zipIdx.flatMap fun (root, position) => sightingsBelow fs extension position root

section Sightings

variable {fs : FileSystem} {extension : String} {position : Nat} {root : Path}

theorem mem_sightingsBelow (htree : fs.WellFormed) (hextension : InternalName.IsExtension extension)
    {s : Sighting} :
    s ∈ sightingsBelow fs extension position root ↔
      s.position = position ∧ s.root = root ∧ IsName (Utf8.encode s.stem) ∧
        ∃ base, fs.Reaches root base (s.names extension) := by
  rw [sightingsBelow]
  cases hroot : fs.resolve root with
  | error e =>
      refine ⟨nofun, ?_⟩
      rintro ⟨-, -, -, base, hreaches⟩
      rw [hreaches.resolves] at hroot
      cases hroot
  | ok base =>
      dsimp only
      rw [List.mem_filterMap]
      constructor
      · rintro ⟨names, hnames, hs⟩
        obtain ⟨hshort, hposition, hsroot, rfl, hstem⟩ :=
          (Sighting.ofListed?_eq_some_iff htree hextension hnames).mp hs
        exact ⟨hposition, hsroot, hstem, base,
          ((mem_fileNames_iff_reaches htree hroot).mp ⟨hnames, hshort⟩).2⟩
      · rintro ⟨hposition, hsroot, hstem, base', hreaches⟩
        obtain rfl : base = base' := by
          have hsame := hreaches.resolves
          rw [hroot] at hsame
          exact Except.ok.inj hsame
        obtain ⟨hnames, hshort⟩ :=
          (mem_fileNames_iff_reaches htree hroot).mpr ⟨s.names_ne_nil extension, hreaches⟩
        exact ⟨s.names extension, hnames,
          (Sighting.ofListed?_eq_some_iff htree hextension hnames).mpr
            ⟨hshort, hposition, hsroot, rfl, hstem⟩⟩

/-- The sightings are the files that a scan comes to. -/
theorem mem_sightings (htree : fs.WellFormed) (hextension : InternalName.IsExtension extension)
    {roots : List Path} {s : Sighting} :
    s ∈ sightings fs roots extension ↔ s.IsSeen extension fs roots := by
  rw [sightings, List.mem_flatMap]
  constructor
  · rintro ⟨⟨root, position⟩, hmem, hs⟩
    obtain ⟨rfl, rfl, hstem, hreached⟩ := (mem_sightingsBelow htree hextension).mp hs
    exact ⟨List.mem_zipIdx_iff_getElem?.mp hmem, hstem, hreached⟩
  · rintro ⟨hroot, hstem, hreached⟩
    exact ⟨(s.root, s.position), List.mem_zipIdx_iff_getElem?.mpr hroot,
      (mem_sightingsBelow htree hextension).mpr ⟨rfl, rfl, hstem, hreached⟩⟩

/-- The sightings below a root are in the order of the walk. -/
theorem pairwise_sightingsBelow (htree : fs.WellFormed)
    (hextension : InternalName.IsExtension extension) :
    (sightingsBelow fs extension position root).Pairwise (Sighting.Before extension) := by
  rw [sightingsBelow]
  cases hroot : fs.resolve root with
  | error e => exact List.Pairwise.nil
  | ok base =>
      have hlisted : (fs.fileNames base).Pairwise fun names others =>
          ComesBefore names others ∧ names ∈ fs.fileNames base ∧ others ∈ fs.fileNames base :=
        (pairwise_comesBefore htree base).imp_of_mem fun hnames hothers hbefore =>
          ⟨hbefore, hnames, hothers⟩
      refine List.Pairwise.filterMap _ ?_ hlisted
      rintro names others ⟨hbefore, hnames, hothers⟩ s hs t ht
      obtain ⟨-, hsposition, -, rfl, -⟩ :=
        (Sighting.ofListed?_eq_some_iff htree hextension hnames).mp hs
      obtain ⟨-, htposition, -, rfl, -⟩ :=
        (Sighting.ofListed?_eq_some_iff htree hextension hothers).mp ht
      exact Or.inr ⟨hsposition.trans htposition.symm, hbefore⟩

/-- The sightings are in the order of the scan. -/
theorem pairwise_sightings (htree : fs.WellFormed) (hextension : InternalName.IsExtension extension)
    (roots : List Path) :
    (sightings fs roots extension).Pairwise (Sighting.Before extension) := by
  rw [sightings, List.pairwise_flatMap]
  constructor
  · rintro ⟨root, position⟩ -
    exact pairwise_sightingsBelow htree hextension
  · have hpositions : roots.zipIdx.Pairwise fun a b => a.2 < b.2 := by
      rw [← List.pairwise_map (f := Prod.snd) (R := (· < ·)), List.zipIdx_map_snd]
      exact List.pairwise_lt_range' 1
    refine hpositions.imp ?_
    rintro ⟨root, position⟩ ⟨root', position'⟩ hlt s hs t ht
    obtain ⟨rfl, -⟩ := (mem_sightingsBelow htree hextension).mp hs
    obtain ⟨rfl, -⟩ := (mem_sightingsBelow htree hextension).mp ht
    exact Or.inl hlt

/-- What is made of the files below a root is made of the sightings. -/
theorem filterMap_filesBelow (htree : fs.WellFormed) {α : Type}
    (view : Path → Path × Identity → α) :
    ((fs.filesBelow root).filterMap fun p => (p.relativeTo? root).bind fun below =>
        (Identity.ofRelative? below extension).map (view p)) =
      (sightingsBelow fs extension position root).map fun s =>
        view (s.path extension) (s.location, s.id) := by
  rw [sightingsBelow]
  cases hroot : fs.resolve root with
  | error e =>
      rw [filesBelow, hroot]
      rfl
  | ok base =>
      have hne : root.bytes ≠ [] := (resolve_eq_ok_iff.mp hroot).1.ne_nil
      rw [filesBelow_of_ok hroot, List.filterMap_filterMap, List.map_filterMap]
      apply List.filterMap_congr
      intro names hnames
      obtain ⟨hnamesNe, hfile, -⟩ := mem_fileNames.mp hnames
      have hisName := htree.isName_of_hasFile hfile
      rw [Sighting.ofListed?]
      cases hwritten : writtenBelow? root names with
      | none => rfl
      | some p =>
          obtain rfl := eq_descend_of_writtenBelow? hwritten
          exact Sighting.map_ofNames? hnamesNe hisName hne position view

theorem ofArtifact?_eq (root : Path) : CompiledUnit.ofArtifact? root = fun p =>
    (p.relativeTo? root).bind fun below =>
      (Identity.ofRelative? below Identity.compiledExtension).map fun found =>
        ⟨found.2, p, found.1⟩ := by
  funext p
  rw [CompiledUnit.ofArtifact?]
  cases p.relativeTo? root with
  | none => rfl
  | some below =>
      simp only [Option.bind_eq_bind, Option.bind_some]
      cases Identity.ofRelative? below Identity.compiledExtension <;> rfl

theorem source?_eq (root : Path) : source? root = fun p =>
    (p.relativeTo? root).bind fun below =>
      (Identity.ofRelative? below Identity.sourceExtension).map fun found => ⟨found.2, p⟩ := by
  funext p
  rw [source?]
  cases p.relativeTo? root with
  | none => rfl
  | some below =>
      simp only [Option.bind_eq_bind, Option.bind_some]
      cases Identity.ofRelative? below Identity.sourceExtension <;> rfl

theorem unitsBelow_eq (htree : fs.WellFormed) (position : Nat) (root : Path) :
    unitsBelow fs root =
      (sightingsBelow fs Identity.compiledExtension position root).map Sighting.unit := by
  rw [unitsBelow, ofArtifact?_eq]
  exact filterMap_filesBelow htree fun p found => (⟨found.2, p, found.1⟩ : CompiledUnit)

theorem sourcesBelow_eq (htree : fs.WellFormed) (position : Nat) (root : Path) :
    sourcesBelow fs root =
      (sightingsBelow fs Identity.sourceExtension position root).map Sighting.source := by
  rw [sourcesBelow, source?_eq]
  exact filterMap_filesBelow htree fun p found => (⟨found.2, p⟩ : SourceUnit)

/-- What is made of every root is made of every root in its position. -/
theorem flatMap_eq_map_sightings {α : Type} {f : Path → List α} {view : Sighting → α}
    (h : ∀ position root, f root = (sightingsBelow fs extension position root).map view)
    (roots : List Path) : roots.flatMap f = (sightings fs roots extension).map view := by
  calc roots.flatMap f
      = (roots.zipIdx.map Prod.fst).flatMap f := by rw [List.zipIdx_map_fst]
    _ = roots.zipIdx.flatMap fun row => f row.1 := List.flatMap_map _ _ _
    _ = roots.zipIdx.flatMap fun row => (sightingsBelow fs extension row.2 row.1).map view := by
        simp only [← h]
    _ = (sightings fs roots extension).map view := List.map_flatMap.symm

end Sightings
end Scan
end Freshness
