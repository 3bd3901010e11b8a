import Freshness.Proofs.CompiledUnit
import Freshness.Proofs.FileSystem.Listing
import Freshness.Proofs.Graph

/-!
# Scanning a tree

Every scanned unit stands for a file at a location.  If files and identities correspond
to each other one to one, a scan of a tree with fewer files finds the units whose files
are left, and finds them as before.
-/

namespace Freshness

open FileSystem

namespace FileSystem

variable {fs fs' : FileSystem} {gone : Location → Prop}

/-- The path under which a walk from `root` lists an entry, unless it lies too deep. -/
def writtenBelow? (root : Path) (names : List Name) : Option Path :=
  if (root.descend names.dropLast).bytes.length > maximalPathLength then none
  else some (root.descend names)

theorem filesBelow_of_ok {root : Path} {base : Location} (h : fs.resolve root = .ok base) :
    fs.filesBelow root = (fs.fileNames base).filterMap (writtenBelow? root) := by
  rw [filesBelow, h, fileNames, List.filterMap_filterMap]
  dsimp only
  apply List.filterMap_congr
  rintro ⟨names, ⟨node, modified, access⟩⟩ -
  cases node <;> rfl

theorem mem_filesBelow {root p : Path} :
    p ∈ fs.filesBelow root ↔ ∃ base names, fs.resolve root = .ok base ∧
      names ∈ fs.fileNames base ∧ writtenBelow? root names = some p := by
  cases h : fs.resolve root with
  | error e => simp [filesBelow, h]
  | ok base =>
      rw [filesBelow_of_ok h, List.mem_filterMap]
      simp

theorem eq_descend_of_writtenBelow? {root p : Path} {names : List Name}
    (h : writtenBelow? root names = some p) : p = root.descend names := by
  unfold writtenBelow? at h
  split at h <;> cases h
  rfl

/-- The path of a listed file leads to it, if anywhere. -/
theorem locate_descend (htree : fs.WellFormed) {root : Path} {base l : Location}
    {names : List Name} {purpose : Purpose} (hroot : fs.resolve root = .ok base)
    (hlisted : names ∈ fs.fileNames base)
    (h : fs.locate purpose (root.descend names) = .ok (.found l)) :
    l = base.descend names := by
  obtain ⟨hne, hfile, -⟩ := mem_fileNames.mp hlisted
  obtain ⟨-, hfinds⟩ := resolve_eq_ok_iff.mp hroot
  exact eq_descend_of_locate htree hfinds.leads rfl hne hfile h

theorem resolve_descend (htree : fs.WellFormed) {root : Path} {base l : Location}
    {names : List Name} (hroot : fs.resolve root = .ok base)
    (hlisted : names ∈ fs.fileNames base)
    (h : fs.resolve (root.descend names) = .ok l) : l = base.descend names :=
  locate_descend htree hroot hlisted (resolve_eq_ok_iff_locate.mp h)

end FileSystem

namespace CompiledUnit

/-- The names that lead from the root of a unit to its file. -/
def artifactNames (dirs : List Name) (stem : Name) : List Name :=
  dirs ++ [stem ++ Path.dot :: Utf8.encode Identity.compiledExtension]

/-- The path of a unit leads, if anywhere, to a file below a directory. -/
structure Placed (unit : CompiledUnit) (fs : FileSystem) (dirs : List Name) (stem : Name) :
    Prop where
  named : unit.Named dirs stem
  file : ∃ root base, Leads fs (fs.origin root) (route root) base ∧
    fs.HasFile (base.descend (artifactNames dirs stem)) ∧
    unit.absolute = root.descend (artifactNames dirs stem)

/-- The path of a unit leads to one file, if anywhere. -/
theorem Placed.exists_location {unit : CompiledUnit} {fs : FileSystem} {dirs : List Name}
    {stem : Name} (h : unit.Placed fs dirs stem) (htree : fs.WellFormed) :
    ∃ base : Location, fs.HasFile (base.descend (artifactNames dirs stem)) ∧
      ∀ purpose m, fs.locate purpose unit.absolute = .ok (.found m) →
        m = base.descend (artifactNames dirs stem) := by
  obtain ⟨root, base, hbase, hfile, habsolute⟩ := h.file
  refine ⟨base, hfile, fun purpose m hm => ?_⟩
  rw [habsolute] at hm
  exact eq_descend_of_locate htree hbase rfl (by simp [artifactNames]) hfile hm

end CompiledUnit

namespace Scan

variable {fs fs' : FileSystem} {gone : Location → Prop}

theorem getElem?_foldl_insert (units : List CompiledUnit) (map : UnitMap)
    (id : Identity) :
    (units.foldl (fun map unit => map.insert unit.id unit) map)[id]? =
      ((units.filter (·.id = id)).getLast?).or map[id]? := by
  induction units generalizing map with
  | nil => rfl
  | cons unit rest ih =>
      rw [List.foldl_cons, ih, Std.TreeMap.getElem?_insert]
      by_cases hid : unit.id = id
      · rw [List.filter_cons_of_pos (by simpa using hid), List.getLast?_cons]
        cases (rest.filter (·.id = id)).getLast? <;> simp [hid]
      · rw [List.filter_cons_of_neg (by simpa using hid),
          if_neg (by simpa using hid)]

/-- Of several units with one identity the last one counts. -/
theorem getElem?_ofUnits (units : List CompiledUnit) (id : Identity) :
    (ofUnits units)[id]? = (units.filter (·.id = id)).getLast? := by
  rw [ofUnits, getElem?_foldl_insert]
  simp

/-- The unit of a listed file, if it is one by its name. -/
def unitBelow? (root : Path) (names : List Name) : Option CompiledUnit :=
  (writtenBelow? root names).bind (CompiledUnit.ofArtifact? root)

theorem unitsBelow_of_ok {root : Path} {base : Location}
    (h : fs.resolve root = .ok base) :
    unitsBelow fs root = (fs.fileNames base).filterMap (unitBelow? root) := by
  rw [unitsBelow, filesBelow_of_ok h, List.filterMap_filterMap]
  rfl

/-- The file at `l` is scanned for a unit with the identity. -/
def Carries (fs : FileSystem) (roots : List Path) (l : Location) (id : Identity) :
    Prop :=
  ∃ root ∈ roots, ∃ base names unit, fs.resolve root = .ok base ∧
    names ∈ fs.fileNames base ∧ l = base.descend names ∧
    unitBelow? root names = some unit ∧ unit.id = id

/-- Every identity comes from one file, and every file has one identity. -/
structure OneToOne (fs : FileSystem) (roots : List Path) : Prop where
  file : ∀ {l l' id}, Carries fs roots l id → Carries fs roots l' id → l = l'
  identity : ∀ {l id id'}, Carries fs roots l id → Carries fs roots l id' → id = id'

/-- All files that are scanned for units, with their identities. -/
def carried (fs : FileSystem) (roots : List Path) : List (Location × Identity) :=
  roots.flatMap fun root =>
    match fs.resolve root with
    | .error _ => []
    | .ok base => (fs.fileNames base).filterMap fun names =>
        (unitBelow? root names).map fun unit => (base.descend names, unit.id)

theorem mem_carried {roots : List Path} {l : Location} {id : Identity} :
    (l, id) ∈ carried fs roots ↔ Carries fs roots l id := by
  rw [carried, List.mem_flatMap]
  apply exists_congr
  intro root
  apply and_congr_right
  intro _
  cases hroot : fs.resolve root with
  | error e => simp
  | ok base =>
      constructor
      · intro h
        obtain ⟨names, hnames, hmap⟩ := List.mem_filterMap.mp h
        obtain ⟨unit, hunit, heq⟩ := Option.map_eq_some_iff.mp hmap
        cases heq
        exact ⟨base, names, unit, rfl, hnames, rfl, hunit, rfl⟩
      · rintro ⟨_, names, unit, ⟨⟩, hnames, rfl, hunit, rfl⟩
        exact List.mem_filterMap.mpr
          ⟨names, hnames, Option.map_eq_some_iff.mpr ⟨unit, hunit, rfl⟩⟩

theorem oneToOne_iff {roots : List Path} :
    OneToOne fs roots ↔ ∀ a ∈ carried fs roots, ∀ b ∈ carried fs roots,
      a.1 = b.1 ↔ a.2 = b.2 := by
  constructor
  · rintro h ⟨l, id⟩ ha ⟨m, id'⟩ hb
    rw [mem_carried] at ha hb
    constructor
    · rintro rfl
      exact h.identity ha hb
    · rintro rfl
      exact h.file ha hb
  · intro h
    constructor
    · intro l m id hl hm
      exact (h _ (mem_carried.mpr hl) _ (mem_carried.mpr hm)).mpr rfl
    · intro l id id' hid hid'
      exact (h _ (mem_carried.mpr hid) _ (mem_carried.mpr hid')).mp rfl

/-- Where a scanned unit comes from. -/
theorem exists_of_compiledUnits {roots : List Path} {id : Identity} {unit : CompiledUnit}
    (h : (compiledUnits fs roots)[id]? = some unit) :
    unit.id = id ∧ ∃ root ∈ roots, ∃ base names, fs.resolve root = .ok base ∧
      names ∈ fs.fileNames base ∧ unitBelow? root names = some unit := by
  rw [compiledUnits, getElem?_ofUnits] at h
  obtain ⟨hmem, hid⟩ := List.mem_filter.mp (List.mem_of_getLast? h)
  obtain ⟨root, hroot, hunit⟩ := List.mem_flatMap.mp hmem
  refine ⟨by simpa using hid, root, hroot, ?_⟩
  cases hresolve : fs.resolve root with
  | error e => simp [unitsBelow, filesBelow, hresolve] at hunit
  | ok base =>
      rw [unitsBelow_of_ok hresolve] at hunit
      obtain ⟨names, hnames, hbelow⟩ := List.mem_filterMap.mp hunit
      exact ⟨base, names, rfl, hnames, hbelow⟩

theorem ofArtifact?_of_unitBelow? {root : Path} {names : List Name} {unit : CompiledUnit}
    (h : unitBelow? root names = some unit) :
    CompiledUnit.ofArtifact? root (root.descend names) = some unit := by
  obtain ⟨p, hp, hartifact⟩ := Option.bind_eq_some_iff.mp h
  rw [← eq_descend_of_writtenBelow? hp]
  exact hartifact

theorem absolute_of_unitBelow? {root : Path} {names : List Name} {unit : CompiledUnit}
    (h : unitBelow? root names = some unit) : unit.absolute = root.descend names :=
  CompiledUnit.absolute_of_ofArtifact? (ofArtifact?_of_unitBelow? h)

/-- The location of a scanned unit. -/
theorem exists_location (htree : fs.WellFormed) {roots : List Path} {id : Identity}
    {unit : CompiledUnit} (h : (compiledUnits fs roots)[id]? = some unit) :
    ∃ l, Carries fs roots l id ∧ fs.HasFile l ∧
      ∀ purpose m, fs.locate purpose unit.absolute = .ok (.found m) → m = l := by
  obtain ⟨hid, root, hroots, base, names, hroot, hnames, hunit⟩ := exists_of_compiledUnits h
  refine ⟨base.descend names, ⟨root, hroots, base, names, unit, hroot, hnames, rfl, hunit, hid⟩,
    (mem_fileNames.mp hnames).2.1, ?_⟩
  intro purpose m hm
  rw [absolute_of_unitBelow? hunit] at hm
  exact locate_descend htree hroot hnames hm

theorem placed_of_compiledUnits (htree : fs.WellFormed) {roots : List Path} {id : Identity}
    {unit : CompiledUnit} (h : (compiledUnits fs roots)[id]? = some unit) :
    ∃ dirs stem, unit.Placed fs dirs stem := by
  obtain ⟨-, root, -, base, names, hroot, hnames, hunit⟩ := exists_of_compiledUnits h
  obtain ⟨hfollow, hfinds⟩ := resolve_eq_ok_iff.mp hroot
  obtain ⟨hne, hfile, -⟩ := mem_fileNames.mp hnames
  obtain ⟨habsolute, dirs, stem, hnamed, rfl⟩ := CompiledUnit.named_of_ofArtifact? hfollow.ne_nil
    hne (htree.isName_of_hasFile hfile) (ofArtifact?_of_unitBelow? hunit)
  exact ⟨dirs, stem, hnamed, root, base, hfinds.leads, hfile, habsolute⟩

theorem exists_placed_of_mem (htree : fs.WellFormed) {roots : List Path} {unit : CompiledUnit}
    (h : unit ∈ (compiledUnits fs roots).values) : ∃ dirs stem, unit.Placed fs dirs stem := by
  obtain ⟨id, hunit⟩ := mem_values_iff.mp h
  exact placed_of_compiledUnits htree hunit

/-- The artifact of a scanned unit is a file below one of the roots with the extension of compiled
units. -/
theorem exists_root_of_compiledUnits (htree : fs.WellFormed) {roots : List Path} {id : Identity}
    {unit : CompiledUnit} (h : (compiledUnits fs roots)[id]? = some unit) :
    (∃ root ∈ roots, unit.absolute ∈ fs.filesBelow root) ∧
      unit.absolute.extension? = some (Utf8.encode Identity.compiledExtension) := by
  obtain ⟨-, root, hroots, base, names, hroot, hnames, hunit⟩ := exists_of_compiledUnits h
  obtain ⟨hne, hfile, -⟩ := mem_fileNames.mp hnames
  obtain ⟨p, hp, -⟩ := Option.bind_eq_some_iff.mp hunit
  have habsolute := absolute_of_unitBelow? hunit
  refine ⟨⟨root, hroots, mem_filesBelow.mpr ⟨base, names, hroot, hnames, ?_⟩⟩, ?_⟩
  · rw [habsolute, ← eq_descend_of_writtenBelow? hp]
    exact hp
  · rw [habsolute]
    exact CompiledUnit.extension?_of_ofArtifact? (resolve_eq_ok_iff.mp hroot).1.ne_nil hne
      (htree.isName_of_hasFile hfile) (ofArtifact?_of_unitBelow? hunit)

theorem unitsBelow_of_error {root : Path} {e : OsError} (h : fs.resolve root = .error e) :
    unitsBelow fs root = [] := by
  rw [unitsBelow, filesBelow, h]
  rfl

/-- Nothing is listed below a file. -/
theorem fileNames_of_file (htree : fs.WellFormed) {base : Location}
    (hfile : fs.HasFile base) : fs.fileNames base = [] := by
  rw [List.eq_nil_iff_forall_not_mem]
  intro names hnames
  obtain ⟨hne, ⟨content, hnode⟩, -⟩ := mem_fileNames.mp hnames
  obtain ⟨name, rest, rfl⟩ := List.exists_cons_of_ne_nil hne
  obtain ⟨content', hbase⟩ := hfile
  rw [(htree.of_descend_cons (isSome_entry?_of_node? hnode)).2.2] at hbase
  cases hbase

/-- A root that leads nowhere any more had no units. -/
theorem unitsBelow_of_error_without (htree : fs.WellFormed) (h : Without fs gone fs')
    (hfiles : ∀ l, gone l → fs.HasFile l) {root : Path} {e : OsError}
    (hroot : fs'.resolve root = .error e) : unitsBelow fs root = [] := by
  cases hresolve : fs.resolve root with
  | error e' => exact unitsBelow_of_error hresolve
  | ok base =>
      have hbase : gone base := by
        by_contra hkept
        rw [(h.smaller hfiles).resolve hresolve hkept] at hroot
        cases hroot
      rw [unitsBelow_of_ok hresolve, fileNames_of_file htree (hfiles base hbase)]
      rfl

/-- With fewer files, files and identities still correspond one to one. -/
theorem OneToOne.without {roots : List Path} (h : OneToOne fs roots)
    (hwithout : Without fs gone fs') : OneToOne fs' roots := by
  have hcarries : ∀ {l id}, Carries fs' roots l id → Carries fs roots l id := by
    rintro l id ⟨root, hroot, base, names, unit, hbase, hnames, hunit⟩
    exact ⟨root, hroot, base, names, unit, hwithout.resolve_of_resolve hbase,
      (hwithout.mem_fileNames.mp hnames).1, hunit⟩
  exact ⟨fun hl hm => h.file (hcarries hl) (hcarries hm),
    fun hid hid' => h.identity (hcarries hid) (hcarries hid')⟩

/-- A file with an identity is gone if any file with the identity is. -/
theorem OneToOne.gone_iff {roots : List Path} (h : OneToOne fs roots) {l : Location}
    {id : Identity} (hl : Carries fs roots l id) :
    gone l ↔ ∃ m, Carries fs roots m id ∧ gone m := by
  constructor
  · intro hgone
    exact ⟨l, hl, hgone⟩
  · rintro ⟨m, hm, hgone⟩
    rwa [h.file hl hm]

open Classical in
theorem filter_unitsBelow (htree : fs.WellFormed) (h : Without fs gone fs')
    (hfiles : ∀ l, gone l → fs.HasFile l) {roots : List Path}
    (hunique : OneToOne fs roots) (id : Identity) {root : Path} (hroot : root ∈ roots) :
    (unitsBelow fs' root).filter (·.id = id) =
      if ∃ l, Carries fs roots l id ∧ gone l then []
      else (unitsBelow fs root).filter (·.id = id) := by
  cases hresolve' : fs'.resolve root with
  | error e =>
      rw [unitsBelow_of_error hresolve', unitsBelow_of_error_without htree h hfiles hresolve']
      split <;> rfl
  | ok base =>
      have hresolve := h.resolve_of_resolve hresolve'
      have hgone : ∀ names ∈ fs.fileNames base, ∀ unit, unitBelow? root names = some unit →
          unit.id = id → (gone (base.descend names) ↔ ∃ l, Carries fs roots l id ∧ gone l) :=
        fun names hnames unit hunit hid => hunique.gone_iff
          ⟨root, hroot, base, names, unit, hresolve, hnames, rfl, hunit, hid⟩
      rw [unitsBelow_of_ok hresolve', unitsBelow_of_ok hresolve, h.fileNames_eq,
        List.filterMap_filter, List.filter_filterMap]
      split
      next hid =>
        rw [List.filterMap_eq_nil_iff]
        intro names hnames
        cases hunit : unitBelow? root names with
        | none => simp
        | some unit =>
            by_cases hsame : unit.id = id
            · simp [(hgone names hnames unit hunit hsame).mpr hid]
            · by_cases hl : gone (base.descend names) <;> simp [Option.filter, hsame, hl]
      next hid =>
        rw [List.filter_filterMap]
        apply List.filterMap_congr
        intro names hnames
        cases hunit : unitBelow? root names with
        | none => simp
        | some unit =>
            by_cases hsame : unit.id = id
            · simp [mt (hgone names hnames unit hunit hsame).mp hid]
            · by_cases hl : gone (base.descend names) <;> simp [Option.filter, hsame, hl]

open Classical in
/-- A unit is scanned as before unless its file is gone. -/
theorem compiledUnits_without (htree : fs.WellFormed) (h : Without fs gone fs')
    (hfiles : ∀ l, gone l → fs.HasFile l) {roots : List Path}
    (hunique : OneToOne fs roots) (id : Identity) :
    (compiledUnits fs' roots)[id]? =
      if ∃ l, Carries fs roots l id ∧ gone l then none
      else (compiledUnits fs roots)[id]? := by
  rw [compiledUnits, compiledUnits, getElem?_ofUnits, getElem?_ofUnits,
    List.filter_flatMap, List.filter_flatMap]
  split
  next hgone =>
    have hnone : roots.flatMap (fun root =>
        (unitsBelow fs' root).filter (·.id = id)) = [] := by
      rw [List.flatMap_eq_nil_iff]
      intro root hroot
      rw [filter_unitsBelow htree h hfiles hunique id hroot, if_pos hgone]
    rw [hnone]
    rfl
  next hkept =>
    congr 1
    apply List.flatMap_congr
    intro root hroot
    rw [filter_unitsBelow htree h hfiles hunique id hroot, if_neg hkept]

/-! ## Sources -/

theorem mem_sourceUnits {roots : List Path} {source : SourceUnit} :
    source ∈ sourceUnits fs roots ↔ ∃ root ∈ roots, ∃ base names,
      fs.resolve root = .ok base ∧ names ∈ fs.fileNames base ∧
      (writtenBelow? root names).bind (source? root) = some source := by
  rw [sourceUnits, List.mem_mergeSort, List.mem_flatMap]
  apply exists_congr
  intro root
  apply and_congr_right
  intro _
  rw [sourcesBelow, List.mem_filterMap]
  constructor
  · rintro ⟨p, hp, hsource⟩
    obtain ⟨base, names, hroot, hnames, hbelow⟩ := mem_filesBelow.mp hp
    exact ⟨base, names, hroot, hnames, Option.bind_eq_some_iff.mpr ⟨p, hbelow, hsource⟩⟩
  · rintro ⟨base, names, hroot, hnames, hsource⟩
    obtain ⟨p, hbelow, hsource⟩ := Option.bind_eq_some_iff.mp hsource
    exact ⟨p, mem_filesBelow.mpr ⟨base, names, hroot, hnames, hbelow⟩, hsource⟩

theorem path_eq_of_source? {root p : Path} {source : SourceUnit}
    (h : source? root p = some source) : source.path = p := by
  unfold source? at h
  simp only [Option.bind_eq_bind, Option.bind_eq_some_iff] at h
  obtain ⟨below, -, ⟨relative, id⟩, -, heq⟩ := h
  cases heq
  rfl

/-- A source that is still there was there before, and at its path is what was there
before. -/
theorem source_kept (htree : fs.WellFormed) (h : Without fs gone fs')
    (hfiles : ∀ l, gone l → fs.HasFile l) {roots : List Path} {source : SourceUnit}
    (hsource : source ∈ sourceUnits fs' roots) :
    source ∈ sourceUnits fs roots ∧ fs'.lookup? source.path = fs.lookup? source.path := by
  obtain ⟨root, hroot, base, names, hbase, hnames, hbelow⟩ := mem_sourceUnits.mp hsource
  have hbase' := h.resolve_of_resolve hbase
  obtain ⟨hlisted, hkept⟩ := h.mem_fileNames.mp hnames
  refine ⟨mem_sourceUnits.mpr ⟨root, hroot, base, names, hbase', hlisted, hbelow⟩, ?_⟩
  have hpath : source.path = root.descend names := by
    obtain ⟨p, hp, hsource⟩ := Option.bind_eq_some_iff.mp hbelow
    rw [path_eq_of_source? hsource, eq_descend_of_writtenBelow? hp]
  rw [hpath]
  cases hresolve : fs.resolve (root.descend names) with
  | ok l =>
      obtain rfl := resolve_descend htree hbase' hlisted hresolve
      obtain ⟨content, hnode⟩ := (mem_fileNames.mp hlisted).2.1
      exact h.lookup?_eq ((h.smaller hfiles).resolve hresolve hkept) (by rw [hnode]; simp)
  | error e =>
      cases hresolve' : fs'.resolve (root.descend names) with
      | ok l =>
          rw [h.resolve_of_resolve hresolve'] at hresolve
          cases hresolve
      | error e' => rw [lookup?, lookup?, hresolve, hresolve']

theorem eq_append_of_source? {root : Path} (hroot : root.bytes ≠ []) {names : List Name}
    (hne : names ≠ []) (hnames : ∀ name ∈ names, IsName name) {source : SourceUnit}
    (h : source? root (root.descend names) = some source) :
    ∃ dirs stem, names = dirs ++ [stem ++ Path.dot :: Utf8.encode Identity.sourceExtension] := by
  simp only [source?, Path.relativeTo?_descend hroot hne hnames, Option.bind_eq_bind,
    Option.bind_some, Option.bind_eq_some_iff, Prod.exists] at h
  obtain ⟨location, id, hrelative, -⟩ := h
  obtain ⟨dirs, stem, heq, -⟩ := Identity.of_ofRelative? hne hnames hrelative
  exact ⟨dirs, stem, heq⟩

/-- A source is not the artifact of a unit. -/
theorem not_carries_of_source (htree : fs.WellFormed) {root : Path} {base : Location}
    {names : List Name} {source : SourceUnit} (hroot : fs.resolve root = .ok base)
    (hnames : names ∈ fs.fileNames base)
    (hsource : (writtenBelow? root names).bind (source? root) = some source) {roots : List Path}
    {id : Identity} : ¬Carries fs roots (base.descend names) id := by
  rintro ⟨root', -, base', names', unit, hroot', hnames', heq, hunit, -⟩
  obtain ⟨p, hp, hsource⟩ := Option.bind_eq_some_iff.mp hsource
  rw [eq_descend_of_writtenBelow? hp] at hsource
  obtain ⟨hne, hfile, -⟩ := mem_fileNames.mp hnames
  obtain ⟨hne', hfile', -⟩ := mem_fileNames.mp hnames'
  obtain ⟨dirs, stem, rfl⟩ := eq_append_of_source? (resolve_eq_ok_iff.mp hroot).1.ne_nil hne
    (htree.isName_of_hasFile hfile) hsource
  obtain ⟨-, dirs', stem', -, rfl⟩ := CompiledUnit.named_of_ofArtifact?
    (resolve_eq_ok_iff.mp hroot').1.ne_nil hne'
    (htree.isName_of_hasFile hfile') (ofArtifact?_of_unitBelow? hunit)
  have hlast := congrArg Location.names heq
  rw [Location.names_descend, Location.names_descend, List.reverse_append, List.reverse_append,
    List.reverse_singleton, List.reverse_singleton] at hlast
  have hname := congrArg List.getLast? (List.cons.inj hlast).1
  have hjava : Utf8.encode Identity.sourceExtension = [106, 97, 118, 97] := by decide
  have hclass : Utf8.encode Identity.compiledExtension = [99, 108, 97, 115, 115] := by decide
  rw [hjava, hclass] at hname
  simp at hname

/-- Sources stay when only artifacts are gone. -/
theorem source_stays (htree : fs.WellFormed) (h : Without fs gone fs')
    (hgone : ∀ l, gone l → fs.HasFile l ∧ ∃ roots id, Carries fs roots l id) {roots : List Path}
    {source : SourceUnit} (hsource : source ∈ sourceUnits fs roots) :
    source ∈ sourceUnits fs' roots := by
  obtain ⟨root, hroot, base, names, hbase, hnames, hbelow⟩ := mem_sourceUnits.mp hsource
  have hfiles : ∀ l, gone l → fs.HasFile l := fun l hl => (hgone l hl).1
  have hbaseKept : ¬gone base := by
    intro hl
    rw [fileNames_of_file htree (hfiles base hl)] at hnames
    cases hnames
  have hkept : ¬gone (base.descend names) := by
    intro hl
    obtain ⟨-, roots', id, hcarries⟩ := hgone _ hl
    exact not_carries_of_source htree hbase hnames hbelow hcarries
  exact mem_sourceUnits.mpr ⟨root, hroot, base, names, (h.smaller hfiles).resolve hbase hbaseKept,
    h.mem_fileNames.mpr ⟨hnames, hkept⟩, hbelow⟩

end Scan
end Freshness
