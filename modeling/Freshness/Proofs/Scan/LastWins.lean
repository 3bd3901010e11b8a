import Mathlib
import Freshness.FileSystem.Arrangement
import Freshness.Proofs.FileSystem.Preservation
import Freshness.Proofs.Scan.Sighting

/-!
# The last file with an identity

A scan for compiled units finds an identity if and only if it sights a file with it, and keeps the
last such file.  A later list of roots therefore overrides an earlier one, and the order of roots
matters only where they share an identity.  A scan for sources keeps every sighting.
-/

namespace Freshness
namespace Scan

open FileSystem Identity

/-! ## Lists in order -/

/-- The last element of a list in order is the one that all others come before. -/
theorem getLast?_eq_some_iff_of_pairwise {α : Type} {R : α → α → Prop}
    (hasymm : ∀ a b, R a b → ¬ R b a) {items : List α} (h : items.Pairwise R) {a : α} :
    items.getLast? = some a ↔ a ∈ items ∧ ∀ b ∈ items, b = a ∨ R b a := by
  have hlast : ∀ {a}, items.getLast? = some a → ∀ b ∈ items, b = a ∨ R b a := by
    intro a ha b hb
    obtain ⟨init, rfl⟩ := List.getLast?_eq_some_iff.mp ha
    rcases List.mem_append.mp hb with hinit | hend
    · exact Or.inr ((List.pairwise_append.mp h).2.2 b hinit a (List.mem_singleton_self a))
    · exact Or.inl (List.mem_singleton.mp hend)
  constructor
  · intro ha
    exact ⟨List.mem_of_getLast? ha, hlast ha⟩
  · rintro ⟨ha, hall⟩
    obtain ⟨z, hz⟩ := Option.isSome_iff_exists.mp
      (List.getLast?_isSome.mpr (List.ne_nil_of_mem ha))
    rcases hall z (List.mem_of_getLast? hz) with rfl | hbefore
    · exact hz
    · rcases hlast hz a ha with rfl | hafter
      · exact hz
      · exact absurd hafter (hasymm z a hbefore)

/-- A stable sort keeps the order of the elements of one class, if they need no order. -/
theorem filter_mergeSort {α : Type} {le : α → α → Bool} {p : α → Bool}
    (htrans : ∀ a b c, le a b = true → le b c = true → le a c = true)
    (htotal : ∀ a b, (le a b || le b a) = true)
    (hclass : ∀ a b, p a = true → p b = true → le a b = true) (items : List α) :
    (items.mergeSort le).filter p = items.filter p := by
  have hordered : (items.filter p).Pairwise fun a b => le a b = true := by
    rw [List.pairwise_filter]
    exact List.pairwise_of_forall hclass
  have hsublist := (List.sublist_mergeSort htrans htotal hordered List.filter_sublist).filter p
  simp only [List.filter_filter, Bool.and_self] at hsublist
  have hlength := ((List.mergeSort_perm items le).filter p).length_eq
  exact (hsublist.eq_of_length hlength.symm).symm

/-! ## Compiled units -/

variable {fs : FileSystem}

/-- A scan of the roots comes to the file, and to no file with its identity after it. -/
def Sighting.IsLast (s : Sighting) (extension : String) (fs : FileSystem) (roots : List Path) :
    Prop :=
  s.IsSeen extension fs roots ∧
    ∀ t : Sighting, t.IsSeen extension fs roots → t.id = s.id → t = s ∨ t.Before extension s

theorem getElem?_compiledUnits (htree : fs.WellFormed) (roots : List Path) (id : Identity) :
    (compiledUnits fs roots)[id]? =
      ((sightings fs roots compiledExtension).filter (·.id = id)).getLast?.map Sighting.unit := by
  have hunits := flatMap_eq_map_sightings (unitsBelow_eq htree) roots
  rw [compiledUnits, getElem?_ofUnits, hunits, List.filter_map, List.getLast?_map]
  rfl

/-- What is stored for an identity is its last file. -/
theorem getElem?_compiledUnits_eq_some_iff (htree : fs.WellFormed) {roots : List Path}
    {id : Identity} {unit : CompiledUnit} :
    (compiledUnits fs roots)[id]? = some unit ↔
      ∃ s : Sighting, s.IsLast compiledExtension fs roots ∧ s.id = id ∧ s.unit = unit := by
  have hextension := InternalName.isExtension_compiled
  have hordered : ((sightings fs roots compiledExtension).filter (·.id = id)).Pairwise
      (Sighting.Before compiledExtension) := (pairwise_sightings htree hextension roots).filter _
  have hlast : ∀ s, ((sightings fs roots compiledExtension).filter (·.id = id)).getLast? = some s ↔
      s.IsLast compiledExtension fs roots ∧ s.id = id := by
    intro s
    rw [getLast?_eq_some_iff_of_pairwise (fun _ _ h => h.asymm) hordered]
    simp only [List.mem_filter, mem_sightings htree hextension, decide_eq_true_eq, Sighting.IsLast]
    constructor
    · rintro ⟨⟨hs, rfl⟩, hall⟩
      exact ⟨⟨hs, fun t ht hid => hall t ⟨ht, hid⟩⟩, rfl⟩
    · rintro ⟨⟨hs, hall⟩, rfl⟩
      exact ⟨⟨hs, rfl⟩, fun t ht => hall t ht.1 ht.2⟩
  rw [getElem?_compiledUnits htree, Option.map_eq_some_iff]
  simp only [hlast, and_assoc]

/-- An identity is stored if a file with it is sighted. -/
theorem mem_compiledUnits_iff (htree : fs.WellFormed) {roots : List Path} {id : Identity} :
    id ∈ compiledUnits fs roots ↔
      ∃ s : Sighting, s.IsSeen compiledExtension fs roots ∧ s.id = id := by
  rw [Std.TreeMap.mem_iff_isSome_getElem?, getElem?_compiledUnits htree, Option.isSome_map,
    List.getLast?_isSome, Ne, List.filter_eq_nil_iff]
  simp only [mem_sightings htree InternalName.isExtension_compiled, decide_eq_true_eq, not_forall,
    not_not, exists_prop]

/-- The location of a sighted file consists of names. -/
theorem components_location (htree : fs.WellFormed) {extension : String} {roots : List Path}
    {s : Sighting} (h : s.IsSeen extension fs roots) :
    s.location.components = s.segments.map fun segment => .normal (Utf8.encode segment) := by
  obtain ⟨base, hreaches⟩ := h.reached
  have hnames := htree.isName_of_hasFile hreaches.file
  have hisName : ∀ name ∈ s.segments.map Utf8.encode, IsName name := by
    rw [Sighting.segments, List.map_append]
    exact List.forall_mem_append.mpr ⟨(List.forall_mem_append.mp hnames).1, by simpa using h.stem⟩
  rw [Sighting.location, Path.components_ofBody_of_isName (by simp [Sighting.segments]) hisName,
    List.map_map]
  rfl

/-- Files in one location below their roots carry one identity. -/
theorem id_eq_of_components_location (htree : fs.WellFormed) {extension : String}
    {roots : List Path} {s t : Sighting} (hs : s.IsSeen extension fs roots)
    (ht : t.IsSeen extension fs roots) (h : s.location.components = t.location.components) :
    s.id = t.id := by
  rw [components_location htree hs, components_location htree ht] at h
  have hinjective : Function.Injective fun segment : String =>
      Component.normal (Utf8.encode segment) :=
    fun _ _ heq => Utf8.encode_injective (Component.normal.inj heq)
  rw [Sighting.id, Sighting.id, List.map_injective_iff.mpr hinjective h]

/-! ## Lists of roots -/

/-- A later list of roots overrides an earlier one. -/
theorem getElem?_compiledUnits_append (fs : FileSystem) (roots roots' : List Path)
    (id : Identity) :
    (compiledUnits fs (roots ++ roots'))[id]? =
      (compiledUnits fs roots')[id]?.or (compiledUnits fs roots)[id]? := by
  simp only [compiledUnits, getElem?_ofUnits, List.flatMap_append, List.filter_append,
    List.getLast?_append]

/-- Two roots share no identity. -/
def Apart (fs : FileSystem) (root root' : Path) : Prop :=
  ∀ id, ¬ (id ∈ compiledUnits fs [root] ∧ id ∈ compiledUnits fs [root'])

theorem Apart.or_comm {root root' : Path} (h : Apart fs root root') (id : Identity) :
    (compiledUnits fs [root])[id]?.or (compiledUnits fs [root'])[id]? =
      (compiledUnits fs [root'])[id]?.or (compiledUnits fs [root])[id]? := by
  have hid := h id
  rw [Std.TreeMap.mem_iff_isSome_getElem?, Std.TreeMap.mem_iff_isSome_getElem?] at hid
  cases hroot : (compiledUnits fs [root])[id]? with
  | none => simp
  | some unit =>
      cases hroot' : (compiledUnits fs [root'])[id]? with
      | none => simp
      | some unit' => simp [hroot, hroot'] at hid

/-- The order of roots that share no identity makes no difference. -/
theorem getElem?_compiledUnits_perm {roots roots' : List Path} (hperm : roots.Perm roots')
    (h : ∀ root ∈ roots, ∀ root' ∈ roots, root ≠ root' → Apart fs root root') (id : Identity) :
    (compiledUnits fs roots)[id]? = (compiledUnits fs roots')[id]? := by
  have hcons : ∀ root roots, (compiledUnits fs (root :: roots))[id]? =
      (compiledUnits fs roots)[id]?.or (compiledUnits fs [root])[id]? :=
    fun root roots => getElem?_compiledUnits_append fs [root] roots id
  induction hperm with
  | nil => rfl
  | @cons root rest rest' _ ih =>
      have hrest : ∀ a ∈ rest, ∀ b ∈ rest, a ≠ b → Apart fs a b := fun a ha b hb =>
        h a (List.mem_cons_of_mem _ ha) b (List.mem_cons_of_mem _ hb)
      rw [hcons root rest, hcons root rest', ih hrest]
  | swap root root' rest =>
      rw [hcons root' (root :: rest), hcons root rest, hcons root (root' :: rest),
        hcons root' rest, Option.or_assoc, Option.or_assoc]
      by_cases heq : root = root'
      · rw [heq]
      · rw [(h root (by simp) root' (by simp) heq).or_comm id]
  | trans hfirst _ ih ih' =>
      rw [ih h, ih' fun a ha b hb => h a (hfirst.mem_iff.mpr ha) b (hfirst.mem_iff.mpr hb)]

/-! ## Sources -/

/-- A list consists of sources sorted by identity, those of one identity in the order in which a
scan of the roots comes to them. -/
structure ListsSources (fs : FileSystem) (roots : List Path) (sources : List SourceUnit) : Prop where
  sorted : sources.Pairwise fun a b => (compare a.id b.id).isLE = true
  stable : ∃ seen : List Sighting, seen.Pairwise (Sighting.Before sourceExtension) ∧
    (∀ s, s ∈ seen ↔ s.IsSeen sourceExtension fs roots) ∧
    sources.Perm (seen.map Sighting.source) ∧
    ∀ id, sources.filter (·.id = id) = (seen.map Sighting.source).filter (·.id = id)

theorem listsSources_sourceUnits (htree : fs.WellFormed) (roots : List Path) :
    ListsSources fs roots (sourceUnits fs roots) := by
  have hextension := InternalName.isExtension_source
  have htrans : ∀ a b c : SourceUnit, (compare a.id b.id).isLE = true →
      (compare b.id c.id).isLE = true → (compare a.id c.id).isLE = true :=
    fun _ _ _ => Std.TransOrd.isLE_trans
  have htotal : ∀ a b : SourceUnit,
      ((compare a.id b.id).isLE || (compare b.id a.id).isLE) = true :=
    fun a b => isLE_or_isLE a.id b.id
  have hsources := flatMap_eq_map_sightings (sourcesBelow_eq htree) roots
  rw [sourceUnits, hsources]
  refine ⟨List.pairwise_mergeSort htrans htotal _, sightings fs roots sourceExtension,
    pairwise_sightings htree hextension roots, fun s => mem_sightings htree hextension,
    List.mergeSort_perm _ _, fun id => filter_mergeSort htrans htotal ?_ _⟩
  intro a b ha hb
  have hid : a.id = b.id := (of_decide_eq_true ha).trans (of_decide_eq_true hb).symm
  simp [hid]

/-- A scan finds what there is, and what counts is the last file with an identity. -/
theorem scan_lastWins (htree : fs.WellFormed) :
    (∀ (roots : List Path) (id : Identity) (unit : CompiledUnit),
      (compiledUnits fs roots)[id]? = some unit ↔
        ∃ s : Sighting, s.IsLast compiledExtension fs roots ∧ s.id = id ∧ s.unit = unit) ∧
    (∀ (roots : List Path) (id : Identity), id ∈ compiledUnits fs roots ↔
      ∃ s : Sighting, s.IsSeen compiledExtension fs roots ∧ s.id = id) ∧
    (∀ (roots : List Path) (id : Identity) (unit : CompiledUnit),
      (compiledUnits fs roots)[id]? = some unit →
        unit.id = id ∧ (∀ c ∈ unit.relative.components, ∃ name, c = .normal name) ∧
          ∀ (id' : Identity) (unit' : CompiledUnit),
            (compiledUnits fs roots)[id']? = some unit' → id ≠ id' →
              unit.relative.components ≠ unit'.relative.components) ∧
    (∀ (roots roots' : List Path) (id : Identity), (compiledUnits fs (roots ++ roots'))[id]? =
      (compiledUnits fs roots')[id]?.or (compiledUnits fs roots)[id]?) ∧
    (∀ roots roots' : List Path, roots.Perm roots' →
      (∀ root ∈ roots, ∀ root' ∈ roots, root ≠ root' → Apart fs root root') →
        ∀ id : Identity, (compiledUnits fs roots)[id]? = (compiledUnits fs roots')[id]?) ∧
    ∀ roots : List Path, ListsSources fs roots (sourceUnits fs roots) := by
  refine ⟨fun roots id unit => getElem?_compiledUnits_eq_some_iff htree,
    fun roots id => mem_compiledUnits_iff htree, ?_,
    fun roots roots' id => getElem?_compiledUnits_append fs roots roots' id,
    fun roots roots' hperm h id => getElem?_compiledUnits_perm hperm h id,
    fun roots => listsSources_sourceUnits htree roots⟩
  intro roots id unit hunit
  obtain ⟨s, ⟨hs, -⟩, rfl, rfl⟩ := (getElem?_compiledUnits_eq_some_iff htree).mp hunit
  refine ⟨rfl, ?_, ?_⟩
  · intro c hc
    have hcomponents : c ∈ s.location.components := hc
    rw [components_location htree hs, List.mem_map] at hcomponents
    obtain ⟨segment, -, rfl⟩ := hcomponents
    exact ⟨_, rfl⟩
  · intro id' unit' hunit' hne hsame
    obtain ⟨t, ⟨ht, -⟩, rfl, rfl⟩ := (getElem?_compiledUnits_eq_some_iff htree).mp hunit'
    exact hne (id_eq_of_components_location htree hs ht hsame)

/-- Three files with one identity: below the root `/b` it is once spelled by a directory and once by
a dot in the name of the file. -/
def collidingTree : FileSystem :=
  ["/a/p/X.class", "/b/p/X.class", "/b/p.X.class"].foldl
    (fun fs p => fs.addFile (Path.ofString p) 1 []) (FileSystem.empty 2)

/-- The roots, one of them missing and one repeated. -/
def collidingRoots : List Path := ["/a", "/b", "/c", "/b"].map Path.ofString

theorem scan_lastWins_colliding :
    collidingTree.WellFormed ∧ ∃ s : Sighting,
      s.IsLast compiledExtension collidingTree collidingRoots ∧ s.id = "p.X" ∧
        s.unit = ⟨"p.X", Path.ofString "/b/p.X.class", Path.ofString "p.X"⟩ := by
  have htree : collidingTree.WellFormed :=
    List.foldlRecOn _ _ (WellFormed.empty 2) fun _ h _ _ => h.addFile _ _ _
  have hstored : (compiledUnits collidingTree collidingRoots)["p.X"]? =
      some ⟨"p.X", Path.ofString "/b/p.X.class", Path.ofString "p.X"⟩ := by cbv
  exact ⟨htree, ((scan_lastWins htree).1 collidingRoots "p.X" _).mp hstored⟩

end Scan
end Freshness
