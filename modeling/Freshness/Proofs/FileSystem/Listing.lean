import Freshness.FileSystem.Listing
import Freshness.Proofs.FileSystem.Tree

/-!
# What a walk lists

The walk below a directory lists the files there, each under the names that lead to
it, and in the order of these names.  In a tree with fewer entries it lists what is
left, in the same order.
-/

namespace Freshness
namespace FileSystem

variable {fs fs' : FileSystem} {gone : Location → Prop}

theorem mem_unlisted {d : Location} :
    d ∈ fs.unlisted ↔
      ∃ modified, fs.entry? d = some ⟨.directory, modified, .locked⟩ := by
  rw [unlisted, List.mem_filterMap]
  constructor
  · rintro ⟨⟨l, e⟩, hmem, hd⟩
    have hentry := Std.TreeMap.mem_toList_iff_getElem?_eq_some.mp hmem
    obtain ⟨node, modified, access⟩ := e
    cases node <;> cases access <;> cases hd
    exact ⟨modified, hentry⟩
  · rintro ⟨modified, hentry⟩
    exact ⟨(d, _), Std.TreeMap.mem_toList_iff_getElem?_eq_some.mpr hentry, rfl⟩

theorem cutsOff_congr {directories directories' : List Location}
    (h : ∀ d, d ∈ directories ↔ d ∈ directories') (base l : Location) :
    cutsOff directories base l = cutsOff directories' base l := by
  rw [Bool.eq_iff_iff, cutsOff, cutsOff, List.any_eq_true, List.any_eq_true]
  simp only [h]

/-- The names that lead from `base` to the files that the walk lists. -/
def fileNames (fs : FileSystem) (base : Location) : List (List Name) :=
  (fs.entriesBelow base).filterMap fun (names, e) =>
    match e.node with
    | .file _ => some names
    | .directory | .link _ => none

/-- An entry with the names that lead to it from `base`, if the walk lists it. -/
def entryBelow? (fs : FileSystem) (base : Location) (row : Location × Entry) :
    Option (List Name × Entry) :=
  match base.below? row.1 with
  | none | some [] => none
  | some names => if cutsOff fs.unlisted base row.1 then none else some (names, row.2)

theorem entriesBelow_eq (fs : FileSystem) (base : Location) :
    fs.entriesBelow base = (fs.entries.toList.filterMap (fs.entryBelow? base)).mergeSort
      fun a b => (compare a.1 b.1).isLE :=
  rfl

theorem entryBelow?_eq_some_iff {base l : Location} {names : List Name} {e e' : Entry} :
    fs.entryBelow? base (l, e) = some (names, e') ↔
      names ≠ [] ∧ l = base.descend names ∧ cutsOff fs.unlisted base l = false ∧ e = e' := by
  constructor
  · intro h
    unfold entryBelow? at h
    split at h
    next => cases h
    next => cases h
    next names' hnil hnames =>
      split at h
      next => cases h
      next hcut =>
        cases h
        exact ⟨hnil, Location.below?_eq_some_iff.mp hnames, by simpa using hcut, rfl⟩
  · rintro ⟨hne, rfl, hcut, rfl⟩
    have hbelow : base.below? (base.descend names) = some names :=
      Location.below?_eq_some_iff.mpr rfl
    cases names with
    | nil => exact absurd rfl hne
    | cons name rest => simp [entryBelow?, hbelow, hcut]

theorem mem_entriesBelow {base : Location} {names : List Name} {e : Entry} :
    (names, e) ∈ fs.entriesBelow base ↔
      names ≠ [] ∧ fs.entry? (base.descend names) = some e ∧
        cutsOff fs.unlisted base (base.descend names) = false := by
  rw [entriesBelow_eq, List.mem_mergeSort, List.mem_filterMap]
  constructor
  · rintro ⟨⟨l, e'⟩, hmem, hbelow⟩
    obtain ⟨hne, rfl, hcut, rfl⟩ := entryBelow?_eq_some_iff.mp hbelow
    exact ⟨hne, Std.TreeMap.mem_toList_iff_getElem?_eq_some.mp hmem, hcut⟩
  · rintro ⟨hne, hentry, hcut⟩
    exact ⟨(base.descend names, e),
      Std.TreeMap.mem_toList_iff_getElem?_eq_some.mpr hentry,
      entryBelow?_eq_some_iff.mpr ⟨hne, rfl, hcut, rfl⟩⟩

theorem mem_fileNames {base : Location} {names : List Name} :
    names ∈ fs.fileNames base ↔
      names ≠ [] ∧ fs.HasFile (base.descend names) ∧
        cutsOff fs.unlisted base (base.descend names) = false := by
  rw [fileNames, List.mem_filterMap]
  constructor
  · rintro ⟨⟨names', ⟨node, modified, access⟩⟩, hmem, hnames⟩
    obtain ⟨hne, hentry, hcut⟩ := mem_entriesBelow.mp hmem
    cases node with
    | file content =>
        cases hnames
        refine ⟨hne, ⟨content, ?_⟩, hcut⟩
        rw [node?, hentry]
        rfl
    | directory => cases hnames
    | link target => cases hnames
  · rintro ⟨hne, ⟨content, hnode⟩, hcut⟩
    obtain ⟨e, hentry⟩ := Option.isSome_iff_exists.mp (isSome_entry?_of_node? hnode)
    refine ⟨(names, e), mem_entriesBelow.mpr ⟨hne, hentry, hcut⟩, ?_⟩
    rw [node?, hentry] at hnode
    simp [Option.some.inj hnode]

/-- Any two keys are in order one way or the other. -/
theorem isLE_or_isLE {α : Type} [Ord α] [Std.TransOrd α] (a b : α) :
    ((compare a b).isLE || (compare b a).isLE) = true := by
  cases h : compare a b with
  | lt => simp
  | eq => simp
  | gt => simp [Std.OrientedCmp.gt_iff_lt.mp h]

theorem pairwise_entriesBelow (fs : FileSystem) (base : Location) :
    (fs.entriesBelow base).Pairwise fun a b => (compare a.1 b.1).isLE = true := by
  apply List.pairwise_mergeSort
  · intro a b c
    exact Std.TransOrd.isLE_trans
  · exact fun a b => isLE_or_isLE a.1 b.1

theorem nodup_entriesBelow (fs : FileSystem) (base : Location) :
    (fs.entriesBelow base).Pairwise fun a b => a.1 ≠ b.1 := by
  refine (List.Perm.pairwise_iff (fun h => Ne.symm h) (List.mergeSort_perm _ _)).mpr ?_
  refine List.Pairwise.filterMap (fs.entryBelow? base) ?_
    Std.TreeMap.distinct_keys_toList
  rintro ⟨l, e⟩ ⟨l', e'⟩ hne ⟨names, f⟩ hbelow ⟨names', f'⟩ hbelow' rfl
  obtain ⟨-, rfl, -, -⟩ := entryBelow?_eq_some_iff.mp hbelow
  obtain ⟨-, rfl, -, -⟩ := entryBelow?_eq_some_iff.mp hbelow'
  exact hne Std.ReflOrd.compare_self

theorem pairwise_fileNames (fs : FileSystem) (base : Location) :
    (fs.fileNames base).Pairwise fun a b => (compare a b).isLE = true ∧ a ≠ b := by
  refine List.Pairwise.filterMap _ ?_
    ((pairwise_entriesBelow fs base).and (nodup_entriesBelow fs base))
  rintro ⟨a, e⟩ ⟨b, f⟩ h a' ha b' hb
  dsimp only at ha hb
  split at ha <;> split at hb <;> cases ha <;> cases hb
  exact h

/-- Names in order are determined by which they are. -/
theorem eq_of_mem_iff {names names' : List (List Name)}
    (h : names.Pairwise fun a b => (compare a b).isLE = true ∧ a ≠ b)
    (h' : names'.Pairwise fun a b => (compare a b).isLE = true ∧ a ≠ b)
    (hmem : ∀ a, a ∈ names ↔ a ∈ names') : names = names' := by
  refine List.Perm.eq_of_pairwise ?_ (h.imp And.left) (h'.imp And.left) ?_
  · intro a b _ _ hab hba
    exact Std.LawfulEqOrd.eq_of_compare (Std.OrientedCmp.isLE_antisymm hab hba)
  · exact (List.perm_ext_iff_of_nodup (h.imp And.right) (h'.imp And.right)).mpr hmem

namespace Without

theorem mem_unlisted (h : Without fs gone fs') (d : Location) :
    d ∈ fs'.unlisted ↔ d ∈ fs.unlisted := by
  rw [FileSystem.mem_unlisted, FileSystem.mem_unlisted]
  by_cases hd : gone d
  · have hdirectory := h.not_directory d hd
    rw [h.absent d hd]
    constructor
    · rintro ⟨modified, hentry⟩
      cases hentry
    · rintro ⟨modified, hentry⟩
      rw [node?, hentry] at hdirectory
      exact absurd rfl hdirectory
  · rcases h.kept d hd with hsame | ⟨⟨node, modified, access⟩, time, he, hnode, he'⟩
    · rw [hsame]
    · obtain rfl : node = .directory := hnode
      simp [he, he']

theorem mem_fileNames (h : Without fs gone fs') {base : Location}
    {names : List Name} :
    names ∈ fs'.fileNames base ↔
      names ∈ fs.fileNames base ∧ ¬gone (base.descend names) := by
  rw [FileSystem.mem_fileNames, FileSystem.mem_fileNames,
    cutsOff_congr h.mem_unlisted]
  constructor
  · rintro ⟨hne, ⟨content, hnode⟩, hcut⟩
    exact ⟨⟨hne, ⟨content, h.node?_of_node? hnode⟩, hcut⟩,
      h.not_gone_of_node? hnode⟩
  · rintro ⟨⟨hne, ⟨content, hnode⟩, hcut⟩, hkept⟩
    refine ⟨hne, ⟨content, ?_⟩, hcut⟩
    rw [h.node?_kept hkept]
    exact hnode

open Classical in
/-- The files that are left are listed in the order in which they were. -/
theorem fileNames_eq (h : Without fs gone fs') (base : Location) :
    fs'.fileNames base =
      (fs.fileNames base).filter fun names => ¬gone (base.descend names) := by
  refine eq_of_mem_iff (pairwise_fileNames fs' base)
    ((pairwise_fileNames fs base).filter _) fun names => ?_
  rw [h.mem_fileNames, List.mem_filter]
  simp

end Without
end FileSystem
end Freshness
