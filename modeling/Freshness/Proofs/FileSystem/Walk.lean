import Freshness.Proofs.FileSystem.Listing
import Freshness.Proofs.Path.Names

/-!
# The order of a walk

A walk comes to a file if it can list every directory on the way from the root to it.  It comes to
the files in an order that the names alone determine: where the ways to two files part, the smaller
name is followed first, with all that lies below it.
-/

namespace Freshness
namespace FileSystem

variable {fs : FileSystem}

/-- The order of a depth-first walk that follows the names in a directory from the smallest to the
largest. -/
inductive ComesBefore : List Name → List Name → Prop
  /-- The ways part here. -/
  | apart {name other : Name} {rest others : List Name} (h : compare name other = .lt) :
      ComesBefore (name :: rest) (other :: others)
  /-- The ways part further below. -/
  | further {name : Name} {rest others : List Name} (h : ComesBefore rest others) :
      ComesBefore (name :: rest) (name :: others)

theorem ComesBefore.asymm {names others : List Name} (h : ComesBefore names others) :
    ¬ ComesBefore others names := by
  induction h with
  | apart hlt =>
      intro h
      cases h with
      | apart hgt => rw [Std.OrientedCmp.gt_iff_lt.mpr hgt] at hlt; cases hlt
      | further _ => simp at hlt
  | further _ ih =>
      intro h
      cases h with
      | apart hlt => simp at hlt
      | further hrest => exact ih hrest

/-- A walk can list the directory at `l`, which it has come to under the path `p`. -/
def Lists (fs : FileSystem) (l : Location) (p : Path) : Prop :=
  fs.enter l = .ok () ∧ p.bytes.length ≤ maximalPathLength

/-- A walk that begins at `root`, where it may follow links, comes to the file that the names lead to
from there. -/
structure Reaches (fs : FileSystem) (root : Path) (base : Location) (names : List Name) : Prop where
  resolves : fs.resolve root = .ok base
  file : fs.HasFile (base.descend names)
  lists : ∀ front back, names = front ++ back → back ≠ [] →
    fs.Lists (base.descend front) (root.descend front)

/-! ## What cuts a walk off -/

theorem enter_of_directory {l : Location} (h : fs.node? l = some .directory) :
    fs.enter l = .ok () ↔ l ∉ fs.unlisted := by
  rw [mem_unlisted, enter]
  rw [node?] at h
  obtain ⟨⟨node, modified, access⟩, hentry, hnode⟩ := Option.map_eq_some_iff.mp h
  obtain rfl : node = .directory := hnode
  rw [hentry]
  cases access <;> simp

/-- The way to an entry is cut off by the directories on it. -/
theorem cutsOff_eq_false_iff {directories : List Location} {base : Location} {names : List Name} :
    cutsOff directories base (base.descend names) = false ↔
      ∀ front back, names = front ++ back → back ≠ [] → base.descend front ∉ directories := by
  rw [cutsOff, List.any_eq_false]
  constructor
  · rintro h front back rfl hback hmem
    apply h _ hmem
    have hfront : base.below? (base.descend front) = some front :=
      Location.below?_eq_some_iff.mpr rfl
    have hrest : (base.descend front).below? (base.descend (front ++ back)) = some back :=
      Location.below?_eq_some_iff.mpr (Location.descend_append base front back)
    simp [hfront, hrest, hback]
  · intro h d hd hcut
    obtain ⟨hbase, hbelow⟩ := Bool.and_eq_true_iff.mp hcut
    obtain ⟨front, hfront⟩ := Option.isSome_iff_exists.mp hbase
    obtain rfl := Location.below?_eq_some_iff.mp hfront
    cases hback : (base.descend front).below? (base.descend names) with
    | none => simp [hback] at hbelow
    | some back =>
        have hnames := Location.below?_eq_some_iff.mp hback
        rw [← Location.descend_append, Location.descend_inj] at hnames
        exact h front back hnames (by simpa [hback] using hbelow) hd

/-- A path below another one is no shorter. -/
theorem length_descend_append (root : Path) (front : List Name) {back : List Name}
    (hback : ∀ name ∈ back, IsName name) :
    (root.descend front).bytes.length ≤ (root.descend (front ++ back)).bytes.length := by
  induction back generalizing front with
  | nil => simp
  | cons name rest ih =>
      obtain ⟨hname, hrest⟩ := List.forall_mem_cons.mp hback
      have hchild : (root.descend front).bytes.length ≤
          (root.descend (front ++ [name])).bytes.length := by
        have hdescend : root.descend (front ++ [name]) = (root.descend front).child name :=
          List.foldl_append
        rw [hdescend]
        by_cases hnil : (root.descend front).bytes = []
        · simp [hnil]
        · rw [Path.bytes_child hnil hname]
          split <;> simp
      have hall := ih (front ++ [name]) hrest
      rw [List.append_assoc, List.singleton_append] at hall
      exact hchild.trans hall

/-- Where a walk lists files, and under which paths: where it can list all directories on the
way. -/
theorem mem_fileNames_iff_reaches (htree : fs.WellFormed) {root : Path} {base : Location}
    (hroot : fs.resolve root = .ok base) {names : List Name} :
    (names ∈ fs.fileNames base ∧ (root.descend names.dropLast).bytes.length ≤ maximalPathLength) ↔
      names ≠ [] ∧ fs.Reaches root base names := by
  rw [mem_fileNames]
  have hdirectory : fs.HasFile (base.descend names) → ∀ front back, names = front ++ back →
      back ≠ [] → fs.node? (base.descend front) = some .directory := by
    rintro ⟨content, hnode⟩ front back rfl hback
    have hentry := isSome_entry?_of_node? hnode
    rw [Location.descend_append] at hentry
    exact htree.node?_of_descend hback hentry
  constructor
  · rintro ⟨⟨hne, hfile, hcut⟩, hlength⟩
    refine ⟨hne, hroot, hfile, fun front back hnames hback => ⟨?_, ?_⟩⟩
    · exact (enter_of_directory (hdirectory hfile front back hnames hback)).mpr
        (cutsOff_eq_false_iff.mp hcut front back hnames hback)
    · have hisName := htree.isName_of_hasFile hfile
      have hdropLast : names.dropLast = front ++ back.dropLast := by
        rw [hnames, List.dropLast_append_of_ne_nil hback]
      have hback : ∀ name ∈ back.dropLast, IsName name := by
        intro name hname
        apply hisName
        rw [hnames]
        exact List.mem_append_right _ (List.dropLast_subset _ hname)
      have hshorter := length_descend_append root front hback
      rw [← hdropLast] at hshorter
      exact hshorter.trans hlength
  · rintro ⟨hne, hreaches⟩
    have hlast := List.dropLast_concat_getLast hne
    refine ⟨⟨hne, hreaches.file, cutsOff_eq_false_iff.mpr fun front back hnames hback => ?_⟩, ?_⟩
    · exact (enter_of_directory (hdirectory hreaches.file front back hnames hback)).mp
        (hreaches.lists front back hnames hback).1
    · exact (hreaches.lists _ _ hlast.symm (List.cons_ne_nil _ _)).2

/-! ## In which order files are listed -/

/-- Nothing lies below a file, so where one way is as long as it goes the other has parted. -/
theorem comesBefore_of_compare (htree : fs.WellFormed) {base : Location} {names others : List Name}
    (hfile : fs.HasFile (base.descend names)) (hother : fs.HasFile (base.descend others))
    (hle : (compare names others).isLE = true) (hne : names ≠ others) :
    ComesBefore names others := by
  have hend : ∀ {l : Location} {name rest}, fs.HasFile l →
      ¬ fs.HasFile (l.descend (name :: rest)) := by
    rintro l name rest ⟨content, hnode⟩ ⟨content', hnode'⟩
    rw [(htree.of_descend_cons (isSome_entry?_of_node? hnode')).2.2] at hnode
    cases hnode
  induction names generalizing base others with
  | nil =>
      obtain ⟨name, rest, rfl⟩ := List.exists_cons_of_ne_nil hne.symm
      exact absurd hother (hend hfile)
  | cons name rest ih =>
      cases others with
      | nil => exact absurd hfile (hend hother)
      | cons other others =>
          rw [List.compare_cons_cons] at hle
          cases hcompare : compare name other with
          | lt => exact .apart hcompare
          | eq =>
              obtain rfl := Std.LawfulEqOrd.eq_of_compare hcompare
              rw [hcompare] at hle
              refine .further (@ih (base.child name) others hfile hother hle ?_)
              rintro rfl
              exact hne rfl
          | gt =>
              rw [hcompare] at hle
              cases hle

theorem pairwise_comesBefore (htree : fs.WellFormed) (base : Location) :
    (fs.fileNames base).Pairwise ComesBefore := by
  refine (pairwise_fileNames fs base).imp_of_mem ?_
  intro names others hnames hothers h
  exact comesBefore_of_compare htree (mem_fileNames.mp hnames).2.1 (mem_fileNames.mp hothers).2.1
    h.1 h.2

end FileSystem
end Freshness
