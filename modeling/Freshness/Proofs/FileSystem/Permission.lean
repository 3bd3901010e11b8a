import Freshness.Proofs.FileSystem.Alike
import Freshness.Proofs.FileSystem.Preservation

/-!
# Trees that permit deletions

In a tree where everything is allowed and nothing is refused every file can be deleted, under any
path that leads to it.  Allowing everything changes nothing that a reader sees, unless something was
locked.
-/

namespace Freshness

namespace FileSystem

/-- Every file can be deleted. -/
def Permits (fs : FileSystem) : Prop :=
  ∀ p, fs.isFile p = true → ∃ fs', fs.delete p = .ok fs'

variable {fs fs' : FileSystem} {gone : Location → Prop}

/-- A path with a separator at its end leads to a directory, if anywhere. -/
theorem Finds.node?_of_slash {links : Nat} {slash : Bool} {here l : Location} {names : List Name}
    (h : Finds fs .inspect links slash here names l) (hslash : slash = true) :
    fs.node? l = some .directory := by
  induction h with
  | stay hdirectory _ => exact hdirectory hslash
  | current _ _ ih => exact ih hslash
  | up _ _ ih => exact ih hslash
  | last hpurpose _ _ => cases hpurpose
  | link _ _ _ _ _ ih => exact ih (by simp [hslash])
  | step _ _ _ _ _ _ ih => exact ih hslash

/-- Where everything is allowed and nothing refused, every file can be deleted. -/
theorem permits_of_free (htree : fs.WellFormed) (hrefusal : ∀ l, fs.refusal? l = none)
    (hfree : ∀ l e, fs.entry? l = some e → e.access = .free) : fs.Permits := by
  intro p hfile
  obtain ⟨l, hl, content, hnode⟩ := isFile_iff.mp hfile
  obtain ⟨-, hfinds⟩ := resolve_eq_ok_iff.mp hl
  obtain ⟨e, he⟩ := exists_locate_rearrange hl
  have hslash : endsInSeparator p = false := by
    by_contra hends
    rw [hfinds.node?_of_slash (by simpa using hends)] at hnode
    cases hnode
  have hdirectory : fs.node? e ≠ some .directory := by
    rcases (locate_eq_found_iff.mp he).2.eq_or_link hfinds.leads with rfl | ⟨target, hlink, -⟩
    · simp [hnode]
    · simp [hlink]
  have hroot : e ≠ .root := by
    rintro rfl
    exact hdirectory htree.root
  obtain ⟨d, name, rfl⟩ := Location.exists_eq_child hroot
  have hholder : fs.node? d = some .directory :=
    htree.holder d name (locate_eq_found_iff.mp he).2.entry_isSome
  obtain ⟨⟨node, modified, access⟩, hentry, rfl⟩ := Option.map_eq_some_iff.mp hholder
  obtain rfl : access = .free := hfree d _ hentry
  exact ⟨_, delete_eq_ok_iff.mpr
    ⟨d.child name, ⟨he, hslash, canChange_iff.mpr ⟨modified, hentry⟩⟩, hrefusal _, hdirectory, rfl⟩⟩

/-- Deletions do not take the permission away. -/
theorem Permits.of_without (h : fs.Permits) (hwithout : Without fs gone fs') : fs'.Permits := by
  intro p hfile
  obtain ⟨fs₁, hdelete⟩ := h p (hwithout.isFile_of_isFile hfile)
  obtain ⟨e, hmay, hrefusal, hnode, -⟩ := delete_eq_ok_iff.mp hdelete
  obtain ⟨l, hl, -⟩ := isFile_iff.mp hfile
  obtain ⟨e', he'⟩ := exists_locate_rearrange hl
  obtain rfl : e = e' := by
    have hsame := hwithout.locate_of_locate he'
    rw [hmay.found] at hsame
    exact Place.found.inj (Except.ok.inj hsame)
  refine ⟨_, delete_eq_ok_iff.mpr ⟨e, ⟨he', hmay.no_slash, ?_⟩, ?_, ?_, rfl⟩⟩
  · rw [hwithout.canChange_eq]
    exact hmay.canChange
  · rw [hwithout.refusal]
    exact hrefusal
  · exact fun hdirectory => hnode (hwithout.node?_of_node? hdirectory)

theorem WellFormed.setAccess (h : fs.WellFormed) (access : Access) (l : Location) :
    (fs.setAccess access l).WellFormed := by
  refine h.of_node?_eq fun m => ?_
  rw [node?, node?, entry?, FileSystem.setAccess, Std.TreeMap.getElem?_modify]
  split
  next hsame =>
    rw [Std.compare_eq_iff_eq] at hsame
    rw [← hsame, Option.map_map]
    rfl
  next => rfl

theorem WellFormed.restrict (h : fs.WellFormed) (sealedPaths lockedPaths : List Path) :
    (fs.restrict sealedPaths lockedPaths).WellFormed :=
  List.foldlRecOn _ _ (List.foldlRecOn _ _ h fun _ h l _ => h.setAccess .sealed l)
    fun _ h l _ => h.setAccess .locked l

theorem Without.exists_access (h : Without fs gone fs') {l : Location} {e : Entry}
    (he : fs'.entry? l = some e) : ∃ e', fs.entry? l = some e' ∧ e'.access = e.access := by
  have hkept : ¬gone l := by
    intro hl
    rw [h.absent l hl] at he
    cases he
  rcases h.kept l hkept with hsame | ⟨e', time, he', -, hstamped⟩
  · exact ⟨e, hsame ▸ he, rfl⟩
  · rw [hstamped] at he
    cases he
    exact ⟨e', he', rfl⟩

theorem entry?_free (fs : FileSystem) (l : Location) :
    entry? fs.free l = (fs.entry? l).map fun e => { e with access := .free } := by
  rw [ entry?, free, Std.TreeMap.getElem?_map]
  rfl

/-- When nothing is locked, nobody sees that everything is allowed now. -/
theorem alike_free (h : ∀ l e, fs.entry? l = some e → e.access ≠ .locked) : Alike fs fs.free where
  workingDirectory := rfl
  seen l := by
    rw [entry?_free, Option.map_map]
    cases hentry : fs.entry? l with
    | none => rfl
    | some e => simp [Entry.seen, h l e hentry]

theorem permits_free (htree : fs.WellFormed) (hrefusal : ∀ l, fs.refusal? l = none) :
    fs.free.Permits := by
  refine permits_of_free (htree.of_node?_eq fun l => ?_) hrefusal fun l e he => ?_
  · rw [node?, node?, entry?_free, Option.map_map]
    rfl
  · rw [entry?_free] at he
    obtain ⟨_, -, rfl⟩ := Option.map_eq_some_iff.mp he
    rfl

end FileSystem
end Freshness
