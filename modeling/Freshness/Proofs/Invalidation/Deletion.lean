import Freshness.Proofs.FileSystem.Deleting
import Freshness.Proofs.Invalidation.Sweep

/-!
# Sweeps that delete

A sweep that deletes changes the tree that its later steps look at.  As long as the
paths lead to different files this makes no difference: what has been deleted and what
could not be deleted are together the files that were there before.
-/

namespace Freshness

/-- `all` is made of `left` and `right`, each in its order. -/
inductive Interleaving {α : Type} : List α → List α → List α → Prop
  | nil : Interleaving [] [] []
  | left {x left right all}
      (h : Interleaving left right all) : Interleaving (x :: left) right (x :: all)
  | right {x left right all}
      (h : Interleaving left right all) : Interleaving left (x :: right) (x :: all)

theorem Interleaving.perm {α : Type} {left right all : List α}
    (h : Interleaving left right all) : (left ++ right).Perm all := by
  induction h with
  | nil => exact List.Perm.nil
  | left _ ih => exact List.Perm.cons _ ih
  | right _ ih => exact List.perm_middle.trans (List.Perm.cons _ ih)

namespace FileSystem

/-- Both paths lead to one file. -/
def SameFile (fs : FileSystem) (p q : Path) : Prop :=
  ∃ l, fs.resolve p = .ok l ∧ fs.resolve q = .ok l ∧ fs.HasFile l

/-- What it comes to when the files among some paths are deleted one by one. -/
structure Deletes (fs : FileSystem) (paths : List Path) (fs' : FileSystem)
    (removed failed : List Path) : Prop where
  interleaving : Interleaving removed failed (paths.filter fun p => fs.isFile p)
  gone : ∀ p ∈ removed, ∀ l, fs'.resolve p ≠ .ok l
  kept : ∀ p ∈ failed, fs'.isFile p = true
  others : ∀ q l, fs.resolve q = .ok l → fs.HasFile l →
    (∀ p ∈ paths, fs.resolve p ≠ .ok l) → fs'.resolve q = .ok l ∧ fs'.HasFile l
  without : ∃ gone, Without fs gone fs'

namespace Deletes

variable {fs fs₁ fs' : FileSystem} {p : Path} {paths removed failed : List Path}

theorem nil (fs : FileSystem) : Deletes fs [] fs [] [] where
  interleaving := Interleaving.nil
  gone _ h := by cases h
  kept _ h := by cases h
  others _ _ hq hfile _ := ⟨hq, hfile⟩
  without := ⟨_, Without.refl fs⟩

theorem skip (hp : fs.isFile p = false) (h : Deletes fs paths fs' removed failed) :
    Deletes fs (p :: paths) fs' removed failed where
  interleaving := by
    rw [List.filter_cons_of_neg (by simp [hp])]
    exact h.interleaving
  gone := h.gone
  kept := h.kept
  others q l hq hfile hother :=
    h.others q l hq hfile fun r hr => hother r (List.mem_cons_of_mem p hr)
  without := h.without

/-- A deletion that fails leaves a file, which the later ones do not touch. -/
theorem fail (hp : fs.isFile p = true)
    (hdifferent : ∀ q ∈ paths, ¬fs.SameFile p q)
    (h : Deletes fs paths fs' removed failed) :
    Deletes fs (p :: paths) fs' removed (p :: failed) where
  interleaving := by
    rw [List.filter_cons_of_pos hp]
    exact Interleaving.right h.interleaving
  gone := h.gone
  kept q hq := by
    rcases List.mem_cons.mp hq with rfl | hq
    · obtain ⟨l, hl, hfile⟩ := isFile_iff.mp hp
      have hkept := h.others q l hl hfile fun r hr hrl =>
        hdifferent r hr ⟨l, hl, hrl, hfile⟩
      exact isFile_iff.mpr ⟨l, hkept⟩
    · exact h.kept q hq
  others q l hq hfile hother :=
    h.others q l hq hfile fun r hr => hother r (List.mem_cons_of_mem p hr)
  without := h.without

/-- A deletion that succeeds leaves nothing, and does not touch what the later ones
are about. -/
theorem remove (hp : fs.isFile p = true) (hdelete : fs.delete p = .ok fs₁)
    (hdifferent : ∀ q ∈ paths, ¬fs.SameFile p q)
    (h : Deletes fs₁ paths fs' removed failed) :
    Deletes fs (p :: paths) fs' (p :: removed) failed := by
  obtain ⟨x, hx, hxfile⟩ := isFile_iff.mp hp
  obtain ⟨e, -, hwithout⟩ := without_of_delete hdelete
  have hfiles : paths.filter (fun q => fs.isFile q) =
      paths.filter (fun q => fs₁.isFile q) := by
    apply List.filter_congr
    intro q hq
    rw [Bool.eq_iff_iff, isFile_iff, isFile_iff]
    constructor
    · rintro ⟨y, hy, hyfile⟩
      have hne : y ≠ x := by
        rintro rfl
        exact hdifferent q hq ⟨y, hx, hy, hyfile⟩
      obtain ⟨hy', hnode⟩ := resolve_of_delete hdelete hx hxfile hy hyfile hne
      refine ⟨y, hy', ?_⟩
      rw [HasFile, hnode]
      exact hyfile
    · rintro ⟨y, hy, content, hnode⟩
      exact ⟨y, hwithout.resolve_of_resolve hy, content,
        hwithout.node?_of_node? hnode⟩
  obtain ⟨gone, hgone⟩ := h.without
  constructor
  · rw [List.filter_cons_of_pos hp, hfiles]
    exact Interleaving.left h.interleaving
  · intro q hq
    rcases List.mem_cons.mp hq with rfl | hq
    · intro l hl
      exact not_resolve_of_delete hdelete l (hgone.resolve_of_resolve hl)
    · exact h.gone q hq
  · exact h.kept
  · intro q y hy hyfile hother
    have hne : y ≠ x := by
      rintro rfl
      exact hother p List.mem_cons_self hx
    obtain ⟨hy', hnode⟩ := resolve_of_delete hdelete hx hxfile hy hyfile hne
    apply h.others q y hy'
    · rw [HasFile, hnode]
      exact hyfile
    · intro r hr hry
      exact hother r (List.mem_cons_of_mem p hr) (hwithout.resolve_of_resolve hry)
  · exact ⟨_, hwithout.trans hgone⟩

end Deletes
end FileSystem

namespace Sweep

open FileSystem

/-- What a sweep that deletes can do about a path. -/
theorem attempt_cases {s : Sweep} (hreal : s.dryRun = false) (p : Path) :
    (s.fileSystem.isFile p = false ∧ s.attempt p = s) ∨
    s.fileSystem.isFile p = true ∧
      ((∃ fs, s.fileSystem.delete p = .ok fs ∧
          s.attempt p = { s with fileSystem := fs, removed := s.removed ++ [p] }) ∨
        (s.fileSystem.delete p = .error .notFound ∧ s.attempt p = s) ∨
        ∃ e, e ≠ .notFound ∧ s.fileSystem.delete p = .error e ∧
          s.attempt p = { s with failures := s.failures ++ [⟨p, e⟩] }) := by
  by_cases hp : s.fileSystem.isFile p = true
  · have hattempt : s.attempt p = s.delete p := by rw [attempt, if_pos hp]
    rw [hattempt, delete, if_neg (by simp [hreal])]
    refine Or.inr ⟨hp, ?_⟩
    split
    next fs hfs => exact Or.inl ⟨fs, hfs, rfl⟩
    next herror => exact Or.inr (Or.inl ⟨herror, rfl⟩)
    next e hne herror => exact Or.inr (Or.inr ⟨e, hne, herror, rfl⟩)
  · exact Or.inl ⟨by simpa using hp, by rw [attempt, if_neg hp]⟩

/-- A sweep through paths to different files deletes them or says which could not be
deleted. -/
theorem deletes_foldl_attempt
    {s : Sweep} (hreal : s.dryRun = false) {paths : List Path}
    (hrefusal : ∀ l, s.fileSystem.refusal? l ≠ some .notFound)
    (hdifferent : paths.Pairwise fun p q => ¬s.fileSystem.SameFile p q) :
    ∃ removed failures,
      (paths.foldl attempt s).removed = s.removed ++ removed ∧
      (paths.foldl attempt s).failures = s.failures ++ failures ∧
      Deletes s.fileSystem paths (paths.foldl attempt s).fileSystem removed
        (failures.map RemovalFailure.path) := by
  induction paths generalizing s with
  | nil => exact ⟨[], [], by simp, by simp, Deletes.nil _⟩
  | cons p rest ih =>
      obtain ⟨hhead, hrest⟩ := List.pairwise_cons.mp hdifferent
      rw [List.foldl_cons]
      rcases attempt_cases hreal p with
        ⟨hp, hstep⟩ | ⟨hp, ⟨fs, hdelete, hstep⟩ | ⟨hdelete, -⟩ | ⟨e, -, -, hstep⟩⟩
      · rw [hstep]
        obtain ⟨removed, failures, hremoved, hfailures, h⟩ := ih hreal hrefusal hrest
        exact ⟨removed, failures, hremoved, hfailures, h.skip hp⟩
      · obtain ⟨gone, -, hwithout⟩ := without_of_delete hdelete
        have hrefusal' : ∀ l, fs.refusal? l ≠ some .notFound := by
          rw [hwithout.refusal]
          exact hrefusal
        have hrest' : rest.Pairwise fun q r => ¬fs.SameFile q r := by
          apply hrest.imp
          rintro q r hqr ⟨l, hq, hr, content, hnode⟩
          exact hqr ⟨l, hwithout.resolve_of_resolve hq,
            hwithout.resolve_of_resolve hr, content, hwithout.node?_of_node? hnode⟩
        rw [hstep]
        obtain ⟨removed, failures, hremoved, hfailures, h⟩ :=
          ih (s := { s with fileSystem := fs, removed := s.removed ++ [p] })
            hreal hrefusal' hrest'
        refine ⟨p :: removed, failures, ?_, hfailures,
          Deletes.remove hp hdelete hhead h⟩
        rw [hremoved]
        simp
      · obtain ⟨l, hl, -⟩ := isFile_iff.mp hp
        exact absurd hdelete (delete_ne_notFound hl hrefusal)
      · rw [hstep]
        obtain ⟨removed, failures, hremoved, hfailures, h⟩ :=
          ih (s := { s with failures := s.failures ++ [⟨p, e⟩] })
            hreal hrefusal hrest
        refine ⟨removed, ⟨p, e⟩ :: failures, hremoved, ?_,
          Deletes.fail hp hhead h⟩
        rw [hfailures]
        simp

/-! ## What is left -/

/-- The entries that some paths stand for. -/
def StandFor (fs : FileSystem) (paths : List Path) (l : Location) : Prop :=
  ∃ p ∈ paths, fs.locate .rearrange p = .ok (.found l)

/-- After a sweep only the entries that the removed paths stand for are gone, and a
file that is left at an attempted path could not be deleted. -/
structure Settles (fs : FileSystem) (paths : List Path) (fs' : FileSystem)
    (removed failed : List Path) : Prop where
  without : Without fs (StandFor fs removed) fs'
  attempted : ∀ p ∈ removed ++ failed, p ∈ paths ∧ fs.isFile p = true ∧
    fs.delete p ≠ .error .notFound
  settled : ∀ p ∈ paths, fs'.isFile p = true →
    fs'.delete p = .error .notFound ∨ p ∈ failed

theorem Settles.cons_of_same {fs fs' : FileSystem} {p : Path}
    {paths removed failed failed' : List Path}
    (h : Settles fs paths fs' removed failed)
    (hfailed : ∀ q ∈ failed, q ∈ failed')
    (hattempted : ∀ q ∈ failed', q ∈ failed ∨
      q = p ∧ fs.isFile p = true ∧ fs.delete p ≠ .error .notFound)
    (hp : fs'.isFile p = true → fs'.delete p = .error .notFound ∨ p ∈ failed') :
    Settles fs (p :: paths) fs' removed failed' where
  without := h.without
  attempted q hq := by
    have hcases : q ∈ removed ++ failed ∨
        q = p ∧ fs.isFile p = true ∧ fs.delete p ≠ .error .notFound := by
      rcases List.mem_append.mp hq with hremoved | hfailed'
      · exact Or.inl (List.mem_append_left failed hremoved)
      · exact (hattempted q hfailed').imp_left (List.mem_append_right removed)
    rcases hcases with hmem | ⟨rfl, hfile, hdelete⟩
    · obtain ⟨hpaths, hfile, hdelete⟩ := h.attempted q hmem
      exact ⟨List.mem_cons_of_mem p hpaths, hfile, hdelete⟩
    · exact ⟨List.mem_cons_self, hfile, hdelete⟩
  settled q hq hfile := by
    rcases List.mem_cons.mp hq with rfl | hq
    · exact hp hfile
    · exact (h.settled q hq hfile).imp_right (hfailed q)

theorem Settles.cons_of_delete {fs fs₁ fs' : FileSystem} {p : Path}
    {paths removed failed : List Path} (hp : fs.isFile p = true)
    (hdelete : fs.delete p = .ok fs₁) (h : Settles fs₁ paths fs' removed failed) :
    Settles fs (p :: paths) fs' (p :: removed) failed := by
  obtain ⟨e, hfound, hwithout⟩ := without_of_delete hdelete
  have hrest : ∀ q ∈ removed ++ failed, ∃ l, fs₁.resolve q = .ok l := by
    intro q hq
    obtain ⟨l, hl, -⟩ := isFile_iff.mp (h.attempted q hq).2.1
    exact ⟨l, hl⟩
  have hgone : ∀ l, (l = e ∨ StandFor fs₁ removed l) ↔
      StandFor fs (p :: removed) l := by
    intro l
    constructor
    · rintro (rfl | ⟨q, hq, hl⟩)
      · exact ⟨p, List.mem_cons_self, hfound⟩
      · exact ⟨q, List.mem_cons_of_mem p hq, hwithout.locate_of_locate hl⟩
    · rintro ⟨q, hq, hl⟩
      rcases List.mem_cons.mp hq with rfl | hq
      · rw [hfound] at hl
        exact Or.inl (Place.found.inj (Except.ok.inj hl)).symm
      · -- the path still stood for an entry when its turn came
        obtain ⟨m, hm⟩ := hrest q (List.mem_append_left failed hq)
        obtain ⟨l', hl'⟩ := exists_locate_rearrange hm
        have hsame := hwithout.locate_of_locate hl'
        rw [hl] at hsame
        cases hsame
        exact Or.inr ⟨q, hq, hl'⟩
  constructor
  · exact (hwithout.trans h.without).congr hgone
  · rw [List.cons_append, List.forall_mem_cons]
    refine ⟨⟨List.mem_cons_self, hp, by rw [hdelete]; simp⟩, fun q hq => ?_⟩
    obtain ⟨hpaths, hfile, hne⟩ := h.attempted q hq
    obtain ⟨m, hm⟩ := hrest q hq
    exact ⟨List.mem_cons_of_mem p hpaths, hwithout.isFile_of_isFile hfile,
      fun hnotFound => hne (hwithout.delete_eq_notFound hm hnotFound)⟩
  · intro q hq hfile
    rcases List.mem_cons.mp hq with rfl | hq
    · obtain ⟨l, hl, -⟩ := isFile_iff.mp (h.without.isFile_of_isFile hfile)
      exact absurd hl (not_resolve_of_delete hdelete l)
    · exact h.settled q hq hfile

theorem settles_foldl_attempt {s : Sweep} (hreal : s.dryRun = false)
    (paths : List Path) :
    ∃ removed failures,
      (paths.foldl attempt s).removed = s.removed ++ removed ∧
      (paths.foldl attempt s).failures = s.failures ++ failures ∧
      Settles s.fileSystem paths (paths.foldl attempt s).fileSystem removed
        (failures.map RemovalFailure.path) := by
  induction paths generalizing s with
  | nil =>
      have hnone : ∀ l, False ↔ StandFor s.fileSystem [] l := by simp [StandFor]
      exact ⟨[], [], by simp, by simp, (Without.refl _).congr hnone, by simp, by simp⟩
  | cons p rest ih =>
      rw [List.foldl_cons]
      rcases attempt_cases hreal p with
        ⟨hp, hstep⟩ | ⟨hp, ⟨fs, hdelete, hstep⟩ | ⟨hdelete, hstep⟩ | ⟨e, he, hdelete, hstep⟩⟩
      · rw [hstep]
        obtain ⟨removed, failures, hremoved, hfailures, h⟩ := ih hreal
        refine ⟨removed, failures, hremoved, hfailures, h.cons_of_same
          (fun _ hq => hq) (fun _ hq => Or.inl hq) fun hfile => ?_⟩
        rw [h.without.isFile_of_isFile hfile] at hp
        cases hp
      · rw [hstep]
        obtain ⟨removed, failures, hremoved, hfailures, h⟩ :=
          ih (s := { s with fileSystem := fs, removed := s.removed ++ [p] }) hreal
        refine ⟨p :: removed, failures, ?_, hfailures,
          Settles.cons_of_delete hp hdelete h⟩
        rw [hremoved]
        simp
      · rw [hstep]
        obtain ⟨removed, failures, hremoved, hfailures, h⟩ := ih hreal
        refine ⟨removed, failures, hremoved, hfailures, h.cons_of_same
          (fun _ hq => hq) (fun _ hq => Or.inl hq) fun hfile => ?_⟩
        obtain ⟨l, hl, -⟩ := isFile_iff.mp hfile
        exact Or.inl (h.without.delete_eq_notFound hl hdelete)
      · rw [hstep]
        obtain ⟨removed, failures, hremoved, hfailures, h⟩ :=
          ih (s := { s with failures := s.failures ++ [⟨p, e⟩] }) hreal
        refine ⟨removed, ⟨p, e⟩ :: failures, hremoved, by rw [hfailures]; simp,
          h.cons_of_same ?_ ?_ ?_⟩
        · intro q hq
          exact List.mem_cons_of_mem p hq
        · intro q hq
          rcases List.mem_cons.mp hq with rfl | hq
          · exact Or.inr ⟨rfl, hp, by rw [hdelete]; simpa using he⟩
          · exact Or.inl hq
        · intro _
          exact Or.inr List.mem_cons_self

/-- A sweep does nothing where it finds no file but those that it is told are not
there. -/
theorem foldl_attempt_idle {s : Sweep} (hreal : s.dryRun = false) {paths : List Path}
    (h : ∀ p ∈ paths, s.fileSystem.isFile p = true →
      s.fileSystem.delete p = .error .notFound) :
    paths.foldl attempt s = s := by
  induction paths with
  | nil => rfl
  | cons p rest ih =>
      obtain ⟨hp, hrest⟩ := List.forall_mem_cons.mp h
      have hstep : s.attempt p = s := by
        by_cases hfile : s.fileSystem.isFile p = true
        · simp [attempt, delete, hfile, hreal, hp hfile]
        · rw [attempt, if_neg hfile]
      rw [List.foldl_cons, hstep, ih hrest]

end Sweep
end Freshness
