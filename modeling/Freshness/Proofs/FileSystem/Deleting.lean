import Freshness.Proofs.FileSystem.Removal

/-!
# Deleting

A deletion that succeeds takes away the entry that its path stands for.  Nothing is at
the path afterwards, and every path to another file still leads there.
-/

namespace Freshness
namespace FileSystem

/-- There is a file at the location. -/
def HasFile (fs : FileSystem) (l : Location) : Prop :=
  ∃ content, fs.node? l = some (.file content)

theorem HasFile.isPlain {fs : FileSystem} {l : Location} (h : fs.HasFile l) : fs.IsPlain l := by
  obtain ⟨content, hcontent⟩ := h
  intro node hnode
  rw [hcontent] at hnode
  exact ⟨content, (Option.some.inj hnode).symm⟩

theorem isFile_iff {fs : FileSystem} {p : Path} :
    fs.isFile p = true ↔ ∃ l, fs.resolve p = .ok l ∧ fs.HasFile l := by
  unfold isFile lookup? HasFile node?
  cases hresolve : fs.resolve p with
  | error e => simp
  | ok l =>
      simp only [Except.ok.injEq, exists_eq_left']
      cases hentry : fs.entry? l with
      | none => simp
      | some e =>
          obtain ⟨node, modified, access⟩ := e
          cases node <;> simp

theorem isDirectory_iff {fs : FileSystem} {p : Path} :
    fs.isDirectory p = true ↔
      ∃ l, fs.resolve p = .ok l ∧ fs.node? l = some .directory := by
  unfold isDirectory lookup? node?
  cases hresolve : fs.resolve p with
  | error e => simp
  | ok l =>
      simp only [Except.ok.injEq, exists_eq_left']
      cases hentry : fs.entry? l with
      | none => simp
      | some e =>
          obtain ⟨node, modified, access⟩ := e
          cases node <;> simp

theorem pathExists_iff {fs : FileSystem} {p : Path} :
    fs.pathExists p = true ↔ ∃ l, fs.resolve p = .ok l := by
  unfold pathExists lookup?
  cases hresolve : fs.resolve p with
  | error e => simp
  | ok l =>
      simp only [Except.ok.injEq, exists_eq', iff_true]
      exact (resolve_eq_ok_iff.mp hresolve).2.entry_isSome

theorem exists_of_read {fs : FileSystem} {p : Path} {bytes : Bytes}
    (h : fs.read p = .ok bytes) : ∃ l, fs.resolve p = .ok l ∧ fs.HasFile l := by
  unfold read at h
  cases hresolve : fs.resolve p with
  | error e => simp [hresolve, bind, Except.bind] at h
  | ok l =>
      refine ⟨l, rfl, ?_⟩
      simp only [hresolve, bind, Except.bind] at h
      split at h
      · cases h
      · cases h
      next content modified access _ hentry => exact ⟨content, by rw [node?, hentry]; rfl⟩
      · cases h
      · cases h

/-- A path that leads to something stands for something. -/
theorem exists_locate_rearrange {fs : FileSystem} {p : Path} {l : Location}
    (h : fs.resolve p = .ok l) : ∃ e, fs.locate .rearrange p = .ok (.found e) := by
  obtain ⟨hfollow, hfinds⟩ := resolve_eq_ok_iff.mp h
  obtain ⟨e, he⟩ := hfinds.exists_rearrange
  exact ⟨e, locate_eq_found_iff.mpr ⟨hfollow, he⟩⟩

/-- The directory that holds what `p` stands for lets it be deleted. -/
structure MayDelete (fs : FileSystem) (p : Path) (e : Location) : Prop where
  found : fs.locate .rearrange p = .ok (.found e)
  no_slash : endsInSeparator p = false
  canChange : fs.canChange e.holder = true

theorem delete_of_found
    {fs : FileSystem} {p : Path} {e : Location}
    (h : fs.locate .rearrange p = .ok (.found e)) :
    fs.delete p =
      if endsInSeparator p = true then
        .error (if fs.node? e = some .directory then .isADirectory
          else .notADirectory)
      else if fs.canChange e.holder = false then .error .permissionDenied
      else
        match fs.refusal? e with
        | some error => .error error
        | none =>
            if fs.node? e = some .directory then .error .isADirectory
            else .ok ((fs.take e).stamp e.holder) := by
  unfold delete
  rw [h]
  simp only [bind, Except.bind, throw, throwThe, MonadExceptOf.throw, pure,
    Except.pure, decide_eq_true_eq, Bool.not_eq_true']
  cases fs.refusal? e <;> rfl

/-- A deletion succeeds exactly if the entry may be deleted, is not refused and is
no directory. -/
theorem delete_eq_ok_iff {fs fs' : FileSystem} {p : Path} :
    fs.delete p = .ok fs' ↔ ∃ e, MayDelete fs p e ∧ fs.refusal? e = none ∧
      fs.node? e ≠ some .directory ∧ fs' = (fs.take e).stamp e.holder := by
  constructor
  · intro h
    cases hplace : fs.locate .rearrange p with
    | error error => simp [delete, hplace, bind, Except.bind] at h
    | ok place =>
        cases place with
        | vacant l =>
            simp [delete, hplace, bind, Except.bind, throw, throwThe,
              MonadExceptOf.throw] at h
        | found e =>
            rw [delete_of_found hplace] at h
            by_cases hslash : endsInSeparator p = true
            · rw [if_pos hslash] at h
              cases h
            by_cases hchange : fs.canChange e.holder = false
            · rw [if_neg hslash, if_pos hchange] at h
              cases h
            rw [if_neg hslash, if_neg hchange] at h
            cases hrefusal : fs.refusal? e with
            | some error => simp [hrefusal] at h
            | none =>
                simp only [hrefusal] at h
                by_cases hnode : fs.node? e = some .directory
                · rw [if_pos hnode] at h
                  cases h
                · rw [if_neg hnode] at h
                  exact ⟨e, ⟨hplace, by simpa using hslash,
                    by simpa using hchange⟩, hrefusal, hnode,
                    (Except.ok.inj h).symm⟩
  · rintro ⟨e, hmay, hrefusal, hnode, rfl⟩
    rw [delete_of_found hmay.found]
    simp [hmay.no_slash, hmay.canChange, hrefusal, hnode]

theorem delete_eq_notFound_iff
    {fs : FileSystem} {p : Path} {e : Location}
    (h : fs.locate .rearrange p = .ok (.found e)) :
    fs.delete p = .error .notFound ↔
      MayDelete fs p e ∧ fs.refusal? e = some .notFound := by
  rw [delete_of_found h]
  constructor
  · intro herror
    by_cases hslash : endsInSeparator p = true
    · rw [if_pos hslash] at herror
      split at herror <;> cases herror
    by_cases hchange : fs.canChange e.holder = false
    · rw [if_neg hslash, if_pos hchange] at herror
      cases herror
    rw [if_neg hslash, if_neg hchange] at herror
    refine ⟨⟨h, by simpa using hslash, by simpa using hchange⟩, ?_⟩
    cases hrefusal : fs.refusal? e with
    | some error =>
        simp only [hrefusal] at herror
        cases herror
        rfl
    | none =>
        simp only [hrefusal] at herror
        split at herror <;> cases herror
  · rintro ⟨hmay, hrefusal⟩
    simp [hmay.no_slash, hmay.canChange, hrefusal]

theorem entry?_take (fs : FileSystem) (e l : Location) :
    entry? (fs.take e) l = if e = l then none else fs.entry? l := by
  simp [take, entry?, Std.TreeMap.getElem?_erase]

theorem entry?_stamp (fs : FileSystem) (h l : Location) :
    entry? (fs.stamp h) l =
      if h = l then (fs.entry? l).map fun e => { e with modified := fs.clock }
      else fs.entry? l := by
  simp only [stamp, setTime, entry?, Std.TreeMap.getElem?_modify,
    Std.compare_eq_iff_eq]
  split
  next hl => rw [hl]
  next => rfl

theorem node?_stamp (fs : FileSystem) (h l : Location) :
    node? (fs.stamp h) l = fs.node? l := by
  rw [node?, node?, entry?_stamp]
  split
  · cases fs.entry? l <;> rfl
  · rfl

/-- A deletion takes away one entry. -/
theorem without_of_delete {fs fs' : FileSystem} {p : Path}
    (h : fs.delete p = .ok fs') :
    ∃ e, fs.locate .rearrange p = .ok (.found e) ∧
      Without fs (· = e) fs' := by
  obtain ⟨e, hmay, -, hnode, rfl⟩ := delete_eq_ok_iff.mp h
  obtain ⟨modified, hholder⟩ := canChange_iff.mp hmay.canChange
  refine ⟨e, hmay.found, rfl, rfl, ?_, ?_, ?_⟩
  · rintro l rfl
    exact hnode
  · rintro l rfl
    rw [entry?_stamp, entry?_take]
    simp
  · intro l hl
    rw [entry?_stamp, entry?_take, if_neg (Ne.symm hl)]
    split
    next hl =>
      subst hl
      rw [hholder]
      exact Or.inr ⟨_, fs.clock, rfl, rfl, rfl⟩
    next => exact Or.inl rfl

/-- Nothing is left at a path that has been deleted. -/
theorem not_resolve_of_delete {fs fs' : FileSystem} {p : Path}
    (h : fs.delete p = .ok fs') (l : Location) : fs'.resolve p ≠ .ok l := by
  obtain ⟨e, hfound, hwithout⟩ := without_of_delete h
  obtain ⟨-, hfinds⟩ := locate_eq_found_iff.mp hfound
  intro hl
  obtain ⟨-, hfinds'⟩ := resolve_eq_ok_iff.mp hl
  rw [hwithout.origin_eq] at hfinds'
  exact hwithout.not_finds_of_gone hfinds rfl _ _ _ hfinds'

theorem Leads.eq_of_file {fs : FileSystem} {l m : Location} {names : List Name}
    (h : Leads fs l names m) (hfile : fs.HasFile l) : m = l := by
  obtain ⟨content, hnode⟩ := hfile
  have hclosed : fs.enter l ≠ .ok () := by
    intro henter
    rw [node?_of_enter henter] at hnode
    cases hnode
  cases h with
  | stay => rfl
  | current henter _ => exact absurd henter hclosed
  | up henter _ => exact absurd henter hclosed
  | link hname _ _ => exact absurd hname.enter hclosed
  | step hname _ _ _ => exact absurd hname.enter hclosed

/-- A deletion leaves the way to every other file alone. -/
theorem resolve_of_delete {fs fs' : FileSystem} {p q : Path} {x y : Location}
    (h : fs.delete p = .ok fs')
    (hx : fs.resolve p = .ok x) (hxfile : fs.HasFile x)
    (hy : fs.resolve q = .ok y) (hyfile : fs.HasFile y) (hne : y ≠ x) :
    fs'.resolve q = .ok y ∧ fs'.node? y = fs.node? y := by
  obtain ⟨e, hfound, hwithout⟩ := without_of_delete h
  obtain ⟨-, hfinds⟩ := locate_eq_found_iff.mp hfound
  obtain ⟨-, hfindsx⟩ := resolve_eq_ok_iff.mp hx
  obtain ⟨hfollow, hfindsy⟩ := resolve_eq_ok_iff.mp hy
  have hentry := hfinds.eq_or_link hfindsx.leads
  have hye : y ≠ e := by
    rintro rfl
    rcases hentry with rfl | ⟨target, hlink, -⟩
    · exact hne rfl
    · obtain ⟨content, hnode⟩ := hyfile
      rw [hlink] at hnode
      cases hnode
  refine ⟨?_, hwithout.node?_kept hye⟩
  rcases hwithout.finds_or_gone hfindsy with
    hfinds' | hgone | ⟨e', target, rest, rfl, hlink, hleads⟩
  · rw [← hwithout.origin_eq] at hfinds'
    exact resolve_eq_ok_iff.mpr ⟨hfollow, hfinds'⟩
  · exact absurd hgone hye
  · -- the way to `y` is through the deleted link, which leads to `x`
    exfalso
    rcases hentry with rfl | ⟨target', hlink', hleads'⟩
    · obtain ⟨content, hnode⟩ := hxfile
      rw [hlink] at hnode
      cases hnode
    · rw [hlink] at hlink'
      cases hlink'
      obtain ⟨m, hm, hrest⟩ := (hleads rfl).append
      obtain rfl := hm.unique hleads' rfl
      exact hne (hrest.eq_of_file hxfile)

namespace Without

variable {fs fs' : FileSystem} {gone : Location → Prop}

theorem isFile_of_isFile (h : Without fs gone fs') {p : Path}
    (hp : fs'.isFile p = true) : fs.isFile p = true := by
  obtain ⟨l, hl, content, hnode⟩ := isFile_iff.mp hp
  exact isFile_iff.mpr
    ⟨l, h.resolve_of_resolve hl, content, h.node?_of_node? hnode⟩

/-- What is at a path is as it was, unless it is a directory. -/
theorem lookup?_eq (h : Without fs gone fs') {p : Path} {l : Location}
    (hl : fs'.resolve p = .ok l) (hnode : fs.node? l ≠ some .directory) :
    fs'.lookup? p = fs.lookup? p := by
  have hkept : ¬gone l := by
    obtain ⟨e, he⟩ := Option.isSome_iff_exists.mp
      (resolve_eq_ok_iff.mp hl).2.entry_isSome
    intro hgone
    rw [h.absent l hgone] at he
    cases he
  rw [lookup?, lookup?, hl, h.resolve_of_resolve hl]
  exact h.entry?_kept hkept hnode

theorem read_eq (h : Without fs gone fs') {p : Path} {l : Location}
    (hl : fs'.resolve p = .ok l) (hfile : fs.HasFile l) : fs'.read p = fs.read p := by
  obtain ⟨content, hnode⟩ := hfile
  have hentry := h.lookup?_eq hl (by rw [hnode]; simp)
  rw [lookup?, lookup?, hl, h.resolve_of_resolve hl] at hentry
  dsimp only at hentry
  rw [read, read, hl, h.resolve_of_resolve hl]
  simp only [bind, Except.bind, hentry]

/-- Where only files are gone, everything else is there still. -/
theorem smaller (h : Without fs gone fs') (hfiles : ∀ l, gone l → fs.HasFile l) :
    Preserves gone fs fs' where
  workingDirectory := h.workingDirectory
  enter := (h.enter_iff _).mpr
  node hl hnode := (h.node?_kept hl).trans hnode
  plain hl := (hfiles _ hl).isPlain

/-- A deletion that is refused for what is not found is refused again. -/
theorem delete_eq_notFound (h : Without fs gone fs') {p : Path} {l : Location}
    (hl : fs'.resolve p = .ok l) (hdelete : fs.delete p = .error .notFound) :
    fs'.delete p = .error .notFound := by
  obtain ⟨e, hfound'⟩ := exists_locate_rearrange hl
  obtain ⟨hmay, hrefusal⟩ :=
    (delete_eq_notFound_iff (h.locate_of_locate hfound')).mp hdelete
  refine (delete_eq_notFound_iff hfound').mpr ⟨⟨hfound', hmay.no_slash, ?_⟩, ?_⟩
  · rw [h.canChange_eq]
    exact hmay.canChange
  · rw [h.refusal]
    exact hrefusal

end Without

/-- A file is deleted, or the deletion fails with an error that does not deny that it
exists, unless such an error is what deletions there are refused with. -/
theorem delete_ne_notFound {fs : FileSystem} {p : Path} {l : Location}
    (hl : fs.resolve p = .ok l)
    (hrefusal : ∀ m, fs.refusal? m ≠ some .notFound) :
    fs.delete p ≠ .error .notFound := by
  obtain ⟨e, hfound⟩ := exists_locate_rearrange hl
  rw [Ne, delete_eq_notFound_iff hfound]
  rintro ⟨-, hnotFound⟩
  exact hrefusal e hnotFound

end FileSystem
end Freshness
