import Freshness.Proofs.FileSystem.Growth

/-!
# Files that change

Files are written, written again and deleted.  Where two trees differ in files at some locations
only, a path that leads to anything else leads there in both.
-/

namespace Freshness
namespace FileSystem

/-- The trees differ in files at some locations only.  The times of directories do not count. -/
structure Rewritten (touched : Location → Prop) (fs fs' : FileSystem) : Prop where
  workingDirectory : fs'.workingDirectory = fs.workingDirectory
  kept : ∀ l, ¬touched l → fs'.entry? l = fs.entry? l ∨
    ∃ e time, fs.entry? l = some e ∧ e.node = .directory ∧
      fs'.entry? l = some { e with modified := time }
  before : ∀ l, touched l → fs.IsPlain l
  after : ∀ l, touched l → fs'.IsPlain l

/-- Where only files are gone, nothing but files has changed. -/
theorem Without.rewritten {fs fs' : FileSystem} {gone : Location → Prop} (h : Without fs gone fs')
    (hfiles : ∀ l, gone l → fs.HasFile l) : Rewritten gone fs fs' where
  workingDirectory := h.workingDirectory
  kept := h.kept
  before l hl := (hfiles l hl).isPlain
  after l hl := isPlain_of_none (h.absent l hl)

/-- Where names lead to something that is no directory, all but the last lead to a directory, and the
last does not lead back. -/
theorem Leads.exists_directory {fs : FileSystem} {here m : Location} {names : List Name}
    (htree : fs.WellFormed) (h : Leads fs here names m) (hne : names ≠ [])
    (hm : fs.node? m ≠ some .directory) :
    ∃ init last m', names = init ++ [last] ∧ Leads fs here init m' ∧
      fs.node? m' = some .directory ∧ last ≠ [Path.dot, Path.dot] := by
  rw [← List.dropLast_concat_getLast hne] at h
  obtain ⟨m', hm', hlast⟩ := h.append
  have hdirectory := node?_of_enter (hlast.enter_of_ne_nil (List.cons_ne_nil _ _))
  refine ⟨_, _, m', (List.dropLast_concat_getLast hne).symm, hm', hdirectory, ?_⟩
  intro hdots
  rw [hdots] at hlast
  obtain rfl := hlast.of_up.eq_of_withoutDots_nil rfl
  apply hm
  by_cases hroot : m' = .root
  · subst hroot
    exact htree.root
  · obtain ⟨d, name, rfl, -, hd⟩ := htree.hasPlace (isSome_entry?_of_node? hdirectory) hroot
    exact hd

namespace Rewritten

variable {fs fs' : FileSystem} {touched : Location → Prop}

theorem symm (h : Rewritten touched fs fs') : Rewritten touched fs' fs where
  workingDirectory := h.workingDirectory.symm
  kept l hl := by
    rcases h.kept l hl with hsame | ⟨⟨node, modified, access⟩, time, he, hnode, he'⟩
    · exact Or.inl hsame.symm
    · exact Or.inr ⟨_, modified, he', hnode, he⟩
  before := h.after
  after := h.before

theorem grown (h : Rewritten touched fs fs') : Grown touched fs fs' where
  workingDirectory := h.workingDirectory
  kept l hl := (h.kept l hl).imp_right Or.inl
  before := h.before
  after := h.after

/-- Files are only where there is a place for them. -/
theorem wellFormed (h : Rewritten touched fs fs') (htree : fs.WellFormed)
    (hplace : ∀ l, touched l → fs.HasPlace l) : fs'.WellFormed := by
  have hplaced : ∀ l name, (fs'.entry? (l.child name)).isSome = true →
      IsName name ∧ fs.node? l = some .directory := by
    intro l name hentry
    by_cases ht : touched (l.child name)
    · obtain ⟨d, last, hd, hname, hnode⟩ := hplace _ ht
      obtain ⟨rfl, rfl⟩ := Location.child_inj.mp hd
      exact ⟨hname, hnode⟩
    · have hentry' := h.symm.grown.preserves.isSome ht hentry
      exact ⟨htree.isName l name hentry', htree.holder l name hentry'⟩
  constructor
  · exact h.grown.directory_kept htree.root
  · exact fun l name hentry => (hplaced l name hentry).1
  · exact fun l name hentry => h.grown.directory_kept (hplaced l name hentry).2

theorem origin_eq (h : Rewritten touched fs fs') (p : Path) : fs'.origin p = fs.origin p :=
  h.grown.origin_eq p

/-- Wherever names lead, they led before, unless they lead to a file that was written. -/
theorem leads_of_leads (h : Rewritten touched fs fs') {here l : Location} {names : List Name}
    (hleads : Leads fs' here names l) (hl : ¬touched l) : Leads fs here names l :=
  h.symm.grown.leads hleads hl

theorem resolve_of_resolve (h : Rewritten touched fs fs') {p : Path} {l : Location}
    (hp : fs'.resolve p = .ok l) (hl : ¬touched l) : fs.resolve p = .ok l :=
  h.symm.grown.preserves.resolve hp hl

/-- What is at a path was there before, unless it is a file that was written. -/
theorem lookup?_or_touched (h : Rewritten touched fs fs') {p : Path} {e : Entry}
    (he : e.node ≠ .directory) (hp : fs'.lookup? p = some e) :
    fs.lookup? p = some e ∨ ∃ l, touched l ∧ fs'.resolve p = .ok l := by
  cases hresolve : fs'.resolve p with
  | error error => simp [lookup?, hresolve] at hp
  | ok l =>
      by_cases hl : touched l
      · exact Or.inr ⟨l, hl, rfl⟩
      · left
        simp only [lookup?, hresolve] at hp
        simp only [lookup?, h.resolve_of_resolve hresolve hl]
        exact (h.grown.entry?_iff hl he).mp hp

/-- A file is put where there is nothing but perhaps a file. -/
theorem of_put {l : Location} (h : fs.IsPlain l) (content : Bytes) (time : Timestamp)
    (access : Access) : Rewritten (· = l) fs (fs.put l ⟨.file content, time, access⟩) where
  workingDirectory := rfl
  kept m hm := by
    rw [entry?_put, if_neg (Ne.symm hm)]
    exact Or.inl rfl
  before := by
    rintro _ rfl
    exact h
  after := by
    rintro _ rfl node hnode
    rw [node?, entry?_put, if_pos rfl] at hnode
    exact ⟨content, (Option.some.inj hnode).symm⟩

/-- A file is taken away. -/
theorem of_take {l : Location} (h : fs.HasFile l) : Rewritten (· = l) fs (fs.take l) := by
  obtain ⟨content, hcontent⟩ := h
  refine (without_take (by rw [hcontent]; simp)).rewritten ?_
  rintro _ rfl
  exact ⟨content, hcontent⟩

end Rewritten
end FileSystem
end Freshness
