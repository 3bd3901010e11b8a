import Freshness.FileSystem.Change
import Freshness.Proofs.FileSystem.Monotonicity

/-!
# Trees with fewer entries

Deleting takes one entry away that is no directory, and gives the directory that held
it a new time.  Whatever a path leads to afterwards it led to before.  A path that led
to a file still does, unless it led to the same file as the deleted path: an entry on
the way is a directory or a link to one, so what was deleted can only have been at the
end.
-/

namespace Freshness
namespace FileSystem

theorem canChange_iff {fs : FileSystem} {l : Location} :
    fs.canChange l = true ↔
      ∃ modified, fs.entry? l = some ⟨.directory, modified, .free⟩ := by
  unfold canChange
  split
  next modified hentry => simp [hentry]
  next hother =>
    constructor
    · intro h
      cases h
    · rintro ⟨modified, hentry⟩
      exact absurd hentry (hother modified)

/-- `fs'` is `fs` without the entries at some locations, none of them a directory.
The times of directories do not count. -/
structure Without (fs : FileSystem) (gone : Location → Prop)
    (fs' : FileSystem) : Prop where
  workingDirectory : fs'.workingDirectory = fs.workingDirectory
  refusal : fs'.refusal? = fs.refusal?
  not_directory : ∀ l, gone l → fs.node? l ≠ some .directory
  absent : ∀ l, gone l → fs'.entry? l = none
  kept : ∀ l, ¬gone l → fs'.entry? l = fs.entry? l ∨
    ∃ e time, fs.entry? l = some e ∧ e.node = .directory ∧
      fs'.entry? l = some { e with modified := time }

namespace Without

variable {fs fs' : FileSystem} {gone : Location → Prop}

theorem refl (fs : FileSystem) : Without fs (fun _ => False) fs where
  workingDirectory := rfl
  refusal := rfl
  not_directory _ h := h.elim
  absent _ h := h.elim
  kept _ _ := Or.inl rfl

theorem congr {gone' : Location → Prop} (h : Without fs gone fs')
    (hgone : ∀ l, gone l ↔ gone' l) : Without fs gone' fs' := by
  obtain rfl : gone = gone' := funext fun l => propext (hgone l)
  exact h

theorem node?_kept (h : Without fs gone fs') {l : Location} (hl : ¬gone l) :
    fs'.node? l = fs.node? l := by
  rcases h.kept l hl with hsame | ⟨e, time, he, hnode, he'⟩
  · rw [node?, node?, hsame]
  · rw [node?, node?, he, he']
    rfl

theorem isSome_entry?_kept (h : Without fs gone fs') {l : Location} (hl : ¬gone l)
    (hentry : (fs.entry? l).isSome = true) : (fs'.entry? l).isSome = true := by
  rcases h.kept l hl with hsame | ⟨e, time, -, -, he'⟩
  · rw [hsame]
    exact hentry
  · rw [he']
    rfl

theorem entry?_kept (h : Without fs gone fs') {l : Location} (hl : ¬gone l)
    (hnode : fs.node? l ≠ some .directory) : fs'.entry? l = fs.entry? l := by
  rcases h.kept l hl with hsame | ⟨e, time, he, hdirectory, -⟩
  · exact hsame
  · rw [node?, he] at hnode
    exact absurd (congrArg some hdirectory) hnode

theorem node?_absent (h : Without fs gone fs') {l : Location} (hl : gone l) :
    fs'.node? l = none := by
  rw [node?, h.absent l hl]
  rfl

theorem not_gone_of_node? (h : Without fs gone fs') {l : Location} {node : Node}
    (hnode : fs'.node? l = some node) : ¬gone l := by
  intro hl
  rw [h.node?_absent hl] at hnode
  cases hnode

theorem node?_of_node? (h : Without fs gone fs') {l : Location} {node : Node}
    (hnode : fs'.node? l = some node) : fs.node? l = some node := by
  rw [← h.node?_kept (h.not_gone_of_node? hnode)]
  exact hnode

theorem isSome_entry?_of_isSome (h : Without fs gone fs') {l : Location}
    (hentry : (fs'.entry? l).isSome = true) : (fs.entry? l).isSome = true := by
  obtain ⟨e, he⟩ := Option.isSome_iff_exists.mp hentry
  have hnode : fs'.node? l = some e.node := by
    rw [node?, he]
    rfl
  have := h.node?_of_node? hnode
  rw [node?] at this
  cases hfs : fs.entry? l with
  | none => simp [hfs] at this
  | some e => rfl

theorem enter_iff (h : Without fs gone fs') (l : Location) :
    fs'.enter l = .ok () ↔ fs.enter l = .ok () := by
  by_cases hl : gone l
  · have hgone := h.not_directory l hl
    simp only [enter, h.absent l hl, reduceCtorEq, false_iff]
    intro henter
    split at henter
    all_goals simp_all [node?]
  · rcases h.kept l hl with hsame | ⟨e, time, he, hnode, he'⟩
    · rw [enter, enter, hsame]
    · obtain ⟨node, modified, access⟩ := e
      obtain rfl : node = .directory := hnode
      rw [enter, enter, he, he']
      cases access <;> simp

theorem passes_iff (h : Without fs gone fs') (here : Location) (name : Name) :
    fs'.Passes here name ↔ fs.Passes here name :=
  ⟨fun hp => ⟨(h.enter_iff here).mp hp.enter, hp.ne_dot, hp.ne_dots,
      hp.length_le⟩,
    fun hp => ⟨(h.enter_iff here).mpr hp.enter, hp.ne_dot, hp.ne_dots,
      hp.length_le⟩⟩

/-- What is in the smaller tree is in the larger one. -/
theorem larger (h : Without fs gone fs') : Preserves (fun _ => False) fs' fs where
  workingDirectory := h.workingDirectory.symm
  enter := (h.enter_iff _).mp
  node _ := h.node?_of_node?
  plain := False.elim

/-- What is found in the larger tree is found in the smaller one, or is gone, or was
found through a link that is gone. -/
theorem finds_or_gone (h : Without fs gone fs')
    {purpose : Purpose} {links : Nat} {slash : Bool} {here l : Location}
    {names : List Name} (hfinds : Finds fs purpose links slash here names l) :
    Finds fs' purpose links slash here names l ∨ gone l ∨
      ∃ e target rest, gone e ∧ fs.node? e = some (.link target) ∧
        (purpose = .inspect →
          Leads fs (linkOrigin e.holder target) (route target ++ rest) l) := by
  induction hfinds with
  | @stay links slash l hslash hentry =>
      by_cases hl : gone l
      · exact Or.inr (Or.inl hl)
      · refine Or.inl (Finds.stay (fun hs => ?_) (h.isSome_entry?_kept hl hentry))
        rw [h.node?_kept hl]
        exact hslash hs
  | current henter _ ih =>
      exact ih.imp_left (Finds.current ((h.enter_iff _).mpr henter))
  | up henter _ ih =>
      exact ih.imp_left (Finds.up ((h.enter_iff _).mpr henter))
  | @last links slash here name hpurpose hname hentry =>
      by_cases hl : gone (here.child name)
      · exact Or.inr (Or.inl hl)
      · exact Or.inl (Finds.last hpurpose ((h.passes_iff _ _).mpr hname)
          (h.isSome_entry?_kept hl hentry))
  | @link links slash here name rest target l hname hrearrange hwrite hnode
      hrest ih =>
      by_cases he : gone (here.child name)
      · right
        right
        refine ⟨here.child name, target, rest, he, hnode, ?_⟩
        rintro rfl
        exact hrest.leads
      · apply ih.imp_left
        exact Finds.link ((h.passes_iff _ _).mpr hname) hrearrange hwrite
          (by rw [h.node?_kept he]; exact hnode)
  | @step links slash here name rest node l hname hrearrange hwrite hnode hlink
      hrest ih =>
      by_cases he : gone (here.child name)
      · -- what is gone is no directory, so the walk ends there
        have hnil : rest = [] := by
          by_contra hne
          obtain ⟨next, tail, rfl⟩ := List.exists_cons_of_ne_nil hne
          obtain ⟨modified, access, hentry⟩ :=
            entry?_of_enter (hrest.enter_of_cons)
          apply h.not_directory _ he
          rw [node?, hentry]
          rfl
        subst hnil
        obtain rfl := hrest.eq_of_nil
        exact Or.inr (Or.inl he)
      · apply ih.imp_left
        exact Finds.step ((h.passes_iff _ _).mpr hname) hrearrange hwrite
          (by rw [h.node?_kept he]; exact hnode) hlink

/-- A walk that stopped at an entry which is gone finds nothing. -/
theorem not_finds_of_gone (h : Without fs gone fs')
    {links : Nat} {slash : Bool} {here e : Location} {names : List Name}
    (hfinds : Finds fs .rearrange links slash here names e) (he : gone e)
    (links' : Nat) (slash' : Bool) (l : Location) :
    ¬Finds fs' .inspect links' slash' here names l := by
  intro hfinds'
  induction hfinds generalizing links' slash' l with
  | stay _ _ =>
      cases hfinds' with
      | stay _ hentry => simp [h.absent _ he] at hentry
  | current _ _ ih =>
      cases hfinds' with
      | current _ hrest => exact ih he _ _ _ hrest
      | last hpurpose _ _ => cases hpurpose
      | link hname _ _ _ _ => exact hname.ne_dot rfl
      | step hname _ _ _ _ _ => exact hname.ne_dot rfl
  | up _ _ ih =>
      cases hfinds' with
      | up _ hrest => exact ih he _ _ _ hrest
      | last hpurpose _ _ => cases hpurpose
      | link hname _ _ _ _ => exact hname.ne_dots rfl
      | step hname _ _ _ _ _ => exact hname.ne_dots rfl
  | last _ hname _ =>
      cases hfinds' with
      | current _ _ => exact hname.ne_dot rfl
      | up _ _ => exact hname.ne_dots rfl
      | last hpurpose _ _ => cases hpurpose
      | link _ _ _ hnode _ => simp [h.node?_absent he] at hnode
      | step _ _ _ hnode _ _ => simp [h.node?_absent he] at hnode
  | link hname _ _ hnode _ ih =>
      cases hfinds' with
      | current _ _ => exact hname.ne_dot rfl
      | up _ _ => exact hname.ne_dots rfl
      | last hpurpose _ _ => cases hpurpose
      | link _ _ _ hnode' hrest =>
          rw [h.node?_of_node? hnode'] at hnode
          cases hnode
          exact ih he _ _ _ hrest
      | step _ _ _ hnode' hlink' _ =>
          rw [h.node?_of_node? hnode'] at hnode
          cases hnode
          exact hlink' _ rfl
  | step hname _ _ hnode hlink _ ih =>
      cases hfinds' with
      | current _ _ => exact hname.ne_dot rfl
      | up _ _ => exact hname.ne_dots rfl
      | last hpurpose _ _ => cases hpurpose
      | link _ _ _ hnode' _ =>
          rw [h.node?_of_node? hnode'] at hnode
          cases hnode
          exact hlink _ rfl
      | step _ _ _ _ _ hrest => exact ih he _ _ _ hrest

theorem canChange_eq (h : Without fs gone fs') (l : Location) :
    fs'.canChange l = fs.canChange l := by
  rw [Bool.eq_iff_iff, canChange_iff, canChange_iff]
  by_cases hl : gone l
  · have hgone := h.not_directory l hl
    rw [h.absent l hl]
    constructor
    · rintro ⟨modified, hentry⟩
      cases hentry
    · rintro ⟨modified, hentry⟩
      rw [node?, hentry] at hgone
      exact absurd rfl hgone
  · rcases h.kept l hl with hsame | ⟨e, time, he, hnode, he'⟩
    · rw [hsame]
    · obtain ⟨node, modified, access⟩ := e
      obtain rfl : node = .directory := hnode
      simp [he, he']

theorem trans (h : Without fs gone fs') {gone' : Location → Prop}
    {fs'' : FileSystem} (h' : Without fs' gone' fs'') :
    Without fs (fun l => gone l ∨ gone' l) fs'' where
  workingDirectory := h'.workingDirectory.trans h.workingDirectory
  refusal := h'.refusal.trans h.refusal
  not_directory l hl := by
    by_cases hgone : gone l
    · exact h.not_directory l hgone
    · rw [← h.node?_kept hgone]
      exact h'.not_directory l (hl.resolve_left hgone)
  absent l hl := by
    by_cases hgone : gone' l
    · exact h'.absent l hgone
    · rcases h'.kept l hgone with hsame | ⟨e, time, he, -, -⟩
      · rw [hsame]
        exact h.absent l (hl.resolve_right hgone)
      · rw [h.absent l (hl.resolve_right hgone)] at he
        cases he
  kept l hl := by
    obtain ⟨hgone, hgone'⟩ := not_or.mp hl
    rcases h'.kept l hgone' with hsame' | ⟨e', time', he', hnode', hl'⟩
    · rw [hsame']
      exact h.kept l hgone
    · rcases h.kept l hgone with hsame | ⟨e, time, he, hnode, hl⟩
      · exact Or.inr ⟨e', time', hsame ▸ he', hnode', hl'⟩
      · rw [hl] at he'
        cases he'
        exact Or.inr ⟨e, time', he, hnode, hl'⟩

theorem origin_eq (h : Without fs gone fs') (p : Path) :
    fs'.origin p = fs.origin p := by
  rw [origin, origin, h.workingDirectory]

/-- Whatever a path leads to it led to before. -/
theorem resolve_of_resolve (h : Without fs gone fs') {p : Path} {l : Location}
    (hl : fs'.resolve p = .ok l) : fs.resolve p = .ok l :=
  h.larger.resolve hl id

theorem locate_of_locate (h : Without fs gone fs')
    {purpose : Purpose} {p : Path} {l : Location}
    (hl : fs'.locate purpose p = .ok (.found l)) :
    fs.locate purpose p = .ok (.found l) :=
  h.larger.locate hl id

end Without
end FileSystem
end Freshness
