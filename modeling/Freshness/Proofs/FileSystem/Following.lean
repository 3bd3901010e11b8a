import Freshness.FileSystem.Lookup
import Mathlib.Data.List.Basic

/-!
# Where names lead

`Finds` says of each way in which a walk can end at an entry what it takes.  `Leads`
forgets the links left, the slash and the purpose: it is the meaning of a list of
names in a tree.  It is a function of the names other than `.`, and it takes a list of
names in two parts.
-/

namespace Freshness
namespace FileSystem

/-- Where the target of a link in the directory `here` is followed from. -/
def linkOrigin (here : Location) (target : Path) : Location :=
  if target.isAbsolute then .root else here

/-- An entry can be looked for under `name` in the directory `here`. -/
structure Passes (fs : FileSystem) (here : Location) (name : Name) : Prop where
  enter : fs.enter here = .ok ()
  ne_dot : name ≠ [Path.dot]
  ne_dots : name ≠ [Path.dot, Path.dot]
  length_le : name.length ≤ maximalNameLength

/-- The walk along some names ends at an entry. -/
inductive Finds (fs : FileSystem) (purpose : Purpose) :
    Nat → Bool → Location → List Name → Location → Prop
  | stay {links slash l}
      (hslash : slash = true → fs.node? l = some .directory)
      (hentry : (fs.entry? l).isSome = true) :
      Finds fs purpose links slash l [] l
  | current {links slash here rest l}
      (henter : fs.enter here = .ok ())
      (hrest : Finds fs purpose links slash here rest l) :
      Finds fs purpose links slash here ([Path.dot] :: rest) l
  | up {links slash here rest l}
      (henter : fs.enter here = .ok ())
      (hrest : Finds fs purpose links slash here.holder rest l) :
      Finds fs purpose links slash here ([Path.dot, Path.dot] :: rest) l
  | last {links slash here name}
      (hpurpose : purpose = .rearrange)
      (hname : fs.Passes here name)
      (hentry : (fs.entry? (here.child name)).isSome = true) :
      Finds fs purpose links slash here [name] (here.child name)
  | link {links slash here name rest target l}
      (hname : fs.Passes here name)
      (hrearrange : ¬(rest = [] ∧ purpose = .rearrange))
      (hwrite : ¬(rest = [] ∧ slash = true ∧ purpose = .write))
      (hnode : fs.node? (here.child name) = some (.link target))
      (hrest : Finds fs purpose links
        (slash || rest.isEmpty && endsInSeparator target)
        (linkOrigin here target) (route target ++ rest) l) :
      Finds fs purpose (links + 1) slash here (name :: rest) l
  | step {links slash here name rest node l}
      (hname : fs.Passes here name)
      (hrearrange : ¬(rest = [] ∧ purpose = .rearrange))
      (hwrite : ¬(rest = [] ∧ slash = true ∧ purpose = .write))
      (hnode : fs.node? (here.child name) = some node)
      (hlink : ∀ target, node ≠ .link target)
      (hrest : Finds fs purpose links slash (here.child name) rest l) :
      Finds fs purpose links slash here (name :: rest) l

theorem placeAt_eq_found {fs : FileSystem} {here l : Location} :
    fs.placeAt here = .found l ↔ l = here ∧ (fs.entry? l).isSome = true := by
  unfold placeAt
  split
  next h =>
    simp only [Place.found.injEq]
    constructor
    · rintro rfl
      exact ⟨rfl, h⟩
    · rintro ⟨rfl, -⟩
      rfl
  next h =>
    simp only [reduceCtorEq, false_iff]
    rintro ⟨rfl, h'⟩
    exact h h'

theorem placeAt_eq_vacant {fs : FileSystem} {here l : Location}
    (h : fs.placeAt here = .vacant l) : l = here ∧ fs.entry? here = none := by
  unfold placeAt at h
  split at h
  · cases h
  next hentry =>
    cases h
    exact ⟨rfl, by simpa using hentry⟩

theorem finds_of_walk
    {fs : FileSystem} {purpose : Purpose} {links : Nat} {slash : Bool}
    {here l : Location} {names : List Name}
    (h : fs.walk purpose links slash here names = .ok (.found l)) :
    Finds fs purpose links slash here names l := by
  fun_induction FileSystem.walk fs purpose links slash here names with
  | case2 links slash here hslash =>
      obtain ⟨rfl, hentry⟩ := placeAt_eq_found.mp (Except.ok.inj h)
      refine Finds.stay (fun hs => ?_) hentry
      by_contra hdirectory
      exact hslash ⟨hs, hdirectory⟩
  | case4 links slash here rest henter ih => exact Finds.current henter (ih h)
  | case5 links slash here rest henter hne ih => exact Finds.up henter (ih h)
  | case8 links slash here name rest henter hdot hdots hwrite hlength next hlast =>
      obtain ⟨rfl, hpurpose⟩ := hlast
      obtain ⟨rfl, hentry⟩ := placeAt_eq_found.mp (Except.ok.inj h)
      exact Finds.last hpurpose ⟨henter, hdot, hdots, by omega⟩ hentry
  | case12 slash here name rest henter hdot hdots hwrite hlength next
      hrearrange target hnode links ih =>
      exact Finds.link ⟨henter, hdot, hdots, by omega⟩ hrearrange hwrite hnode
        (ih h)
  | case13 links slash here name rest henter hdot hdots hwrite hlength next
      hrearrange node hlink hnode ih =>
      exact Finds.step ⟨henter, hdot, hdots, by omega⟩ hrearrange hwrite hnode
        (fun target ht => hlink target ht) (ih h)
  | _ => cases h

theorem walk_of_finds
    {fs : FileSystem} {purpose : Purpose} {links : Nat} {slash : Bool}
    {here l : Location} {names : List Name}
    (h : Finds fs purpose links slash here names l) :
    fs.walk purpose links slash here names = .ok (.found l) := by
  induction h with
  | @stay links slash l hslash hentry =>
      rw [walk, if_neg fun h => h.2 (hslash h.1)]
      rw [placeAt_eq_found.mpr ⟨rfl, hentry⟩]
  | current henter _ ih => rw [walk, henter]; simpa using ih
  | up henter _ ih =>
      rw [walk, henter]
      simpa [show ¬[Path.dot, Path.dot] = [Path.dot] by simp] using ih
  | last hpurpose hname hentry =>
      subst hpurpose
      have hlength := hname.length_le
      rw [walk, hname.enter]
      simp only [hname.ne_dot, hname.ne_dots, if_false]
      rw [if_neg (by simp), if_neg (by omega), if_pos (by simp),
        placeAt_eq_found.mpr ⟨rfl, hentry⟩]
  | link hname hrearrange hwrite hnode _ ih =>
      have hlength := hname.length_le
      rw [walk, hname.enter]
      simp only [hname.ne_dot, hname.ne_dots, if_false]
      rw [if_neg hwrite, if_neg (by omega), if_neg hrearrange, hnode]
      exact ih
  | @step links slash here name rest node l hname hrearrange hwrite hnode
      hlink _ ih =>
      have hlength := hname.length_le
      rw [walk, hname.enter]
      simp only [hname.ne_dot, hname.ne_dots, if_false]
      rw [if_neg hwrite, if_neg (by omega), if_neg hrearrange, hnode]
      cases node with
      | link target => exact absurd rfl (hlink target)
      | file content => exact ih
      | directory => exact ih

/-- A walk ends at an entry exactly when it finds it. -/
theorem walk_eq_found_iff
    {fs : FileSystem} {purpose : Purpose} {links : Nat} {slash : Bool}
    {here l : Location} {names : List Name} :
    fs.walk purpose links slash here names = .ok (.found l) ↔
      Finds fs purpose links slash here names l :=
  ⟨finds_of_walk, walk_of_finds⟩

/-- What a path must be to be followed at all. -/
structure CanFollow (p : Path) : Prop where
  no_nul : 0 ∉ p.bytes
  ne_nil : p.bytes ≠ []
  length_le : p.bytes.length ≤ maximalPathLength

theorem locate_eq (fs : FileSystem) (purpose : Purpose) (p : Path) :
    fs.locate purpose p =
      if 0 ∈ p.bytes then .error .nulInPath
      else if p.bytes = [] then .error .notFound
      else if maximalPathLength < p.bytes.length then .error .nameTooLong
      else fs.walk purpose maximalLinks (endsInSeparator p) (fs.origin p)
        (route p) := by
  simp only [locate, List.contains_iff_mem, bind, Except.bind, throw, throwThe,
    MonadExceptOf.throw, gt_iff_lt]

theorem locate_eq_ok_iff
    {fs : FileSystem} {purpose : Purpose} {p : Path} {place : Place} :
    fs.locate purpose p = .ok place ↔ CanFollow p ∧
      fs.walk purpose maximalLinks (endsInSeparator p) (fs.origin p) (route p) =
        .ok place := by
  rw [locate_eq]
  constructor
  · intro h
    split_ifs at h with hnul hnil hlong
    exact ⟨⟨hnul, hnil, by omega⟩, h⟩
  · rintro ⟨hfollow, h⟩
    rw [if_neg hfollow.no_nul, if_neg hfollow.ne_nil,
      if_neg (Nat.not_lt.mpr hfollow.length_le)]
    exact h

theorem locate_eq_found_iff
    {fs : FileSystem} {purpose : Purpose} {p : Path} {l : Location} :
    fs.locate purpose p = .ok (.found l) ↔ CanFollow p ∧
      Finds fs purpose maximalLinks (endsInSeparator p) (fs.origin p)
        (route p) l := by
  rw [locate_eq_ok_iff, walk_eq_found_iff]

theorem resolve_eq_ok_iff_locate
    {fs : FileSystem} {p : Path} {l : Location} :
    fs.resolve p = .ok l ↔ fs.locate .inspect p = .ok (.found l) := by
  rw [resolve]
  cases hplace : fs.locate .inspect p with
  | error e => simp [bind, Except.bind]
  | ok place =>
      cases place with
      | found m => simp [bind, Except.bind, pure, Except.pure]
      | vacant m => simp [bind, Except.bind, throw, throwThe, MonadExceptOf.throw]

theorem resolve_eq_ok_iff
    {fs : FileSystem} {p : Path} {l : Location} :
    fs.resolve p = .ok l ↔ CanFollow p ∧
      Finds fs .inspect maximalLinks (endsInSeparator p) (fs.origin p)
        (route p) l := by
  rw [resolve_eq_ok_iff_locate, locate_eq_found_iff]

theorem isSome_entry?_of_node? {fs : FileSystem} {l : Location} {node : Node}
    (h : fs.node? l = some node) : (fs.entry? l).isSome = true := by
  rw [node?] at h
  cases hentry : fs.entry? l with
  | none => simp [hentry] at h
  | some e => rfl

theorem entry?_of_enter {fs : FileSystem} {l : Location}
    (h : fs.enter l = .ok ()) :
    ∃ modified access, fs.entry? l = some ⟨.directory, modified, access⟩ := by
  unfold enter at h
  split at h
  · cases h
  · cases h
  next modified access _ hentry => exact ⟨modified, access, hentry⟩
  · cases h

theorem node?_of_enter {fs : FileSystem} {l : Location}
    (h : fs.enter l = .ok ()) : fs.node? l = some .directory := by
  obtain ⟨modified, access, hentry⟩ := entry?_of_enter h
  rw [node?, hentry]
  rfl

theorem Finds.entry_isSome
    {fs : FileSystem} {purpose : Purpose} {links : Nat} {slash : Bool}
    {here l : Location} {names : List Name}
    (h : Finds fs purpose links slash here names l) :
    (fs.entry? l).isSome = true := by
  induction h with
  | stay _ hentry => exact hentry
  | last _ _ hentry => exact hentry
  | current _ _ ih => exact ih
  | up _ _ ih => exact ih
  | link _ _ _ _ _ ih => exact ih
  | step _ _ _ _ _ _ ih => exact ih

theorem Finds.eq_of_nil
    {fs : FileSystem} {purpose : Purpose} {links : Nat} {slash : Bool}
    {here l : Location} (h : Finds fs purpose links slash here [] l) :
    l = here := by
  cases h
  rfl

theorem Finds.enter_of_cons
    {fs : FileSystem} {purpose : Purpose} {links : Nat} {slash : Bool}
    {here l : Location} {name : Name} {rest : List Name}
    (h : Finds fs purpose links slash here (name :: rest) l) :
    fs.enter here = .ok () := by
  cases h with
  | current henter _ => exact henter
  | up henter _ => exact henter
  | last _ hname _ => exact hname.enter
  | link hname _ _ _ _ => exact hname.enter
  | step hname _ _ _ _ _ => exact hname.enter

/-- Where the entry itself is looked for instead of what it links to, it is found
as well. -/
theorem Finds.exists_rearrange
    {fs : FileSystem} {links : Nat} {slash : Bool}
    {here l : Location} {names : List Name}
    (h : Finds fs .inspect links slash here names l) :
    ∃ e, Finds fs .rearrange links slash here names e := by
  induction h with
  | stay hslash hentry => exact ⟨_, Finds.stay hslash hentry⟩
  | current henter _ ih =>
      obtain ⟨e, he⟩ := ih
      exact ⟨e, Finds.current henter he⟩
  | up henter _ ih =>
      obtain ⟨e, he⟩ := ih
      exact ⟨e, Finds.up henter he⟩
  | last hpurpose _ _ => cases hpurpose
  | @link links slash here name rest target l hname _ _ hnode _ ih =>
      by_cases hrest : rest = []
      · subst hrest
        exact ⟨_, Finds.last rfl hname (isSome_entry?_of_node? hnode)⟩
      · obtain ⟨e, he⟩ := ih
        exact ⟨e, Finds.link hname (fun hlast => hrest hlast.1)
          (fun hwrite => hrest hwrite.1) hnode he⟩
  | @step links slash here name rest node l hname _ _ hnode hlink _ ih =>
      by_cases hrest : rest = []
      · subst hrest
        exact ⟨_, Finds.last rfl hname (isSome_entry?_of_node? hnode)⟩
      · obtain ⟨e, he⟩ := ih
        exact ⟨e, Finds.step hname (fun hlast => hrest hlast.1)
          (fun hwrite => hrest hwrite.1) hnode hlink he⟩

/-! ## The meaning of a list of names -/

/-- Some names lead from one location to another. -/
inductive Leads (fs : FileSystem) : Location → List Name → Location → Prop
  | stay {l} : Leads fs l [] l
  | current {here rest l}
      (henter : fs.enter here = .ok ())
      (hrest : Leads fs here rest l) :
      Leads fs here ([Path.dot] :: rest) l
  | up {here rest l}
      (henter : fs.enter here = .ok ())
      (hrest : Leads fs here.holder rest l) :
      Leads fs here ([Path.dot, Path.dot] :: rest) l
  | link {here name rest target l}
      (hname : fs.Passes here name)
      (hnode : fs.node? (here.child name) = some (.link target))
      (hrest : Leads fs (linkOrigin here target) (route target ++ rest) l) :
      Leads fs here (name :: rest) l
  | step {here name rest node l}
      (hname : fs.Passes here name)
      (hnode : fs.node? (here.child name) = some node)
      (hlink : ∀ target, node ≠ .link target)
      (hrest : Leads fs (here.child name) rest l) :
      Leads fs here (name :: rest) l

theorem Finds.leads
    {fs : FileSystem} {links : Nat} {slash : Bool}
    {here l : Location} {names : List Name}
    (h : Finds fs .inspect links slash here names l) :
    Leads fs here names l := by
  induction h with
  | stay _ _ => exact Leads.stay
  | current henter _ ih => exact Leads.current henter ih
  | up henter _ ih => exact Leads.up henter ih
  | last hpurpose _ _ => cases hpurpose
  | link hname _ _ hnode _ ih => exact Leads.link hname hnode ih
  | step hname _ _ hnode hlink _ ih => exact Leads.step hname hnode hlink ih

theorem Leads.enter_of_ne_nil
    {fs : FileSystem} {here l : Location} {names : List Name}
    (h : Leads fs here names l) (hne : names ≠ []) : fs.enter here = .ok () := by
  cases h with
  | stay => exact absurd rfl hne
  | current henter _ => exact henter
  | up henter _ => exact henter
  | link hname _ _ => exact hname.enter
  | step hname _ _ _ => exact hname.enter

theorem Leads.of_current
    {fs : FileSystem} {here l : Location} {rest : List Name}
    (h : Leads fs here ([Path.dot] :: rest) l) : Leads fs here rest l := by
  cases h with
  | current _ hrest => exact hrest
  | link hname _ _ => exact absurd rfl hname.ne_dot
  | step hname _ _ _ => exact absurd rfl hname.ne_dot

theorem Leads.of_up
    {fs : FileSystem} {here l : Location} {rest : List Name}
    (h : Leads fs here ([Path.dot, Path.dot] :: rest) l) : Leads fs here.holder rest l := by
  cases h with
  | up _ hrest => exact hrest
  | link hname _ _ => exact absurd rfl hname.ne_dots
  | step hname _ _ _ => exact absurd rfl hname.ne_dots

/-- Any other name is that of a link, which is followed, or of something else. -/
theorem Leads.cons_cases
    {fs : FileSystem} {here l : Location} {name : Name} {rest : List Name}
    (h : Leads fs here (name :: rest) l) (hdot : name ≠ [Path.dot])
    (hdots : name ≠ [Path.dot, Path.dot]) :
    fs.Passes here name ∧
      ((∃ target, fs.node? (here.child name) = some (.link target) ∧
        Leads fs (linkOrigin here target) (route target ++ rest) l) ∨
      ∃ node, fs.node? (here.child name) = some node ∧ (∀ target, node ≠ .link target) ∧
        Leads fs (here.child name) rest l) := by
  cases h with
  | current _ _ => exact absurd rfl hdot
  | up _ _ => exact absurd rfl hdots
  | link hname hnode hrest => exact ⟨hname, Or.inl ⟨_, hnode, hrest⟩⟩
  | step hname hnode hlink hrest => exact ⟨hname, Or.inr ⟨_, hnode, hlink, hrest⟩⟩

theorem Leads.of_link
    {fs : FileSystem} {here l : Location} {name : Name} {rest : List Name} {target : Path}
    (h : Leads fs here (name :: rest) l) (hname : fs.Passes here name)
    (hnode : fs.node? (here.child name) = some (.link target)) :
    Leads fs (linkOrigin here target) (route target ++ rest) l := by
  obtain ⟨-, ⟨target', htarget, hrest⟩ | ⟨node, hother, hlink, -⟩⟩ :=
    h.cons_cases hname.ne_dot hname.ne_dots
  · rw [hnode] at htarget
    cases htarget
    exact hrest
  · rw [hnode] at hother
    exact absurd (Option.some.inj hother).symm (hlink target)

theorem Leads.of_step
    {fs : FileSystem} {here l : Location} {name : Name} {rest : List Name} {node : Node}
    (h : Leads fs here (name :: rest) l) (hname : fs.Passes here name)
    (hnode : fs.node? (here.child name) = some node) (hlink : ∀ target, node ≠ .link target) :
    Leads fs (here.child name) rest l := by
  obtain ⟨-, ⟨target, htarget, -⟩ | ⟨_, -, -, hrest⟩⟩ :=
    h.cons_cases hname.ne_dot hname.ne_dots
  · rw [hnode] at htarget
    exact absurd (Option.some.inj htarget) (hlink target)
  · exact hrest

/-- Names in two parts lead through a location in between. -/
theorem Leads.append
    {fs : FileSystem} {here l : Location} {names rest : List Name}
    (h : Leads fs here (names ++ rest) l) :
    ∃ m, Leads fs here names m ∧ Leads fs m rest l := by
  generalize hall : names ++ rest = all at h
  induction h generalizing names with
  | @stay l =>
      obtain ⟨rfl, rfl⟩ := List.append_eq_nil_iff.mp hall
      exact ⟨l, Leads.stay, Leads.stay⟩
  | @current here _ l henter hrest ih =>
      rcases List.append_eq_cons_iff.mp hall with
        ⟨rfl, rfl⟩ | ⟨names, rfl, htail⟩
      · exact ⟨here, Leads.stay, Leads.current henter hrest⟩
      · obtain ⟨m, hm, hl⟩ := ih htail.symm
        exact ⟨m, Leads.current henter hm, hl⟩
  | @up here _ l henter hrest ih =>
      rcases List.append_eq_cons_iff.mp hall with
        ⟨rfl, rfl⟩ | ⟨names, rfl, htail⟩
      · exact ⟨here, Leads.stay, Leads.up henter hrest⟩
      · obtain ⟨m, hm, hl⟩ := ih htail.symm
        exact ⟨m, Leads.up henter hm, hl⟩
  | @link here name _ target l hname hnode hrest ih =>
      rcases List.append_eq_cons_iff.mp hall with
        ⟨rfl, rfl⟩ | ⟨names, rfl, htail⟩
      · exact ⟨here, Leads.stay, Leads.link hname hnode hrest⟩
      · obtain ⟨m, hm, hl⟩ := @ih (route target ++ names)
          (by rw [htail, List.append_assoc])
        exact ⟨m, Leads.link hname hnode hm, hl⟩
  | @step here name _ node l hname hnode hlink hrest ih =>
      rcases List.append_eq_cons_iff.mp hall with
        ⟨rfl, rfl⟩ | ⟨names, rfl, htail⟩
      · exact ⟨here, Leads.stay, Leads.step hname hnode hlink hrest⟩
      · obtain ⟨m, hm, hl⟩ := ih htail.symm
        exact ⟨m, Leads.step hname hnode hlink hm, hl⟩

/-- The entry that a path stands for itself is what it leads to, or a link to that. -/
theorem Finds.eq_or_link
    {fs : FileSystem} {links : Nat} {slash : Bool}
    {here e l : Location} {names : List Name}
    (h : Finds fs .rearrange links slash here names e)
    (hleads : Leads fs here names l) :
    l = e ∨ ∃ target, fs.node? e = some (.link target) ∧
      Leads fs (linkOrigin e.holder target) (route target) l := by
  induction h with
  | stay _ _ =>
      cases hleads
      exact Or.inl rfl
  | current _ _ ih => exact ih hleads.of_current
  | up _ _ ih => exact ih hleads.of_up
  | last _ hname _ =>
      obtain ⟨-, ⟨target, hnode, hrest⟩ | ⟨node, -, -, hrest⟩⟩ :=
        hleads.cons_cases hname.ne_dot hname.ne_dots
      · rw [List.append_nil] at hrest
        exact Or.inr ⟨target, hnode, hrest⟩
      · cases hrest
        exact Or.inl rfl
  | link hname _ _ hnode _ ih => exact ih (hleads.of_link hname hnode)
  | step hname _ _ hnode hlink _ ih => exact ih (hleads.of_step hname hnode hlink)

/-- The names that count. -/
def withoutDots (names : List Name) : List Name :=
  names.filter (· ≠ [Path.dot])

/-- A `.` can be left out. -/
theorem Leads.of_sublist
    {fs : FileSystem} {here l : Location} {names names' : List Name}
    (h : Leads fs here names l) (hsub : names'.Sublist names)
    (hnames : withoutDots names' = withoutDots names) : Leads fs here names' l := by
  have hshorter : ∀ {name : Name} {some' rest : List Name}, name ≠ [Path.dot] →
      some'.Sublist rest → withoutDots some' ≠ withoutDots (name :: rest) := by
    intro name some' rest hname hrest heq
    have hle : (withoutDots some').length ≤ (withoutDots rest).length :=
      (hrest.filter _).length_le
    have hcons : withoutDots (name :: rest) = name :: withoutDots rest :=
      List.filter_cons_of_pos (by simpa using hname)
    rw [heq, hcons, List.length_cons] at hle
    omega
  have htail : ∀ {name : Name} {some' rest : List Name},
      withoutDots (name :: some') = withoutDots (name :: rest) →
        withoutDots some' = withoutDots rest := by
    intro name some' rest heq
    by_cases hname : name = [Path.dot]
    · simpa [withoutDots, hname] using heq
    · simpa [withoutDots, hname] using heq
  induction h generalizing names' with
  | stay =>
      obtain rfl := List.sublist_nil.mp hsub
      exact Leads.stay
  | current henter _ ih =>
      cases hsub with
      | cons _ hrest => exact ih hrest (by simpa [withoutDots] using hnames)
      | cons_cons _ hrest => exact Leads.current henter (ih hrest (htail hnames))
  | up henter _ ih =>
      cases hsub with
      | cons _ hrest => exact absurd hnames (hshorter (by simp) hrest)
      | cons_cons _ hrest => exact Leads.up henter (ih hrest (htail hnames))
  | link hname hnode _ ih =>
      cases hsub with
      | cons _ hrest => exact absurd hnames (hshorter hname.ne_dot hrest)
      | cons_cons _ hrest =>
          refine Leads.link hname hnode (ih (hrest.append_left _) ?_)
          have hsame := htail hnames
          simp only [withoutDots, List.filter_append] at hsame ⊢
          rw [hsame]
  | step hname hnode hlink _ ih =>
      cases hsub with
      | cons _ hrest => exact absurd hnames (hshorter hname.ne_dot hrest)
      | cons_cons _ hrest => exact Leads.step hname hnode hlink (ih hrest (htail hnames))

theorem Leads.dropDots
    {fs : FileSystem} {here l : Location} {names : List Name}
    (h : Leads fs here names l) : Leads fs here (withoutDots names) l :=
  h.of_sublist List.filter_sublist (by simp [withoutDots])

theorem Leads.trans
    {fs : FileSystem} {here m l : Location} {names rest : List Name}
    (h : Leads fs here names m) (hrest : Leads fs m rest l) :
    Leads fs here (names ++ rest) l := by
  induction h with
  | stay => exact hrest
  | current henter _ ih => exact Leads.current henter (ih hrest)
  | up henter _ ih => exact Leads.up henter (ih hrest)
  | link hname hnode _ ih =>
      have hrest' := ih hrest
      rw [List.append_assoc] at hrest'
      exact Leads.link hname hnode hrest'
  | step hname hnode hlink _ ih => exact Leads.step hname hnode hlink (ih hrest)

theorem Leads.eq_of_withoutDots_nil
    {fs : FileSystem} {here l : Location} {names : List Name}
    (h : Leads fs here names l) (hnil : withoutDots names = []) :
    l = here := by
  induction h with
  | stay => rfl
  | current _ _ ih => exact ih (by simpa [withoutDots] using hnil)
  | up _ _ _ => simp [withoutDots] at hnil
  | link hname _ _ _ => simp [withoutDots, hname.ne_dot] at hnil
  | step hname _ _ _ _ => simp [withoutDots, hname.ne_dot] at hnil

/-- The `.`s before the first name that counts can be left out. -/
theorem Leads.skip
    {fs : FileSystem} {here l : Location} {names rest : List Name} {name : Name}
    (h : Leads fs here names l) (hname : name ≠ [Path.dot])
    (hnames : withoutDots (name :: rest) = withoutDots names) :
    ∃ rest', Leads fs here (name :: rest') l ∧ withoutDots rest = withoutDots rest' := by
  have hhead : ∀ {other : Name} {tail : List Name}, other ≠ [Path.dot] →
      withoutDots (name :: rest) = withoutDots (other :: tail) →
        name = other ∧ withoutDots rest = withoutDots tail := by
    intro other tail hother heq
    rw [withoutDots, withoutDots, List.filter_cons_of_pos (by simpa using hname),
      List.filter_cons_of_pos (by simpa using hother)] at heq
    exact List.cons.inj heq
  induction h with
  | stay => simp [withoutDots, hname] at hnames
  | current _ _ ih => exact ih (by simpa [withoutDots] using hnames)
  | @up here tail l henter hrest _ =>
      obtain ⟨rfl, htail⟩ := hhead (by simp) hnames
      exact ⟨tail, Leads.up henter hrest, htail⟩
  | @link here _ tail target l hpasses hnode hrest _ =>
      obtain ⟨rfl, htail⟩ := hhead hpasses.ne_dot hnames
      exact ⟨tail, Leads.link hpasses hnode hrest, htail⟩
  | @step here _ tail node l hpasses hnode hlink hrest _ =>
      obtain ⟨rfl, htail⟩ := hhead hpasses.ne_dot hnames
      exact ⟨tail, Leads.step hpasses hnode hlink hrest, htail⟩

/-- Names that differ in `.`s only cannot lead to different locations. -/
theorem Leads.unique
    {fs : FileSystem} {here l m : Location} {names names' : List Name}
    (h : Leads fs here names l) (h' : Leads fs here names' m)
    (hnames : withoutDots names = withoutDots names') : l = m := by
  induction h generalizing names' m with
  | stay => exact (h'.eq_of_withoutDots_nil hnames.symm).symm
  | current _ _ ih => exact ih h' (by simpa [withoutDots] using hnames)
  | up _ _ ih =>
      obtain ⟨rest', hskip, hrest⟩ := h'.skip (by simp) hnames
      exact ih hskip.of_up hrest
  | link hname hnode _ ih =>
      obtain ⟨rest', hskip, hrest⟩ := h'.skip hname.ne_dot hnames
      refine ih (hskip.of_link hname hnode) ?_
      simp only [withoutDots, List.filter_append] at hrest ⊢
      rw [hrest]
  | step hname hnode hlink _ ih =>
      obtain ⟨rest', hskip, hrest⟩ := h'.skip hname.ne_dot hnames
      exact ih (hskip.of_step hname hnode hlink) hrest

end FileSystem
end Freshness
