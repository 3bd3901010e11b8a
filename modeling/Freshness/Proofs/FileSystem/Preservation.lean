import Freshness.FileSystem.Arrangement
import Freshness.Proofs.FileSystem.Refusal
import Freshness.Proofs.FileSystem.Tree

/-!
# Operations on trees

Whatever is done to a tree leaves a tree.  An entry is put only where a walk has found
that there is none, in a directory and under a name, or in place of one that is no
directory; and no directory is ever taken away.
-/

namespace Freshness
namespace Location

theorem child_inj {l m : Location} {name other : Name} :
    l.child name = m.child other ↔ l = m ∧ name = other := by
  constructor
  · intro h
    have hnames := congrArg names h
    simp only [child, List.cons.injEq] at hnames
    exact ⟨eq_of_names_eq hnames.2, hnames.1⟩
  · rintro ⟨rfl, rfl⟩
    rfl

theorem child_ne_root (l : Location) (name : Name) : l.child name ≠ root := by
  intro h
  cases congrArg names h

theorem ne_child (l : Location) (name : Name) : l ≠ l.child name := by
  intro h
  have hdepth := congrArg depth h
  simp [child] at hdepth

theorem exists_eq_child {l : Location} (h : l ≠ root) :
    ∃ d name, l = child d name := by
  cases hnames : l.names with
  | nil => exact absurd (eq_of_names_eq hnames) h
  | cons name rest =>
      exact ⟨⟨rest, rest.length, rfl⟩, name, eq_of_names_eq hnames⟩

end Location

namespace FileSystem

theorem mem_route {p : Path} {name : Name} (h : name ∈ route p) :
    name ≠ [] ∧ Path.separator ∉ name := by
  rw [route_eq, List.mem_filter] at h
  exact ⟨by simpa using h.2, Path.separator_not_mem_of_mem_pieces h.1⟩

theorem isAbsolute_of_route_eq_nil {p : Path} (hp : p.bytes ≠ []) (h : route p = []) :
    p.isAbsolute = true := by
  obtain ⟨b, rest, hbytes⟩ := List.exists_cons_of_ne_nil hp
  by_contra hrelative
  have hb : b ≠ Path.separator := by
    simpa [Path.isAbsolute, hbytes] using hrelative
  have hmem : b :: (Path.splitAtEach Path.separator rest).1 ∈ route p := by
    rw [route_eq, hbytes]
    simp [Path.pieces, Path.splitAtEach, hb]
  rw [h] at hmem
  cases hmem

/-- The location is in a directory, under a name. -/
def HasPlace (fs : FileSystem) (l : Location) : Prop :=
  ∃ d name, l = Location.child d name ∧ IsName name ∧ fs.node? d = some .directory

variable {fs fs' : FileSystem}

theorem isSome_entry?_iff {l : Location} :
    (fs.entry? l).isSome = true ↔ (fs.node? l).isSome = true := by
  rw [node?, Option.isSome_map]

namespace WellFormed

theorem empty (clock : Timestamp) : (FileSystem.empty clock).WellFormed where
  root := by simp [FileSystem.empty, node?, entry?]
  isName l name h := by
    simp [FileSystem.empty, entry?, Ne.symm (l.child_ne_root name)] at h
  holder l name h := by
    simp [FileSystem.empty, entry?, Ne.symm (l.child_ne_root name)] at h

theorem hasPlace (h : fs.WellFormed) {l : Location}
    (hentry : (fs.entry? l).isSome = true) (hroot : l ≠ .root) : fs.HasPlace l := by
  obtain ⟨d, name, rfl⟩ := Location.exists_eq_child hroot
  exact ⟨d, name, rfl, h.isName d name hentry, h.holder d name hentry⟩

theorem isSome_holder (h : fs.WellFormed) {l : Location}
    (hentry : (fs.entry? l).isSome = true) : (fs.entry? l.holder).isSome = true := by
  by_cases hroot : l = .root
  · subst hroot
    exact hentry
  · obtain ⟨d, name, rfl, -, hnode⟩ := h.hasPlace hentry hroot
    exact isSome_entry?_of_node? hnode

/-- Nothing is below what is not there. -/
theorem node?_child_of_none (h : fs.WellFormed) {l : Location} (hnone : fs.entry? l = none)
    (name : Name) : fs.node? (l.child name) = none := by
  by_contra hsome
  have hentry := isSome_entry?_iff.mpr (Option.isSome_iff_ne_none.mpr hsome)
  have hdirectory := h.holder l name hentry
  rw [node?, hnone] at hdirectory
  cases hdirectory

theorem of_node?_eq (h : fs.WellFormed) (hnode : ∀ l, fs'.node? l = fs.node? l) :
    fs'.WellFormed where
  root := (hnode .root).trans h.root
  isName l name hentry := by
    rw [isSome_entry?_iff, hnode, ← isSome_entry?_iff] at hentry
    exact h.isName l name hentry
  holder l name hentry := by
    rw [isSome_entry?_iff, hnode, ← isSome_entry?_iff] at hentry
    rw [hnode]
    exact h.holder l name hentry

theorem setTime (h : fs.WellFormed) (l : Location) (time : Timestamp) :
    (fs.setTime l time).WellFormed := by
  apply h.of_node?_eq
  intro m
  simp only [FileSystem.setTime, node?, entry?, Std.TreeMap.getElem?_modify,
    Std.compare_eq_iff_eq]
  split
  next hl =>
    subst hl
    cases fs.entries[l]? <;> rfl
  next => rfl

theorem node?_put (fs : FileSystem) (l : Location) (e : Entry) (m : Location) :
    (fs.put l e).node? m = if l = m then some e.node else fs.node? m := by
  simp only [FileSystem.put, node?, entry?, Std.TreeMap.getElem?_insert,
    Std.compare_eq_iff_eq]
  split <;> rfl

/-- An entry may be put where there is a place for it, but nothing else in place of a
directory. -/
theorem put (h : fs.WellFormed) {l : Location} {e : Entry} (hplace : fs.HasPlace l)
    (hkeep : fs.node? l = some .directory → e.node = .directory) :
    (fs.put l e).WellFormed := by
  obtain ⟨d, name, hl, hname, hd⟩ := hplace
  have hdirectory : ∀ m, fs.node? m = some .directory →
      (fs.put l e).node? m = some .directory := by
    intro m hm
    rw [node?_put]
    split
    next hlm =>
      subst hlm
      rw [hkeep hm]
    next => exact hm
  have hplaced : ∀ m other, ((fs.put l e).node? (Location.child m other)).isSome = true →
      IsName other ∧ fs.node? m = some .directory := by
    intro m other hnode
    by_cases hlm : l = m.child other
    · obtain ⟨rfl, rfl⟩ := Location.child_inj.mp (hl.symm.trans hlm)
      exact ⟨hname, hd⟩
    · rw [node?_put, if_neg hlm, ← isSome_entry?_iff] at hnode
      exact ⟨h.isName m other hnode, h.holder m other hnode⟩
  constructor
  · exact hdirectory _ h.root
  · intro m other hentry
    exact (hplaced m other (isSome_entry?_iff.mp hentry)).1
  · intro m other hentry
    exact hdirectory m (hplaced m other (isSome_entry?_iff.mp hentry)).2

/-- Where a walk finds nothing there is a place for an entry. -/
theorem hasPlace_of_walk (h : fs.WellFormed) {purpose : Purpose} {links : Nat}
    {slash : Bool} {here l : Location} {names : List Name}
    (hnames : ∀ name ∈ names, name ≠ [] ∧ Path.separator ∉ name)
    (hhere : names = [] → (fs.entry? here).isSome = true)
    (hwalk : fs.walk purpose links slash here names = .ok (.vacant l)) :
    fs.HasPlace l ∧ fs.entry? l = none := by
  fun_induction FileSystem.walk fs purpose links slash here names with
  | case2 links slash here hslash =>
      obtain ⟨-, hnone⟩ := placeAt_eq_vacant (Except.ok.inj hwalk)
      have hsome := hhere rfl
      rw [hnone] at hsome
      cases hsome
  | case4 links slash here rest henter ih =>
      have hdirectory := isSome_entry?_of_node? (node?_of_enter henter)
      exact ih (List.forall_mem_cons.mp hnames).2 (fun _ => hdirectory) hwalk
  | case5 links slash here rest henter hne ih =>
      have hdirectory := isSome_entry?_of_node? (node?_of_enter henter)
      exact ih (List.forall_mem_cons.mp hnames).2 (fun _ => h.isSome_holder hdirectory) hwalk
  | case8 links slash here name rest henter hdot hdots hwrite hlength next hlast =>
      obtain ⟨rfl, hnone⟩ := placeAt_eq_vacant (Except.ok.inj hwalk)
      obtain ⟨⟨hnil, hseparator⟩, -⟩ := List.forall_mem_cons.mp hnames
      exact ⟨⟨here, name, rfl, ⟨hnil, hdot, hdots, hseparator⟩, node?_of_enter henter⟩,
        hnone⟩
  | case9 links slash here name henter hdot hdots hlength next hnode hwrite hlast =>
      obtain rfl : l = here.child name := (Place.vacant.inj (Except.ok.inj hwalk)).symm
      obtain ⟨⟨hnil, hseparator⟩, -⟩ := List.forall_mem_cons.mp hnames
      refine ⟨⟨here, name, rfl, ⟨hnil, hdot, hdots, hseparator⟩, node?_of_enter henter⟩, ?_⟩
      simpa [node?] using hnode
  | case12 slash here name rest henter hdot hdots hwrite hlength next hlast target hnode
      links ih =>
      apply ih
      · intro other hother
        rcases List.mem_append.mp hother with htarget | hrest
        · exact mem_route htarget
        · exact hnames other (List.mem_cons_of_mem name hrest)
      · intro _
        split
        · exact isSome_entry?_of_node? h.root
        · exact isSome_entry?_of_node? (node?_of_enter henter)
      · exact hwalk
  | case13 links slash here name rest henter hdot hdots hwrite hlength next hlast node
      hlink hnode ih =>
      exact ih (List.forall_mem_cons.mp hnames).2
        (fun _ => isSome_entry?_of_node? hnode) hwalk
  | _ => cases hwalk

/-- A path that leads nowhere, but could, says where an entry may be put. -/
theorem hasPlace_of_locate (h : fs.WellFormed) {purpose : Purpose} {p : Path}
    {l : Location} (hlocate : fs.locate purpose p = .ok (.vacant l)) :
    fs.HasPlace l ∧ fs.entry? l = none := by
  rw [locate_eq] at hlocate
  split_ifs at hlocate with hnul hnil hlong
  refine h.hasPlace_of_walk (fun _ hname => mem_route hname) ?_ hlocate
  -- without names the walk ends where it begins, and only at the root directory
  intro hroute
  rw [origin, if_pos (isAbsolute_of_route_eq_nil hnil hroute)]
  exact isSome_entry?_of_node? h.root

theorem create (h : fs.WellFormed) {l : Location} {node : Node}
    (hplace : fs.HasPlace l ∧ fs.entry? l = none) (hfs : fs.create l node = .ok fs') :
    fs'.WellFormed := by
  unfold FileSystem.create at hfs
  split at hfs
  · cases hfs
    apply WellFormed.setTime
    apply h.put hplace.1
    rw [node?, hplace.2]
    intro hdirectory
    cases hdirectory
  · cases hfs

theorem write (h : fs.WellFormed) {p : Path} {content : Bytes}
    (hfs : fs.write p content = .ok fs') : fs'.WellFormed := by
  unfold FileSystem.write at hfs
  cases hlocate : fs.locate .write p with
  | error e =>
      rw [hlocate] at hfs
      cases hfs
  | ok place =>
      rw [hlocate] at hfs
      cases place with
      | vacant l => exact h.create (h.hasPlace_of_locate hlocate) hfs
      | found l =>
          simp only [bind, Except.bind] at hfs
          split at hfs
          · cases hfs
          · cases hfs
          next node modified hdirectory hentry =>
            cases hfs
            have hnode : fs.node? l = some node := by
              rw [node?, hentry]
              rfl
            apply h.put
            · apply h.hasPlace (isSome_entry?_of_node? hnode)
              rintro rfl
              rw [h.root] at hnode
              exact hdirectory (Option.some.inj hnode).symm
            · rw [hnode]
              intro hsame
              exact absurd (Option.some.inj hsame) hdirectory
          · cases hfs

theorem createDirectory (h : fs.WellFormed) {p : Path}
    (hfs : fs.createDirectory p = .ok fs') : fs'.WellFormed := by
  unfold FileSystem.createDirectory at hfs
  cases hlocate : fs.locate .rearrange p with
  | error e =>
      rw [hlocate] at hfs
      cases hfs
  | ok place =>
      rw [hlocate] at hfs
      cases place with
      | found l => cases hfs
      | vacant l => exact h.create (h.hasPlace_of_locate hlocate) hfs

theorem createDirectories (h : fs.WellFormed) (p : Path) :
    (fs.createDirectories p).2.WellFormed := by
  fun_induction FileSystem.createDirectories fs p with
  | case1 => exact h
  | case2 p hnil fs hcreate => exact h.createDirectory hcreate
  | case3 => exact h
  | case4 p hnil hcreate q hparent e fs hparents ih =>
      rw [hparents] at ih
      exact ih
  | case5 p hnil hcreate q hparent fs hparents fs' hcreate' ih =>
      rw [hparents] at ih
      exact ih.createDirectory hcreate'
  | case6 p hnil hcreate q hparent fs hparents e hcreate' ih =>
      rw [hparents] at ih
      exact ih
  | case7 => exact h

theorem addParents (h : fs.WellFormed) (p : Path) : (fs.addParents p).WellFormed := by
  unfold FileSystem.addParents
  split
  · exact h
  · exact h.createDirectories _

theorem touch (h : fs.WellFormed) (p : Path) (time : Timestamp) :
    (fs.touch p time).WellFormed := by
  unfold FileSystem.touch
  split
  · exact h.setTime _ time
  · exact h

theorem addFile (h : fs.WellFormed) (p : Path) (time : Timestamp) (content : Bytes) :
    (fs.addFile p time content).WellFormed := by
  unfold FileSystem.addFile
  split
  next hwrite => exact ((h.addParents p).write hwrite).touch p time
  next => exact h.addParents p

theorem addDirectory (h : fs.WellFormed) (p : Path) : (fs.addDirectory p).WellFormed :=
  h.createDirectories p

theorem addLink (h : fs.WellFormed) (p target : Path) :
    (fs.addLink p target).WellFormed := by
  unfold FileSystem.addLink
  have hparents := h.addParents p
  dsimp only
  split
  next l hlocate =>
    cases hcreate : (fs.addParents p).create l (.link target) with
    | error e => exact hparents
    | ok fs' => exact hparents.create (hparents.hasPlace_of_locate hlocate) hcreate
  next => exact hparents

end WellFormed

/-- What is left of a tree is a tree. -/
theorem Without.wellFormed {gone : Location → Prop} (h : Without fs gone fs')
    (htree : fs.WellFormed) : fs'.WellFormed := by
  have hdirectory : ∀ l, fs.node? l = some .directory → fs'.node? l = some .directory := by
    intro l hl
    rw [h.node?_kept fun hgone => h.not_directory l hgone hl]
    exact hl
  constructor
  · exact hdirectory _ htree.root
  · intro l name hentry
    exact htree.isName l name (h.isSome_entry?_of_isSome hentry)
  · intro l name hentry
    exact hdirectory l (htree.holder l name (h.isSome_entry?_of_isSome hentry))

theorem without_take {l : Location} (hl : fs.node? l ≠ some .directory) :
    Without fs (· = l) (fs.take l) where
  workingDirectory := rfl
  refusal := rfl
  not_directory := by
    rintro _ rfl
    exact hl
  absent := by
    rintro _ rfl
    rw [entry?_take, if_pos rfl]
  kept m hm := by
    rw [entry?_take, if_neg (Ne.symm hm)]
    exact Or.inl rfl

theorem WellFormed.delete (h : fs.WellFormed) {p : Path} (hfs : fs.delete p = .ok fs') :
    fs'.WellFormed := by
  obtain ⟨e, -, hwithout⟩ := without_of_delete hfs
  exact hwithout.wellFormed h

/-- What a move does: it takes an entry that is no directory away, and puts it where
there was none or in place of one that is no directory. -/
theorem exists_of_move {p q : Path} (h : fs.move p q = .ok fs') :
    ∃ l m e, fs.locate .rearrange p = .ok (.found l) ∧ fs.entry? l = some e ∧
      e.node ≠ .directory ∧
      (fs.locate .rearrange q = .ok (.found m) ∨
        fs.locate .rearrange q = .ok (.vacant m)) ∧
      fs.node? m ≠ some .directory ∧
      fs' = (((fs.take l).put m e).stamp l.holder).stamp m.holder := by
  unfold FileSystem.move at h
  cases hp : fs.locate .rearrange p with
  | error error => simp [hp, bind, Except.bind] at h
  | ok source =>
      cases hq : fs.locate .rearrange q with
      | error error => simp [hp, hq, bind, Except.bind] at h
      | ok target =>
          simp only [hp, hq, bind, Except.bind, throw, throwThe, MonadExceptOf.throw, pure,
            Except.pure] at h
          split at h
          next => cases h
          next l m =>
            split at h
            next => cases h
            next e hentry =>
              split_ifs at h with _ _ hfile
              obtain ⟨he, hm⟩ := not_or.mp hfile
              exact ⟨l, m, e, rfl, hentry, he, Or.inl rfl, hm, (Except.ok.inj h).symm⟩
          next l m =>
            split at h
            next => cases h
            next e hentry =>
              split_ifs at h with _ _ hfile
              obtain ⟨he, hm⟩ := not_or.mp hfile
              exact ⟨l, m, e, rfl, hentry, he, Or.inr rfl, hm, (Except.ok.inj h).symm⟩

theorem WellFormed.move (h : fs.WellFormed) {p q : Path} (hfs : fs.move p q = .ok fs') :
    fs'.WellFormed := by
  obtain ⟨l, m, e, -, hentry, he, htarget, hm, rfl⟩ := exists_of_move hfs
  have hl : fs.node? l ≠ some .directory := by
    rw [node?, hentry]
    exact fun hsame => he (Option.some.inj hsame)
  have hplace : fs.HasPlace m := by
    rcases htarget with hfound | hvacant
    · apply h.hasPlace (locate_eq_found_iff.mp hfound).2.entry_isSome
      rintro rfl
      exact hm h.root
    · exact (h.hasPlace_of_locate hvacant).1
  have hwithout := without_take hl
  obtain ⟨d, name, rfl, hname, hd⟩ := hplace
  have hd' : (fs.take l).node? d = some .directory := by
    rw [hwithout.node?_kept fun hdl => hl (hdl ▸ hd)]
    exact hd
  have hput := (hwithout.wellFormed h).put (e := e) ⟨d, name, rfl, hname, hd'⟩
    fun hdirectory => absurd (hwithout.node?_of_node? hdirectory) hm
  exact (hput.setTime _ _).setTime _ _

end FileSystem
end Freshness
