import Freshness.Proofs.FileSystem.Descent
import Freshness.Proofs.FileSystem.Growth

/-!
# Writing a file and moving it into place

A file is written under one name and then takes the place of what has another name in the same
directory.  If the first name is that of a link, the file it leads to is written and the link is
moved; it leads to the same file from its new place.  Either way, whatever is found under the second
name is the file that was written.
-/

namespace Freshness
namespace FileSystem

open Freshness.Path

variable {fs fs' : FileSystem} {purpose : Purpose} {links : Nat} {slash : Bool}
  {here l w : Location} {names : List Name} {place : Place} {content : Bytes}

/-! ## Writing a file -/

theorem Finds.not_link_of_start (htree : fs.WellFormed) (hpurpose : purpose ≠ .rearrange)
    (h : Finds fs purpose links slash here names l)
    (hhere : ∀ target, fs.node? here ≠ some (.link target)) (target : Path) :
    fs.node? l ≠ some (.link target) := by
  have hdirectory : ∀ {d}, fs.node? d = some .directory → ∀ target,
      fs.node? d ≠ some (.link target) := by
    intro d hd target hlink
    rw [hd] at hlink
    cases hlink
  induction h with
  | stay => exact hhere target
  | current _ _ ih => exact ih hhere
  | @up _ _ here _ _ henter _ ih =>
      apply ih
      apply hdirectory
      by_cases hroot : here = .root
      · rw [hroot]
        exact htree.root
      · obtain ⟨d, name, rfl⟩ := Location.exists_eq_child hroot
        exact htree.holder d name (isSome_entry?_of_node? (node?_of_enter henter))
  | last hlast _ _ => exact absurd hlast hpurpose
  | @link _ _ here _ _ linked _ hname _ _ _ _ ih =>
      apply ih
      apply hdirectory
      unfold linkOrigin
      split
      · exact htree.root
      · exact node?_of_enter hname.enter
  | step _ _ _ hnode hlink _ ih =>
      apply ih
      intro target htarget
      rw [hnode] at htarget
      exact hlink target (Option.some.inj htarget)

/-- A walk that follows links does not end at one. -/
theorem Finds.not_link (htree : fs.WellFormed) (hpurpose : purpose ≠ .rearrange)
    (hne : names ≠ []) (h : Finds fs purpose links slash here names l) (target : Path) :
    fs.node? l ≠ some (.link target) := by
  obtain ⟨name, rest, rfl⟩ := List.exists_cons_of_ne_nil hne
  refine h.not_link_of_start htree hpurpose (fun target hlink => ?_) target
  rw [node?_of_enter h.enter_of_cons] at hlink
  cases hlink

/-- A file that is put where a walk has ended is where the names lead then. -/
theorem leads_of_walk (hgrown : Grown (· = w) fs fs')
    (hfile : fs'.node? w = some (.file content))
    (h : fs.walk purpose links slash here names = .ok place) (hplace : place.location = w) :
    Leads fs' here names w := by
  have hstep : ∀ {here name}, fs.Passes here name → here.child name = w →
      Leads fs' here [name] w := by
    rintro here name hname rfl
    exact Leads.step (hgrown.preserves.passes hname) hfile (by simp) Leads.stay
  fun_induction FileSystem.walk fs purpose links slash here names with
  | case2 links slash here hslash =>
      obtain rfl := Except.ok.inj h
      obtain rfl : here = w := (location_placeAt fs here).symm.trans hplace
      exact Leads.stay
  | case4 links slash here rest henter ih => exact Leads.current (hgrown.enter_kept henter) (ih h)
  | case5 links slash here rest henter hne ih => exact Leads.up (hgrown.enter_kept henter) (ih h)
  | case8 links slash here name rest henter hdot hdots hwrite hlength next hlast =>
      obtain ⟨rfl, -⟩ := hlast
      obtain rfl := Except.ok.inj h
      exact hstep ⟨henter, hdot, hdots, by omega⟩ ((location_placeAt fs next).symm.trans hplace)
  | case9 links slash here name henter hdot hdots hlength next hnone hwrite hrearrange =>
      obtain rfl := Except.ok.inj h
      exact hstep ⟨henter, hdot, hdots, by omega⟩ hplace
  | case12 slash here name rest henter hdot hdots hwrite hlength next
      hrearrange target hnode links ih =>
      exact Leads.link (hgrown.preserves.passes ⟨henter, hdot, hdots, by omega⟩)
        (hgrown.preserves.link hnode) (ih h)
  | case13 links slash here name rest henter hdot hdots hwrite hlength next
      hrearrange node hlink hnode ih =>
      have hpasses := hgrown.preserves.passes ⟨henter, hdot, hdots, by omega⟩
      by_cases hw : next = w
      · have hnext : fs'.node? next = some (.file content) := hw ▸ hfile
        exact Leads.step hpasses hnext (by simp) (ih h)
      · exact Leads.step hpasses (hgrown.node?_kept hw hnode) (fun target ht => hlink target ht)
          (ih h)
  | _ => cases h

theorem enter_of_walk (hne : names ≠ [])
    (h : fs.walk purpose links slash here names = .ok place) : fs.enter here = .ok () := by
  obtain ⟨name, rest, rfl⟩ := List.exists_cons_of_ne_nil hne
  rw [walk] at h
  split at h
  · cases h
  next henter => exact henter

/-- A file that is put at the place for an entry is found there. -/
theorem finds_of_walk_rearrange {touched : Location → Prop} (hgrown : Grown touched fs fs')
    (hfile : fs'.node? w = some (.file content)) (hslash : slash = false)
    (h : fs.walk .rearrange links slash here names = .ok place) (hplace : place.location = w) :
    Finds fs' .inspect links slash here names w := by
  have hstay : ∀ {links}, Finds fs' .inspect links slash w [] w := by
    intro links
    exact Finds.stay (by simp [hslash]) (isSome_entry?_of_node? hfile)
  generalize hpurpose : Purpose.rearrange = purpose at h
  fun_induction FileSystem.walk fs purpose links slash here names with
  | case2 links slash here =>
      obtain rfl := Except.ok.inj h
      obtain rfl : here = w := (location_placeAt fs here).symm.trans hplace
      exact hstay
  | case4 links slash here rest henter ih =>
      exact Finds.current (hgrown.enter_kept henter) (ih hslash hstay h)
  | case5 links slash here rest henter hne ih =>
      exact Finds.up (hgrown.enter_kept henter) (ih hslash hstay h)
  | case8 links slash here name rest henter hdot hdots hwrite hlength next hlast =>
      obtain ⟨rfl, -⟩ := hlast
      obtain rfl := Except.ok.inj h
      obtain rfl : next = w := (location_placeAt fs next).symm.trans hplace
      exact Finds.step (hgrown.preserves.passes ⟨henter, hdot, hdots, by omega⟩) (by simp) (by simp)
        hfile (by simp) hstay
  | case9 links slash here name henter hdot hdots hlength next hnone hwrite hrearrange =>
      exact absurd ⟨rfl, hpurpose.symm⟩ hrearrange
  | case12 slash here name rest henter hdot hdots hwrite hlength next
      hrearrange target hnode links ih =>
      have hrest : rest ≠ [] := fun hnil => hrearrange ⟨hnil, hpurpose.symm⟩
      have hsame : (slash || rest.isEmpty && endsInSeparator target) = slash := by simp [hrest]
      refine Finds.link (hgrown.preserves.passes ⟨henter, hdot, hdots, by omega⟩) (by simp)
        (by simp) (hgrown.preserves.link hnode) ?_
      rw [hsame] at ih h ⊢
      exact ih hslash hstay h
  | case13 links slash here name rest henter hdot hdots hwrite hlength next
      hrearrange node hlink hnode ih =>
      have hrest : rest ≠ [] := fun hnil => hrearrange ⟨hnil, hpurpose.symm⟩
      have hkept : fs'.node? next = some node :=
        hgrown.node?_kept (hgrown.preserves.not_lost_of_enter (enter_of_walk hrest h)) hnode
      exact Finds.step (hgrown.preserves.passes ⟨henter, hdot, hdots, by omega⟩) (by simp) (by simp)
        hkept (fun target ht => hlink target ht) (ih hslash hstay h)
  | _ => cases h

/-- At a location there is a file that may be read and written. -/
def HasFreeFile (fs : FileSystem) (l : Location) (content : Bytes) : Prop :=
  ∃ time, fs.entry? l = some ⟨.file content, time, .free⟩

theorem HasFreeFile.node? (h : fs.HasFreeFile l content) : fs.node? l = some (.file content) := by
  obtain ⟨time, hentry⟩ := h
  exact node?_of_some hentry

/-- Writing changes the file at one place, to which the path has led. -/
theorem exists_of_write (htree : fs.WellFormed) {p : Path} (hroute : route p ≠ [])
    (h : fs.write p content = .ok fs') :
    ∃ place, fs.locate .write p = .ok place ∧ fs'.HasFreeFile place.location content ∧
      Grown (· = place.location) fs fs' := by
  unfold write at h
  cases hlocate : fs.locate .write p with
  | error e =>
      rw [hlocate] at h
      cases h
  | ok place =>
      rw [hlocate] at h
      refine ⟨place, rfl, ?_⟩
      cases place with
      | vacant w =>
          have hnone := (htree.hasPlace_of_locate hlocate).2
          have hgrown : Grown (· = w) fs fs := Grown.of_plain fun l hl => hl ▸ isPlain_of_none hnone
          simp only [bind, Except.bind, create] at h
          split at h
          next hchange =>
            obtain rfl := Except.ok.inj h
            have hput := hgrown.put (e := ⟨.file content, fs.clock, .free⟩) rfl rfl
            obtain ⟨time, hholder⟩ := canChange_iff.mp hchange
            have hdirectory := hput.directory_kept (node?_of_some hholder)
            refine ⟨⟨fs.clock, ?_⟩, hput.stamp hdirectory⟩
            rw [Place.location, entry?_stamp, entry?_put, if_pos rfl]
            split <;> rfl
          next => cases h
      | found w =>
          obtain ⟨hfollow, hfinds⟩ := locate_eq_found_iff.mp hlocate
          have hlink := hfinds.not_link htree (by simp) hroute
          simp only [bind, Except.bind] at h
          split at h
          next => cases h
          next => cases h
          next node modified hdirectory hentry =>
            obtain rfl := Except.ok.inj h
            have hplain : fs.IsPlain w := by
              intro node' hnode'
              rw [node?_of_some hentry] at hnode'
              obtain rfl := Option.some.inj hnode'
              cases node with
              | file content => exact ⟨content, rfl⟩
              | directory => exact absurd rfl hdirectory
              | link target => exact absurd (node?_of_some hentry) (hlink target)
            have hgrown : Grown (· = w) fs fs := Grown.of_plain fun l hl => hl ▸ hplain
            refine ⟨⟨fs.clock, ?_⟩, hgrown.put rfl rfl⟩
            rw [Place.location, entry?_put, if_pos rfl]
          next => cases h

/-! ## Moving a file or a link into place -/

theorem exists_time_stamp (fs : FileSystem) (d x : Location) :
    ∃ time, entry? (fs.stamp d) x = (fs.entry? x).map fun e => { e with modified := time } := by
  rw [entry?_stamp]
  split
  · exact ⟨fs.clock, rfl⟩
  · cases fs.entry? x with
    | none => exact ⟨0, rfl⟩
    | some e => exact ⟨e.modified, rfl⟩

/-- The entry at `l`, which is no directory, has been put at `m`.  Times do not count. -/
structure Moved (fs fs' : FileSystem) (l m : Location) : Prop where
  source : fs'.entry? l = none
  target : ∃ e time, fs.entry? l = some e ∧ e.node ≠ .directory ∧
    fs'.entry? m = some { e with modified := time }
  other : ∀ x, x ≠ l → x ≠ m →
    ∃ time, fs'.entry? x = (fs.entry? x).map fun e => { e with modified := time }

namespace Moved

variable {m x : Location}

theorem of_move {e : Entry} (hne : l ≠ m) (hentry : fs.entry? l = some e)
    (he : e.node ≠ .directory) :
    Moved fs ((((fs.take l).put m e).stamp l.holder).stamp m.holder) l m := by
  have hstamps : ∀ (fs : FileSystem) (d d' x : Location), ∃ time,
      entry? ((fs.stamp d).stamp d') x = (fs.entry? x).map fun e => { e with modified := time } := by
    intro fs d d' x
    obtain ⟨time, hfirst⟩ := exists_time_stamp fs d x
    obtain ⟨time', hsecond⟩ := exists_time_stamp (fs.stamp d) d' x
    refine ⟨time', ?_⟩
    rw [hsecond, hfirst, Option.map_map]
    rfl
  constructor
  · obtain ⟨time, h⟩ := hstamps ((fs.take l).put m e) l.holder m.holder l
    rw [h, entry?_put, if_neg hne.symm, entry?_take, if_pos rfl]
    rfl
  · obtain ⟨time, h⟩ := hstamps ((fs.take l).put m e) l.holder m.holder m
    rw [entry?_put, if_pos rfl] at h
    exact ⟨e, time, hentry, he, h⟩
  · intro x hl hm
    obtain ⟨time, h⟩ := hstamps ((fs.take l).put m e) l.holder m.holder x
    rw [entry?_put, if_neg hm.symm, entry?_take, if_neg hl.symm] at h
    exact ⟨time, h⟩

/-- Where names lead that pass the place at `m` once the entry at `l` has been moved there: a file
stays there, and a link goes on as before, to a file at `v`. -/
structure EndsAt (fs : FileSystem) (l m v : Location) : Prop where
  file : ∀ content, fs.node? l = some (.file content) → v = m
  link : ∀ target, fs.node? l = some (.link target) →
    (∃ content, fs.node? v = some (.file content)) ∧
      Leads fs (linkOrigin m.holder target) (route target) v

theorem EndsAt.of_file (hnode : fs.node? l = some (.file content)) : EndsAt fs l m m where
  file _ _ := rfl
  link target htarget := by
    rw [hnode] at htarget
    cases htarget

theorem EndsAt.of_link {target : Path} (hnode : fs.node? l = some (.link target))
    (hfile : fs.node? w = some (.file content))
    (hleads : Leads fs (linkOrigin m.holder target) (route target) w) : EndsAt fs l m w where
  file content' hcontent' := by
    rw [hnode] at hcontent'
    cases hcontent'
  link target' htarget' := by
    rw [hnode] at htarget'
    cases htarget'
    exact ⟨⟨content, hfile⟩, hleads⟩

variable (h : Moved fs fs' l m)
include h

theorem node?_source : fs'.node? l = none := by
  rw [node?, h.source]
  rfl

theorem node?_target : fs'.node? m = fs.node? l := by
  obtain ⟨e, time, hentry, -, htarget⟩ := h.target
  rw [node?_of_some hentry, node?_of_some htarget]

theorem node?_other (hl : x ≠ l) (hm : x ≠ m) : fs'.node? x = fs.node? x := by
  obtain ⟨time, hx⟩ := h.other x hl hm
  rw [node?, hx, Option.map_map]
  rfl

theorem node?_source_ne_directory : fs.node? l ≠ some .directory := by
  obtain ⟨e, time, hentry, he, -⟩ := h.target
  rw [node?_of_some hentry]
  exact fun hsame => he (Option.some.inj hsame)

theorem not_enter_target : fs'.enter m ≠ .ok () := by
  intro henter
  have hdirectory := node?_of_enter henter
  rw [h.node?_target] at hdirectory
  exact h.node?_source_ne_directory hdirectory

theorem enter_of_enter (henter : fs'.enter x = .ok ()) : fs.enter x = .ok () := by
  have hl : x ≠ l := by
    rintro rfl
    have hdirectory := node?_of_enter henter
    rw [h.node?_source] at hdirectory
    cases hdirectory
  have hm : x ≠ m := by
    rintro rfl
    exact h.not_enter_target henter
  obtain ⟨time, hx⟩ := h.other x hl hm
  unfold enter at henter ⊢
  rw [hx] at henter
  cases hentry : fs.entry? x with
  | none =>
      rw [hentry] at henter
      cases henter
  | some e =>
      obtain ⟨node, modified, access⟩ := e
      rw [hentry] at henter
      cases node <;> cases access <;> first | rfl | cases henter

theorem passes_of_passes {name : Name} (hname : fs'.Passes x name) : fs.Passes x name :=
  ⟨h.enter_of_enter hname.enter, hname.ne_dot, hname.ne_dots, hname.length_le⟩

theorem leads_or_eq {v y : Location} (hends : EndsAt fs l m v) (hleads : Leads fs' y names x) :
    Leads fs y names x ∨ x = v := by
  induction hleads with
  | stay => exact Or.inl Leads.stay
  | current henter _ ih => exact ih.imp_left (Leads.current (h.enter_of_enter henter))
  | up henter _ ih => exact ih.imp_left (Leads.up (h.enter_of_enter henter))
  | @link y name rest target x hname hnode hrest ih =>
      have hl : y.child name ≠ l := by
        intro heq
        rw [heq, h.node?_source] at hnode
        cases hnode
      by_cases hm : y.child name = m
      · rw [hm, h.node?_target] at hnode
        obtain ⟨⟨content, hv⟩, hleads⟩ := hends.link target hnode
        have hholder : m.holder = y := hm ▸ rfl
        rw [hholder] at hleads
        rcases ih with hrest' | heq
        · obtain ⟨z, hz, hend⟩ := hrest'.append
          obtain rfl := hz.unique hleads rfl
          -- nothing is looked for in a file
          cases rest with
          | nil =>
              cases hend
              exact Or.inr rfl
          | cons other rest =>
              have hdirectory := node?_of_enter (hend.enter_of_ne_nil (List.cons_ne_nil _ _))
              rw [hv] at hdirectory
              cases hdirectory
        · exact Or.inr heq
      · rw [h.node?_other hl hm] at hnode
        exact ih.imp_left (Leads.link (h.passes_of_passes hname) hnode)
  | @step y name rest node x hname hnode hlink hrest ih =>
      have hl : y.child name ≠ l := by
        intro heq
        rw [heq, h.node?_source] at hnode
        cases hnode
      by_cases hm : y.child name = m
      · rw [hm] at hrest
        cases rest with
        | nil =>
            cases hrest
            rw [hm, h.node?_target] at hnode
            cases node with
            | file content => exact Or.inr (hends.file content hnode).symm
            | directory => exact absurd hnode h.node?_source_ne_directory
            | link target => exact absurd rfl (hlink target)
        | cons other rest =>
            exact absurd (hrest.enter_of_ne_nil (List.cons_ne_nil _ _)) h.not_enter_target
      · rw [h.node?_other hl hm] at hnode
        exact ih.imp_left (Leads.step (h.passes_of_passes hname) hnode hlink)

/-- Names that lead to the place at `m` lead where names lead that pass it. -/
theorem eq_of_leads {d v y : Location} {init : List Name} {last : Name} (hm : d.child last = m)
    (hdot : last ≠ [dot]) (hdots : last ≠ [dot, dot]) (hends : EndsAt fs l m v)
    (hv : fs'.enter v ≠ .ok ()) (hd : Leads fs y init d) (hleads : Leads fs' y (init ++ [last]) x) :
    x = v := by
  subst hm
  obtain ⟨d', hd', hlast⟩ := hleads.append
  have hd'd : d' = d := by
    rcases h.leads_or_eq hends hd' with hsame | rfl
    · exact hsame.unique hd rfl
    · exact absurd (hlast.enter_of_ne_nil (List.cons_ne_nil _ _)) hv
  subst hd'd
  obtain ⟨-, ⟨target, hnode, hrest⟩ | ⟨node, hnode, hlink, hrest⟩⟩ := hlast.cons_cases hdot hdots
  · rw [h.node?_target] at hnode
    rw [List.append_nil] at hrest
    rcases h.leads_or_eq hends hrest with hsame | heq
    · exact hsame.unique (hends.link target hnode).2 rfl
    · exact heq
  · cases hrest
    rw [h.node?_target] at hnode
    cases node with
    | file content => exact (hends.file content hnode).symm
    | directory => exact absurd hnode h.node?_source_ne_directory
    | link target => exact absurd rfl (hlink target)

theorem hasFreeFile_target (hfile : fs.HasFreeFile l content) : fs'.HasFreeFile m content := by
  obtain ⟨time, hentry⟩ := hfile
  obtain ⟨e, time', hentry', -, htarget⟩ := h.target
  obtain rfl := Option.some.inj (hentry.symm.trans hentry')
  exact ⟨time', htarget⟩

theorem hasFreeFile_other (hl : x ≠ l) (hm : x ≠ m) (hfile : fs.HasFreeFile x content) :
    fs'.HasFreeFile x content := by
  obtain ⟨time, hentry⟩ := hfile
  obtain ⟨time', hx⟩ := h.other x hl hm
  rw [hentry] at hx
  exact ⟨time', hx⟩

end Moved

/-! ## Writing a file and moving it into place -/

/-- Two names in one directory, under one of which a file is written that is then moved. -/
structure Neighbours (p q : Path) (init : List Name) (last last' : Name) : Prop where
  isAbsolute_eq : p.isAbsolute = q.isAbsolute
  route_left : route p = init ++ [last]
  route_right : route q = init ++ [last']
  ne : last ≠ last'
  ne_dot : last ≠ [dot] ∧ last' ≠ [dot]
  ne_dots : last ≠ [dot, dot] ∧ last' ≠ [dot, dot]

theorem Neighbours.origin_eq {p q : Path} {init : List Name} {last last' : Name}
    (h : Neighbours p q init last last') (fs : FileSystem) : fs.origin q = fs.origin p := by
  rw [origin, origin, h.isAbsolute_eq]

/-- Moving takes the entry itself under one name and puts it under the other. -/
theorem Neighbours.exists_of_move {p q : Path} {init : List Name} {last last' : Name}
    (h : Neighbours p q init last last') (hmove : fs.move p q = .ok fs') :
    ∃ d e, Leads fs (fs.origin p) init d ∧ fs.enter d = .ok () ∧
      fs.entry? (d.child last) = some e ∧ e.node ≠ .directory ∧
      fs.node? (d.child last') ≠ some .directory ∧
      fs' = (((fs.take (d.child last)).put (d.child last') e).stamp d).stamp d := by
  obtain ⟨l, m, e, hl, hentry, he, hm, hmnode, rfl⟩ := FileSystem.exists_of_move hmove
  obtain ⟨d, hd, henter, hlocation⟩ :=
    exists_location_of_locate h.route_left h.ne_dot.1 h.ne_dots.1 (Or.inl rfl) hl
  obtain rfl : l = d.child last := hlocation
  obtain ⟨place, hplace, rfl⟩ : ∃ place, fs.locate .rearrange q = .ok place ∧
      place.location = m := by
    rcases hm with hfound | hvacant
    · exact ⟨_, hfound, rfl⟩
    · exact ⟨_, hvacant, rfl⟩
  obtain ⟨d', hd', -, hlocation'⟩ :=
    exists_location_of_locate h.route_right h.ne_dot.2 h.ne_dots.2 (Or.inl rfl) hplace
  rw [h.origin_eq] at hd'
  obtain rfl := hd.unique hd' rfl
  rw [hlocation'] at hmnode ⊢
  exact ⟨d, e, hd, henter, hentry, he, hmnode, rfl⟩

theorem Neighbours.exists_moved {p q : Path} {init : List Name} {last last' : Name}
    (h : Neighbours p q init last last') (hmove : fs.move p q = .ok fs') :
    ∃ d, Leads fs (fs.origin p) init d ∧ Moved fs fs' (d.child last) (d.child last') := by
  obtain ⟨d, e, hd, -, hentry, he, -, rfl⟩ := h.exists_of_move hmove
  have hne : d.child last ≠ d.child last' := fun heq => h.ne (Location.child_inj.mp heq).2
  exact ⟨d, hd, Moved.of_move hne hentry he⟩

/-- What is found where a file has been written and moved into place is that file, even if it was
written through a link. -/
theorem hasFreeFile_of_resolve {written moved : FileSystem} (htree : fs.WellFormed) {p q : Path}
    {init : List Name} {last last' : Name} (h : Neighbours p q init last last')
    (hwrite : fs.write p content = .ok written) (hmove : written.move p q = .ok moved)
    {x : Location} (hx : moved.resolve q = .ok x) : moved.HasFreeFile x content := by
  have hwrittenTree := htree.write hwrite
  obtain ⟨place, hlocate, hfile, hgrown⟩ := exists_of_write htree (by simp [h.route_left]) hwrite
  generalize hw : place.location = w at hfile hgrown
  have hleads : Leads written (written.origin p) (init ++ [last]) w := by
    rw [hgrown.origin_eq, ← h.route_left]
    exact leads_of_walk hgrown hfile.node? (locate_eq_ok_iff.mp hlocate).2 hw
  obtain ⟨d, hd, hmoved⟩ := h.exists_moved hmove
  obtain ⟨d', hd', hlast⟩ := hleads.append
  obtain rfl := hd.unique hd' rfl
  have horigin : moved.origin q = written.origin p := by
    obtain ⟨_, _, -, -, -, -, -, rfl⟩ := h.exists_of_move hmove
    exact h.origin_eq written
  obtain ⟨-, hfinds⟩ := resolve_eq_ok_iff.mp hx
  have hend := hfinds.leads
  rw [horigin, h.route_right] at hend
  have hfound : ∀ {v}, Moved.EndsAt written (d.child last) (d.child last') v →
      moved.enter v ≠ .ok () → x = v :=
    fun hends hv => hmoved.eq_of_leads rfl h.ne_dot.2 h.ne_dots.2 hends hv hd hend
  obtain ⟨-, ⟨target, hnode, hrest⟩ | ⟨-, -, -, hrest⟩⟩ :=
    hlast.cons_cases h.ne_dot.1 h.ne_dots.1
  · rw [List.append_nil] at hrest
    have hends : Moved.EndsAt written (d.child last) (d.child last') w :=
      .of_link hnode hfile.node? hrest
    by_cases hwm : w = d.child last'
    · -- the link would lead to itself
      subst hwm
      obtain rfl := hfound hends hmoved.not_enter_target
      rw [← hmoved.node?_target] at hnode
      exact absurd hnode (hfinds.not_link (hwrittenTree.move hmove) (by simp)
        (by simp [h.route_right]) target)
    · have hwl : w ≠ d.child last := by
        rintro rfl
        rw [hfile.node?] at hnode
        cases hnode
      have hkept := hmoved.hasFreeFile_other hwl hwm hfile
      have hv : moved.enter w ≠ .ok () := by
        intro henter
        have hdirectory := node?_of_enter henter
        rw [hkept.node?] at hdirectory
        cases hdirectory
      obtain rfl := hfound hends hv
      exact hkept
  · cases hrest
    obtain rfl := hfound (.of_file hfile.node?) hmoved.not_enter_target
    exact hmoved.hasFreeFile_target hfile

end FileSystem
end Freshness
