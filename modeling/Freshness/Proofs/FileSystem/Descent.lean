import Freshness.Proofs.FileSystem.Preservation

/-!
# Going down

A walk along names in two parts goes on from where the first part leads.  Where no link is on the
way, names lead straight down, to an entry or to the place for one.
-/

namespace Freshness
namespace FileSystem

open Freshness.Path

variable {fs : FileSystem} {purpose : Purpose} {links : Nat} {slash : Bool}
  {here l m : Location} {names rest : List Name} {place : Place}

/-- A walk that has come from `here` to `there` by one name goes on along the names after it. -/
theorem exists_leads_cons {there : Location} {name : Name} {all : List Name}
    (hstep : ∀ {names m}, Leads fs there names m → Leads fs here (name :: names) m)
    (hall : names ++ rest = all) (h : fs.walk purpose links slash there all = .ok place)
    (ih : names ≠ [] → ∃ m links', Leads fs there names m ∧
      fs.walk purpose links' slash m rest = .ok place) :
    ∃ m links', Leads fs here (name :: names) m ∧
      fs.walk purpose links' slash m rest = .ok place := by
  by_cases hnames : names = []
  · subst hnames
    obtain rfl : rest = all := hall
    exact ⟨there, links, hstep Leads.stay, h⟩
  · obtain ⟨m, links', hm, hwalk⟩ := ih hnames
    exact ⟨m, links', hstep hm, hwalk⟩

theorem walk_append (hne : rest ≠ [])
    (h : fs.walk purpose links slash here (names ++ rest) = .ok place) :
    ∃ m links', Leads fs here names m ∧ fs.walk purpose links' slash m rest = .ok place := by
  by_cases hnil : names = []
  · subst hnil
    exact ⟨here, links, Leads.stay, h⟩
  generalize hall : names ++ rest = all at h
  fun_induction FileSystem.walk fs purpose links slash here all generalizing names with
  | case1 => exact absurd (List.append_eq_nil_iff.mp hall).2 hne
  | case2 => exact absurd (List.append_eq_nil_iff.mp hall).2 hne
  | case4 links slash here tail henter ih =>
      obtain ⟨name, names, rfl⟩ := List.exists_cons_of_ne_nil hnil
      obtain ⟨rfl, htail⟩ := List.cons.inj hall
      exact exists_leads_cons (Leads.current henter) htail h fun hnames => ih hnames htail h
  | case5 links slash here tail henter _ ih =>
      obtain ⟨name, names, rfl⟩ := List.exists_cons_of_ne_nil hnil
      obtain ⟨rfl, htail⟩ := List.cons.inj hall
      exact exists_leads_cons (Leads.up henter) htail h fun hnames => ih hnames htail h
  | case8 links slash here name tail henter hdot hdots hwrite hlength next =>
      rename_i hlast
      obtain ⟨name', names, rfl⟩ := List.exists_cons_of_ne_nil hnil
      obtain ⟨-, htail⟩ := List.cons.inj hall
      rw [hlast.1] at htail
      exact absurd (List.append_eq_nil_iff.mp htail).2 hne
  | case9 links slash here name =>
      obtain ⟨name', names, rfl⟩ := List.exists_cons_of_ne_nil hnil
      obtain ⟨-, htail⟩ := List.cons.inj hall
      exact absurd (List.append_eq_nil_iff.mp htail).2 hne
  | case12 slash here name tail henter hdot hdots hwrite hlength next hlast target hnode links =>
      -- the names of the link's target come before those that are left
      rename_i ih
      obtain ⟨name', names, rfl⟩ := List.exists_cons_of_ne_nil hnil
      obtain ⟨rfl, htail⟩ := List.cons.inj hall
      obtain rfl : names ++ rest = tail := htail
      have hslash : (slash || (names ++ rest).isEmpty && endsInSeparator target) = slash := by
        simp [hne]
      rw [hslash] at ih h
      have hpasses : fs.Passes here name' := ⟨henter, hdot, hdots, by omega⟩
      by_cases htarget : route target ++ names = []
      · obtain ⟨hroute, rfl⟩ := List.append_eq_nil_iff.mp htarget
        rw [hroute] at h
        refine ⟨_, links, Leads.link hpasses hnode ?_, h⟩
        rw [hroute]
        exact Leads.stay
      · obtain ⟨m, links', hm, hwalk⟩ := ih htarget (List.append_assoc _ _ _) h
        exact ⟨m, links', Leads.link hpasses hnode hm, hwalk⟩
  | case13 links slash here name tail henter hdot hdots hwrite hlength next hlast node hlink
      hnode =>
      rename_i ih
      obtain ⟨name', names, rfl⟩ := List.exists_cons_of_ne_nil hnil
      obtain ⟨rfl, htail⟩ := List.cons.inj hall
      have hpasses : fs.Passes here name' := ⟨henter, hdot, hdots, by omega⟩
      exact exists_leads_cons (Leads.step hpasses hnode hlink) htail h
        fun hnames => ih hnames htail h
  | _ => cases h

theorem walk_singleton (htree : fs.WellFormed) {name : Name}
    (h : fs.walk .rearrange links slash here [name] = .ok (.vacant l)) :
    fs.Passes here name ∧ l = here.child name ∧ fs.entry? l = none := by
  have hstay : ∀ d, (fs.entry? d).isSome = true →
      fs.walk .rearrange links slash d [] ≠ .ok (.vacant l) := by
    intro d hd hwalk
    rw [walk] at hwalk
    split at hwalk
    · cases hwalk
    · rw [(placeAt_eq_vacant (Except.ok.inj hwalk)).2] at hd
      cases hd
  rw [walk] at h
  split at h
  · cases h
  next henter =>
    have hhere := isSome_entry?_of_node? (node?_of_enter henter)
    by_cases hdot : name = [dot]
    · rw [if_pos hdot] at h
      exact absurd h (hstay here hhere)
    by_cases hdots : name = [dot, dot]
    · rw [if_neg hdot, if_pos hdots] at h
      exact absurd h (hstay here.holder (htree.isSome_holder hhere))
    by_cases hlength : name.length > maximalNameLength
    · rw [if_neg hdot, if_neg hdots, if_neg (by simp), if_pos hlength] at h
      cases h
    rw [if_neg hdot, if_neg hdots, if_neg (by simp), if_neg hlength, if_pos ⟨rfl, rfl⟩] at h
    obtain ⟨rfl, hnone⟩ := placeAt_eq_vacant (Except.ok.inj h)
    exact ⟨⟨henter, hdot, hdots, Nat.not_lt.mp hlength⟩, rfl, hnone⟩

/-- Where an entry could be created, all names but the last lead to the directory that would hold
it. -/
theorem exists_of_vacant (htree : fs.WellFormed) {p : Path}
    (h : fs.locate .rearrange p = .ok (.vacant l)) :
    ∃ init last m, route p = init ++ [last] ∧ Leads fs (fs.origin p) init m ∧
      fs.Passes m last ∧ l = m.child last ∧ fs.entry? l = none := by
  rw [locate_eq] at h
  split_ifs at h with _ hnil
  by_cases hroute : route p = []
  · -- without names the walk ends where it begins, and only at the root directory
    rw [hroute, origin, if_pos (isAbsolute_of_route_eq_nil hnil hroute), walk] at h
    split at h
    · cases h
    · have hroot := isSome_entry?_of_node? htree.root
      rw [(placeAt_eq_vacant (Except.ok.inj h)).2] at hroot
      cases hroot
  · rw [← List.dropLast_concat_getLast hroute] at h
    obtain ⟨m, links, hm, hwalk⟩ := walk_append (List.cons_ne_nil _ _) h
    exact ⟨_, _, m, (List.dropLast_concat_getLast hroute).symm, hm, walk_singleton htree hwalk⟩

/-- Names that differ in `.`s only do not lead to where there is no entry. -/
theorem not_leads_of_none {init names : List Name} {last : Name} (hm : Leads fs here init m)
    (hpasses : fs.Passes m last) (hnone : fs.entry? (m.child last) = none)
    (hnames : withoutDots names = withoutDots (init ++ [last])) : ¬Leads fs here names l := by
  intro h
  have hlast : withoutDots (init ++ [last]) = withoutDots init ++ [last] := by
    simp [withoutDots, hpasses.ne_dot]
  have hall := h.dropDots
  rw [hnames, hlast] at hall
  obtain ⟨m', hm', hstep⟩ := hall.append
  obtain rfl := hm'.unique hm.dropDots rfl
  have hnode : fs.node? (m'.child last) = none := by rw [node?, hnone, Option.map_none]
  cases hstep with
  | current _ _ => exact hpasses.ne_dot rfl
  | up _ _ => exact hpasses.ne_dots rfl
  | link _ hlink _ =>
      rw [hnode] at hlink
      cases hlink
  | step _ hsome _ _ =>
      rw [hnode] at hsome
      cases hsome

/-- No link is strictly below the location. -/
def NoLinkBelow (fs : FileSystem) (base : Location) : Prop :=
  ∀ names, names ≠ [] → ∀ target, fs.node? (base.descend names) ≠ some (.link target)

theorem not_link_of_forall
    (h : ∀ node ∈ fs.entries.toList.map fun row => row.2.node, ∀ target, node ≠ .link target)
    (l : Location) (target : Path) : fs.node? l ≠ some (.link target) := by
  intro hnode
  obtain ⟨e, he, hlink⟩ := Option.map_eq_some_iff.mp hnode
  have hmem := Std.TreeMap.mem_toList_iff_getElem?_eq_some.mpr he
  exact h _ (List.mem_map.mpr ⟨_, hmem, hlink⟩) target rfl

theorem noLinkBelow_of_forall
    (h : ∀ node ∈ fs.entries.toList.map fun row => row.2.node, ∀ target, node ≠ .link target)
    (base : Location) : fs.NoLinkBelow base :=
  fun _ _ => not_link_of_forall h _

theorem NoLinkBelow.child (h : fs.NoLinkBelow here) (name : Name) :
    fs.NoLinkBelow (here.child name) :=
  fun names _ => h (name :: names) (List.cons_ne_nil name names)

/-- The location that a place is about. -/
def Place.location : Place → Location
  | .found l | .vacant l => l

theorem location_placeAt (fs : FileSystem) (l : Location) : (fs.placeAt l).location = l := by
  unfold placeAt
  split <;> rfl

/-- The last name of a path is looked for in the directory that the others lead to, and not further
where it is not the name of a link. -/
theorem location_of_walk_singleton {name : Name} (hdot : name ≠ [dot]) (hdots : name ≠ [dot, dot])
    (hlink : purpose = .rearrange ∨ ∀ target, fs.node? (here.child name) ≠ some (.link target))
    (h : fs.walk purpose links slash here [name] = .ok place) :
    fs.enter here = .ok () ∧ place.location = here.child name := by
  rw [walk] at h
  split at h
  · cases h
  next henter =>
    refine ⟨henter, ?_⟩
    rw [if_neg hdot, if_neg hdots] at h
    by_cases hwrite : slash = true ∧ purpose = .write
    · rw [if_pos ⟨rfl, hwrite⟩] at h
      cases h
    by_cases hlength : name.length > maximalNameLength
    · rw [if_neg (fun hlast => hwrite hlast.2), if_pos hlength] at h
      cases h
    rw [if_neg (fun hlast => hwrite hlast.2), if_neg hlength] at h
    dsimp only at h
    by_cases hpurpose : purpose = .rearrange
    · rw [if_pos ⟨rfl, hpurpose⟩] at h
      obtain rfl := Except.ok.inj h
      exact location_placeAt fs _
    rw [if_neg fun hlast => hpurpose hlast.2] at h
    split at h
    next =>
      obtain rfl := Except.ok.inj h
      rfl
    next target hnode => exact absurd hnode (hlink.resolve_left hpurpose target)
    next =>
      rw [walk] at h
      split at h
      · cases h
      · obtain rfl := Except.ok.inj h
        exact location_placeAt fs _

/-- The last name of a path says what the path is about, in the directory that the other names lead
to. -/
theorem exists_location_of_locate {p : Path} {init : List Name} {last : Name}
    (hroute : route p = init ++ [last]) (hdot : last ≠ [dot]) (hdots : last ≠ [dot, dot])
    (hlink : purpose = .rearrange ∨ ∀ d, Leads fs (fs.origin p) init d →
      ∀ target, fs.node? (d.child last) ≠ some (.link target))
    (h : fs.locate purpose p = .ok place) :
    ∃ d, Leads fs (fs.origin p) init d ∧ fs.enter d = .ok () ∧ place.location = d.child last := by
  obtain ⟨-, hwalk⟩ := locate_eq_ok_iff.mp h
  rw [hroute] at hwalk
  obtain ⟨d, links, hd, hlast⟩ := walk_append (List.cons_ne_nil _ _) hwalk
  exact ⟨d, hd, location_of_walk_singleton hdot hdots (hlink.imp_right fun h => h d hd) hlast⟩

/-- Without links on the way, names lead straight down. -/
theorem Leads.eq_descend (h : Leads fs here names l) (hlinks : fs.NoLinkBelow here)
    (hnames : ∀ name ∈ names, IsName name) : l = here.descend names := by
  induction names generalizing here with
  | nil =>
      cases h
      rfl
  | cons name rest ih =>
      obtain ⟨hname, hrest⟩ := List.forall_mem_cons.mp hnames
      obtain ⟨-, ⟨target, hnode, -⟩ | ⟨-, -, -, hleads⟩⟩ := h.cons_cases hname.ne_dot hname.ne_dots
      · exact absurd hnode (hlinks [name] (List.cons_ne_nil _ _) target)
      · exact ih hleads (hlinks.child name) hrest

end FileSystem
end Freshness
