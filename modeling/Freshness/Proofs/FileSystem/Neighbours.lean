import Freshness.Proofs.FileSystem.Replacing

/-!
# Files next to each other

Where neither of two names in a directory is that of a link, writing a file under one of them,
deleting it or moving it to the other changes what is at these names and nothing else.
-/

namespace Freshness
namespace FileSystem

open Freshness.Path

variable {fs fs' : FileSystem} {p q : Path} {init : List Name} {last last' : Name}
  {content : Bytes} {d : Location}

theorem isPlain_of_not_link (hdirectory : fs.node? d ≠ some .directory)
    (hlink : ∀ target, fs.node? d ≠ some (.link target)) : fs.IsPlain d := by
  intro node hnode
  cases node with
  | file content => exact ⟨content, rfl⟩
  | directory => exact absurd hnode hdirectory
  | link target => exact absurd hnode (hlink target)

/-- A name that is not that of a link, in the directory that the other names of the path lead to. -/
structure EndsPlainly (fs : FileSystem) (p : Path) (init : List Name) (last : Name) : Prop where
  route_eq : route p = init ++ [last]
  ne_dot : last ≠ [dot]
  ne_dots : last ≠ [dot, dot]
  not_link : ∀ d, Leads fs (fs.origin p) init d →
    ∀ target, fs.node? (d.child last) ≠ some (.link target)

namespace EndsPlainly

theorem exists_location (h : EndsPlainly fs p init last) {purpose : Purpose} {place : Place}
    (hlocate : fs.locate purpose p = .ok place) :
    ∃ d, Leads fs (fs.origin p) init d ∧ fs.node? d = some .directory ∧
      place.location = d.child last := by
  obtain ⟨d, hd, henter, hlocation⟩ :=
    exists_location_of_locate h.route_eq h.ne_dot h.ne_dots (Or.inr h.not_link) hlocate
  exact ⟨d, hd, node?_of_enter henter, hlocation⟩

theorem grown_write (h : EndsPlainly fs p init last) (htree : fs.WellFormed)
    (hwrite : fs.write p content = .ok fs') :
    ∃ d, Leads fs (fs.origin p) init d ∧ fs.node? d = some .directory ∧
      Grown (· = d.child last) fs fs' ∧ fs'.node? (d.child last) = some (.file content) := by
  have hroute : route p ≠ [] := by simp [h.route_eq]
  obtain ⟨place, hlocate, hfile, hgrown⟩ := exists_of_write htree hroute hwrite
  obtain ⟨d, hd, hdirectory, hlocation⟩ := h.exists_location hlocate
  rw [hlocation] at hfile hgrown
  exact ⟨d, hd, hdirectory, hgrown, hfile.node?⟩

theorem grown_delete (h : EndsPlainly fs p init last) (hdelete : fs.delete p = .ok fs') :
    ∃ d, Leads fs (fs.origin p) init d ∧ Grown (· = d.child last) fs fs' := by
  obtain ⟨l, hmay, -, hl, rfl⟩ := delete_eq_ok_iff.mp hdelete
  obtain ⟨d, hd, hdirectory, hlocation⟩ := h.exists_location hmay.found
  obtain rfl : l = d.child last := hlocation
  have hgrown : Grown (· = d.child last) fs fs :=
    Grown.of_plain fun _ heq => heq ▸ isPlain_of_not_link hl (h.not_link d hd)
  have htake := hgrown.take rfl
  exact ⟨d, hd, htake.stamp (htake.directory_kept hdirectory)⟩

/-- What has grown by a file under the name has no link there either. -/
theorem of_grown (h : EndsPlainly fs p init last) (hd : Leads fs (fs.origin p) init d)
    (hdirectory : fs.node? d = some .directory) (hgrown : Grown (· = d.child last) fs fs') :
    EndsPlainly fs' p init last where
  route_eq := h.route_eq
  ne_dot := h.ne_dot
  ne_dots := h.ne_dots
  not_link d' hd' := by
    rw [hgrown.origin_eq] at hd'
    obtain rfl := hd'.unique (hgrown.leads hd (hgrown.not_touched hdirectory)) rfl
    exact (hgrown.after _ rfl).not_link

end EndsPlainly

namespace Neighbours

/-- A file that is moved to a name next to its own comes to be there as it was. -/
theorem grown_move (h : Neighbours p q init last last') (hd : Leads fs (fs.origin p) init d)
    (hfile : fs.node? (d.child last) = some (.file content))
    (hlink : ∀ target, fs.node? (d.child last') ≠ some (.link target))
    (hmove : fs.move p q = .ok fs') :
    Grown (fun l => l = d.child last ∨ l = d.child last') fs fs' ∧
      fs'.node? (d.child last') = some (.file content) ∧ fs'.node? (d.child last) = none := by
  obtain ⟨d', e, hd', henter, hentry, he, hnode, rfl⟩ := h.exists_of_move hmove
  obtain rfl := hd.unique hd' rfl
  have hne : d.child last ≠ d.child last' := fun heq => h.ne (Location.child_inj.mp heq).2
  have hmoved := Moved.of_move hne hentry he
  have hcontent : e.node = .file content := by
    rw [node?_of_some hentry] at hfile
    exact Option.some.inj hfile
  have hgrown : Grown (fun l => l = d.child last ∨ l = d.child last') fs fs := by
    apply Grown.of_plain
    rintro l (rfl | rfl)
    · exact HasFile.isPlain ⟨content, hfile⟩
    · exact isPlain_of_not_link hnode hlink
  have hput := (hgrown.take (Or.inl rfl)).put (Or.inr rfl) hcontent
  have hdirectory := node?_of_enter henter
  have hstamp := hput.stamp (hput.directory_kept hdirectory)
  exact ⟨hstamp.stamp (hstamp.directory_kept hdirectory), hmoved.node?_target.trans hfile,
    hmoved.node?_source⟩

/-- A file that has been moved is found under its new name. -/
theorem resolve_of_move (h : Neighbours p q init last last') {touched : Location → Prop}
    (hgrown : Grown touched fs fs') (hd : Leads fs (fs.origin p) init d)
    (hfile : fs'.node? (d.child last') = some (.file content))
    (hslash : endsInSeparator q = false) (hmove : fs.move p q = .ok fs') :
    fs'.resolve q = .ok (d.child last') := by
  obtain ⟨place, hlocate⟩ : ∃ place, fs.locate .rearrange q = .ok place := by
    obtain ⟨-, m, -, -, -, -, hfound | hvacant, -⟩ := FileSystem.exists_of_move hmove
    · exact ⟨_, hfound⟩
    · exact ⟨_, hvacant⟩
  obtain ⟨d', hd', -, hlocation⟩ :=
    exists_location_of_locate h.route_right h.ne_dot.2 h.ne_dots.2 (Or.inl rfl) hlocate
  rw [h.origin_eq] at hd'
  obtain rfl := hd.unique hd' rfl
  obtain ⟨hfollow, hwalk⟩ := locate_eq_ok_iff.mp hlocate
  rw [resolve_eq_ok_iff, hgrown.origin_eq]
  exact ⟨hfollow, finds_of_walk_rearrange hgrown hfile hslash hwalk hlocation⟩

end Neighbours
end FileSystem
end Freshness
