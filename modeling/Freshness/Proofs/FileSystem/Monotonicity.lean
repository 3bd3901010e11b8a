import Freshness.Proofs.FileSystem.Following

/-!
# What one tree keeps of another

A walk enters directories, follows links and ends at an entry.  So what it finds in one tree it
finds in every other one that has the same directories and links, unless it ends at a file that the
other tree does not have.
-/

namespace Freshness
namespace FileSystem

variable {fs fs' : FileSystem} {lost : Location → Prop} {l : Location}

theorem node?_of_some {e : Entry} (h : fs.entry? l = some e) : fs.node? l = some e.node := by
  rw [node?, h]
  rfl

/-- There is nothing at the location but perhaps a file. -/
def IsPlain (fs : FileSystem) (l : Location) : Prop :=
  ∀ node, fs.node? l = some node → ∃ content, node = .file content

theorem isPlain_of_none (h : fs.entry? l = none) : fs.IsPlain l := by
  intro node hnode
  rw [node?, h] at hnode
  cases hnode

theorem IsPlain.not_directory (h : fs.IsPlain l) : fs.node? l ≠ some .directory := by
  intro hnode
  obtain ⟨content, hfile⟩ := h _ hnode
  cases hfile

theorem IsPlain.not_link (h : fs.IsPlain l) (target : Path) :
    fs.node? l ≠ some (.link target) := by
  intro hnode
  obtain ⟨content, hfile⟩ := h _ hnode
  cases hfile

/-- All that is in `fs` is in `fs'` as well, except for files at some locations.  Times do not
count, and `fs'` may hold more. -/
structure Preserves (lost : Location → Prop) (fs fs' : FileSystem) : Prop where
  workingDirectory : fs'.workingDirectory = fs.workingDirectory
  enter : ∀ {l}, fs.enter l = .ok () → fs'.enter l = .ok ()
  node : ∀ {l node}, ¬lost l → fs.node? l = some node → fs'.node? l = some node
  plain : ∀ {l}, lost l → fs.IsPlain l

namespace Preserves

theorem origin_eq (h : Preserves lost fs fs') (p : Path) : fs'.origin p = fs.origin p := by
  rw [origin, origin, h.workingDirectory]

theorem passes (h : Preserves lost fs fs') {name : Name} (hname : fs.Passes l name) :
    fs'.Passes l name :=
  ⟨h.enter hname.enter, hname.ne_dot, hname.ne_dots, hname.length_le⟩

theorem link (h : Preserves lost fs fs') {target : Path}
    (hnode : fs.node? l = some (.link target)) : fs'.node? l = some (.link target) :=
  h.node (fun hl => (h.plain hl).not_link target hnode) hnode

theorem isSome (h : Preserves lost fs fs') (hl : ¬lost l)
    (hentry : (fs.entry? l).isSome = true) : (fs'.entry? l).isSome = true := by
  obtain ⟨e, he⟩ := Option.isSome_iff_exists.mp hentry
  exact isSome_entry?_of_node? (h.node hl (node?_of_some he))

/-- A walk goes on only where there is a directory. -/
theorem not_lost_of_enter (h : Preserves lost fs fs') (henter : fs.enter l = .ok ()) : ¬lost l :=
  fun hl => (h.plain hl).not_directory (node?_of_enter henter)

theorem finds (h : Preserves lost fs fs') {purpose : Purpose} {links : Nat} {slash : Bool}
    {here : Location} {names : List Name} (hfinds : Finds fs purpose links slash here names l)
    (hl : ¬lost l) : Finds fs' purpose links slash here names l := by
  induction hfinds with
  | stay hslash hentry =>
      exact Finds.stay (fun hs => h.node hl (hslash hs)) (h.isSome hl hentry)
  | current henter _ ih => exact Finds.current (h.enter henter) (ih hl)
  | up henter _ ih => exact Finds.up (h.enter henter) (ih hl)
  | last hpurpose hname hentry => exact Finds.last hpurpose (h.passes hname) (h.isSome hl hentry)
  | link hname hrearrange hwrite hnode _ ih =>
      exact Finds.link (h.passes hname) hrearrange hwrite (h.link hnode) (ih hl)
  | @step links slash here name rest node l hname hrearrange hwrite hnode hlink hrest ih =>
      have hnext : ¬lost (here.child name) := by
        cases rest with
        | nil =>
            obtain rfl := hrest.eq_of_nil
            exact hl
        | cons _ _ => exact h.not_lost_of_enter hrest.enter_of_cons
      exact Finds.step (h.passes hname) hrearrange hwrite (h.node hnext hnode) hlink (ih hl)

theorem leads (h : Preserves lost fs fs') {here : Location} {names : List Name}
    (hleads : Leads fs here names l) (hl : ¬lost l) : Leads fs' here names l := by
  induction hleads with
  | stay => exact Leads.stay
  | current henter _ ih => exact Leads.current (h.enter henter) (ih hl)
  | up henter _ ih => exact Leads.up (h.enter henter) (ih hl)
  | link hname hnode _ ih => exact Leads.link (h.passes hname) (h.link hnode) (ih hl)
  | @step here name rest node l hname hnode hlink hrest ih =>
      have hnext : ¬lost (here.child name) := by
        by_cases hnil : rest = []
        · subst hnil
          cases hrest
          exact hl
        · exact h.not_lost_of_enter (hrest.enter_of_ne_nil hnil)
      exact Leads.step (h.passes hname) (h.node hnext hnode) hlink (ih hl)

theorem locate (h : Preserves lost fs fs') {purpose : Purpose} {p : Path}
    (hp : fs.locate purpose p = .ok (.found l)) (hl : ¬lost l) :
    fs'.locate purpose p = .ok (.found l) := by
  obtain ⟨hfollow, hfinds⟩ := locate_eq_found_iff.mp hp
  rw [← h.origin_eq] at hfinds
  exact locate_eq_found_iff.mpr ⟨hfollow, h.finds hfinds hl⟩

theorem resolve (h : Preserves lost fs fs') {p : Path} (hp : fs.resolve p = .ok l)
    (hl : ¬lost l) : fs'.resolve p = .ok l :=
  resolve_eq_ok_iff_locate.mpr (h.locate (resolve_eq_ok_iff_locate.mp hp) hl)

end Preserves
end FileSystem
end Freshness
