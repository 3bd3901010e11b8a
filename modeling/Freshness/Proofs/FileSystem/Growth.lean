import Freshness.Proofs.FileSystem.Monotonicity
import Freshness.Proofs.FileSystem.Preservation

/-!
# Trees that grow

Writing below a directory changes files at locations known beforehand and may add directories.
Everything else is kept, but for the times of directories.  Whatever a path led to it leads to
afterwards, unless it was one of the files that were written.
-/

namespace Freshness
namespace FileSystem

open Freshness.Path

/-- `fs'` is `fs` with other files at some locations, and with new directories.  The times of
directories do not count. -/
structure Grown (touched : Location → Prop) (fs fs' : FileSystem) : Prop where
  workingDirectory : fs'.workingDirectory = fs.workingDirectory
  kept : ∀ l, ¬touched l → fs'.entry? l = fs.entry? l ∨
    (∃ e time, fs.entry? l = some e ∧ e.node = .directory ∧
      fs'.entry? l = some { e with modified := time }) ∨
    (fs.entry? l = none ∧ ∃ time, fs'.entry? l = some ⟨.directory, time, .free⟩)
  before : ∀ l, touched l → fs.IsPlain l
  after : ∀ l, touched l → fs'.IsPlain l

variable {fs fs' : FileSystem} {touched : Location → Prop}

theorem entry?_put (fs : FileSystem) (l m : Location) (e : Entry) :
    entry? (fs.put l e) m = if l = m then some e else fs.entry? m := by
  simp [put, entry?, Std.TreeMap.getElem?_insert]

namespace Grown

theorem refl (fs : FileSystem) : Grown (fun _ => False) fs fs where
  workingDirectory := rfl
  kept _ _ := Or.inl rfl
  before _ h := h.elim
  after _ h := h.elim

theorem trans {fs'' : FileSystem} (h : Grown touched fs fs') (h' : Grown touched fs' fs'') :
    Grown touched fs fs'' where
  workingDirectory := h'.workingDirectory.trans h.workingDirectory
  before := h.before
  after := h'.after
  kept l hl := by
    rcases h.kept l hl with hsame | ⟨e, time, he, hnode, he'⟩ | ⟨hnone, time, he'⟩
    · rw [← hsame]
      exact h'.kept l hl
    · right
      left
      rcases h'.kept l hl with hsame' | ⟨e', time', he₁, -, he₂⟩ | ⟨hnone', -⟩
      · exact ⟨e, time, he, hnode, hsame'.trans he'⟩
      · rw [he'] at he₁
        cases he₁
        exact ⟨e, time', he, hnode, he₂⟩
      · rw [he'] at hnone'
        cases hnone'
    · right
      right
      refine ⟨hnone, ?_⟩
      rcases h'.kept l hl with hsame' | ⟨e', time', he₁, -, he₂⟩ | ⟨hnone', -⟩
      · exact ⟨time, hsame'.trans he'⟩
      · rw [he'] at he₁
        cases he₁
        exact ⟨time', he₂⟩
      · rw [he'] at hnone'
        cases hnone'

/-- More locations may count as written if there is nothing at them but files. -/
theorem mono {touched' : Location → Prop} (h : Grown touched fs fs')
    (hsub : ∀ l, touched l → touched' l)
    (hbefore : ∀ l, touched' l → fs.IsPlain l) (hafter : ∀ l, touched' l → fs'.IsPlain l) :
    Grown touched' fs fs' where
  workingDirectory := h.workingDirectory
  kept l hl := h.kept l fun ht => hl (hsub l ht)
  before := hbefore
  after := hafter

theorem not_touched (h : Grown touched fs fs') {l : Location}
    (hnode : fs.node? l = some .directory) : ¬touched l :=
  fun hl => (h.before l hl).not_directory hnode

theorem node?_kept (h : Grown touched fs fs') {l : Location} {node : Node} (hl : ¬touched l)
    (hnode : fs.node? l = some node) : fs'.node? l = some node := by
  rcases h.kept l hl with hsame | ⟨e, time, he, -, he'⟩ | ⟨hnone, -⟩
  · rw [node?, hsame]
    exact hnode
  · rw [node?_of_some he] at hnode
    rw [node?_of_some he']
    exact hnode
  · rw [node?, hnone] at hnode
    cases hnode

theorem directory_kept (h : Grown touched fs fs') {l : Location}
    (hnode : fs.node? l = some .directory) : fs'.node? l = some .directory :=
  h.node?_kept (h.not_touched hnode) hnode

/-- A file or link that was not written is as it was. -/
theorem entry?_iff (h : Grown touched fs fs') {l : Location} {e : Entry} (hl : ¬touched l)
    (he : e.node ≠ .directory) : fs'.entry? l = some e ↔ fs.entry? l = some e := by
  rcases h.kept l hl with hsame | ⟨e₁, time, he₁, hnode, he₂⟩ | ⟨hnone, time, he₂⟩
  · rw [hsame]
  · rw [he₁, he₂]
    constructor
    · rintro ⟨⟩
      exact absurd hnode he
    · rintro ⟨⟩
      exact absurd hnode he
  · rw [hnone, he₂]
    constructor
    · rintro ⟨⟩
      exact absurd rfl he
    · rintro ⟨⟩

/-- No link is new. -/
theorem link_of_link (h : Grown touched fs fs') {l : Location} {target : Path}
    (hnode : fs'.node? l = some (.link target)) : fs.node? l = some (.link target) := by
  have hl : ¬touched l := fun ht => (h.after l ht).not_link target hnode
  obtain ⟨e, hentry⟩ := Option.isSome_iff_exists.mp (isSome_entry?_of_node? hnode)
  have he : e.node = .link target := by
    rw [node?_of_some hentry] at hnode
    exact Option.some.inj hnode
  rw [node?_of_some ((h.entry?_iff hl (by simp [he])).mp hentry), he]

/-- No link takes the place of anything else. -/
theorem not_link_of_node? (h : Grown touched fs fs') {l : Location} {node : Node}
    (hnode : fs.node? l = some node) (hlink : ∀ target, node ≠ .link target) (target : Path) :
    fs'.node? l ≠ some (.link target) := by
  intro hnode'
  have hold := h.link_of_link hnode'
  rw [hnode] at hold
  exact hlink target (Option.some.inj hold)

/-- What was there before is what is there now. -/
theorem node?_of_isSome (h : Grown touched fs fs') {l : Location} {node : Node}
    (hl : ¬touched l) (hentry : (fs.entry? l).isSome = true) (hnode : fs'.node? l = some node) :
    fs.node? l = some node := by
  obtain ⟨e, he⟩ := Option.isSome_iff_exists.mp hentry
  have hkept := h.node?_kept hl (node?_of_some he)
  rw [hnode] at hkept
  rw [node?_of_some he]
  exact hkept.symm

/-- What is written first may be written again. -/
theorem trans_of_imp {touched' : Location → Prop} {fs'' : FileSystem} (h : Grown touched fs fs')
    (h' : Grown touched' fs' fs'') (hsub : ∀ l, touched l → touched' l) :
    Grown touched' fs fs'' := by
  refine (h.mono hsub ?_ h'.before).trans h'
  intro l hl
  by_cases ht : touched l
  · exact h.before l ht
  · intro node hnode
    exact h'.before l hl node (h.node?_kept ht hnode)

theorem enter_kept (h : Grown touched fs fs') {l : Location} (henter : fs.enter l = .ok ()) :
    fs'.enter l = .ok () := by
  rcases h.kept l (h.not_touched (node?_of_enter henter)) with
    hsame | ⟨e, time, he, hnode, he'⟩ | ⟨hnone, -⟩
  · rw [enter, hsame]
    exact henter
  · obtain ⟨node, modified, access⟩ := e
    obtain rfl : node = .directory := hnode
    rw [enter, he] at henter
    rw [enter, he']
    cases access <;> simp_all
  · rw [enter, hnone] at henter
    cases henter

theorem enter_of_isSome (h : Grown touched fs fs') {l : Location}
    (hentry : (fs.entry? l).isSome = true) (henter : fs'.enter l = .ok ()) :
    fs.enter l = .ok () := by
  have hl : ¬touched l := fun hl => (h.after l hl).not_directory (node?_of_enter henter)
  rcases h.kept l hl with hsame | ⟨e, time, he, hnode, he'⟩ | ⟨hnone, -⟩
  · rw [enter, ← hsame]
    exact henter
  · obtain ⟨node, modified, access⟩ := e
    obtain rfl : node = .directory := hnode
    rw [enter, he'] at henter
    rw [enter, he]
    cases access <;> simp_all
  · rw [hnone] at hentry
    cases hentry

/-- What has grown has all that was there, but for the files that were written. -/
theorem preserves (h : Grown touched fs fs') : Preserves touched fs fs' where
  workingDirectory := h.workingDirectory
  enter := h.enter_kept
  node := h.node?_kept
  plain := h.before _

theorem origin_eq (h : Grown touched fs fs') (p : Path) : fs'.origin p = fs.origin p :=
  h.preserves.origin_eq p

theorem leads (h : Grown touched fs fs') {here l : Location} {names : List Name}
    (hleads : Leads fs here names l) (hl : ¬touched l) : Leads fs' here names l :=
  h.preserves.leads hleads hl

/-- What is found where the names that count led before was found there before. -/
theorem finds_of_leads (h : Grown touched fs fs') (htree : fs.WellFormed) {links : Nat}
    {slash : Bool} {here l m : Location} {names names' : List Name}
    (hfinds : Finds fs' .inspect links slash here names m) (hleads : Leads fs here names' l)
    (hnames : withoutDots names = withoutDots names') (hhere : (fs.entry? here).isSome = true)
    (hentry : (fs.entry? l).isSome = true) (hl : ¬touched l) :
    Finds fs .inspect links slash here names l := by
  induction hfinds generalizing l names' with
  | stay hslash _ =>
      obtain rfl := hleads.eq_of_withoutDots_nil hnames.symm
      exact Finds.stay (fun hs => h.node?_of_isSome hl hentry (hslash hs)) hentry
  | current henter _ ih =>
      refine Finds.current (h.enter_of_isSome hhere henter) (ih hleads ?_ hhere hentry hl)
      simpa [withoutDots] using hnames
  | up henter _ ih =>
      obtain ⟨rest', hskip, hrest⟩ := hleads.skip (by simp) hnames
      have henter' := hskip.enter_of_ne_nil (List.cons_ne_nil _ _)
      exact Finds.up henter' (ih hskip.of_up hrest (htree.isSome_holder hhere) hentry hl)
  | last hpurpose _ _ => cases hpurpose
  | @link links slash here name rest target _ hname hrearrange hwrite hnode _ ih =>
      obtain ⟨rest', hskip, hrest⟩ := hleads.skip hname.ne_dot hnames
      obtain ⟨hname', ⟨target', hnode', hleads'⟩ | ⟨node, hnode', hlink, -⟩⟩ :=
        hskip.cons_cases hname.ne_dot hname.ne_dots
      · rw [h.preserves.link hnode'] at hnode
        cases hnode
        have horigin : (fs.entry? (linkOrigin here target)).isSome = true := by
          unfold linkOrigin
          split
          · exact isSome_entry?_of_node? htree.root
          · exact hhere
        refine Finds.link hname' hrearrange hwrite hnode' (ih hleads' ?_ horigin hentry hl)
        simp only [withoutDots, List.filter_append] at hrest ⊢
        rw [hrest]
      · exact absurd hnode (h.not_link_of_node? hnode' hlink target)
  | step hname hrearrange hwrite hnode hlink _ ih =>
      obtain ⟨rest', hskip, hrest⟩ := hleads.skip hname.ne_dot hnames
      obtain ⟨hname', ⟨target, hnode', -⟩ | ⟨node', hnode', hlink', hleads'⟩⟩ :=
        hskip.cons_cases hname.ne_dot hname.ne_dots
      · rw [h.preserves.link hnode'] at hnode
        exact absurd (Option.some.inj hnode).symm (hlink target)
      · exact Finds.step hname' hrearrange hwrite hnode' hlink'
          (ih hleads' hrest (isSome_entry?_of_node? hnode') hentry hl)

/-! ### Files below a directory -/

theorem leads_of_file (h : Grown touched fs fs') (htree : fs.WellFormed) {here l : Location}
    {names : List Name} (hfile : fs.HasFile (here.descend names))
    (hleads : Leads fs' here names l) : Leads fs here names (here.descend names) := by
  induction names generalizing here with
  | nil => exact Leads.stay
  | cons name rest ih =>
      obtain ⟨content, hcontent⟩ := hfile
      obtain ⟨hname, hchild, hhere⟩ := htree.of_descend_cons (isSome_entry?_of_node? hcontent)
      obtain ⟨node, hnode, hlink⟩ : ∃ node, fs.node? (here.child name) = some node ∧
          ∀ target, node ≠ .link target := by
        by_cases hrest : rest = []
        · subst hrest
          exact ⟨_, hcontent, by simp⟩
        · exact ⟨_, hchild hrest, by simp⟩
      obtain ⟨hpasses, ⟨target, hnode', -⟩ | ⟨-, -, -, hrest⟩⟩ :=
        hleads.cons_cases hname.ne_dot hname.ne_dots
      · exact absurd hnode' (h.not_link_of_node? hnode hlink target)
      · have hhere' := h.enter_of_isSome (isSome_entry?_of_node? hhere) hpasses.enter
        exact Leads.step ⟨hhere', hpasses.ne_dot, hpasses.ne_dots, hpasses.length_le⟩ hnode hlink
          (ih ⟨content, hcontent⟩ hrest)

variable {root : Path} {way names : List Name} {base : Location}

/-- The path to a file below a directory leads there now exactly if it did before. -/
theorem resolve_descend_iff (h : Grown touched fs fs') (htree : fs.WellFormed)
    (hbase : Leads fs (fs.origin root) way base) (hway : withoutDots way = withoutDots (route root))
    (hne : names ≠ []) (hfile : fs.HasFile (base.descend names))
    (hl : ¬touched (base.descend names)) (m : Location) :
    fs'.resolve (root.descend names) = .ok m ↔ fs.resolve (root.descend names) = .ok m := by
  obtain ⟨content, hcontent⟩ := hfile
  have hentry := isSome_entry?_of_node? hcontent
  have hnames := htree.isName_of_mem hentry
  have hdirectory := htree.node?_of_descend hne hentry
  have hbase' := h.leads hbase (h.not_touched hdirectory)
  rw [resolve_eq_ok_iff, resolve_eq_ok_iff, h.origin_eq, origin_descend fs root hnames,
    route_descend root hnames]
  refine and_congr_right fun _ => ⟨?_, ?_⟩
  · intro hfinds
    obtain ⟨base', links, slash, hroot, hbelow⟩ := hfinds.append hne
    obtain rfl := hroot.unique hbase' hway.symm
    have hleads := hbase.trans (h.leads_of_file htree ⟨content, hcontent⟩ hbelow.leads)
    have henter : fs.enter (fs.origin root) = .ok () :=
      hleads.enter_of_ne_nil (by simp [hne])
    have hold : Finds fs .inspect maximalLinks (endsInSeparator (root.descend names))
        (fs.origin root) (route root ++ names) (base'.descend names) := by
      refine h.finds_of_leads htree hfinds hleads ?_
        (isSome_entry?_of_node? (node?_of_enter henter)) hentry hl
      simp only [withoutDots, List.filter_append] at hway ⊢
      rw [hway]
    obtain rfl := hfinds.leads.unique (h.preserves.finds hold hl).leads rfl
    exact hold
  · intro hfinds
    obtain ⟨base', links, slash, hroot, hbelow⟩ := hfinds.append hne
    obtain rfl := hroot.unique hbase hway.symm
    obtain rfl := hbelow.eq_descend htree ⟨content, hcontent⟩
    exact h.preserves.finds hfinds hl

/-- What is at the path to a file below a directory is what was there before. -/
theorem lookup?_descend (h : Grown touched fs fs') (htree : fs.WellFormed)
    (hbase : Leads fs (fs.origin root) way base) (hway : withoutDots way = withoutDots (route root))
    (hne : names ≠ []) (hfile : fs.HasFile (base.descend names))
    (hl : ¬touched (base.descend names)) :
    fs'.lookup? (root.descend names) = fs.lookup? (root.descend names) := by
  have hiff := h.resolve_descend_iff htree hbase hway hne hfile hl
  unfold lookup?
  cases hresolve : fs.resolve (root.descend names) with
  | ok l =>
      have hlocate := resolve_eq_ok_iff_locate.mp hresolve
      obtain rfl := eq_descend_of_locate htree hbase hway hne hfile hlocate
      obtain ⟨content, hcontent⟩ := hfile
      obtain ⟨e, he⟩ := Option.isSome_iff_exists.mp (isSome_entry?_of_node? hcontent)
      rw [node?_of_some he] at hcontent
      rw [(hiff _).mpr hresolve]
      dsimp only
      rw [he]
      exact (h.entry?_iff hl (by simp [Option.some.inj hcontent])).mpr he
  | error e =>
      cases hresolve' : fs'.resolve (root.descend names) with
      | ok l =>
          rw [(hiff l).mp hresolve'] at hresolve
          cases hresolve
      | error e' => rfl

/-! ### Single changes -/

theorem of_plain (h : ∀ l, touched l → fs.IsPlain l) : Grown touched fs fs :=
  (refl fs).mono (fun _ => False.elim) h h

/-- A new time for a directory does not count. -/
theorem stamp (h : Grown touched fs fs') {d : Location} (hd : fs'.node? d = some .directory) :
    Grown touched fs (fs'.stamp d) := by
  obtain ⟨e, he⟩ := Option.isSome_iff_exists.mp (isSome_entry?_of_node? hd)
  have hnode : e.node = .directory := by
    rw [node?_of_some he] at hd
    exact Option.some.inj hd
  have hstamp : Grown touched fs' (fs'.stamp d) := by
    refine ⟨rfl, ?_, h.after, ?_⟩
    · intro l _
      rw [entry?_stamp]
      split
      next hl =>
        subst hl
        rw [he]
        exact Or.inr (Or.inl ⟨e, _, rfl, hnode, rfl⟩)
      next => exact Or.inl rfl
    · intro l hl node hentry
      rw [node?_stamp] at hentry
      exact h.after l hl node hentry
  exact h.trans hstamp

theorem take (h : Grown touched fs fs') {l : Location} (hl : touched l) :
    Grown touched fs (fs'.take l) := by
  have htake : Grown touched fs' (fs'.take l) := by
    refine ⟨rfl, ?_, h.after, ?_⟩
    · intro m hm
      have hlm : l ≠ m := by
        rintro rfl
        exact hm hl
      rw [entry?_take, if_neg hlm]
      exact Or.inl rfl
    · intro m hm
      by_cases hlm : l = m
      · apply isPlain_of_none
        rw [entry?_take, if_pos hlm]
      · intro node hnode
        rw [node?, entry?_take, if_neg hlm] at hnode
        exact h.after m hm node hnode
  exact h.trans htake

theorem put (h : Grown touched fs fs') {l : Location} (hl : touched l) {e : Entry}
    {content : Bytes} (he : e.node = .file content) : Grown touched fs (fs'.put l e) := by
  have hput : Grown touched fs' (fs'.put l e) := by
    refine ⟨rfl, ?_, h.after, ?_⟩
    · intro m hm
      have hlm : l ≠ m := by
        rintro rfl
        exact hm hl
      rw [entry?_put, if_neg hlm]
      exact Or.inl rfl
    · intro m hm node hnode
      rw [WellFormed.node?_put] at hnode
      split at hnode
      · cases hnode
        exact ⟨content, he⟩
      · exact h.after m hm node hnode
  exact h.trans hput

theorem addDirectory {l : Location} (hl : fs.entry? l = none) (time : Timestamp) :
    Grown (fun _ => False) fs (fs.put l ⟨.directory, time, .free⟩) := by
  refine ⟨rfl, ?_, fun _ h => h.elim, fun _ h => h.elim⟩
  intro m _
  rw [entry?_put]
  split
  next hlm =>
    subst hlm
    exact Or.inr (Or.inr ⟨hl, time, rfl⟩)
  next => exact Or.inl rfl

end Grown
end FileSystem
end Freshness
