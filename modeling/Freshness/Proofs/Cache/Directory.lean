import Freshness.Cache
import Freshness.Proofs.FileSystem.Descent
import Freshness.Proofs.FileSystem.Growth
import Freshness.Proofs.Path.Names

/-!
# The cache directory

Entries are kept straight below the directory that the root of a cache leads to.  A root that leads
nowhere yet is created name by name.  It then leads to a new directory, unless a `..` leads it back
to what was there before.
-/

namespace Freshness
namespace Cache

open FileSystem Freshness.Path

/-- The names that count on the way to the cache directory. -/
def way (cache : Cache) : List Name := withoutDots (route cache.root)

/-- The cache directory is at `base`. -/
def At (cache : Cache) (fs : FileSystem) (base : Location) : Prop :=
  Leads fs (fs.origin cache.root) cache.way base

/-- A cache in whose directory there are no links, and whose root goes back to a parent only where
there is something already. -/
structure Sound (cache : Cache) (fs : FileSystem) : Prop where
  tree : fs.WellFormed
  noLink : ∀ base, cache.At fs base → fs.NoLinkBelow base
  steady : ∃ known rest m, cache.way = known ++ rest ∧
    Leads fs (fs.origin cache.root) known m ∧ [dot, dot] ∉ rest

/-- One of the given lists of names leads from the cache directory to the location. -/
def Holds (cache : Cache) (fs : FileSystem) (written : List (List Name)) (l : Location) : Prop :=
  ∃ base names, cache.At fs base ∧ names ∈ written ∧ l = base.descend names

/-- Files are written below the cache directory, which is where it was, or is new. -/
structure Advances (cache : Cache) (written : List (List Name)) (fs fs' : FileSystem) : Prop where
  tree : fs'.WellFormed
  grown : Grown (cache.Holds fs' written) fs fs'
  follows : ∀ base, cache.At fs' base → cache.At fs base ∨ fs.entry? base = none
  directory : written ≠ [] → ∀ base, cache.At fs' base → fs'.node? base = some .directory

variable {cache : Cache} {fs fs' : FileSystem} {base : Location} {written : List (List Name)}

theorem At.unique {base' : Location} (h : cache.At fs base) (h' : cache.At fs base') :
    base = base' :=
  Leads.unique h h' rfl

theorem withoutDots_way (cache : Cache) : withoutDots cache.way = cache.way := by
  simp [way, withoutDots]

/-- A root without `..` goes back nowhere. -/
theorem sound_of_not_mem (htree : fs.WellFormed)
    (hlinks : ∀ base, cache.At fs base → fs.NoLinkBelow base) (hdots : [dot, dot] ∉ cache.way) :
    cache.Sound fs :=
  ⟨htree, hlinks, [], cache.way, _, rfl, Leads.stay, hdots⟩

/-- Some names lead from the cache directory to `l`. -/
def LeadsBelow (cache : Cache) (fs : FileSystem) (names : List Name) (l : Location) : Prop :=
  Leads fs (fs.origin cache.root) (cache.way ++ names) l

theorem withoutDots_route_append (cache : Cache) {names : List Name}
    (hnames : ∀ name ∈ names, IsName name) :
    withoutDots (route cache.root ++ names) = cache.way ++ names := by
  have hself : withoutDots names = names :=
    List.filter_eq_self.mpr fun name hname => by simpa using (hnames name hname).ne_dot
  rw [withoutDots, List.filter_append, ← withoutDots, ← withoutDots, hself, way]

theorem LeadsBelow.of_leads {names : List Name} {l : Location}
    (hnames : ∀ name ∈ names, IsName name)
    (h : Leads fs (fs.origin cache.root) (route cache.root ++ names) l) :
    cache.LeadsBelow fs names l := by
  have hleads := h.dropDots
  rw [cache.withoutDots_route_append hnames] at hleads
  exact hleads

/-- Where no link is in the cache directory, what names lead to is straight below it. -/
theorem LeadsBelow.exists_base {names : List Name} {l : Location} (h : cache.LeadsBelow fs names l)
    (hlinks : ∀ base, cache.At fs base → fs.NoLinkBelow base)
    (hnames : ∀ name ∈ names, IsName name) :
    ∃ base, cache.At fs base ∧ l = base.descend names := by
  obtain ⟨base, hbase, hl⟩ := h.append
  exact ⟨base, hbase, hl.eq_descend (hlinks base hbase) hnames⟩

/-- What is looked for below the root of the cache is straight below the cache directory. -/
theorem exists_at_of_resolve (hsound : cache.Sound fs) {names : List Name}
    (hnames : ∀ name ∈ names, IsName name) {l : Location}
    (h : fs.resolve (cache.root.descend names) = .ok l) :
    ∃ base, cache.At fs base ∧ l = base.descend names := by
  have hleads := (resolve_eq_ok_iff.mp h).2.leads
  rw [route_descend _ hnames, origin_descend fs _ hnames] at hleads
  exact (LeadsBelow.of_leads hnames hleads).exists_base hsound.noLink hnames

theorem Holds.of_at (hbase : cache.At fs base) {l : Location} :
    cache.Holds fs written l ↔ ∃ names ∈ written, l = base.descend names := by
  constructor
  · rintro ⟨base', names, hbase', hnames, rfl⟩
    obtain rfl := hbase.unique hbase'
    exact ⟨names, hnames, rfl⟩
  · rintro ⟨names, hnames, rfl⟩
    exact ⟨base, names, hbase, hnames, rfl⟩

/-! ## Going on from one tree to the next -/

namespace Advances

theorem sound (h : cache.Advances written fs fs') (hsound : cache.Sound fs) :
    cache.Sound fs' := by
  refine ⟨h.tree, ?_, ?_⟩
  · intro base hbase names hne target hnode
    have hold := h.grown.link_of_link hnode
    rcases h.follows base hbase with hat | hnone
    · exact hsound.noLink base hat names hne target hold
    · have hholder := hsound.tree.node?_of_descend hne (isSome_entry?_of_node? hold)
      rw [node?, hnone] at hholder
      cases hholder
  · by_cases hany : ∃ l, cache.Holds fs' written l
    · obtain ⟨l, base, -, hbase, -⟩ := hany
      exact ⟨cache.way, [], base, (List.append_nil _).symm, hbase, by simp⟩
    · obtain ⟨known, rest, m, hway, hm, hrest⟩ := hsound.steady
      refine ⟨known, rest, m, hway, ?_, hrest⟩
      rw [h.grown.origin_eq]
      exact h.grown.leads hm fun hheld => hany ⟨m, hheld⟩

/-- The cache directory stays where it is. -/
theorem at_kept (h : cache.Advances written fs fs') (hbase : cache.At fs base)
    (hnode : fs.node? base = some .directory) :
    cache.At fs' base ∧ fs'.node? base = some .directory := by
  refine ⟨?_, h.grown.directory_kept hnode⟩
  rw [At, h.grown.origin_eq]
  exact h.grown.leads hbase (h.grown.not_touched hnode)

theorem refl (htree : fs.WellFormed) : cache.Advances [] fs fs where
  tree := htree
  grown := Grown.of_plain fun _ h => absurd h (by simp [Holds])
  follows _ h := Or.inl h
  directory h := absurd rfl h

theorem trans {fs'' : FileSystem} (h : cache.Advances [] fs fs')
    (h' : cache.Advances written fs' fs'') : cache.Advances written fs fs'' := by
  have hnone : ∀ l, ¬cache.Holds fs' [] l := by simp [Holds]
  refine ⟨h'.tree, h.grown.trans_of_imp h'.grown fun l hl => absurd hl (hnone l), ?_,
    h'.directory⟩
  intro base hbase
  rcases h'.follows base hbase with hat | hvacant
  · exact h.follows base hat
  · right
    rcases h.grown.kept base (hnone base) with hsame | ⟨e, time, -, -, he⟩ | ⟨hvacant', -⟩
    · rw [← hsame]
      exact hvacant
    · rw [he] at hvacant
      cases hvacant
    · exact hvacant'

/-- What is written below the cache directory does not move it. -/
theorem of_grown (h : Grown (fun l => ∃ names ∈ written, l = base.descend names) fs fs')
    (hbase : cache.At fs base) (hnode : fs.node? base = some .directory)
    (htree : fs'.WellFormed) : cache.Advances written fs fs' := by
  have hbase' : cache.At fs' base := by
    rw [At, h.origin_eq]
    exact h.leads hbase (h.not_touched hnode)
  have hholds : cache.Holds fs' written = fun l => ∃ names ∈ written, l = base.descend names :=
    funext fun l => propext (Holds.of_at hbase')
  refine ⟨htree, hholds ▸ h, ?_, ?_⟩
  · intro base' hat
    obtain rfl := hbase'.unique hat
    exact Or.inl hbase
  · intro _ base' hat
    obtain rfl := hbase'.unique hat
    exact h.directory_kept hnode

end Advances

/-! ## Creating the directories on the way -/

/-- A path on the way to the entries that are kept below the given directories. -/
structure Along (cache : Cache) (dirs : List Name) (p : Path) : Prop where
  isAbsolute : p.isAbsolute = cache.root.isAbsolute
  onWay : withoutDots (route p) <+: cache.way ++ dirs

variable {dirs : List Name} {p q : Path}

theorem Along.parent (h : cache.Along dirs p) (hparent : p.parent? = some q) :
    q.bytes = [] ∨ cache.Along dirs q := by
  rcases parent?_spec hparent with hnil | ⟨habsolute, name, hroute⟩
  · exact Or.inl hnil
  · refine Or.inr ⟨habsolute.trans h.isAbsolute, ?_⟩
    have hprefix := h.onWay
    rw [hroute] at hprefix
    exact (List.prefix_append _ _).trans hprefix

theorem Along.origin_eq (h : cache.Along dirs p) : fs.origin p = fs.origin cache.root := by
  rw [origin, origin, h.isAbsolute]

/-- Names without `..` lead nowhere from an empty directory. -/
theorem eq_of_leads_of_empty {l m : Location} {names : List Name} (h : Leads fs l names m)
    (hempty : ∀ name, fs.node? (l.child name) = none) (hdots : [dot, dot] ∉ names) : m = l := by
  induction h with
  | stay => rfl
  | current _ _ ih => exact ih hempty (mt (List.mem_cons_of_mem _) hdots)
  | up _ _ _ => exact absurd List.mem_cons_self hdots
  | link _ hnode _ _ =>
      rw [hempty] at hnode
      cases hnode
  | step _ hnode _ _ _ =>
      rw [hempty] at hnode
      cases hnode

/-- Where the last name of a path is new, what leads on from there without `..` is new. -/
theorem at_or_none_of_created (hsound : cache.Sound fs) (hp : cache.Along dirs p)
    {init : List Name} {last : Name} {m : Location} (hroute : route p = init ++ [last])
    (hm : Leads fs (fs.origin p) init m) (hpasses : fs.Passes m last)
    (hnone : fs.entry? (m.child last) = none) (hgrown : Grown (fun _ => False) fs fs')
    (hcreated : fs'.node? (m.child last) = some .directory)
    (hempty : ∀ name, fs'.node? ((m.child last).child name) = none)
    (hbase : cache.At fs' base) : cache.At fs base ∨ fs.entry? base = none := by
  have hleads : Leads fs' (fs.origin cache.root) (route p) (m.child last) := by
    rw [hroute, ← hp.origin_eq]
    exact (hgrown.leads hm id).trans
      (Leads.step (hgrown.preserves.passes hpasses) hcreated (by simp) Leads.stay)
  rw [At, hgrown.origin_eq] at hbase
  by_cases hbefore : withoutDots (route p) <+: cache.way
  · right
    obtain ⟨tail, htail⟩ := hbefore
    rw [← htail] at hbase
    obtain ⟨l, hl, hrest⟩ := hbase.append
    obtain rfl := hl.unique hleads (by simp [withoutDots])
    have hdots : [dot, dot] ∉ tail := by
      obtain ⟨known, rest, k, hway, hknown, hrestDots⟩ := hsound.steady
      rcases List.append_eq_append_iff.mp (htail.trans hway) with
        ⟨more, rfl, -⟩ | ⟨more, -, rfl⟩
      · obtain ⟨l', hl', -⟩ := hknown.append
        rw [hroute, ← hp.origin_eq] at hl'
        exact absurd hl' (not_leads_of_none hm hpasses hnone (by simp [withoutDots]))
      · exact mt (List.mem_append_right more) hrestDots
    rw [eq_of_leads_of_empty hrest hempty hdots]
    exact hnone
  · left
    obtain ⟨tail, htail⟩ := (List.prefix_or_prefix_of_prefix hp.onWay
      (List.prefix_append cache.way dirs)).resolve_left hbefore
    have hlast : withoutDots (route p) = withoutDots init ++ [last] := by
      simp [hroute, withoutDots, hpasses.ne_dot]
    rcases List.eq_nil_or_concat tail with rfl | ⟨tail, name, rfl⟩
    · exact absurd ⟨[], by rw [← htail, List.append_nil, List.append_nil]⟩ hbefore
    · rw [hlast, List.concat_eq_append, ← List.append_assoc] at htail
      have hinit := List.append_inj_left' htail rfl
      have hway := hm.dropDots
      rw [← hinit, hp.origin_eq] at hway
      obtain ⟨base', hbase', -⟩ := hway.append
      obtain rfl := hbase.unique (hgrown.leads hbase' id) rfl
      exact hbase'

/-- A directory is created where there was nothing, in a directory that all names but the last
lead to. -/
theorem exists_of_createDirectory (htree : fs.WellFormed) (h : fs.createDirectory p = .ok fs') :
    ∃ init last m, route p = init ++ [last] ∧ Leads fs (fs.origin p) init m ∧
      fs.Passes m last ∧ fs.entry? (m.child last) = none ∧ Grown (fun _ => False) fs fs' ∧
      fs'.node? (m.child last) = some .directory ∧
      ∀ name, fs'.node? ((m.child last).child name) = none := by
  unfold createDirectory at h
  cases hlocate : fs.locate .rearrange p with
  | error e =>
      rw [hlocate] at h
      cases h
  | ok place =>
      rw [hlocate] at h
      cases place with
      | found l => cases h
      | vacant l =>
          obtain ⟨init, last, m, hroute, hm, hpasses, rfl, hnone⟩ :=
            exists_of_vacant htree hlocate
          simp only [bind, Except.bind, create] at h
          split at h
          next =>
            obtain rfl := Except.ok.inj h
            have hput := Grown.addDirectory hnone fs.clock
            have hholder := hput.directory_kept (node?_of_enter hpasses.enter)
            refine ⟨init, last, m, hroute, hm, hpasses, hnone, hput.stamp hholder, ?_, ?_⟩
            · rw [node?_stamp, WellFormed.node?_put, if_pos rfl]
            · intro name
              rw [node?_stamp, WellFormed.node?_put, if_neg (Location.ne_child _ name)]
              exact htree.node?_child_of_none hnone name
          next => cases h

/-- Creating directories changes nothing else. -/
theorem grown_createDirectories (htree : fs.WellFormed) (p : Path) :
    Grown (fun _ => False) fs (fs.createDirectories p).2 := by
  have hcreate : ∀ {fs fs' : FileSystem} {p : Path}, fs.WellFormed →
      fs.createDirectory p = .ok fs' → Grown (fun _ => False) fs fs' := by
    intro fs fs' p htree h
    obtain ⟨-, -, -, -, -, -, -, hgrown, -⟩ := exists_of_createDirectory htree h
    exact hgrown
  fun_induction createDirectories fs p with
  | case1 => exact Grown.refl fs
  | case2 p hnil fs' hcreated => exact hcreate htree hcreated
  | case3 => exact Grown.refl fs
  | case4 p hnil hnotFound q hparent e fs' hparents ih =>
      rw [hparents] at ih
      exact ih
  | case5 p hnil hnotFound q hparent fs' hparents fs'' hcreated ih =>
      have htree' := htree.createDirectories q
      rw [hparents] at ih htree'
      exact ih.trans (hcreate htree' hcreated)
  | case6 p hnil hnotFound q hparent fs' hparents e herror ih =>
      rw [hparents] at ih
      exact ih
  | case7 => exact Grown.refl fs

theorem advances_createDirectory (hsound : cache.Sound fs) (hp : cache.Along dirs p)
    (h : fs.createDirectory p = .ok fs') : cache.Advances [] fs fs' := by
  obtain ⟨init, last, m, hroute, hm, hpasses, hnone, hgrown, hcreated, hempty⟩ :=
    exists_of_createDirectory hsound.tree h
  refine ⟨hsound.tree.createDirectory h, hgrown.mono (fun _ => False.elim) ?_ ?_, ?_,
    fun h => absurd rfl h⟩
  · simp [Holds]
  · simp [Holds]
  · intro base hbase
    exact at_or_none_of_created hsound hp hroute hm hpasses hnone hgrown hcreated hempty hbase

theorem advances_createDirectories (hsound : cache.Sound fs)
    (hp : p.bytes = [] ∨ cache.Along dirs p) :
    cache.Advances [] fs (fs.createDirectories p).2 := by
  fun_induction createDirectories fs p with
  | case1 => exact Advances.refl hsound.tree
  | case2 p hnil fs' hcreate =>
      exact advances_createDirectory hsound (hp.resolve_left hnil) hcreate
  | case3 => exact Advances.refl hsound.tree
  | case4 p hnil hcreate q hparent e fs' hparents ih =>
      rw [hparents] at ih
      exact ih ((hp.resolve_left hnil).parent hparent)
  | case5 p hnil hcreate q hparent fs' hparents fs'' hcreate' ih =>
      rw [hparents] at ih
      have hadvances := ih ((hp.resolve_left hnil).parent hparent)
      exact hadvances.trans
        (advances_createDirectory (hadvances.sound hsound) (hp.resolve_left hnil) hcreate')
  | case6 p hnil hcreate q hparent fs' hparents e hcreate' ih =>
      rw [hparents] at ih
      exact ih ((hp.resolve_left hnil).parent hparent)
  | case7 => exact Advances.refl hsound.tree

end Cache
end Freshness
