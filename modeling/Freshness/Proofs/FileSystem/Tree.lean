import Freshness.Proofs.FileSystem.Deleting
import Freshness.Proofs.Path.Route

/-!
# Trees

In a tree every entry lies in a directory and has a name that can be written in a path.
The names that lead down to a file are then followed one by one: no link is on the way.
-/

namespace Freshness
namespace Location

/-- Where some names, the last one last, lead from `l`. -/
def descend (l : Location) (names : List Name) : Location := names.foldl child l

theorem names_descend (l : Location) (names : List Name) :
    (l.descend names).names = names.reverse ++ l.names := by
  induction names generalizing l with
  | nil => rfl
  | cons name rest ih =>
      have hrest := ih (l.child name)
      simpa [descend, child] using hrest

theorem descend_append (l : Location) (front back : List Name) :
    l.descend (front ++ back) = (l.descend front).descend back :=
  List.foldl_append

theorem descend_concat (l : Location) (names : List Name) (name : Name) :
    l.descend (names ++ [name]) = (l.descend names).child name :=
  l.descend_append names [name]

theorem depth_descend (l : Location) (names : List Name) :
    (l.descend names).depth = names.length + l.depth := by
  rw [(l.descend names).depth_eq, names_descend, l.depth_eq]
  simp

theorem descend_inj {l : Location} {names names' : List Name} :
    l.descend names = l.descend names' ↔ names = names' := by
  constructor
  · intro h
    have hnames := congrArg Location.names h
    rw [names_descend, names_descend] at hnames
    exact List.reverse_injective (List.append_cancel_right hnames)
  · rintro rfl
    rfl

theorem below?_eq_some_iff {base l : Location} {names : List Name} :
    base.below? l = some names ↔ l = base.descend names := by
  constructor
  · intro h
    rw [below?] at h
    split at h
    next hdrop =>
      apply eq_of_names_eq
      rw [names_descend, ← Option.some.inj h, List.reverse_reverse, ← hdrop,
        List.take_append_drop]
    next => cases h
  · rintro rfl
    have hdepth : (base.descend names).depth - base.depth = names.length := by
      rw [depth_descend]
      omega
    rw [below?, hdepth, names_descend]
    simp

end Location

namespace FileSystem

/-- Every entry but the root directory lies in a directory and has a name. -/
structure WellFormed (fs : FileSystem) : Prop where
  root : fs.node? .root = some .directory
  isName : ∀ (l : Location) (name : Name),
    (fs.entry? (l.child name)).isSome = true → IsName name
  holder : ∀ (l : Location) (name : Name),
    (fs.entry? (l.child name)).isSome = true → fs.node? l = some .directory

variable {fs : FileSystem}

/-- On the way down to an entry there are directories. -/
theorem WellFormed.of_descend_cons (htree : fs.WellFormed) {l : Location}
    {name : Name} {rest : List Name}
    (h : (fs.entry? (l.descend (name :: rest))).isSome = true) :
    IsName name ∧ (rest ≠ [] → fs.node? (l.child name) = some .directory) ∧
      fs.node? l = some .directory := by
  induction rest generalizing l name with
  | nil => exact ⟨htree.isName l name h, fun hne => absurd rfl hne, htree.holder l name h⟩
  | cons next rest ih =>
      obtain ⟨-, -, hnode⟩ := ih (l := l.child name) h
      have hentry := isSome_entry?_of_node? hnode
      exact ⟨htree.isName l name hentry, fun _ => hnode, htree.holder l name hentry⟩

theorem WellFormed.node?_of_descend (htree : fs.WellFormed) {l : Location}
    {names : List Name} (hne : names ≠ []) (h : (fs.entry? (l.descend names)).isSome = true) :
    fs.node? l = some .directory := by
  obtain ⟨name, rest, rfl⟩ := List.exists_cons_of_ne_nil hne
  exact (htree.of_descend_cons h).2.2

theorem WellFormed.isName_of_mem (htree : fs.WellFormed) {l : Location}
    {names : List Name} (h : (fs.entry? (l.descend names)).isSome = true) :
    ∀ name ∈ names, IsName name := by
  induction names generalizing l with
  | nil => simp
  | cons name rest ih =>
      rw [List.forall_mem_cons]
      exact ⟨(htree.of_descend_cons h).1, ih (l := l.child name) h⟩

theorem WellFormed.isName_of_hasFile (htree : fs.WellFormed) {l : Location}
    {names : List Name} (h : fs.HasFile (l.descend names)) : ∀ name ∈ names, IsName name := by
  obtain ⟨content, hnode⟩ := h
  exact htree.isName_of_mem (isSome_entry?_of_node? hnode)

/-- A walk down to a file ends there. -/
theorem Finds.eq_descend (htree : fs.WellFormed)
    {purpose : Purpose} {links : Nat} {slash : Bool} {here l : Location}
    {names : List Name} (hfile : fs.HasFile (here.descend names))
    (h : Finds fs purpose links slash here names l) : l = here.descend names := by
  induction h with
  | stay _ _ => rfl
  | current _ _ _ =>
      obtain ⟨content, hnode⟩ := hfile
      exact absurd rfl (htree.of_descend_cons (isSome_entry?_of_node? hnode)).1.ne_dot
  | up _ _ _ =>
      obtain ⟨content, hnode⟩ := hfile
      exact absurd rfl (htree.of_descend_cons (isSome_entry?_of_node? hnode)).1.ne_dots
  | last _ _ _ => rfl
  | @link links slash here name rest target l hname _ _ hlink _ _ =>
      obtain ⟨content, hnode⟩ := hfile
      by_cases hrest : rest = []
      · subst hrest
        have hsame : fs.node? (here.child name) = some (.file content) := hnode
        rw [hlink] at hsame
        cases hsame
      · have hdirectory :=
          (htree.of_descend_cons (isSome_entry?_of_node? hnode)).2.1 hrest
        rw [hlink] at hdirectory
        cases hdirectory
  | step _ _ _ _ _ _ ih => exact ih hfile

/-- A walk along names in two parts goes through a location in between. -/
theorem Finds.append {purpose : Purpose} {links : Nat} {slash : Bool}
    {here l : Location} {names rest : List Name} (hne : rest ≠ [])
    (h : Finds fs purpose links slash here (names ++ rest) l) :
    ∃ m links' slash', Leads fs here names m ∧
      Finds fs purpose links' slash' m rest l := by
  generalize hall : names ++ rest = all at h
  induction h generalizing names with
  | stay _ _ => exact absurd (List.append_eq_nil_iff.mp hall).2 hne
  | @current links slash here _ l henter hrest ih =>
      rcases List.append_eq_cons_iff.mp hall with
        ⟨rfl, rfl⟩ | ⟨names, rfl, htail⟩
      · exact ⟨here, _, _, Leads.stay, Finds.current henter hrest⟩
      · obtain ⟨m, links', slash', hm, hl⟩ := ih htail.symm
        exact ⟨m, links', slash', Leads.current henter hm, hl⟩
  | @up links slash here _ l henter hrest ih =>
      rcases List.append_eq_cons_iff.mp hall with
        ⟨rfl, rfl⟩ | ⟨names, rfl, htail⟩
      · exact ⟨here, _, _, Leads.stay, Finds.up henter hrest⟩
      · obtain ⟨m, links', slash', hm, hl⟩ := ih htail.symm
        exact ⟨m, links', slash', Leads.up henter hm, hl⟩
  | @last links slash here name hpurpose hname hentry =>
      rcases List.append_eq_cons_iff.mp hall with
        ⟨rfl, rfl⟩ | ⟨names, rfl, htail⟩
      · exact ⟨here, links, slash, Leads.stay, Finds.last hpurpose hname hentry⟩
      · exact absurd (List.append_eq_nil_iff.mp htail.symm).2 hne
  | @link links slash here name _ target l hname hrearrange hwrite hnode hrest ih =>
      rcases List.append_eq_cons_iff.mp hall with
        ⟨rfl, rfl⟩ | ⟨names, rfl, htail⟩
      · exact ⟨here, _, _, Leads.stay, Finds.link hname hrearrange hwrite hnode hrest⟩
      · obtain ⟨m, links', slash', hm, hl⟩ := @ih (route target ++ names)
          (by rw [htail, List.append_assoc])
        exact ⟨m, links', slash', Leads.link hname hnode hm, hl⟩
  | @step links slash here name _ node l hname hrearrange hwrite hnode hlink hrest ih =>
      rcases List.append_eq_cons_iff.mp hall with
        ⟨rfl, rfl⟩ | ⟨names, rfl, htail⟩
      · exact ⟨here, _, _, Leads.stay,
          Finds.step hname hrearrange hwrite hnode hlink hrest⟩
      · obtain ⟨m, links', slash', hm, hl⟩ := ih htail.symm
        exact ⟨m, links', slash', Leads.step hname hnode hlink hm, hl⟩

/-- The path to a file below a directory leads to it, if anywhere. -/
theorem eq_descend_of_locate (htree : fs.WellFormed) {root : Path} {base l : Location}
    {way names : List Name} {purpose : Purpose} (hbase : Leads fs (fs.origin root) way base)
    (hway : withoutDots way = withoutDots (route root)) (hne : names ≠ [])
    (hfile : fs.HasFile (base.descend names))
    (h : fs.locate purpose (root.descend names) = .ok (.found l)) :
    l = base.descend names := by
  obtain ⟨-, hpath⟩ := locate_eq_found_iff.mp h
  have hnames := htree.isName_of_hasFile hfile
  rw [origin_descend fs root hnames, route_descend root hnames] at hpath
  obtain ⟨m, links, slash, hm, hl⟩ := hpath.append hne
  obtain rfl := hm.unique hbase hway.symm
  exact hl.eq_descend htree hfile

end FileSystem
end Freshness
