import Freshness.Proofs.Path.Pieces

/-!
# Paths that consist of names

The names of entries can be written one after the other, below a root or alone.  Such a path can be
taken apart again: into its components, into the root and the names below it, and into the stem and
the extension of the last name.
-/

namespace Freshness
namespace Path

theorem pieces_append_flatMap (bytes : Bytes) {body : List Name}
    (hbody : ∀ piece ∈ body, separator ∉ piece) :
    pieces (bytes ++ body.flatMap (separator :: ·)) = pieces bytes ++ body := by
  induction body generalizing bytes with
  | nil => simp
  | cons piece rest ih =>
      obtain ⟨hpiece, hrest⟩ := List.forall_mem_cons.mp hbody
      have hbytes : bytes ++ (piece :: rest).flatMap (separator :: ·) =
          (bytes ++ separator :: piece) ++ rest.flatMap (separator :: ·) := by
        simp
      rw [hbytes, ih _ hrest, pieces_append_separator, pieces_of_not_mem hpiece]
      simp

/-- What is written after a path without a separator goes to its last piece. -/
theorem exists_pieces (bytes : Bytes) : ∃ init last, ∀ suffix : Bytes, separator ∉ suffix →
    pieces (bytes ++ suffix) = init ++ [last ++ suffix] := by
  induction bytes with
  | nil => exact ⟨[], [], fun suffix hsuffix => by simpa using pieces_of_not_mem hsuffix⟩
  | cons b rest ih =>
      obtain ⟨init, last, hrest⟩ := ih
      by_cases hb : b = separator
      · refine ⟨[] :: init, last, fun suffix hsuffix => ?_⟩
        rw [List.cons_append, hb]
        have happend := pieces_append_separator [] (rest ++ suffix)
        rw [List.nil_append, hrest suffix hsuffix] at happend
        exact happend
      · have hcons : ∀ {bytes first others}, pieces bytes = first :: others →
            pieces (b :: bytes) = (b :: first) :: others := by
          intro bytes first others h
          obtain ⟨hfirst, hothers⟩ := List.cons.inj h
          simp [pieces, splitAtEach, hb, hfirst, hothers]
        cases init with
        | nil => exact ⟨[], b :: last, fun suffix hsuffix => hcons (hrest suffix hsuffix)⟩
        | cons first init =>
            exact ⟨(b :: first) :: init, last, fun suffix hsuffix => hcons (hrest suffix hsuffix)⟩

theorem bytes_descend (root : Path) {name : Name} {rest : List Name}
    (hnames : ∀ other ∈ name :: rest, IsName other) :
    (root.descend (name :: rest)).bytes =
      (root.child name).bytes ++ rest.flatMap (separator :: ·) := by
  have hname := (List.forall_mem_cons.mp hnames).1
  rw [← join_ofBody root (List.cons_ne_nil name rest) hnames]
  exact bytes_join_append root hname.ne_nil _

/-- The pieces of a path below `root` are those of `root` and then the names. -/
theorem body_descend {root : Path} (hroot : root.bytes ≠ []) {names : List Name}
    (hne : names ≠ []) (hnames : ∀ name ∈ names, IsName name) :
    (root.descend names).first = root.first ∧
      ∃ init, (root.body = init ∨ root.body = init ++ [[]]) ∧
        (root.descend names).body = init ++ names := by
  obtain ⟨name, rest, rfl⟩ := List.exists_cons_of_ne_nil hne
  obtain ⟨hname, hrest⟩ := List.forall_mem_cons.mp hnames
  have hpieces : pieces (root.descend (name :: rest)).bytes =
      pieces (root.child name).bytes ++ rest := by
    rw [bytes_descend root hnames]
    exact pieces_append_flatMap _ fun other hother => (hrest other hother).no_separator
  rw [bytes_child hroot hname] at hpieces
  split at hpieces
  next hlast =>
    obtain ⟨before, hbefore⟩ := List.getLast?_eq_some_iff.mp hlast
    have hinit : pieces root.bytes = pieces before ++ [[]] := by
      rw [hbefore, pieces_append_separator]
      rfl
    rw [hbefore, List.append_assoc, List.singleton_append, pieces_append_separator,
      pieces_of_not_mem hname.no_separator, ← first_cons_body] at hpieces
    rw [← first_cons_body] at hinit
    obtain ⟨first, init, hbeforePieces⟩ : ∃ first init, pieces before = first :: init :=
      ⟨_, _, rfl⟩
    rw [hbeforePieces] at hinit hpieces
    obtain ⟨hrootFirst, hrootBody⟩ := List.cons.inj hinit
    obtain ⟨hfirst, hbody⟩ := List.cons.inj hpieces
    exact ⟨hfirst.trans hrootFirst.symm, init, Or.inr hrootBody, by simpa using hbody⟩
  next =>
    rw [pieces_append_separator, pieces_of_not_mem hname.no_separator, ← first_cons_body,
      ← first_cons_body] at hpieces
    obtain ⟨hfirst, hbody⟩ := List.cons.inj hpieces
    exact ⟨hfirst, root.body, Or.inl rfl, by simpa using hbody⟩

theorem component?_of_isName {name : Name} (h : IsName name) :
    component? name = some (.normal name) := by
  simp [component?, isTrivial, h.ne_nil, h.ne_dot, h.ne_dots]

theorem filterMap_component? {names : List Name} (hnames : ∀ name ∈ names, IsName name) :
    names.filterMap component? = names.map .normal := by
  rw [← List.filterMap_eq_map]
  exact List.filterMap_congr fun name hname => component?_of_isName (hnames name hname)

/-- A path that is not empty has a first component, by its first piece. -/
theorem exists_components {p : Path} (hp : p.bytes ≠ []) :
    ∃ c, firstComponent? p.first true = some c ∧
      p.components = c :: p.body.filterMap component? := by
  by_cases hfirst : p.first = []
  · have hbody : p.body ≠ [] := by
      intro hnil
      have hempty := ofPieces_first_body p
      rw [hfirst, hnil] at hempty
      exact hp (congrArg Path.bytes hempty).symm
    refine ⟨.root, by simp [firstComponent?, hfirst], ?_⟩
    simp [components, firstComponent?, hfirst, hbody]
  · have hsome : ∃ c, component? p.first = some c ∨ p.first = [dot] := by
      by_cases hdot : p.first = [dot]
      · exact ⟨.current, Or.inr hdot⟩
      · by_cases hdots : p.first = [dot, dot]
        · exact ⟨.parent, Or.inl (by simp [component?, isTrivial, hdots])⟩
        · exact ⟨.normal p.first, Or.inl (by simp [component?, isTrivial, hfirst, hdot, hdots])⟩
    obtain ⟨c, hc | hdot⟩ := hsome
    · have hdot : p.first ≠ [dot] := by
        intro hdot
        simp [hdot, component?, isTrivial] at hc
      exact ⟨c, by simp [firstComponent?, hfirst, hdot, hc],
        by simp [components, firstComponent?, hfirst, hdot, hc]⟩
    · exact ⟨.current, by simp [firstComponent?, hdot], by simp [components, firstComponent?, hdot]⟩

theorem filterMap_body_descend {body init : List Name} (h : body = init ∨ body = init ++ [[]]) :
    body.filterMap component? = init.filterMap component? := by
  rcases h with rfl | rfl
  · rfl
  · rw [List.filterMap_append]
    simp [component?, isTrivial]

theorem bytes_descend_ne_nil (root : Path) {names : List Name} (hne : names ≠ [])
    (hnames : ∀ name ∈ names, IsName name) : (root.descend names).bytes ≠ [] := by
  obtain ⟨name, rest, rfl⟩ := List.exists_cons_of_ne_nil hne
  obtain ⟨front, hfront⟩ := exists_bytes_join root ⟨name⟩
  rw [bytes_descend root hnames, child, hfront]
  simp [(hnames name List.mem_cons_self).ne_nil]

/-- The components of a path below `root` are those of `root` and then the names. -/
theorem components_descend {root : Path} (hroot : root.bytes ≠ []) {names : List Name}
    (hne : names ≠ []) (hnames : ∀ name ∈ names, IsName name) :
    (root.descend names).components = root.components ++ names.map .normal := by
  obtain ⟨hfirst, init, hinit, hbody⟩ := body_descend hroot hne hnames
  obtain ⟨c, hc, hcomponents⟩ := exists_components hroot
  obtain ⟨c', hc', hcomponents'⟩ := exists_components (bytes_descend_ne_nil root hne hnames)
  rw [hfirst, hc] at hc'
  cases hc'
  rw [hcomponents, hcomponents', hbody, List.filterMap_append, filterMap_component? hnames,
    filterMap_body_descend hinit, List.cons_append]

/-! ## Below a root -/

theorem component?_eq_none_iff (piece : Name) :
    component? piece = none ↔ isTrivial piece = true := by
  unfold component?
  split
  next h => simp [h]
  next h => split <;> simp [h]

theorem isTrivial_of_isName {name : Name} (h : IsName name) : isTrivial name = false := by
  simp [isTrivial, h.ne_nil, h.ne_dot]

theorem dropComponents_append {names : List Name} (hnames : ∀ name ∈ names, IsName name)
    (init : List Name) :
    dropComponents (init.filterMap component?).length (init ++ names) = names := by
  induction init with
  | nil =>
      cases names with
      | nil => rfl
      | cons name rest =>
          have htrivial := isTrivial_of_isName (hnames name List.mem_cons_self)
          simp [dropComponents, htrivial]
  | cons piece init ih =>
      by_cases htrivial : isTrivial piece = true
      · rw [List.filterMap_cons_none ((component?_eq_none_iff piece).mpr htrivial)]
        cases hlength : (init.filterMap component?).length with
        | zero =>
            rw [hlength] at ih
            cases hrest : init ++ names with
            | nil => simp_all [dropComponents]
            | cons next rest => simp_all [dropComponents]
        | succ count =>
            rw [hlength] at ih
            rw [List.cons_append, dropComponents, if_pos htrivial, ih]
      · obtain ⟨c, hc⟩ := Option.ne_none_iff_exists'.mp
          fun hnone => htrivial ((component?_eq_none_iff piece).mp hnone)
        rw [List.filterMap_cons_some hc, List.length_cons, List.cons_append, dropComponents,
          if_neg htrivial, ih]

theorem dropTrailing_of_isName {names : List Name} (hnames : ∀ name ∈ names, IsName name) :
    dropTrailing names = names := by
  obtain ⟨trail, hbody, htrail⟩ := exists_dropTrailing names
  cases trail with
  | nil => exact (hbody.trans (List.append_nil _)).symm
  | cons piece rest =>
      have hmem : piece ∈ names := by
        rw [hbody]
        simp
      have htrivial := isTrivial_of_isName (hnames piece hmem)
      rw [htrail piece List.mem_cons_self] at htrivial
      cases htrivial

theorem relativeTo?_descend {root : Path} (hroot : root.bytes ≠ []) {names : List Name}
    (hne : names ≠ []) (hnames : ∀ name ∈ names, IsName name) :
    (root.descend names).relativeTo? root = some (ofBody names) := by
  obtain ⟨-, init, hinit, hbody⟩ := body_descend hroot hne hnames
  obtain ⟨c, -, hcomponents⟩ := exists_components hroot
  have hcount : root.components.length - 1 = (init.filterMap component?).length := by
    rw [hcomponents, filterMap_body_descend hinit]
    rfl
  rw [relativeTo?, components_descend hroot hne hnames, if_pos (by simp),
    if_neg (by simp [hcomponents]), hcount, hbody, dropComponents_append hnames,
    dropTrailing_of_isName hnames]

/-! ## Extensions -/

theorem eq_of_splitAtLast? {mark : UInt8} {bytes before after : Bytes}
    (h : splitAtLast? mark bytes = some (before, after)) : bytes = before ++ mark :: after := by
  induction bytes generalizing before after with
  | nil => cases h
  | cons b rest ih =>
      rw [splitAtLast?] at h
      split at h
      next before' after' hrest =>
        cases h
        rw [ih hrest]
        rfl
      next =>
        split at h <;> cases h
        simp_all

theorem splitAtLast?_of_not_mem {mark : UInt8} {bytes : Bytes} (h : mark ∉ bytes) :
    splitAtLast? mark bytes = none := by
  induction bytes with
  | nil => rfl
  | cons b rest ih =>
      obtain ⟨hb, hrest⟩ := not_or.mp (mt List.mem_cons.mpr h)
      rw [splitAtLast?, ih hrest]
      exact if_neg (Ne.symm hb)

/-- The last mark is the one that no other comes after. -/
theorem splitAtLast?_append {mark : UInt8} (before : Bytes) {after : Bytes}
    (hafter : mark ∉ after) :
    splitAtLast? mark (before ++ mark :: after) = some (before, after) := by
  induction before with
  | nil => simp [splitAtLast?, splitAtLast?_of_not_mem hafter]
  | cons b rest ih => simp [splitAtLast?, ih]

/-- The pieces of a path that consists of names. -/
theorem pieces_ofBody {names : List Name} (hne : names ≠ [])
    (hnames : ∀ name ∈ names, separator ∉ name) : pieces (ofBody names).bytes = names := by
  obtain ⟨first, body, rfl⟩ := List.exists_cons_of_ne_nil hne
  obtain ⟨hfirst, hbody⟩ := List.forall_mem_cons.mp hnames
  exact pieces_ofPieces hfirst hbody

theorem bytes_ofBody_append (dirs : List Name) (name more : Name) :
    (ofBody (dirs ++ [name ++ more])).bytes = (ofBody (dirs ++ [name])).bytes ++ more := by
  cases dirs with
  | nil => simp [ofBody, ofPieces]
  | cons first rest => simp [ofBody, ofPieces]

theorem components_ofBody {names : List Name} (hne : names ≠ [])
    (hnames : ∀ name ∈ names, separator ∉ name ∧ name ≠ [] ∧ name ≠ [dot]) :
    (ofBody names).components = names.filterMap component? := by
  have hpieces := pieces_ofBody hne fun name hname => (hnames name hname).1
  rw [← first_cons_body] at hpieces
  have hmem : (ofBody names).first ∈ (ofBody names).first :: (ofBody names).body :=
    List.mem_cons_self
  rw [hpieces] at hmem
  obtain ⟨-, hnil, hdot⟩ := hnames _ hmem
  have hfirst : firstComponent? (ofBody names).first (!(ofBody names).body.isEmpty) =
      component? (ofBody names).first := by
    rw [firstComponent?, if_neg hnil, if_neg hdot]
  calc
    (ofBody names).components = (component? (ofBody names).first).toList ++
        (ofBody names).body.filterMap component? := by rw [components, hfirst]
    _ = ((ofBody names).first :: (ofBody names).body).filterMap component? := by
      cases h : component? (ofBody names).first <;> simp [h]
    _ = names.filterMap component? := by rw [hpieces]

theorem components_ofBody_of_isName {names : List Name} (hne : names ≠ [])
    (hnames : ∀ name ∈ names, IsName name) : (ofBody names).components = names.map .normal := by
  rw [components_ofBody hne fun name hname => ⟨(hnames name hname).no_separator,
    (hnames name hname).ne_nil, (hnames name hname).ne_dot⟩, filterMap_component? hnames]

theorem trimEnd_ofBody {names : List Name} (hne : names ≠ [])
    (hnames : ∀ name ∈ names, IsName name) : (ofBody names).trimEnd = ofBody names := by
  have hpieces := pieces_ofBody hne fun name hname => (hnames name hname).no_separator
  obtain ⟨first, body, rfl⟩ := List.exists_cons_of_ne_nil hne
  rw [← first_cons_body] at hpieces
  obtain ⟨hfirst, hbody⟩ := List.cons.inj hpieces
  obtain ⟨hfirstName, hbodyNames⟩ := List.forall_mem_cons.mp hnames
  rw [trimEnd, hfirst, hbody, ofPiecesTrimmed, dropTrailing_of_isName hbodyNames,
    if_neg fun h => hfirstName.ne_nil h.1]
  rfl

/-- What is seen from a root can be seen from any root. -/
theorem relativeTo?_join (root : Path) {names : List Name} (hne : names ≠ [])
    (hnames : ∀ name ∈ names, IsName name) :
    (root.join (ofBody names)).relativeTo? root = some (ofBody names) := by
  by_cases hroot : root.bytes = []
  · have hjoin : root.join (ofBody names) = ofBody names := if_pos (Or.inr hroot)
    have hcomponents : root.components = [] := by
      obtain ⟨bytes⟩ := root
      obtain rfl : bytes = [] := hroot
      rfl
    rw [hjoin, relativeTo?, hcomponents, if_pos (by simp), if_pos rfl,
      trimEnd_ofBody hne hnames]
  · rw [join_ofBody root hne hnames, relativeTo?_descend hroot hne hnames]

theorem fileName?_ofBody {dirs : List Name} {name : Name}
    (hnames : ∀ other ∈ dirs ++ [name], IsName other) :
    (ofBody (dirs ++ [name])).fileName? = some name := by
  rw [fileName?, components_ofBody_of_isName (by simp) hnames, List.map_append, List.map_singleton, List.getLast?_concat]

theorem fileName?_descend {root : Path} (hroot : root.bytes ≠ []) {dirs : List Name} {name : Name}
    (hnames : ∀ other ∈ dirs ++ [name], IsName other) :
    (root.descend (dirs ++ [name])).fileName? = some name := by
  rw [fileName?, components_descend hroot (by simp) hnames, List.map_append, ← List.append_assoc,
    List.map_singleton, List.getLast?_concat]

/-- A path has the extension of what follows its root. -/
theorem extension?_descend {root : Path} (hroot : root.bytes ≠ []) {names : List Name}
    (hne : names ≠ []) (hnames : ∀ name ∈ names, IsName name) :
    (root.descend names).extension? = (ofBody names).extension? := by
  obtain ⟨dirs, name, rfl⟩ : ∃ dirs name, names = dirs ++ [name] :=
    ⟨names.dropLast, names.getLast hne, (List.dropLast_concat_getLast hne).symm⟩
  rw [extension?, extension?, fileName?_descend hroot hnames, fileName?_ofBody hnames]

theorem extension?_ofBody {dirs : List Name} {stem ext : Name} (hstem : stem ≠ [])
    (hext : dot ∉ ext) (hnames : ∀ name ∈ dirs ++ [stem ++ dot :: ext], IsName name) :
    (ofBody (dirs ++ [stem ++ dot :: ext])).extension? = some ext := by
  rw [extension?, fileName?_ofBody hnames, Option.bind_some, splitName,
    splitAtLast?_append stem hext]
  simp [hstem]

theorem isName_append_extension {stem ext : Name} (h : IsName stem) (hext : separator ∉ ext) :
    IsName (stem ++ dot :: ext) where
  ne_nil := by simp
  ne_dot := by
    intro heq
    have hlength := congrArg List.length heq
    have hpos := List.length_pos_iff.mpr h.ne_nil
    simp only [List.length_append, List.length_cons, List.length_nil] at hlength
    omega
  ne_dots := by
    intro heq
    have hlast : stem ++ dot :: ext = [dot] ++ [dot] := heq
    have hlength := congrArg List.length hlast
    have hpos := List.length_pos_iff.mpr h.ne_nil
    simp only [List.length_append, List.length_cons, List.length_nil] at hlength
    exact h.ne_dot (List.append_inj hlast (by simp; omega)).1
  no_separator := by
    have hdot : separator ≠ dot := by decide
    simp [h.no_separator, hext, hdot]

/-- A name with an extension is its stem, a dot and the extension. -/
theorem eq_of_extension? {dirs : List Name} {name ext : Name}
    (hnames : ∀ other ∈ dirs ++ [name], IsName other)
    (h : (ofBody (dirs ++ [name])).extension? = some ext) :
    ∃ stem, stem ≠ [] ∧ name = stem ++ dot :: ext := by
  rw [extension?, fileName?_ofBody hnames, Option.bind_some, splitName] at h
  split at h
  next before after hsplit =>
    split at h
    · cases h
    next hne =>
      cases h
      exact ⟨before, hne, eq_of_splitAtLast? hsplit⟩
  next => cases h

theorem withoutExtension_ofBody {dirs : List Name} {stem ext : Name}
    (h : (ofBody (dirs ++ [stem ++ dot :: ext])).extension? = some ext) :
    (ofBody (dirs ++ [stem ++ dot :: ext])).withoutExtension =
      (ofBody (dirs ++ [stem ++ [dot]])).throughStem := by
  have hbytes : (ofBody (dirs ++ [stem ++ dot :: ext])).bytes =
      (ofBody (dirs ++ [stem ++ [dot]])).bytes ++ ext := by
    rw [← bytes_ofBody_append]
    simp
  rw [withoutExtension, h]
  simp [hbytes]

theorem throughStem_ofBody {dirs : List Name} {stem : Name} (hne : stem ≠ [])
    (hnames : ∀ name ∈ dirs ++ [stem ++ [dot]], IsName name) :
    (ofBody (dirs ++ [stem ++ [dot]])).throughStem = ofBody (dirs ++ [stem]) := by
  have hsplit : (splitName (stem ++ [dot])).1 = stem := by
    rw [splitName, splitAtLast?_append stem (List.not_mem_nil)]
    simp [hne]
  rw [throughStem, fileName?_ofBody hnames]
  dsimp only
  rw [trimEnd_ofBody (by simp) hnames, hsplit, bytes_ofBody_append]
  simp

end Path
end Freshness
