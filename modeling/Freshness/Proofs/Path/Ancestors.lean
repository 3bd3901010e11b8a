import Freshness.Proofs.Path.Names

/-!
# The directories above a path

An entry of a directory has that directory for its parent, written so that it ends after its last
component.  What is above or below an absolute path is absolute.
-/

namespace Freshness
namespace Path

theorem filterMap_component?_dropTrailing (body : List Name) :
    (dropTrailing body).filterMap component? = body.filterMap component? := by
  obtain ⟨trail, hbody, htrail⟩ := exists_dropTrailing body
  have hnil : trail.filterMap component? = [] :=
    List.filterMap_eq_nil_iff.mpr fun piece hpiece =>
      (component?_eq_none_iff piece).mpr (htrail piece hpiece)
  conv_rhs => rw [hbody, List.filterMap_append, hnil, List.append_nil]

theorem dropTrailing_concat (body : List Name) {name : Name} (h : isTrivial name = false) :
    dropTrailing (body ++ [name]) = body ++ [name] := by
  rw [dropTrailing, List.reverse_append, List.reverse_singleton, List.singleton_append,
    List.dropWhile_cons_of_neg (by simp [h]), List.reverse_cons, List.reverse_reverse]

theorem first_body_ofPieces {first : Name} {body : List Name} (hfirst : separator ∉ first)
    (hbody : ∀ piece ∈ body, separator ∉ piece) :
    (ofPieces first body).first = first ∧ (ofPieces first body).body = body := by
  have hpieces := pieces_ofPieces hfirst hbody
  rw [← first_cons_body] at hpieces
  exact List.cons.inj hpieces

/-- The end of a path that is left out adds no component. -/
theorem components_trimEnd (p : Path) : p.trimEnd.components = p.components := by
  by_cases hp : p.bytes = []
  · obtain ⟨bytes⟩ := p
    obtain rfl : bytes = [] := hp
    rfl
  obtain ⟨c, hc, hcomponents⟩ := exists_components hp
  rw [hcomponents, ← filterMap_component?_dropTrailing, trimEnd]
  simp only [ofPiecesTrimmed]
  split
  next hroot =>
    obtain ⟨hfirst, hkept, -⟩ := hroot
    rw [hfirst] at hc
    cases hc
    rw [hkept]
    rfl
  next hroot =>
    obtain ⟨hfirst, hbody⟩ := first_body_ofPieces (separator_not_mem_first p) fun piece hpiece =>
      separator_not_mem_body p piece ((dropTrailing_sublist p.body).subset hpiece)
    have hne : (ofPieces p.first (dropTrailing p.body)).bytes ≠ [] := by
      intro hnil
      obtain ⟨hfirstNil, hkept⟩ := List.append_eq_nil_iff.mp hnil
      have hbodyNil : p.body = [] := by
        by_contra hbodyNe
        refine hroot ⟨hfirstNil, ?_, hbodyNe⟩
        exact List.eq_nil_iff_forall_not_mem.mpr (by simpa using hkept)
      have hempty := ofPieces_first_body p
      rw [hfirstNil, hbodyNil] at hempty
      exact hp (congrArg Path.bytes hempty).symm
    obtain ⟨c', hc', hcomponents'⟩ := exists_components hne
    rw [hfirst, hc] at hc'
    cases hc'
    rw [hcomponents', hbody]

theorem isAbsolute_trimEnd (p : Path) : p.trimEnd.isAbsolute = p.isAbsolute := by
  rw [Bool.eq_iff_iff, trimEnd, isAbsolute_ofPiecesTrimmed (separator_not_mem_first p),
    isAbsolute_eq_true_iff]

theorem parent?_of_ne_nil {p : Path} (h : dropTrailing p.body ≠ []) :
    p.parent? = some (if p.first = [] ∧ (dropTrailing p.body).dropLast = [] then ⟨[separator]⟩
      else ofPiecesTrimmed p.first (dropTrailing p.body).dropLast) := by
  rw [parent?]
  split
  next hnil => exact absurd hnil h
  next body piece rest hkept =>
    rw [hkept]
    split <;> rfl

/-- The parent of an entry of a directory is the directory. -/
theorem parent?_child (p : Path) {name : Name} (hname : IsName name) :
    (p.child name).parent? = some p.trimEnd := by
  by_cases hp : p.bytes = []
  · have hpieces := pieces_of_not_mem hname.no_separator
    rw [← first_cons_body ⟨name⟩] at hpieces
    obtain ⟨hfirst, hbody⟩ := List.cons.inj hpieces
    obtain ⟨bytes⟩ := p
    obtain rfl : bytes = [] := hp
    rw [child_of_nil rfl, parent?, hbody, hfirst]
    exact if_neg hname.ne_nil
  obtain ⟨hfirst, init, hinit, hbody⟩ : (p.child name).first = p.first ∧
      ∃ init, (p.body = init ∨ p.body = init ++ [[]]) ∧ (p.child name).body = init ++ [name] :=
    body_descend hp (List.cons_ne_nil name []) (List.forall_mem_singleton.mpr hname)
  have hkept : dropTrailing (p.child name).body = init ++ [name] := by
    rw [hbody, dropTrailing_concat init (isTrivial_of_isName hname)]
  have hsame : dropTrailing p.body = dropTrailing init := by
    rcases hinit with heq | heq
    · rw [heq]
    · simp [heq, dropTrailing, isTrivial]
  rw [parent?_of_ne_nil (by simp [hkept]), hkept, List.dropLast_concat, hfirst, trimEnd]
  split
  next hroot =>
    have hbodyNe : p.body ≠ [] := by
      intro hnil
      have hempty := ofPieces_first_body p
      rw [hroot.1, hnil] at hempty
      exact hp (congrArg Path.bytes hempty).symm
    rw [hroot.2] at hsame
    simp only [ofPiecesTrimmed, hsame]
    rw [if_pos ⟨hroot.1, rfl, hbodyNe⟩]
  next hroot =>
    have hbodyNe : p.first = [] → init ≠ [] ∧ p.body ≠ [] := by
      intro hnil
      have hinitNe : init ≠ [] := fun hinitNil => hroot ⟨hnil, hinitNil⟩
      refine ⟨hinitNe, ?_⟩
      rcases hinit with heq | heq <;> simp [heq, hinitNe]
    simp only [ofPiecesTrimmed, hsame]
    by_cases hnil : p.first = []
    · simp only [hnil, hbodyNe hnil, ne_eq, not_false_eq_true, and_true]
    · simp only [hnil, false_and]

theorem isAbsolute_of_parent? {p q : Path} (h : p.parent? = some q) (hp : p.isAbsolute = true) :
    q.isAbsolute = true := by
  obtain ⟨hfirst, hbody⟩ := (isAbsolute_eq_true_iff p).mp hp
  unfold parent? at h
  split at h
  next => simp [hfirst] at h
  next body piece rest hkept =>
    split at h
    next =>
      cases h
      rfl
    next hroot =>
      cases h
      rw [isAbsolute_ofPiecesTrimmed (separator_not_mem_first p)]
      exact ⟨hfirst, fun hnil => hroot ⟨hfirst, hnil⟩⟩

theorem isAbsolute_of_mem_ancestors {p q : Path} (hq : q ∈ p.ancestors)
    (hp : p.isAbsolute = true) : q.isAbsolute = true := by
  fun_induction ancestors p with
  | case1 p hparent =>
      rw [List.mem_singleton.mp hq]
      exact hp
  | case2 p r hparent ih =>
      rcases List.mem_cons.mp hq with rfl | hrest
      · exact hp
      · exact ih hrest (isAbsolute_of_parent? hparent hp)

theorem isAbsolute_join {base : Path} (h : base.isAbsolute = true) (inner : Path) :
    (base.join inner).isAbsolute = true := by
  obtain ⟨bytes⟩ := base
  cases bytes with
  | nil => simp [isAbsolute] at h
  | cons b rest =>
      rw [join]
      split
      next habsolute => exact habsolute.resolve_right (List.cons_ne_nil b rest)
      next => split <;> exact h

end Path
end Freshness
