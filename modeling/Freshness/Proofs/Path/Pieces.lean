import Freshness.Path.Ancestors
import Freshness.Proofs.Path.Route
import Mathlib.Data.List.TakeWhile

/-!
# Paths made of pieces

A path is its pieces with separators between them.  Joining, taking the parent and writing something
after a path change the list of pieces at its end.
-/

namespace Freshness
namespace Path

open FileSystem

theorem pieces_ofPieces {first : Name} {body : List Name} (hfirst : separator ∉ first)
    (hbody : ∀ piece ∈ body, separator ∉ piece) :
    pieces (ofPieces first body).bytes = first :: body := by
  induction body generalizing first with
  | nil =>
      rw [ofPieces, List.flatMap_nil, List.append_nil]
      exact pieces_of_not_mem hfirst
  | cons piece rest ih =>
      obtain ⟨hpiece, hrest⟩ := List.forall_mem_cons.mp hbody
      have hbytes : (ofPieces first (piece :: rest)).bytes =
          first ++ separator :: (ofPieces piece rest).bytes := by
        simp [ofPieces]
      rw [hbytes, pieces_append_separator, pieces_of_not_mem hfirst, ih hpiece hrest]
      rfl

theorem separator_not_mem_first (p : Path) : separator ∉ p.first := by
  apply @separator_not_mem_of_mem_pieces p.bytes
  rw [← first_cons_body]
  exact List.mem_cons_self

theorem separator_not_mem_body (p : Path) : ∀ piece ∈ p.body, separator ∉ piece := by
  intro piece hpiece
  apply @separator_not_mem_of_mem_pieces p.bytes
  rw [← first_cons_body]
  exact List.mem_cons_of_mem _ hpiece

theorem isAbsolute_ofPieces_of_ne_nil {first : Name} (hne : first ≠ [])
    (hfirst : separator ∉ first) (body : List Name) :
    (ofPieces first body).isAbsolute = false := by
  obtain ⟨b, rest, rfl⟩ := List.exists_cons_of_ne_nil hne
  have hb : b ≠ separator := by
    rintro rfl
    exact hfirst List.mem_cons_self
  simp [isAbsolute, ofPieces, hb]

theorem isAbsolute_eq_true_iff (p : Path) :
    p.isAbsolute = true ↔ p.first = [] ∧ p.body ≠ [] := by
  have hp := ofPieces_first_body p
  constructor
  · intro h
    have hfirst : p.first = [] := by
      by_contra hne
      rw [← hp, isAbsolute_ofPieces_of_ne_nil hne (separator_not_mem_first p)] at h
      cases h
    refine ⟨hfirst, ?_⟩
    intro hbody
    rw [← hp, hfirst, hbody] at h
    cases h
  · rintro ⟨hfirst, hbody⟩
    obtain ⟨piece, rest, hcons⟩ := List.exists_cons_of_ne_nil hbody
    rw [← hp, hfirst, hcons]
    simp [isAbsolute, ofPieces]

theorem withoutDots_route_ofPieces {first : Name} {body : List Name} (hfirst : separator ∉ first)
    (hbody : ∀ piece ∈ body, separator ∉ piece) :
    withoutDots (route (ofPieces first body)) = (first :: body).filterMap pieceName? := by
  rw [route_eq, pieces_ofPieces hfirst hbody, withoutDots_filter]

/-! ## Parents -/

theorem pieceName?_eq_none_iff (piece : Name) :
    pieceName? piece = none ↔ isTrivial piece = true := by
  by_cases hnil : piece = []
  · simp [pieceName?, isTrivial, hnil]
  by_cases hdot : piece = [dot] <;> simp [pieceName?, isTrivial, hnil, hdot]

theorem exists_dropTrailing (body : List Name) :
    ∃ trail, body = dropTrailing body ++ trail ∧ ∀ piece ∈ trail, isTrivial piece = true := by
  refine ⟨(body.reverse.takeWhile isTrivial).reverse, ?_, ?_⟩
  · rw [dropTrailing, ← List.reverse_append, List.takeWhile_append_dropWhile,
      List.reverse_reverse]
  · intro piece hpiece
    exact List.mem_takeWhile_imp (List.mem_reverse.mp hpiece)

theorem filterMap_dropTrailing (body : List Name) :
    (dropTrailing body).filterMap pieceName? = body.filterMap pieceName? := by
  obtain ⟨trail, hbody, htrail⟩ := exists_dropTrailing body
  have hnil : trail.filterMap pieceName? = [] :=
    List.filterMap_eq_nil_iff.mpr fun piece hpiece =>
      (pieceName?_eq_none_iff piece).mpr (htrail piece hpiece)
  conv_rhs => rw [hbody, List.filterMap_append, hnil, List.append_nil]

theorem isTrivial_getLast_dropTrailing {body : List Name} (h : dropTrailing body ≠ []) :
    isTrivial ((dropTrailing body).getLast h) = false := by
  have hne : body.reverse.dropWhile isTrivial ≠ [] := by
    simpa [dropTrailing] using h
  simp only [dropTrailing, List.getLast_reverse]
  simpa using List.head_dropWhile_not isTrivial hne

theorem withoutDots_route_eq_pieces (p : Path) :
    withoutDots (route p) = (p.first :: dropTrailing p.body).filterMap pieceName? := by
  conv_lhs => rw [← ofPieces_first_body p]
  rw [withoutDots_route_ofPieces (separator_not_mem_first p) (separator_not_mem_body p),
    List.filterMap_cons, List.filterMap_cons, filterMap_dropTrailing]

theorem isAbsolute_ofPiecesTrimmed {first : Name} (hfirst : separator ∉ first)
    (body : List Name) :
    (ofPiecesTrimmed first body).isAbsolute = true ↔ first = [] ∧ body ≠ [] := by
  simp only [ofPiecesTrimmed]
  split
  next h =>
    constructor
    · intro _
      exact ⟨h.1, h.2.2⟩
    · intro _
      rfl
  next h =>
    by_cases hnil : first = []
    · subst hnil
      cases hkept : dropTrailing body with
      | nil => simp_all [ofPieces, isAbsolute]
      | cons piece rest =>
          have hbody : body ≠ [] := by
            rintro rfl
            cases hkept
          simp [ofPieces, isAbsolute, hbody]
    · rw [isAbsolute_ofPieces_of_ne_nil hnil hfirst]
      simp [hnil]

theorem withoutDots_route_ofPiecesTrimmed {first : Name} {body : List Name}
    (hfirst : separator ∉ first) (hbody : ∀ piece ∈ body, separator ∉ piece) :
    withoutDots (route (ofPiecesTrimmed first body)) = (first :: body).filterMap pieceName? := by
  have hkept := filterMap_dropTrailing body
  simp only [ofPiecesTrimmed]
  split
  next h =>
    rw [h.1, List.filterMap_cons, ← hkept, h.2.1]
    rfl
  next =>
    rw [withoutDots_route_ofPieces hfirst fun piece hpiece =>
      hbody piece ((dropTrailing_sublist body).subset hpiece)]
    rw [List.filterMap_cons, List.filterMap_cons, hkept]

/-- The parent of a path is followed from the same place, along the same names but the last. -/
theorem parent?_spec {p q : Path} (h : p.parent? = some q) :
    q.bytes = [] ∨ q.isAbsolute = p.isAbsolute ∧
      ∃ name, withoutDots (route p) = withoutDots (route q) ++ [name] := by
  unfold parent? at h
  split at h
  next =>
    split at h <;> cases h
    exact Or.inl rfl
  next body piece rest hbody =>
    right
    have hne : dropTrailing p.body ≠ [] := by simp [hbody]
    have hpbody : p.body ≠ [] := by
      intro hnil
      simp [hnil, dropTrailing] at hne
    have hseparator : ∀ other ∈ (dropTrailing p.body).dropLast, separator ∉ other := by
      intro other hother
      exact separator_not_mem_body p other
        ((dropTrailing_sublist p.body).subset ((List.dropLast_sublist _).subset hother))
    have hroute : withoutDots (route p) =
        (p.first :: (dropTrailing p.body).dropLast).filterMap pieceName? ++
          [(dropTrailing p.body).getLast hne] := by
      have hlast : pieceName? ((dropTrailing p.body).getLast hne) =
          some ((dropTrailing p.body).getLast hne) := by
        have htrivial := isTrivial_getLast_dropTrailing hne
        unfold pieceName?
        rw [if_pos (by simpa [isTrivial] using htrivial)]
      rw [withoutDots_route_eq_pieces]
      conv_lhs => rw [← List.dropLast_concat_getLast hne]
      rw [← List.cons_append, List.filterMap_append, List.filterMap_cons_some hlast,
        List.filterMap_nil]
    rw [← hbody] at h
    split at h
    next hroot =>
      cases h
      have habsolute := (isAbsolute_eq_true_iff p).mpr ⟨hroot.1, hpbody⟩
      refine ⟨?_, (dropTrailing p.body).getLast hne, ?_⟩
      · rw [habsolute]
        rfl
      · rw [hroute, hroot.1, hroot.2]
        rfl
    next hroot =>
      cases h
      refine ⟨?_, (dropTrailing p.body).getLast hne, ?_⟩
      · rw [Bool.eq_iff_iff, isAbsolute_ofPiecesTrimmed (separator_not_mem_first p),
          isAbsolute_eq_true_iff]
        constructor
        · rintro ⟨hfirst, -⟩
          exact ⟨hfirst, hpbody⟩
        · rintro ⟨hfirst, -⟩
          exact ⟨hfirst, fun hnil => hroot ⟨hfirst, hnil⟩⟩
      · rw [hroute, withoutDots_route_ofPiecesTrimmed (separator_not_mem_first p) hseparator]

/-! ## Names below a path -/

/-- Whether a path is absolute is seen at its beginning. -/
theorem bytes_join_append (root : Path) {bytes : Bytes} (h : bytes ≠ []) (more : Bytes) :
    (root.join ⟨bytes ++ more⟩).bytes = (root.join ⟨bytes⟩).bytes ++ more := by
  obtain ⟨b, rest, rfl⟩ := List.exists_cons_of_ne_nil h
  have habsolute : isAbsolute ⟨b :: rest ++ more⟩ = isAbsolute ⟨b :: rest⟩ := rfl
  unfold join
  rw [habsolute]
  split
  · rfl
  · split <;> simp

theorem exists_bytes_join (root inner : Path) :
    ∃ front, (root.join inner).bytes = front ++ inner.bytes := by
  unfold join
  split
  · exact ⟨[], rfl⟩
  · split
    · exact ⟨root.bytes, rfl⟩
    · exact ⟨root.bytes ++ [separator], by simp⟩

theorem join_append (root : Path) {inner : Path} (h : inner.bytes ≠ []) (suffix : String) :
    (root.join inner).append suffix = root.join (inner.append suffix) := by
  have hbytes := bytes_join_append root h (Utf8.encode suffix)
  rw [append, ← hbytes]
  rfl

theorem child_join_of_getLast? {root p : Path} {b : UInt8} (hlast : root.bytes.getLast? = some b)
    (hb : b ≠ separator) (hp : p.isAbsolute = false) :
    root.join p = ⟨root.bytes ++ separator :: p.bytes⟩ := by
  have hne : root.bytes ≠ [] := by
    intro hnil
    simp [hnil] at hlast
  rw [join, if_neg (by simp [hp, hne]), if_neg (by simp [hlast, hb])]

/-- The path that some names spell below another one. -/
theorem join_ofBody (root : Path) {names : List Name} (hne : names ≠ [])
    (hnames : ∀ name ∈ names, IsName name) : root.join (ofBody names) = root.descend names := by
  induction names generalizing root with
  | nil => exact absurd rfl hne
  | cons name rest ih =>
      obtain ⟨hname, hrest⟩ := List.forall_mem_cons.mp hnames
      cases rest with
      | nil => simp [ofBody, ofPieces, descend, child]
      | cons next rest =>
          have hnext := (List.forall_mem_cons.mp hrest).1
          obtain ⟨front, hfront⟩ := exists_bytes_join root ⟨name⟩
          obtain ⟨b, hb⟩ := Option.isSome_iff_exists.mp (List.getLast?_isSome.mpr hname.ne_nil)
          have hlast : (root.child name).bytes.getLast? = some b := by
            rw [child, hfront, List.getLast?_append, hb]
            rfl
          have hseparator : b ≠ separator := by
            rintro rfl
            exact hname.no_separator (List.mem_of_getLast? hb)
          have hrelative : (ofBody (next :: rest)).isAbsolute = false :=
            isAbsolute_ofPieces_of_ne_nil hnext.ne_nil hnext.no_separator rest
          calc
            root.join (ofBody (name :: next :: rest)) =
                ⟨(root.child name).bytes ++ separator :: (ofBody (next :: rest)).bytes⟩ := by
              have hbytes := bytes_join_append root hname.ne_nil
                (separator :: (ofBody (next :: rest)).bytes)
              rw [child, ← hbytes]
              simp [ofBody, ofPieces]
            _ = (root.child name).join (ofBody (next :: rest)) :=
              (child_join_of_getLast? hlast hseparator hrelative).symm
            _ = root.descend (name :: next :: rest) :=
              ih (root.child name) (List.cons_ne_nil next rest) hrest

end Path
end Freshness
