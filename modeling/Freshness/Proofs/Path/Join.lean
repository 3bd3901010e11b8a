import Freshness.Proofs.Path.Names
import Freshness.Proofs.Text.Spelling

/-!
# Joined paths

A relative path adds its pieces to the components of the path that it is joined to.  If these are
names, the joined path is strictly below the other one.
-/

namespace Freshness
namespace Path

theorem mem_of_mem_pieces {bytes : Bytes} {piece : Name} {b : UInt8} (hpiece : piece ∈ pieces bytes)
    (hb : b ∈ piece) : b ∈ bytes := by
  have hbytes : (⟨bytes⟩ : Path).first ++ (⟨bytes⟩ : Path).body.flatMap (separator :: ·) = bytes :=
    congrArg Path.bytes (ofPieces_first_body ⟨bytes⟩)
  rw [← first_cons_body ⟨bytes⟩] at hpiece
  rw [← hbytes, List.mem_append, List.mem_flatMap]
  rcases List.mem_cons.mp hpiece with rfl | hbody
  · exact Or.inl hb
  · exact Or.inr ⟨piece, hbody, List.mem_cons_of_mem _ hb⟩

/-- What is joined comes after the pieces of the base, but for an empty one at their end. -/
theorem pieces_join {base inner : Path} (hbase : base.bytes ≠ []) (hinner : inner.isAbsolute = false) :
    ∃ first init, pieces (base.join inner).bytes = first :: init ++ pieces inner.bytes ∧
      base.first = first ∧ (base.body = init ∨ base.body = init ++ [[]]) := by
  rw [join, if_neg (by simp [hinner, hbase])]
  split
  next hlast =>
    obtain ⟨before, hbefore⟩ := List.getLast?_eq_some_iff.mp hlast
    have hpieces : base.first :: base.body = pieces before ++ [[]] := by
      rw [first_cons_body, hbefore, pieces_append_separator]
      rfl
    obtain ⟨hfirst, hbody⟩ := List.cons.inj hpieces
    refine ⟨_, _, ?_, hfirst, Or.inr hbody⟩
    rw [hbefore, List.append_assoc, List.singleton_append, pieces_append_separator]
    rfl
  next =>
    refine ⟨base.first, base.body, ?_, rfl, Or.inl rfl⟩
    rw [pieces_append_separator, first_cons_body]

/-- The first piece of a relative path is like the others, unless it is a dot. -/
theorem components_eq_filterMap {p : Path} (hp : p.bytes ≠ []) (hrelative : p.isAbsolute = false)
    (hdot : p.first ≠ [dot]) : p.components = (pieces p.bytes).filterMap component? := by
  have hfirst : p.first ≠ [] := by
    intro hnil
    have hbody : p.body = [] := by
      by_contra hne
      rw [(isAbsolute_eq_true_iff p).mpr ⟨hnil, hne⟩] at hrelative
      cases hrelative
    have hempty := ofPieces_first_body p
    rw [hnil, hbody] at hempty
    exact hp (congrArg Path.bytes hempty).symm
  have hcomponent : firstComponent? p.first (!p.body.isEmpty) = component? p.first := by
    rw [firstComponent?, if_neg hfirst, if_neg hdot]
  rw [components, hcomponent, ← first_cons_body]
  cases h : component? p.first <;> simp [h]

theorem components_join_of_nil {base inner : Path} (hbase : base.bytes = []) :
    (base.join inner).components = base.components ++ inner.components := by
  obtain ⟨bytes⟩ := base
  obtain rfl : bytes = [] := hbase
  rw [join, if_pos (Or.inr rfl)]
  rfl

theorem components_join_of_ne_nil {base inner : Path} (hbase : base.bytes ≠ [])
    (hrelative : inner.isAbsolute = false) :
    (base.join inner).components =
      base.components ++ (pieces inner.bytes).filterMap component? := by
  obtain ⟨first, init, hpieces, hfirst, hinit⟩ := pieces_join hbase hrelative
  rw [← first_cons_body, List.cons_append] at hpieces
  obtain ⟨hjoinFirst, hjoinBody⟩ := List.cons.inj hpieces
  have hjoin : (base.join inner).bytes ≠ [] := by
    rw [join, if_neg (by simp [hrelative, hbase])]
    split <;> simp [hbase]
  obtain ⟨c, hc, hcomponents⟩ := exists_components hbase
  obtain ⟨c', hc', hcomponents'⟩ := exists_components hjoin
  rw [hjoinFirst, ← hfirst, hc] at hc'
  cases hc'
  rw [hcomponents, hcomponents', hjoinBody, List.filterMap_append, filterMap_body_descend hinit,
    List.cons_append]

/-- A relative path adds its pieces to the components of the base. -/
theorem components_join (base : Path) {inner : Path} (hinner : inner.bytes ≠ [])
    (hrelative : inner.isAbsolute = false) (hdot : inner.first ≠ [dot]) :
    (base.join inner).components =
      base.components ++ (pieces inner.bytes).filterMap component? := by
  by_cases hbase : base.bytes = []
  · rw [components_join_of_nil hbase, components_eq_filterMap hinner hrelative hdot]
  · exact components_join_of_ne_nil hbase hrelative

/-- Pieces that are names or empty add the names. -/
theorem filterMap_component?_filter {pieces : List Name}
    (h : ∀ piece ∈ pieces, piece = [] ∨ IsName piece) :
    pieces.filterMap component? = (pieces.filter (· ≠ [])).map .normal := by
  induction pieces with
  | nil => rfl
  | cons piece rest ih =>
      obtain ⟨hpiece, hrest⟩ := List.forall_mem_cons.mp h
      rcases hpiece with rfl | hname
      · rw [List.filterMap_cons_none (by simp [component?, isTrivial]),
          List.filter_cons_of_neg (by simp), ih hrest]
      · rw [List.filterMap_cons_some (component?_of_isName hname),
          List.filter_cons_of_pos (by simp [hname.ne_nil]), ih hrest, List.map_cons]

theorem isAbsolute_ofString {text : String} :
    (ofString text).isAbsolute = true ↔ text.toList.head? = some '/' := by
  rw [isAbsolute, ofString, Utf8.encode, decide_eq_true_iff]
  cases text.toList with
  | nil => simp
  | cons c rest =>
      obtain ⟨b, more, hb⟩ := List.exists_cons_of_ne_nil (Utf8.encodeChar_ne_nil c)
      have hmem : b ∈ String.utf8EncodeChar c := by simp [hb]
      rw [List.flatMap_cons, hb, List.cons_append, List.head?_cons, List.head?_cons,
        Option.some_inj, Option.some_inj]
      constructor
      · rintro rfl
        have hc : c.toNat = '/'.toNat := Utf8.eq_of_mem_encodeChar (by decide) hmem
        rw [← Char.ofNat_toNat c, hc, Char.ofNat_toNat]
      · rintro rfl
        have hslash : String.utf8EncodeChar '/' = [separator] := by decide
        rw [hslash] at hb
        exact (List.cons.inj hb).1.symm

/-- Names lead from the directory `dir` down to `p`. -/
def StrictlyBelow (dir p : Path) : Prop :=
  ∃ names : List Name, names ≠ [] ∧ (∀ name ∈ names, IsName name) ∧
    p.components = dir.components ++ names.map .normal

end Path
end Freshness
