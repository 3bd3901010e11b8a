import Freshness.Path.Basic

/-!
# Ancestors of a path

Taking the parent makes a path shorter, so a path has finitely many ancestors.
-/

namespace Freshness
namespace Path

/-- How many bytes the pieces of a body take, each after a separator. -/
def bodyLength : List Name → Nat
  | [] => 0
  | piece :: body => piece.length + 1 + bodyLength body

theorem bodyLength_append (body body' : List Name) :
    bodyLength (body ++ body') = bodyLength body + bodyLength body' := by
  induction body with
  | nil => simp [bodyLength]
  | cons piece body ih => simp [bodyLength, ih]; omega

theorem length_ofPieces (first : Name) (body : List Name) :
    (ofPieces first body).bytes.length = first.length + bodyLength body := by
  induction body with
  | nil => simp [ofPieces, bodyLength]
  | cons piece body ih =>
      simp only [ofPieces, bodyLength, List.length_append, List.flatMap_cons,
        List.length_cons] at ih ⊢
      omega

theorem splitAtEach_fst (mark : UInt8) (bytes : Bytes) :
    (splitAtEach mark bytes).1 = bytes.takeWhile (· ≠ mark) := by
  induction bytes with
  | nil => rfl
  | cons b rest ih => by_cases h : b = mark <;> simp_all [splitAtEach]

theorem ofPieces_first_body (p : Path) : ofPieces p.first p.body = p := by
  obtain ⟨bytes⟩ := p
  simp only [ofPieces, first, body, mk.injEq, ← splitAtEach_fst]
  induction bytes with
  | nil => rfl
  | cons b rest ih =>
      by_cases h : b = separator
      · simp [splitAtEach, h, ih]
      · simp [splitAtEach, h, ih]

theorem bodyLength_le_of_sublist {body body' : List Name} (h : body.Sublist body') :
    bodyLength body ≤ bodyLength body' := by
  induction h with
  | slnil => simp
  | cons _ _ ih => simp only [bodyLength]; omega
  | cons_cons _ _ ih => simp only [bodyLength]; omega

theorem dropTrailing_sublist (body : List Name) : (dropTrailing body).Sublist body := by
  have h := (List.dropWhile_sublist isTrivial (l := body.reverse)).reverse
  simpa [dropTrailing] using h

theorem bodyLength_dropLast_lt {body : List Name} (h : body ≠ []) :
    bodyLength body.dropLast < bodyLength body := by
  conv => rhs; rw [← List.dropLast_concat_getLast h]
  simp only [bodyLength_append, bodyLength]
  omega

theorem length_ofPiecesTrimmed_le (first : Name) (body : List Name) :
    (ofPiecesTrimmed first body).bytes.length ≤ first.length + bodyLength body := by
  have hkept := bodyLength_le_of_sublist (dropTrailing_sublist body)
  simp only [ofPiecesTrimmed]
  split
  next h =>
    cases body with
    | nil => simp at h
    | cons piece body => simp [bodyLength]; omega
  next => rw [length_ofPieces]; omega

theorem length_eq (p : Path) : p.bytes.length = p.first.length + bodyLength p.body := by
  conv => lhs; rw [← ofPieces_first_body p]
  exact length_ofPieces _ _

theorem last_dropTrailing_ne_nil {body : List Name} (h : dropTrailing body ≠ []) :
    (dropTrailing body).getLast h ≠ [] := by
  intro hnil
  simp only [dropTrailing, List.getLast_reverse] at hnil
  have hne : body.reverse.dropWhile isTrivial ≠ [] := by
    simpa [dropTrailing] using h
  have := List.head_dropWhile_not isTrivial hne
  rw [hnil] at this
  simp [isTrivial] at this

theorem length_parent?_lt {p q : Path} (h : p.parent? = some q) :
    q.bytes.length < p.bytes.length := by
  rw [length_eq p]
  have hkept := bodyLength_le_of_sublist (dropTrailing_sublist p.body)
  unfold parent? at h
  split at h
  next =>
    split at h
    next => cases h
    next hfirst =>
      cases h
      have := List.length_pos_iff.2 hfirst
      simp only [List.length_nil]
      omega
  next body piece rest hbody =>
    have hne : dropTrailing p.body ≠ [] := by simp [hbody]
    have hdrop := bodyLength_dropLast_lt hne
    rw [hbody] at hkept hdrop
    split at h
    next hroot =>
      cases h
      have hlast := last_dropTrailing_ne_nil hne
      have hpos := List.length_pos_iff.2 hlast
      have hrest : rest = [] := by
        cases rest with
        | nil => rfl
        | cons _ _ => simp at hroot
      subst hrest
      simp only [hbody, List.getLast_singleton] at hpos
      simp [bodyLength] at hkept ⊢
      omega
    next =>
      cases h
      have := length_ofPiecesTrimmed_le p.first (piece :: rest).dropLast
      omega

/-- A path and the parents above it, nearest first. -/
def ancestors (p : Path) : List Path :=
  match _h : p.parent? with
  | none => [p]
  | some q => p :: ancestors q
termination_by p.bytes.length
decreasing_by exact length_parent?_lt _h

end Path
end Freshness
