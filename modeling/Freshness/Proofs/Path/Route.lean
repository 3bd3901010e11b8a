import Freshness.Proofs.FileSystem.Following
import Freshness.Proofs.Path.Set

/-!
# Routes

The route of a path is the list of names that are followed along it.  A path with one
more component has a route with one more name, and paths with the same components have
the same routes up to `.`s.
-/

namespace Freshness

/-- A name that an entry of a directory can have. -/
structure IsName (name : Name) : Prop where
  ne_nil : name ≠ []
  ne_dot : name ≠ [Path.dot]
  ne_dots : name ≠ [Path.dot, Path.dot]
  no_separator : Path.separator ∉ name

namespace Path

/-- The pieces of a text between separators. -/
def pieces (bytes : Bytes) : List Name :=
  (splitAtEach separator bytes).1 :: (splitAtEach separator bytes).2

theorem first_cons_body (p : Path) : p.first :: p.body = pieces p.bytes := by
  rw [pieces, splitAtEach_fst]
  rfl

theorem pieces_append_separator (before after : Bytes) :
    pieces (before ++ separator :: after) = pieces before ++ pieces after := by
  induction before with
  | nil => simp [pieces, splitAtEach]
  | cons b rest ih =>
      simp only [pieces, List.cons_append, List.cons.injEq] at ih
      obtain ⟨hfirst, hrest⟩ := ih
      by_cases hb : b = separator
      · simp [pieces, splitAtEach, hb, hfirst, hrest]
      · simp [pieces, splitAtEach, hb, hfirst, hrest]

theorem pieces_of_not_mem {name : Name} (h : separator ∉ name) :
    pieces name = [name] := by
  induction name with
  | nil => rfl
  | cons b rest ih =>
      obtain ⟨hb, hrest⟩ := not_or.mp (mt List.mem_cons.mpr h)
      have htail := ih hrest
      simp only [pieces, List.cons.injEq] at htail
      obtain ⟨hfirst, hothers⟩ := htail
      simp [pieces, splitAtEach, Ne.symm hb, hfirst, hothers]

theorem separator_not_mem_of_mem_pieces {bytes : Bytes} {name : Name}
    (h : name ∈ pieces bytes) : separator ∉ name := by
  induction bytes generalizing name with
  | nil =>
      obtain rfl : name = [] := by simpa [pieces, splitAtEach] using h
      simp
  | cons b rest ih =>
      by_cases hb : b = separator
      · have hpieces : pieces (b :: rest) = [] :: pieces rest := by
          simp [pieces, splitAtEach, hb]
        rw [hpieces] at h
        rcases List.mem_cons.mp h with rfl | hmem
        · simp
        · exact ih hmem
      · have hpieces : pieces (b :: rest) =
            (b :: (splitAtEach separator rest).1) :: (splitAtEach separator rest).2 := by
          simp [pieces, splitAtEach, hb]
        rw [hpieces] at h
        rcases List.mem_cons.mp h with rfl | hmem
        · rw [List.mem_cons, not_or]
          exact ⟨Ne.symm hb, ih List.mem_cons_self⟩
        · exact ih (List.mem_cons_of_mem _ hmem)

theorem isAbsolute_name {name : Name} (h : IsName name) :
    isAbsolute ⟨name⟩ = false := by
  cases name with
  | nil => exact absurd rfl h.ne_nil
  | cons b rest =>
      have hb : b ≠ separator := by
        rintro rfl
        exact h.no_separator List.mem_cons_self
      simpa [isAbsolute] using hb

theorem bytes_child {p : Path} (hp : p.bytes ≠ []) {name : Name} (h : IsName name) :
    (p.child name).bytes =
      if p.bytes.getLast? = some separator then p.bytes ++ name
      else p.bytes ++ separator :: name := by
  rw [child, join, if_neg (by simp [isAbsolute_name h, hp])]
  split <;> rfl

theorem child_of_nil {p : Path} (hp : p.bytes = []) (name : Name) : p.child name = ⟨name⟩ := by
  rw [child, join, if_pos (Or.inr hp)]

theorem isAbsolute_child (p : Path) {name : Name} (h : IsName name) :
    (p.child name).isAbsolute = p.isAbsolute := by
  by_cases hp : p.bytes = []
  · rw [child_of_nil hp, isAbsolute_name h, isAbsolute, hp]
    rfl
  · obtain ⟨b, rest, hbytes⟩ := List.exists_cons_of_ne_nil hp
    rw [isAbsolute, isAbsolute, bytes_child hp h, hbytes]
    split <;> rfl

/-- The path of an entry that some names lead to from `root`. -/
def descend (root : Path) (names : List Name) : Path := names.foldl Path.child root

theorem isAbsolute_descend (root : Path) {names : List Name} (h : ∀ name ∈ names, IsName name) :
    (descend root names).isAbsolute = root.isAbsolute := by
  induction names generalizing root with
  | nil => rfl
  | cons name rest ih =>
      obtain ⟨hname, hrest⟩ := List.forall_mem_cons.mp h
      rw [← isAbsolute_child root hname]
      exact ih (root.child name) hrest

end Path

namespace FileSystem

open Freshness.Path

theorem route_eq (p : Path) : route p = (pieces p.bytes).filter (· ≠ []) := by
  rw [route, first_cons_body]

theorem route_child (p : Path) {name : Name} (h : IsName name) :
    route (p.child name) = route p ++ [name] := by
  have hname : (pieces name).filter (· ≠ []) = [name] := by
    rw [pieces_of_not_mem h.no_separator]
    simp [h.ne_nil]
  by_cases hp : p.bytes = []
  · rw [child_of_nil hp, route_eq, hname, route_eq, hp]
    rfl
  rw [route_eq, route_eq, bytes_child hp h]
  split
  next hlast =>
    obtain ⟨before, hbefore⟩ := List.getLast?_eq_some_iff.mp hlast
    rw [hbefore, List.append_assoc, List.singleton_append,
      pieces_append_separator, pieces_append_separator, List.filter_append,
      List.filter_append, hname]
    simp [pieces, splitAtEach]
  next =>
    rw [pieces_append_separator, List.filter_append, hname]

theorem route_descend (root : Path) {names : List Name} (h : ∀ name ∈ names, IsName name) :
    route (descend root names) = route root ++ names := by
  induction names generalizing root with
  | nil => simp [descend]
  | cons name rest ih =>
      obtain ⟨hname, hrest⟩ := List.forall_mem_cons.mp h
      have htail : route (descend (root.child name) rest) =
          route (root.child name) ++ rest :=
        ih (root.child name) hrest
      rw [route_child root hname] at htail
      simpa [descend] using htail

theorem origin_descend (fs : FileSystem) (root : Path) {names : List Name}
    (h : ∀ name ∈ names, IsName name) : fs.origin (descend root names) = fs.origin root := by
  rw [origin, origin, isAbsolute_descend root h]

/-! ## Routes and components -/

/-- The name that a component stands for on a route. -/
def routeName? : Component → Option Name
  | .root | .current => none
  | .parent => some [dot, dot]
  | .normal name => some name

/-- The name that a piece of a path stands for on a route, if it counts. -/
def pieceName? (piece : Name) : Option Name :=
  if piece ≠ [] ∧ piece ≠ [dot] then some piece else none

theorem component?_bind_routeName? (piece : Name) :
    (component? piece).bind routeName? = pieceName? piece := by
  unfold component? isTrivial pieceName?
  by_cases hnil : piece = []
  · simp [hnil]
  by_cases hdot : piece = [dot]
  · simp [hdot]
  by_cases hdots : piece = [dot, dot]
  · simp [hdots, routeName?]
  · simp [hnil, hdot, hdots, routeName?]

theorem firstComponent?_bind_routeName? (piece : Name) (more : Bool) :
    (firstComponent? piece more).bind routeName? = pieceName? piece := by
  rw [← component?_bind_routeName?]
  unfold firstComponent?
  by_cases hnil : piece = []
  · cases more <;> simp [hnil, component?, isTrivial, routeName?]
  by_cases hdot : piece = [dot]
  · simp [hdot, component?, isTrivial, routeName?]
  · rw [if_neg hnil, if_neg hdot]

theorem withoutDots_filter (names : List Name) :
    withoutDots (names.filter (· ≠ [])) = names.filterMap pieceName? := by
  induction names with
  | nil => rfl
  | cons piece rest ih =>
      simp only [withoutDots] at ih ⊢
      by_cases hnil : piece = []
      · simpa [hnil, pieceName?] using ih
      by_cases hdot : piece = [dot]
      · simpa [hdot, pieceName?] using ih
      · simpa [hnil, hdot, pieceName?] using ih

/-- The names of a route that count are those of the components. -/
theorem withoutDots_route (p : Path) :
    withoutDots (route p) = p.components.filterMap routeName? := by
  have htoList : ∀ c : Option Component,
      c.toList.filterMap routeName? = (c.bind routeName?).toList := by
    rintro (_ | c)
    · rfl
    · cases h : routeName? c <;> simp [h]
  rw [route, withoutDots_filter, components, List.filterMap_append, htoList,
    firstComponent?_bind_routeName?, List.filterMap_filterMap]
  simp only [component?_bind_routeName?]
  cases h : pieceName? p.first <;> simp [h]

theorem isAbsolute_iff (p : Path) :
    p.isAbsolute = true ↔ p.components.head? = some .root := by
  obtain ⟨bytes⟩ := p
  have hnormal : ∀ piece, component? piece ≠ some .root := by
    intro piece
    unfold component?
    split
    · simp
    · split <;> simp
  cases bytes with
  | nil => simp [isAbsolute, components, first, body, splitAtEach, firstComponent?]
  | cons b rest =>
      by_cases hb : b = separator
      · simp [isAbsolute, components, first, body, splitAtEach, firstComponent?, hb]
      · have hfirst : first ⟨b :: rest⟩ ≠ [] := by simp [first, hb]
        simp only [isAbsolute, List.head?_cons, Option.some.injEq, hb, decide_false,
          Bool.false_eq_true, components, firstComponent?, if_neg hfirst, false_iff]
        intro hhead
        rcases List.mem_append.mp (List.mem_of_mem_head? hhead) with hmem | hmem
        · rw [Option.mem_toList] at hmem
          split at hmem
          · cases hmem
          · exact hnormal _ hmem
        · obtain ⟨piece, -, hroot⟩ := List.mem_filterMap.mp hmem
          exact hnormal piece hroot

/-- Paths with the same components are followed from the same place along routes that
differ in `.`s only. -/
theorem withoutDots_route_eq {p q : Path} (h : p.components = q.components) :
    withoutDots (route p) = withoutDots (route q) := by
  rw [withoutDots_route, withoutDots_route, h]

theorem origin_eq_of_components (fs : FileSystem) {p q : Path}
    (h : p.components = q.components) : fs.origin p = fs.origin q := by
  have habsolute : p.isAbsolute = q.isAbsolute := by
    rw [Bool.eq_iff_iff, isAbsolute_iff, isAbsolute_iff, h]
  rw [origin, origin, habsolute]

/-- Paths with the same components cannot lead to different locations. -/
theorem resolve_unique {fs : FileSystem} {p q : Path} {l m : Location}
    (hp : fs.resolve p = .ok l) (hq : fs.resolve q = .ok m)
    (h : p.components = q.components) : l = m := by
  obtain ⟨-, hl⟩ := resolve_eq_ok_iff.mp hp
  obtain ⟨-, hm⟩ := resolve_eq_ok_iff.mp hq
  rw [← origin_eq_of_components fs h] at hm
  exact hl.leads.unique hm.leads (withoutDots_route_eq h)

end FileSystem
end Freshness
