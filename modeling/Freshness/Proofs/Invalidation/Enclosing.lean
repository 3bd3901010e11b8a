import Freshness.Proofs.Invalidation.Direct
import Mathlib

/-!
# Packages and enclosing classes

An identity is a package with the dot after it, followed by the simple name of a class.  The class
that encloses another one is looked for in the whole identity, before its first `$`.  It is a class
of the same package as long as the package holds no `$`, the letter that is kept for nested classes,
and then the artifacts that are deleted together are those of one package.
-/

namespace Freshness
namespace Identity

/-- The package of a class, with the dot after it. -/
def package (id : Identity) : String := String.ofList (id.toList.rdropWhile (· ≠ '.'))

/-- The name of a class in its package. -/
def simpleName (id : Identity) : String := String.ofList (id.toList.rtakeWhile (· ≠ '.'))

theorem package_append_simpleName (id : Identity) : package id ++ simpleName id = id := by
  rw [package, simpleName, ← String.ofList_append, List.rdropWhile_append_rtakeWhile,
    String.ofList_toList]

theorem dot_not_mem_simpleName (id : Identity) : '.' ∉ (simpleName id).toList := by
  intro h
  rw [simpleName, String.toList_ofList] at h
  have hdot := List.mem_rtakeWhile_imp h
  simp at hdot

/-- Another name in a package has the same package. -/
theorem package_append (id : Identity) {name : String} (hname : '.' ∉ name.toList) :
    package (package id ++ name) = package id := by
  have hdots : ∀ c ∈ name.toList.reverse, decide (c ≠ '.') = true := by
    intro c hc
    rw [decide_eq_true_iff]
    rintro rfl
    exact hname (List.mem_reverse.mp hc)
  have hdrop : ((package id ++ name).toList).rdropWhile (· ≠ '.') =
      (package id).toList.rdropWhile (· ≠ '.') := by
    rw [String.toList_append, List.rdropWhile, List.reverse_append,
      List.dropWhile_append_of_pos hdots]
    rfl
  rw [package, hdrop, package, String.toList_ofList, List.rdropWhile_idempotent]

/-! ## The class before the first `$` -/

/-- The letters before the first `$`. -/
def outerLetters (letters : List Char) : List Char := letters.takeWhile (· ≠ '$')

theorem dollar_not_mem_outerLetters (letters : List Char) : '$' ∉ outerLetters letters := by
  intro h
  have hdollar := List.mem_takeWhile_imp h
  simp at hdollar

theorem outerLetters_eq_self_iff {letters : List Char} :
    outerLetters letters = letters ↔ '$' ∉ letters := by
  constructor
  · intro h
    exact h ▸ dollar_not_mem_outerLetters letters
  · intro h
    exact List.takeWhile_eq_self_iff.mpr fun _ hc => decide_eq_true fun hdollar => h (hdollar ▸ hc)

theorem outerLetters_append {front : List Char} (hfront : '$' ∉ front) (letters : List Char) :
    outerLetters (front ++ letters) = front ++ outerLetters letters :=
  List.takeWhile_append_of_pos fun _ hc => decide_eq_true fun hdollar => hfront (hdollar ▸ hc)

theorem outerLetters_dollar (letters : List Char) : outerLetters ('$' :: letters) = [] :=
  List.takeWhile_cons_of_neg (by simp)

theorem outerLetters_append_dollar {front : List Char} (hfront : '$' ∉ front)
    (letters : List Char) : outerLetters (front ++ '$' :: letters) = front := by
  rw [outerLetters_append hfront, outerLetters_dollar, List.append_nil]

/-- Letters with a `$` are those before the first one, the `$`, and some others. -/
theorem exists_eq_outerLetters {letters : List Char} (h : '$' ∈ letters) :
    ∃ rest, letters = outerLetters letters ++ '$' :: rest := by
  induction letters with
  | nil => cases h
  | cons c letters ih =>
      by_cases hc : c = '$'
      · subst hc
        exact ⟨letters, by rw [outerLetters_dollar, List.nil_append]⟩
      · have hcons : outerLetters (c :: letters) = c :: outerLetters letters :=
          List.takeWhile_cons_of_pos (by simpa using hc)
        obtain ⟨rest, hrest⟩ := ih ((List.mem_cons.mp h).resolve_left (Ne.symm hc))
        exact ⟨rest, by rw [hcons, List.cons_append, ← hrest]⟩

theorem enclosing?_eq (id : Identity) :
    enclosing? id = if '$' ∈ id.toList ∧ outerLetters id.toList ≠ [] then
      some (String.ofList (outerLetters id.toList)) else none := by
  have henclosing : enclosing? id =
      if outerLetters id.toList = [] ∨ outerLetters id.toList = id.toList then none
      else some (String.ofList (outerLetters id.toList)) := rfl
  simp only [henclosing, outerLetters_eq_self_iff]
  by_cases hdollar : '$' ∈ id.toList <;> simp [hdollar]

/-- The enclosing class is what stands before the first `$`, if anything does. -/
theorem enclosing?_eq_some_iff {id outer : Identity} :
    enclosing? id = some outer ↔
      outer ≠ "" ∧ '$' ∉ outer.toList ∧ ∃ rest, id = outer ++ "$" ++ rest := by
  rw [enclosing?_eq]
  constructor
  · intro h
    split at h
    next hproper =>
      obtain rfl := Option.some.inj h
      obtain ⟨rest, hrest⟩ := exists_eq_outerLetters hproper.1
      refine ⟨?_, ?_, String.ofList rest, ?_⟩
      · simpa using hproper.2
      · simpa using dollar_not_mem_outerLetters id.toList
      · apply String.toList_injective
        simpa using hrest
    next => cases h
  · rintro ⟨hne, hdollar, rest, rfl⟩
    have hletters : (outer ++ "$" ++ rest).toList = outer.toList ++ '$' :: rest.toList := by simp
    rw [hletters, outerLetters_append_dollar hdollar, if_pos, String.ofList_toList]
    exact ⟨by simp, by simpa using hne⟩

/-- Nesting inside a package is nesting outside of it, with the package before both names. -/
theorem enclosing?_append {front name : String} (hfront : '$' ∉ front.toList)
    (hname : front = "" ∨ name.toList.head? ≠ some '$') :
    enclosing? (front ++ name) = (enclosing? name).map (front ++ ·) := by
  simp only [enclosing?_eq, String.toList_append, outerLetters_append hfront, List.mem_append,
    hfront, false_or]
  by_cases hdollar : '$' ∈ name.toList
  · have hne : front.toList ++ outerLetters name.toList ≠ [] ↔ outerLetters name.toList ≠ [] := by
      rcases hname with rfl | hhead
      · simp
      · have hname : outerLetters name.toList ≠ [] := by
          intro hnil
          obtain ⟨rest, hrest⟩ := exists_eq_outerLetters hdollar
          rw [hnil, List.nil_append] at hrest
          exact hhead (by rw [hrest, List.head?_cons])
        simp [hname]
    simp only [hdollar, true_and, hne]
    split <;> simp
  · simp [hdollar]

/-- A name does not matter after a package that holds a `$` itself. -/
theorem enclosing?_append_of_mem {front : String} (hfront : '$' ∈ front.toList) (name : String) :
    enclosing? (front ++ name) = enclosing? front := by
  obtain ⟨rest, hrest⟩ := exists_eq_outerLetters hfront
  have houter : outerLetters (front ++ name).toList = outerLetters front.toList := by
    rw [String.toList_append]
    conv_lhs => rw [hrest, List.append_assoc, List.cons_append,
      outerLetters_append_dollar (dollar_not_mem_outerLetters _)]
  have hmem : '$' ∈ (front ++ name).toList := by
    rw [String.toList_append]
    exact List.mem_append_left _ hfront
  rw [enclosing?_eq, enclosing?_eq, houter]
  simp only [hmem, hfront]

/-! ## Classes of one package -/

/-- Only what stands in `id` before a `$` of the simple name encloses it, and nothing does if there
is no such `$` or only one in first place. -/
structure EnclosedInPackage (id : Identity) : Prop where
  outer : ∀ outer, enclosing? id = some outer →
    ∃ stem rest, stem ≠ "" ∧ simpleName id = stem ++ "$" ++ rest ∧ outer = package id ++ stem
  topLevel : ∀ rest, '$' ∉ rest.toList → simpleName id = rest ∨ simpleName id = "$" ++ rest →
    enclosing? id = none

section

variable {id : Identity} (hpackage : '$' ∉ (package id).toList)
variable (hname : package id = "" ∨ (simpleName id).toList.head? ≠ some '$')
include hpackage hname

theorem enclosing?_eq_map :
    enclosing? id = (enclosing? (simpleName id)).map (package id ++ ·) := by
  conv_lhs => rw [← package_append_simpleName id]
  exact enclosing?_append hpackage hname

theorem enclosedInPackage : EnclosedInPackage id := by
  have henclosing := enclosing?_eq_map hpackage hname
  constructor
  · intro outer houter
    rw [henclosing] at houter
    obtain ⟨stem, hstem, rfl⟩ := Option.map_eq_some_iff.mp houter
    obtain ⟨hne, -, rest, hrest⟩ := enclosing?_eq_some_iff.mp hstem
    exact ⟨stem, rest, hne, hrest, rfl⟩
  · intro rest hrest htop
    rw [henclosing, Option.map_eq_none_iff, enclosing?_eq, if_neg]
    rcases htop with heq | heq
    · simp [heq, hrest]
    · simp [heq, outerLetters_dollar]

theorem package_of_enclosing? {outer : Identity} (h : enclosing? id = some outer) :
    package outer = package id := by
  obtain ⟨stem, rest, -, hsimple, rfl⟩ := (enclosedInPackage hpackage hname).outer outer h
  apply package_append
  intro hdot
  apply dot_not_mem_simpleName id
  simp [hsimple, hdot]

end

/-- A class encloses another one of its package, names are nested in a package as they are outside
of one, and what is deleted together is of one package.  This is so unless the package itself holds
a `$`, before which the enclosing class is looked for then. -/
theorem enclosing?_inPackage (id : Identity) :
    ('$' ∉ (package id).toList →
      package id = "" ∨ (simpleName id).toList.head? ≠ some '$' →
      EnclosedInPackage id ∧
      enclosing? id = (enclosing? (simpleName id)).map (package id ++ ·) ∧
      ∀ (g : DependencyGraph) (s : Sweep) (unit : CompiledUnit), g.units.Keyed → unit.id = id →
        ∃ units : List CompiledUnit,
          Sweep.removeWithEnclosing g s unit = units.foldl Sweep.remove s ∧
            ∀ other ∈ units, package other.id = package id) ∧
    ('$' ∈ (package id).toList → ∀ outer, enclosing? id = some outer ↔
      outer ≠ "" ∧ '$' ∉ outer.toList ∧ ∃ rest, package id = outer ++ "$" ++ rest) := by
  constructor
  · intro hpackage hname
    refine ⟨enclosedInPackage hpackage hname, enclosing?_eq_map hpackage hname, ?_⟩
    intro g s unit hkeyed hunit
    refine ⟨Invalidation.withEnclosing g unit, Invalidation.removeWithEnclosing_eq g s unit, ?_⟩
    intro other hother
    rw [Invalidation.withEnclosing, List.mem_cons, Option.mem_toList,
      Option.bind_eq_some_iff] at hother
    rcases hother with rfl | ⟨outer, houter, hother⟩
    · rw [hunit]
    · rw [hkeyed outer other hother]
      exact package_of_enclosing? hpackage hname (hunit ▸ houter)
  · intro hpackage outer
    have henclosing := enclosing?_append_of_mem hpackage (simpleName id)
    rw [package_append_simpleName] at henclosing
    rw [henclosing, enclosing?_eq_some_iff]

/-- A class in a package and one nested in it. -/
def packagedUnits : UnitMap :=
  Scan.ofUnits
    [⟨"a.Outer", Path.ofString "/out/a/Outer.class", Path.ofString "a/Outer"⟩,
      ⟨"a.Outer$I", Path.ofString "/out/a/Outer$I.class", Path.ofString "a/Outer$I"⟩]

theorem enclosing?_inPackage_outer :
    '$' ∉ (package "a.Outer$I").toList ∧ (simpleName "a.Outer$I").toList.head? ≠ some '$' ∧
    EnclosedInPackage "a.Outer$I" ∧ enclosing? "a.Outer$I" = some "a.Outer" ∧
    packagedUnits.Keyed ∧
    (∃ units : List CompiledUnit, Sweep.removeWithEnclosing (.ofReferences packagedUnits {})
        { fileSystem := .empty 0, dryRun := true }
        ⟨"a.Outer$I", Path.ofString "/out/a/Outer$I.class", Path.ofString "a/Outer$I"⟩ =
          units.foldl Sweep.remove { fileSystem := .empty 0, dryRun := true } ∧
        ∀ other ∈ units, package other.id = package "a.Outer$I") ∧
    '$' ∈ (package "a$b.C").toList ∧ enclosing? "a$b.C" = some "a" := by
  have hpackage : '$' ∉ (package "a.Outer$I").toList := by decide
  have hname : (simpleName "a.Outer$I").toList.head? ≠ some '$' := by decide
  have hkeyed : packagedUnits.Keyed := keyed_ofUnits _
  have hdollar : '$' ∈ (package "a$b.C").toList := by decide
  obtain ⟨henclosed, henclosing, hcomposite⟩ :=
    (enclosing?_inPackage "a.Outer$I").1 hpackage (Or.inr hname)
  refine ⟨hpackage, hname, henclosed, ?_, hkeyed, hcomposite _ _ _ hkeyed rfl, hdollar, ?_⟩
  · rw [henclosing]
    decide
  · exact ((enclosing?_inPackage "a$b.C").2 hdollar "a").mpr ⟨by decide, by decide, "b.", by decide⟩

/-- A class of another package may enclose one whose package holds a `$`.  Without such a package
there is still a class of which a `$` in first place is taken for the end of an enclosing one. -/
theorem not_enclosedInPackage :
    (¬∀ id, EnclosedInPackage id) ∧
      ¬∀ id, '$' ∉ (package id).toList → EnclosedInPackage id := by
  constructor
  · intro h
    have hnone := (h "a$b.C").topLevel "C" (by decide) (Or.inl (by decide))
    exact absurd hnone (by decide)
  · intro h
    have hnone := (h "p.$Z" (by decide)).topLevel "Z" (by decide) (Or.inr (by decide))
    exact absurd hnone (by decide)

end Identity
end Freshness
