import Freshness.CompiledUnit
import Freshness.Proofs.Path.Names
import Freshness.Proofs.Text.Utf8

/-!
# How compiled units are named

The path of a unit below its root consists of the names that lead to its file, without the
extension of the last one, and it determines the identity of the unit.
-/

namespace Freshness
namespace Identity

open Freshness.Path

theorem segments?_of_parent {components : List Component} (h : .parent ∈ components) :
    segments? components = none := by
  induction components with
  | nil => cases h
  | cons c rest ih =>
      rcases List.mem_cons.mp h with rfl | hrest
      · rfl
      · cases c with
        | root => rfl
        | parent => rfl
        | current => exact ih hrest
        | normal name =>
            rw [segments?, ih hrest]
            cases Utf8.decode? name <;> rfl

theorem exists_of_ofRelative? {relative location : Path} {extension : String} {id : Identity}
    (h : ofRelative? relative extension = some (location, id)) :
    relative.extension? = some (Utf8.encode extension) ∧
      location = relative.withoutExtension ∧
      ∃ segments, segments? location.components = some segments ∧
        id = ".".intercalate segments := by
  unfold ofRelative? at h
  split at h
  next hextension =>
    dsimp only at h
    split at h
    · cases h
    · cases h
    next segments _ hsegments =>
      cases h
      exact ⟨hextension, rfl, segments, hsegments, rfl⟩
  next => cases h

/-- The location of a file with an extension consists of the same names, the last one without the
extension. -/
theorem of_ofRelative? {names : List Name} (hne : names ≠ [])
    (hnames : ∀ name ∈ names, IsName name) {extension : String} {location : Path} {id : Identity}
    (h : ofRelative? (ofBody names) extension = some (location, id)) :
    ∃ dirs stem, names = dirs ++ [stem ++ dot :: Utf8.encode extension] ∧
      (∀ name ∈ dirs ++ [stem], IsName name) ∧ location = ofBody (dirs ++ [stem]) ∧
      ∃ segments, segments? location.components = some segments ∧
        id = ".".intercalate segments := by
  obtain ⟨hextension, hlocation, segments, hsegments, hid⟩ := exists_of_ofRelative? h
  obtain ⟨dirs, name, rfl⟩ : ∃ dirs name, names = dirs ++ [name] :=
    ⟨names.dropLast, names.getLast hne, (List.dropLast_concat_getLast hne).symm⟩
  obtain ⟨stem, hstem, rfl⟩ := eq_of_extension? hnames hextension
  rw [withoutExtension_ofBody hextension] at hlocation
  obtain ⟨hdirs, hlast⟩ := List.forall_mem_append.mp hnames
  have hseparator : separator ∉ stem := by
    intro hmem
    exact (hlast _ (List.mem_singleton_self _)).no_separator (List.mem_append_left _ hmem)
  have hdirsPlain : ∀ name ∈ dirs, separator ∉ name ∧ name ≠ [] ∧ name ≠ [dot] :=
    fun name hname => ⟨(hdirs name hname).no_separator, (hdirs name hname).ne_nil,
      (hdirs name hname).ne_dot⟩
  have hparentPlain : ∀ name ∈ dirs ++ [[dot, dot]],
      separator ∉ name ∧ name ≠ [] ∧ name ≠ [dot] :=
    List.forall_mem_append.mpr ⟨hdirsPlain, List.forall_mem_singleton.mpr (by decide)⟩
  -- a location that leads to a parent spells no identity
  have hnoParent : location ≠ ofBody (dirs ++ [[dot, dot]]) := by
    intro hparent
    have hcomponents : Component.parent ∈ location.components := by
      rw [hparent, components_ofBody (by simp) hparentPlain]
      simp [component?, isTrivial]
    rw [segments?_of_parent hcomponents] at hsegments
    cases hsegments
  have hstemDot : stem ≠ [dot] := by
    rintro rfl
    apply hnoParent
    have hsame : dirs ++ [[dot] ++ [dot]] = dirs ++ [[dot, dot]] := rfl
    rw [hlocation, hsame, throughStem, fileName?, components_ofBody (by simp) hparentPlain]
    simp [component?, isTrivial]
  have hstemNames : ∀ name ∈ dirs ++ [stem ++ [dot]], IsName name := by
    refine List.forall_mem_append.mpr ⟨hdirs, List.forall_mem_singleton.mpr ?_⟩
    constructor
    · simp
    · simpa using hstem
    · intro hdots
      have hsame : stem ++ [dot] = [dot] ++ [dot] := hdots
      exact hstemDot (List.append_cancel_right hsame)
    · intro hmem
      rcases List.mem_append.mp hmem with hstemMem | hdotMem
      · exact hseparator hstemMem
      · revert hdotMem
        decide
  rw [throughStem_ofBody hstem hstemNames] at hlocation
  refine ⟨dirs, stem, rfl, ?_, hlocation, segments, hsegments, hid⟩
  refine List.forall_mem_append.mpr ⟨hdirs, List.forall_mem_singleton.mpr ?_⟩
  refine ⟨hstem, hstemDot, ?_, hseparator⟩
  rintro rfl
  exact hnoParent hlocation

/-! ## Names that are texts -/

theorem segments?_map_encode (segments : List String) :
    segments? (segments.map fun segment => .normal (Utf8.encode segment)) = some segments := by
  induction segments with
  | nil => rfl
  | cons segment rest ih => simp [segments?, Utf8.decode?_encode, ih]

/-- A file that is named after some segments and has the extension carries their identity. -/
theorem ofRelative?_ofBody {segments : List String} {dirs : List Name} {stem : Name}
    (heq : segments.map Utf8.encode = dirs ++ [stem])
    (hnames : ∀ name ∈ dirs ++ [stem], IsName name) {extension : String}
    (hdot : dot ∉ Utf8.encode extension) (hseparator : separator ∉ Utf8.encode extension) :
    ofRelative? (ofBody (dirs ++ [stem ++ dot :: Utf8.encode extension])) extension =
      some (ofBody (dirs ++ [stem]), ".".intercalate segments) := by
  obtain ⟨hdirs, hlast⟩ := List.forall_mem_append.mp hnames
  have hstem := List.forall_mem_singleton.mp hlast
  have hisName : ∀ ext, separator ∉ ext → ∀ name ∈ dirs ++ [stem ++ dot :: ext], IsName name :=
    fun ext hext => List.forall_mem_append.mpr
      ⟨hdirs, List.forall_mem_singleton.mpr (isName_append_extension hstem hext)⟩
  have hextension := extension?_ofBody hstem.ne_nil hdot (hisName _ hseparator)
  have hcomponents : (ofBody (dirs ++ [stem])).components =
      segments.map fun segment => .normal (Utf8.encode segment) := by
    rw [components_ofBody_of_isName (by simp) hnames, ← heq, List.map_map]
    rfl
  rw [ofRelative?, if_pos hextension, withoutExtension_ofBody hextension,
    throughStem_ofBody hstem.ne_nil (hisName [] (by simp))]
  dsimp only
  rw [hcomponents, segments?_map_encode]
  have hne : segments ≠ [] := by
    rintro rfl
    simp at heq
  cases segments with
  | nil => exact absurd rfl hne
  | cons segment rest => rfl

end Identity

namespace CompiledUnit

open Freshness.Path

/-- A unit is named by the names that lead to its file, without the extension of the last one. -/
structure Named (unit : CompiledUnit) (dirs : List Name) (stem : Name) : Prop where
  isName : ∀ name ∈ dirs ++ [stem], IsName name
  relative : unit.relative = ofBody (dirs ++ [stem])
  id : ∃ segments, Identity.segments? unit.relative.components = some segments ∧
    unit.id = ".".intercalate segments

theorem Named.isName_of_mem_dirs {unit : CompiledUnit} {dirs : List Name} {stem name : Name}
    (h : unit.Named dirs stem) (hname : name ∈ dirs) : IsName name :=
  h.isName name (List.mem_append_left [stem] hname)

/-- Units with the same names have the same identity. -/
theorem Named.id_eq {unit other : CompiledUnit} {dirs : List Name} {stem : Name}
    (h : unit.Named dirs stem) (h' : other.Named dirs stem) : unit.id = other.id := by
  obtain ⟨segments, hsegments, hid⟩ := h.id
  obtain ⟨segments', hsegments', hid'⟩ := h'.id
  rw [h'.relative, ← h.relative, hsegments] at hsegments'
  cases hsegments'
  rw [hid, hid']

/-- The artifact of a unit has the extension of compiled units. -/
theorem absolute_of_ofArtifact? {root path : Path} {unit : CompiledUnit}
    (h : ofArtifact? root path = some unit) : unit.absolute = path := by
  unfold ofArtifact? at h
  simp only [Option.bind_eq_bind, Option.bind_eq_some_iff] at h
  obtain ⟨below, -, ⟨relative, id⟩, -, heq⟩ := h
  cases heq
  rfl

theorem extension?_of_ofArtifact? {root : Path} (hroot : root.bytes ≠ []) {names : List Name}
    (hne : names ≠ []) (hnames : ∀ name ∈ names, IsName name) {unit : CompiledUnit}
    (h : ofArtifact? root (root.descend names) = some unit) :
    (root.descend names).extension? = some (Utf8.encode Identity.compiledExtension) := by
  simp only [ofArtifact?, relativeTo?_descend hroot hne hnames, Option.bind_eq_bind,
    Option.bind_some, Option.bind_eq_some_iff, Prod.exists] at h
  obtain ⟨location, id, hrelative, -⟩ := h
  rw [extension?_descend hroot hne hnames]
  exact (Identity.exists_of_ofRelative? hrelative).1

theorem named_of_ofArtifact? {root : Path} (hroot : root.bytes ≠ []) {names : List Name}
    (hne : names ≠ []) (hnames : ∀ name ∈ names, IsName name) {unit : CompiledUnit}
    (h : ofArtifact? root (root.descend names) = some unit) :
    unit.absolute = root.descend names ∧
      ∃ dirs stem, unit.Named dirs stem ∧
        names = dirs ++ [stem ++ dot :: Utf8.encode Identity.compiledExtension] := by
  simp only [ofArtifact?, relativeTo?_descend hroot hne hnames, Option.bind_eq_bind,
    Option.bind_some, Option.bind_eq_some_iff, Prod.exists] at h
  obtain ⟨location, id, hrelative, hunit⟩ := h
  obtain ⟨dirs, stem, hnamesEq, hisName, hlocation, hid⟩ :=
    Identity.of_ofRelative? hne hnames hrelative
  cases hunit
  exact ⟨rfl, dirs, stem, ⟨hisName, hlocation, hid⟩, hnamesEq⟩

end CompiledUnit
end Freshness
