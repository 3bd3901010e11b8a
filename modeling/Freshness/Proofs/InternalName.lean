import Freshness.ClassFile.Descriptor
import Freshness.Proofs.Classpath
import Freshness.Proofs.CompiledUnit

/-!
# Names of classes

A class file writes the name of a class with slashes.  An identity has dots in their place, the
files of the class have them as separators of their paths, and a library has the whole name in one
entry.  Each of these ways gives the name back, so that all of them lead to one identity.
-/

namespace Freshness

open Freshness.Path ClassFile

/-! ## Letters between separators -/

theorem map_intercalate {α β : Type} (f : α → β) (separator : List α) (items : List (List α)) :
    (separator.intercalate items).map f =
      (separator.map f).intercalate (items.map (List.map f)) := by
  induction items with
  | nil => rfl
  | cons item rest ih =>
      cases rest with
      | nil => simp
      | cons next rest =>
          simp only [List.map_cons, List.intercalate_cons_cons, List.map_append] at ih ⊢
          rw [ih]

theorem mem_intercalate {α : Type} {separator : List α} {items : List (List α)} {a : α}
    (h : a ∈ separator.intercalate items) : a ∈ separator ∨ ∃ item ∈ items, a ∈ item := by
  obtain ⟨piece, hpiece, ha⟩ := List.mem_flatten.mp h
  have hpieces : ∀ items : List (List α), piece ∈ items.intersperse separator →
      piece = separator ∨ piece ∈ items := by
    intro items
    induction items with
    | nil => simp
    | cons item rest ih =>
        cases rest with
        | nil => exact fun h => Or.inr (by simpa using h)
        | cons next rest =>
            simp only [List.intersperse_cons_cons, List.mem_cons] at ih ⊢
            rintro (h | h | h)
            · exact Or.inr (Or.inl h)
            · exact Or.inl h
            · exact (ih h).imp_right Or.inr
  obtain rfl | hmem := hpieces items hpiece
  · exact Or.inl ha
  · exact Or.inr ⟨piece, hmem, ha⟩

/-! ## Names and what is written for them -/

/-- A segment of the name of a class. -/
structure IsSegment (text : String) : Prop where
  ne_nil : text.toList ≠ []
  no_slash : '/' ∉ text.toList
  no_dot : '.' ∉ text.toList
  no_nul : '\x00' ∉ text.toList

/-- The name of a class as class files have it. -/
structure InternalName where
  segments : List String
  ne_nil : segments ≠ []
  isSegment : ∀ segment ∈ segments, IsSegment segment

/-- The bytes of a segment are a name of an entry. -/
theorem IsSegment.isName {text : String} (h : IsSegment text) : IsName (Utf8.encode text) := by
  have hdot : dot ∉ Utf8.encode text := Utf8.not_mem_encode (c := '.') (by decide) h.no_dot
  have hslash : separator ∉ Utf8.encode text :=
    Utf8.not_mem_encode (c := '/') (by decide) h.no_slash
  refine ⟨Utf8.encode_ne_nil h.ne_nil, ?_, ?_, hslash⟩
  · intro heq
    simp [heq] at hdot
  · intro heq
    simp [heq] at hdot

namespace InternalName

variable (n : InternalName)

/-- The name as it is written. -/
def text : String := "/".intercalate n.segments

/-- The name of a file of the class below a root. -/
def fileName (extension : String) : String := n.text ++ "." ++ extension

/-- The names that lead to the files of the class, without their extensions. -/
def names : List Name := n.segments.map Utf8.encode

theorem isName_names : ∀ name ∈ n.names, IsName name := by
  intro name hname
  obtain ⟨segment, hsegment, rfl⟩ := List.mem_map.mp hname
  exact (n.isSegment segment hsegment).isName

theorem exists_names : ∃ dirs stem, n.names = dirs ++ [stem] := by
  have hne : n.names ≠ [] := mt List.map_eq_nil_iff.mp n.ne_nil
  exact ⟨_, _, (List.dropLast_concat_getLast hne).symm⟩

theorem encode_intercalate (segments : List String) :
    Utf8.encode ("/".intercalate segments) = (ofBody (segments.map Utf8.encode)).bytes := by
  induction segments with
  | nil => rfl
  | cons segment rest ih =>
      cases rest with
      | nil => simp [ofBody, ofPieces]
      | cons next rest =>
          have hslash : Utf8.encode "/" = [separator] := by decide
          rw [String.intercalate_cons_cons, Utf8.encode_append, Utf8.encode_append, ih, hslash]
          simp [ofBody, ofPieces]

theorem ofString_text : Path.ofString n.text = ofBody n.names :=
  congrArg Path.mk (encode_intercalate n.segments)

theorem ofString_fileName {dirs : List Name} {stem : Name} (h : n.names = dirs ++ [stem])
    (extension : String) :
    Path.ofString (n.fileName extension) =
      ofBody (dirs ++ [stem ++ dot :: Utf8.encode extension]) := by
  have hdot : Utf8.encode "." = [dot] := by decide
  have hbytes : Utf8.encode (n.fileName extension) =
      (ofBody (dirs ++ [stem ++ dot :: Utf8.encode extension])).bytes := by
    rw [bytes_ofBody_append, ← h, ← ofString_text, fileName, Utf8.encode_append,
      Utf8.encode_append, hdot, List.append_assoc]
    rfl
  exact congrArg Path.mk hbytes

/-- The letters of a name are slashes and those of the segments. -/
theorem mem_text {c : Char} (h : c ∈ n.text.toList) :
    c = '/' ∨ ∃ segment ∈ n.segments, c ∈ segment.toList := by
  rw [text, String.toList_intercalate] at h
  obtain hslash | ⟨_, hitem, hc⟩ := mem_intercalate h
  · exact Or.inl (by simpa using hslash)
  · obtain ⟨segment, hsegment, rfl⟩ := List.mem_map.mp hitem
    exact Or.inr ⟨segment, hsegment, hc⟩

theorem not_mem_text {c : Char} (hslash : c ≠ '/')
    (hsegments : ∀ segment ∈ n.segments, c ∉ segment.toList) : c ∉ n.text.toList := by
  intro hmem
  obtain h | ⟨segment, hsegment, hc⟩ := n.mem_text hmem
  · exact hslash h
  · exact hsegments segment hsegment hc

theorem dot_not_mem_text : '.' ∉ n.text.toList :=
  n.not_mem_text (by decide) fun segment hsegment => (n.isSegment segment hsegment).no_dot

theorem nul_not_mem_text : '\x00' ∉ n.text.toList :=
  n.not_mem_text (by decide) fun segment hsegment => (n.isSegment segment hsegment).no_nul

/-- The segments are the pieces between the slashes. -/
theorem splitOn_text : n.text.toList.splitOn '/' = n.segments.map String.toList := by
  have hslash : ∀ letters ∈ n.segments.map String.toList, '/' ∉ letters := by
    intro letters hletters
    obtain ⟨segment, hsegment, rfl⟩ := List.mem_map.mp hletters
    exact (n.isSegment segment hsegment).no_slash
  rw [text, String.toList_intercalate]
  exact List.splitOn_intercalate '/' hslash (mt List.map_eq_nil_iff.mp n.ne_nil)

theorem text_ne_nil : n.text.toList ≠ [] := by
  intro hnil
  have hsplit := n.splitOn_text
  rw [hnil] at hsplit
  have hmem : [] ∈ n.segments.map String.toList := hsplit ▸ List.mem_singleton_self []
  obtain ⟨segment, hsegment, hempty⟩ := List.mem_map.mp hmem
  exact (n.isSegment segment hsegment).ne_nil hempty

theorem eq_of_text_eq {m : InternalName} (h : m.text = n.text) : m = n := by
  have hsegments : m.segments.map String.toList = n.segments.map String.toList := by
    rw [← splitOn_text, ← splitOn_text, h]
  cases m
  cases n
  simpa using List.map_injective_iff.mpr (fun _ _ => String.toList_inj.mp) hsegments

theorem toSymbol_text : toSymbol n.text = ".".intercalate n.segments := by
  have hsegments : (n.segments.map String.toList).map
      (List.map fun c => if c = '/' then '.' else c) = n.segments.map String.toList := by
    rw [List.map_map]
    apply List.map_congr_left
    intro segment hsegment
    refine (List.map_congr_left fun c hc => if_neg ?_).trans (List.map_id _)
    rintro rfl
    exact (n.isSegment segment hsegment).no_slash hc
  rw [toSymbol, text, String.toList_intercalate, map_intercalate, hsegments, ← String.toList_inj,
    String.toList_intercalate, String.toList_ofList]
  rfl

theorem entryName_toSymbol :
    Classpath.entryName (toSymbol n.text) = n.fileName Identity.compiledExtension := by
  have hletters : (n.text.toList.map fun c => if c = '/' then '.' else c).map
      (fun c => if c = '.' then '/' else c) = n.text.toList := by
    rw [List.map_map]
    refine (List.map_congr_left fun c hc => ?_).trans (List.map_id _)
    have hdot : c ≠ '.' := by
      rintro rfl
      exact n.dot_not_mem_text hc
    by_cases hslash : c = '/' <;> simp [hslash, hdot]
  rw [Classpath.entryName, toSymbol, String.toList_ofList, hletters, String.ofList_toList,
    fileName, String.append_assoc]
  rfl

/-! ## Identities -/

/-- The extension of a file can be told apart from the name of its class. -/
structure IsExtension (extension : String) : Prop where
  no_dot : dot ∉ Utf8.encode extension
  no_separator : separator ∉ Utf8.encode extension

theorem isExtension_compiled : IsExtension Identity.compiledExtension := ⟨by decide, by decide⟩

theorem isExtension_source : IsExtension Identity.sourceExtension := ⟨by decide, by decide⟩

theorem ofRelative?_fileName {extension : String} (h : IsExtension extension) :
    Identity.ofRelative? (Path.ofString (n.fileName extension)) extension =
      some (Path.ofString n.text, toSymbol n.text) := by
  obtain ⟨dirs, stem, hnames⟩ := n.exists_names
  have hisName := n.isName_names
  rw [hnames] at hisName
  rw [n.ofString_fileName hnames, ofString_text, hnames, toSymbol_text]
  exact Identity.ofRelative?_ofBody hnames hisName h.no_dot h.no_separator

/-- What the path of a file of the class has below its root. -/
theorem relativeTo?_fileName {extension : String} (h : IsExtension extension) (root : Path) :
    (root.join (Path.ofString (n.fileName extension))).relativeTo? root =
      some (Path.ofString (n.fileName extension)) := by
  obtain ⟨dirs, stem, hnames⟩ := n.exists_names
  have hisName := n.isName_names
  rw [hnames] at hisName
  obtain ⟨hdirs, hstem⟩ := List.forall_mem_append.mp hisName
  rw [n.ofString_fileName hnames]
  refine relativeTo?_join root (by simp) (List.forall_mem_append.mpr ⟨hdirs, ?_⟩)
  rw [List.forall_mem_singleton] at hstem ⊢
  exact isName_append_extension hstem h.no_separator

/-- The artifact of the class below a root. -/
def artifact (root : Path) : Path :=
  root.join (Path.ofString (n.fileName Identity.compiledExtension))

theorem ofArtifact?_artifact (root : Path) :
    CompiledUnit.ofArtifact? root (n.artifact root) =
      some ⟨toSymbol n.text, n.artifact root, Path.ofString n.text⟩ := by
  rw [CompiledUnit.ofArtifact?, artifact, n.relativeTo?_fileName isExtension_compiled root]
  simp only [Option.bind_eq_bind, Option.bind_some, n.ofRelative?_fileName isExtension_compiled]
  rfl

theorem answer_toSymbol (fs : FileSystem) (classpath : Classpath) :
    Classpath.answer fs classpath (toSymbol n.text) = classpath.entries.findSome? fun entry =>
      (entry.lookup fs (n.fileName Identity.compiledExtension)).1 := by
  rw [← n.entryName_toSymbol, ← Classpath.fst_lookupFirst]
  rfl

theorem toSymbol_text_injective : Function.Injective fun n : InternalName => toSymbol n.text := by
  intro m n h
  have hentry : Classpath.entryName (toSymbol m.text) = Classpath.entryName (toSymbol n.text) :=
    congrArg Classpath.entryName h
  rw [entryName_toSymbol, entryName_toSymbol, ← String.toList_inj] at hentry
  simp only [fileName, String.toList_append, List.append_cancel_right_eq, String.toList_inj]
    at hentry
  exact eq_of_text_eq n hentry

/-- All ways to name a class agree. -/
theorem names_agree :
    (∀ n : InternalName,
      Identity.ofRelative? (Path.ofString (n.fileName Identity.compiledExtension))
          Identity.compiledExtension = some (Path.ofString n.text, toSymbol n.text) ∧
      Identity.ofRelative? (Path.ofString (n.fileName Identity.sourceExtension))
          Identity.sourceExtension = some (Path.ofString n.text, toSymbol n.text) ∧
      (∀ fs classpath,
        Classpath.answer fs classpath (toSymbol n.text) = classpath.entries.findSome? fun entry =>
          (entry.lookup fs (n.fileName Identity.compiledExtension)).1) ∧
      ∀ root, CompiledUnit.ofArtifact? root (n.artifact root) =
        some ⟨toSymbol n.text, n.artifact root, Path.ofString n.text⟩) ∧
    Function.Injective fun n : InternalName => toSymbol n.text := by
  refine ⟨fun n => ⟨?_, ?_, ?_, ?_⟩, toSymbol_text_injective⟩
  · exact n.ofRelative?_fileName isExtension_compiled
  · exact n.ofRelative?_fileName isExtension_source
  · exact n.answer_toSymbol
  · exact n.ofArtifact?_artifact

end InternalName
end Freshness
