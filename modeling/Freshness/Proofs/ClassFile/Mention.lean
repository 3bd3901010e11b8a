import Mathlib
import Freshness.FileSystem.Arrangement
import Freshness.Proofs.ClassFile.Descriptor
import Freshness.Proofs.ClassFile.References
import Freshness.Proofs.InternalName
import Freshness.Proofs.Scan
import Freshness.Proofs.Text.ModifiedUtf8

/-!
# Classes that are mentioned and artifacts that are scanned

A class constant names a class in modified UTF-8, its artifact is named in UTF-8.  The name that is
reported for the constant is the identity of the artifact as long as both ways to write it agree.
-/

namespace Freshness
namespace ClassFile

/-- The constants hold `bytes` as the name of a class. -/
def Skeleton.Mentions (s : Skeleton) (bytes : Bytes) : Prop :=
  ∃ nameIndex content, Item.classEntry nameIndex ∈ s.pool ∧
    itemAt? 1 s.pool nameIndex.toNat = some (.utf8 content) ∧ content.items = bytes

/-- The identity that is reported for a name is among the references, unless it is the identity of
the class itself. -/
theorem Skeleton.Mentions.mem_symbols {s : Skeleton} {bytes : Bytes} (h : s.Mentions bytes)
    {name : String} (hname : classEntryType? (Utf8.decodeLossy bytes) = some name)
    (hother : (classAt? s.pool s.thisClass).map toSymbol ≠ some (toSymbol name)) :
    toSymbol name ∈ s.symbols := by
  obtain ⟨nameIndex, content, hentry, hcontent, rfl⟩ := h
  have htext : textAt? s.pool nameIndex = some (Utf8.decodeLossy content.items) := by
    rw [textAt?, hcontent]
  have htypes : name ∈ (Item.classEntry nameIndex).types s.pool := by
    simp [Item.types, htext, hname]
  have hmem : name ∈ s.types :=
    List.mem_append_left _ (List.mem_append_left _ (List.mem_flatMap.mpr ⟨_, hentry, htypes⟩))
  rw [Skeleton.symbols, List.mem_eraseDups, List.mem_filter]
  exact ⟨List.mem_map_of_mem hmem, by simpa using hother.symm⟩

/-- What is taken for the name of a class is no array. -/
theorem classEntryType?_misread {name : String} (hne : name.toList ≠ [])
    (hbracket : '[' ∉ name.toList) :
    classEntryType? (Utf8.misread name) = some (Utf8.misread name) := by
  obtain ⟨c, rest, hletters⟩ := List.exists_cons_of_ne_nil hne
  have hmisread : (Utf8.misread name).toList =
      Utf8.misreadChar c ++ rest.flatMap Utf8.misreadChar := by
    rw [Utf8.misread, String.toList_ofList, hletters, List.flatMap_cons]
  have hc : c ≠ '[' := by
    rintro rfl
    exact hbracket (hletters ▸ List.mem_cons_self)
  obtain ⟨d, more, hd, hchar⟩ : ∃ d more, d ≠ '[' ∧ Utf8.misreadChar c = d :: more := by
    unfold Utf8.misreadChar
    split_ifs
    · exact ⟨'\uFFFD', _, by decide, rfl⟩
    · exact ⟨c, [], hc, rfl⟩
    · exact ⟨'\uFFFD', _, by decide, rfl⟩
  rw [hchar, List.cons_append] at hmisread
  exact classEntryType?_of_head (by simp [hmisread]) (by simpa [hmisread] using hd)

end ClassFile

namespace InternalName

open ClassFile

variable (n : InternalName)

/-- Of any class that the constants name, this is what is reported. -/
theorem references_of_mentions (hbracket : '[' ∉ n.text.toList) {s : Skeleton}
    (hresolved : s.Resolved) (hmentions : s.Mentions (Utf8.encodeModified n.text))
    (hother : (classAt? s.pool s.thisClass).map toSymbol ≠ some (toSymbol (Utf8.misread n.text)))
    (tail : Bytes) :
    ∃ symbols, references (s.encode ++ tail) = .ok symbols ∧
      toSymbol (Utf8.misread n.text) ∈ symbols := by
  obtain ⟨last, hmoves⟩ := Cursor.moves_start.mpr ⟨tail, rfl⟩
  have hname := classEntryType?_misread n.text_ne_nil hbracket
  rw [← Utf8.decodeLossy_encodeModified] at hname hother ⊢
  exact ⟨s.symbols, references_of_moves hmoves hresolved, hmentions.mem_symbols hname hother⟩

/-- Wherever the artifact of the class is scanned, it is scanned for one of the `symbols`. -/
def ScannedAs (symbols : List String) : Prop :=
  ∀ fs root, n.artifact root ∈ fs.filesBelow root →
    ∃ unit ∈ Scan.unitsBelow fs root, unit.absolute = n.artifact root ∧ unit.id ∈ symbols

theorem exists_unit_of_filesBelow {fs : FileSystem} {root : Path}
    (h : n.artifact root ∈ fs.filesBelow root) :
    ∃ unit ∈ Scan.unitsBelow fs root, unit.absolute = n.artifact root ∧
      unit.id = toSymbol n.text :=
  ⟨_, List.mem_filterMap.mpr ⟨_, h, n.ofArtifact?_artifact root⟩, rfl, rfl⟩

theorem id_of_mem_unitsBelow {fs : FileSystem} {root : Path} {unit : CompiledUnit}
    (h : unit ∈ Scan.unitsBelow fs root) (habsolute : unit.absolute = n.artifact root) :
    unit.id = toSymbol n.text := by
  obtain ⟨path, -, hartifact⟩ := List.mem_filterMap.mp h
  obtain rfl : unit.absolute = path := CompiledUnit.absolute_of_ofArtifact? hartifact
  rw [habsolute, n.ofArtifact?_artifact root] at hartifact
  obtain rfl := Option.some.inj hartifact
  rfl

/-- A class in the basic plane that the constants name is reported with the identity of its
artifact. -/
theorem references_meet_scan (hbracket : '[' ∉ n.text.toList)
    (hbasic : ∀ c ∈ n.text.toList, c.toNat < 0x10000) {s : Skeleton} (hresolved : s.Resolved)
    (hmentions : s.Mentions (Utf8.encodeModified n.text))
    (hother : (classAt? s.pool s.thisClass).map toSymbol ≠ some (toSymbol n.text))
    (tail : Bytes) :
    ∃ symbols, references (s.encode ++ tail) = .ok symbols ∧ n.ScannedAs symbols := by
  have hmisread : Utf8.misread n.text = n.text := by
    refine (Utf8.misread_eq_self_iff n.text).mpr fun c hc => ⟨?_, hbasic c hc⟩
    intro hzero
    have hnul : c = '\x00' := by rw [← Char.ofNat_toNat c, hzero]
    exact n.nul_not_mem_text (hnul ▸ hc)
  rw [← hmisread] at hother
  obtain ⟨symbols, hsymbols, hmem⟩ :=
    n.references_of_mentions hbracket hresolved hmentions hother tail
  rw [hmisread] at hmem
  refine ⟨symbols, hsymbols, fun fs root hfile => ?_⟩
  obtain ⟨unit, hunit, habsolute, hid⟩ := n.exists_unit_of_filesBelow hfile
  exact ⟨unit, hunit, habsolute, hid ▸ hmem⟩

/-- A class in the basic plane. -/
def umlaut : InternalName where
  segments := ["ü"]
  ne_nil := by simp
  isSegment := List.forall_mem_singleton.mpr ⟨by decide, by decide, by decide, by decide⟩

/-- A class beyond the basic plane. -/
def deseret : InternalName where
  segments := ["𐐀"]
  ne_nil := by simp
  isSegment := List.forall_mem_singleton.mpr ⟨by decide, by decide, by decide, by decide⟩

/-- The artifacts of the two classes. -/
def letterTree : FileSystem :=
  ["/r/ü.class", "/r/𐐀.class"].foldl (fun fs p => fs.addFile (Path.ofString p) 1 [])
    (FileSystem.empty 4)

def letterRoot : Path := Path.ofString "/r"

theorem filesBelow_letterTree :
    letterTree.filesBelow letterRoot = [umlaut.artifact letterRoot, deseret.artifact letterRoot] := by
  cbv

theorem mentions_referring (name : Counted 2 UInt8) : (referring name).Mentions name.items :=
  ⟨4, name, by simp [referring], by simp [itemAt?, referring, Item.slots], rfl⟩

/-- The bytes of the class in a class file. -/
def umlautBytes : Counted 2 UInt8 := ⟨[0xC3, 0xBC], by decide⟩

def deseretBytes : Counted 2 UInt8 := ⟨[0xED, 0xA0, 0x81, 0xED, 0xB0, 0x80], by decide⟩

theorem encodeModified_umlaut : Utf8.encodeModified umlaut.text = umlautBytes.items := by decide

theorem encodeModified_deseret : Utf8.encodeModified deseret.text = deseretBytes.items := by decide

theorem references_meet_scan_umlaut :
    '[' ∉ umlaut.text.toList ∧ (∀ c ∈ umlaut.text.toList, c.toNat < 0x10000) ∧
    (referring umlautBytes).Resolved ∧
    (referring umlautBytes).Mentions (Utf8.encodeModified umlaut.text) ∧
    (classAt? (referring umlautBytes).pool (referring umlautBytes).thisClass).map toSymbol ≠
      some (toSymbol umlaut.text) ∧
    umlaut.artifact letterRoot ∈ letterTree.filesBelow letterRoot ∧
    ∃ symbols, references ((referring umlautBytes).encode ++ [0]) = .ok symbols ∧
      umlaut.ScannedAs symbols := by
  have hbracket : '[' ∉ umlaut.text.toList := by decide
  have hletters : umlaut.text.toList = ['ü'] := by decide
  have hbasic : ∀ c ∈ umlaut.text.toList, c.toNat < 0x10000 := by simp [hletters]
  have hmentions := mentions_referring umlautBytes
  rw [← encodeModified_umlaut] at hmentions
  have hother : (classAt? (referring umlautBytes).pool (referring umlautBytes).thisClass).map
      toSymbol ≠ some (toSymbol umlaut.text) := by
    rw [classAt?_referring]
    decide
  have hscanned : umlaut.artifact letterRoot ∈ letterTree.filesBelow letterRoot := by
    rw [filesBelow_letterTree]
    exact List.mem_cons_self
  exact ⟨hbracket, hbasic, resolved_referring _, hmentions, hother, hscanned,
    umlaut.references_meet_scan hbracket hbasic (resolved_referring _) hmentions hother [0]⟩

/-- A class beyond the basic plane is reported with an identity that no artifact of it has. -/
theorem not_references_meet_scan :
    ¬∀ n : InternalName, '[' ∉ n.text.toList → ';' ∉ n.text.toList →
      ∀ s : Skeleton, s.Resolved → s.Mentions (Utf8.encodeModified n.text) →
      (classAt? s.pool s.thisClass).map toSymbol ≠ some (toSymbol n.text) → ∀ tail,
        ∃ symbols, references (s.encode ++ tail) = .ok symbols ∧ n.ScannedAs symbols := by
  intro h
  have hmentions := mentions_referring deseretBytes
  rw [← encodeModified_deseret] at hmentions
  have hother : (classAt? (referring deseretBytes).pool (referring deseretBytes).thisClass).map
      toSymbol ≠ some (toSymbol deseret.text) := by
    rw [classAt?_referring]
    decide
  obtain ⟨symbols, hsymbols, hscanned⟩ := h deseret (by decide) (by decide) (referring deseretBytes)
    (resolved_referring _) hmentions hother []
  have hname : classEntryType? (Utf8.decodeLossy deseretBytes.items) =
      some (Utf8.misread deseret.text) := by
    rw [← encodeModified_deseret, Utf8.decodeLossy_encodeModified]
    exact classEntryType?_misread deseret.text_ne_nil (by decide)
  rw [List.append_nil, references_referring deseretBytes hname (by decide)] at hsymbols
  obtain ⟨unit, hunit, habsolute, hid⟩ := hscanned letterTree letterRoot (by
    rw [filesBelow_letterTree]
    simp)
  rw [deseret.id_of_mem_unitsBelow hunit habsolute] at hid
  cases hsymbols
  exact absurd hid (by decide)

end InternalName
end Freshness
