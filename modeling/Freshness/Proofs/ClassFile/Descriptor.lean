import Freshness.ClassFile.Descriptor
import Mathlib.Data.List.Basic
import Mathlib.Logic.Function.Iterate

/-!
# Descriptors as types

A descriptor is the written form of a type, and reading it should give back the classes of the
type.  The reader does not follow the grammar: it looks for the next `L` and takes what stands
before the semicolon after it.  It is in step again after every type, because no other letter of a
descriptor is an `L` and no class name holds a semicolon.
-/

namespace Freshness
namespace ClassFile

/-- The types without parts. -/
inductive PrimitiveType
  | byte
  | char
  | double
  | float
  | int
  | long
  | short
  | boolean
deriving DecidableEq, Repr

/-- The letter that a primitive type is written with. -/
def PrimitiveType.letter : PrimitiveType → Char
  | byte => 'B'
  | char => 'C'
  | double => 'D'
  | float => 'F'
  | int => 'I'
  | long => 'J'
  | short => 'S'
  | boolean => 'Z'

/-- The name of a class, as it can stand in a descriptor. -/
structure ObjectName where
  text : String
  ne_nil : text.toList ≠ []
  no_semicolon : ';' ∉ text.toList

/-- The type of a field, a parameter or a result. -/
inductive FieldType
  | primitive (type : PrimitiveType)
  | object (name : ObjectName)
  | array (element : FieldType)

/-- What a descriptor says: the type of a field, or the types of the parameters of a method and of
its result, if it has one. -/
inductive Descriptor
  | field (type : FieldType)
  | method (parameters : List FieldType) (result : Option FieldType)

namespace FieldType

/-- The written form of a type. -/
def text : FieldType → String
  | primitive type => String.singleton type.letter
  | object name => "L" ++ name.text ++ ";"
  | array element => "[" ++ element.text

/-- The classes that a type is made of. -/
def names : FieldType → List String
  | primitive _ => []
  | object name => [name.text]
  | array element => element.names

end FieldType

namespace Descriptor

/-- The written form of a descriptor. -/
def text : Descriptor → String
  | field type => type.text
  | method parameters result =>
      "(" ++ String.join (parameters.map FieldType.text) ++ ")" ++
        (result.map FieldType.text).getD "V"

/-- The classes that a descriptor mentions, in order and each as often as it is mentioned. -/
def names : Descriptor → List String
  | field type => type.names
  | method parameters result =>
      parameters.flatMap FieldType.names ++ result.toList.flatMap FieldType.names

end Descriptor

/-! ## Reading what is written -/

theorem scanNames_cons_of_ne {c : Char} (h : c ≠ 'L') (rest : List Char) :
    scanNames none (c :: rest) = scanNames none rest := by
  rw [scanNames, if_neg h]

/-- A name that is being read goes up to the next semicolon. -/
theorem scanNames_some {letters name : List Char} (hname : ';' ∉ name)
    (hne : letters.reverse ++ name ≠ []) (rest : List Char) :
    scanNames (some letters) (name ++ ';' :: rest) =
      (letters.reverse ++ name) :: scanNames none rest := by
  induction name generalizing letters with
  | nil =>
      have hletters : letters ≠ [] := by simpa using hne
      simp [scanNames, hletters]
  | cons c name ih =>
      obtain ⟨hc, hrest⟩ := not_or.mp (mt List.mem_cons.mpr hname)
      have hstep : (c :: letters).reverse ++ name = letters.reverse ++ c :: name := by simp
      rw [List.cons_append, scanNames, if_neg (Ne.symm hc), ih hrest (by simp), hstep]

/-- After a type the reader is where it was before: it looks for the next name. -/
theorem scanNames_text_append (type : FieldType) (rest : List Char) :
    scanNames none (type.text.toList ++ rest) =
      type.names.map String.toList ++ scanNames none rest := by
  induction type with
  | primitive type =>
      have hletter : type.letter ≠ 'L' := by cases type <;> decide
      simpa [FieldType.text, FieldType.names] using scanNames_cons_of_ne hletter rest
  | object name =>
      have htext : (FieldType.object name).text.toList ++ rest =
          'L' :: (name.text.toList ++ ';' :: rest) := by
        simp [FieldType.text]
      have hname := @scanNames_some [] name.text.toList name.no_semicolon name.ne_nil rest
      rw [htext, scanNames, if_pos rfl, hname]
      rfl
  | array element ih =>
      have htext : (FieldType.array element).text.toList ++ rest =
          '[' :: (element.text.toList ++ rest) := by
        simp [FieldType.text]
      rw [htext, scanNames_cons_of_ne (by decide), ih]
      rfl

theorem scanNames_text (type : FieldType) :
    scanNames none type.text.toList = type.names.map String.toList := by
  have happend := scanNames_text_append type []
  rwa [List.append_nil, scanNames, List.append_nil] at happend

theorem scanNames_flatMap_append (types : List FieldType) (rest : List Char) :
    scanNames none (types.flatMap (·.text.toList) ++ rest) =
      (types.flatMap FieldType.names).map String.toList ++ scanNames none rest := by
  induction types with
  | nil => rfl
  | cons type types ih =>
      rw [List.flatMap_cons, List.append_assoc, scanNames_text_append, ih, List.flatMap_cons,
        List.map_append, List.append_assoc]

/-- What follows the parameters of a method mentions the classes of its result. -/
theorem scanNames_result (result : Option FieldType) :
    scanNames none ((result.map FieldType.text).getD "V").toList =
      (result.toList.flatMap FieldType.names).map String.toList := by
  cases result with
  | none => decide
  | some type => simpa using scanNames_text type

theorem scanNames_descriptor (descriptor : Descriptor) :
    scanNames none descriptor.text.toList = descriptor.names.map String.toList := by
  cases descriptor with
  | field type => exact scanNames_text type
  | method parameters result =>
      have htext : (Descriptor.method parameters result).text.toList =
          '(' :: (parameters.flatMap (·.text.toList) ++
            ')' :: ((result.map FieldType.text).getD "V").toList) := by
        simp [Descriptor.text, List.flatMap_map]
      rw [htext, scanNames_cons_of_ne (by decide), scanNames_flatMap_append,
        scanNames_cons_of_ne (by decide), scanNames_result, ← List.map_append]
      rfl

theorem objectTypes_of_scanNames {text : String} {names : List String}
    (h : scanNames none text.toList = names.map String.toList) : objectTypes text = names := by
  simp [objectTypes, h]

/-! ## Names of class constants -/

theorem names_iterate_array (depth : Nat) (type : FieldType) :
    (FieldType.array^[depth] type).names = type.names := by
  induction depth generalizing type with
  | zero => rfl
  | succ depth ih => exact ih type.array

/-- The class that an array stands for is the first one that its elements are made of. -/
theorem classEntryType?_iterate_array (depth : Nat) (type : FieldType) :
    classEntryType? (FieldType.array^[depth + 1] type).text = type.names.head? := by
  have hnames := scanNames_text (FieldType.array^[depth + 1] type)
  have hhead : (FieldType.array^[depth + 1] type).text.toList.head? = some '[' := by
    simp [Function.iterate_succ_apply', FieldType.text]
  rw [classEntryType?, if_pos hhead, objectTypes_of_scanNames hnames, names_iterate_array]

theorem classEntryType?_of_head {name : String} (hne : name.toList ≠ [])
    (hhead : name.toList.head? ≠ some '[') : classEntryType? name = some name := by
  have hempty : name.isEmpty = false := by
    rw [← Bool.not_eq_true, String.isEmpty_iff, ← String.toList_eq_nil_iff]
    exact hne
  rw [classEntryType?, if_neg hhead, hempty]
  rfl

/-- A descriptor gives back the classes that it was written with, whatever letters their names
hold.  The name of an array stands for the class of its elements, if they are objects, and any other
name for itself. -/
theorem objectTypes_text :
    (∀ descriptor : Descriptor, objectTypes descriptor.text = descriptor.names) ∧
    (∀ depth name, classEntryType? (FieldType.array^[depth + 1] (.object name)).text =
      some name.text) ∧
    (∀ depth type, classEntryType? (FieldType.array^[depth + 1] (.primitive type)).text = none) ∧
    ∀ name : String, name.toList ≠ [] → name.toList.head? ≠ some '[' →
      classEntryType? name = some name := by
  refine ⟨?_, ?_, ?_, ?_⟩
  · intro descriptor
    exact objectTypes_of_scanNames (scanNames_descriptor descriptor)
  · intro depth name
    exact classEntryType?_iterate_array depth (.object name)
  · intro depth type
    exact classEntryType?_iterate_array depth (.primitive type)
  · intro name hne hhead
    exact classEntryType?_of_head hne hhead

/-- A class whose name looks like the beginning of a descriptor. -/
def bracketName : ObjectName := ⟨"L[(é", by decide, by decide⟩

theorem objectTypes_text_brackets :
    objectTypes "([[LL[(é;JLL[(é;)V" = ["L[(é", "L[(é"] ∧
    classEntryType? "[[LL[(é;" = some "L[(é" ∧ classEntryType? "[J" = none ∧
    "L[(é".toList ≠ [] ∧ "L[(é".toList.head? ≠ some '[' ∧
    classEntryType? "L[(é" = some "L[(é" := by
  obtain ⟨hdescriptor, hobject, hprimitive, hname⟩ := objectTypes_text
  have hne : "L[(é".toList ≠ [] := by decide
  have hhead : "L[(é".toList.head? ≠ some '[' := by decide
  have hmethod := hdescriptor (.method
    [FieldType.array^[2] (.object bracketName), .primitive .long, .object bracketName] none)
  exact ⟨hmethod, hobject 1 bracketName, hprimitive 0 .long, hne, hhead, hname _ hne hhead⟩

end ClassFile
end Freshness
