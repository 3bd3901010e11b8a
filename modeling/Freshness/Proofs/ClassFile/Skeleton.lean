import Freshness.ClassFile.Descriptor
import Freshness.Proofs.ClassFile.Cursor

/-!
# The class-file format

A class file begins with a skeleton: the constants and, for the class and each of its members,
what leads to a class name, with everything else kept as it is stored.  Anything may follow.
The format is given by the data of a skeleton and the bytes that encode them; what a skeleton
refers to is defined on the data.
-/

namespace Freshness
namespace ClassFile

open Cursor

/-- A list that is stored after its length, which takes `width` bytes. -/
structure Counted (width : Nat) (α : Type) where
  items : List α
  bound : items.length < 256 ^ width

namespace Counted

variable {width : Nat} {α : Type}

/-- The bytes of a counted list, given those of its items. -/
def encode (item : α → Bytes) (list : Counted width α) : Bytes :=
  stored width list.items.length ++ list.items.flatMap item

end Counted

/-- The bytes of a number of two bytes. -/
def encodeShort (n : UInt16) : Bytes := stored 2 n.toNat

/-- The constants that lead to no class name. -/
inductive Plain
  | integer | float | long | double | string | field | method | interfaceMethod
  | methodHandle | dynamic | invokeDynamic | module | package
deriving DecidableEq, Repr

namespace Plain

/-- The tag that a constant begins with. -/
def tag : Plain → UInt8
  | integer => 3
  | float => 4
  | long => 5
  | double => 6
  | string => 8
  | field => 9
  | method => 10
  | interfaceMethod => 11
  | methodHandle => 15
  | dynamic => 17
  | invokeDynamic => 18
  | module => 19
  | package => 20

/-- How many bytes follow the tag. -/
def size : Plain → Nat
  | integer | float => 4
  | long | double => 8
  | string => 2
  | field | method | interfaceMethod => 4
  | methodHandle => 3
  | dynamic | invokeDynamic => 4
  | module | package => 2

end Plain

/-- A constant as it is stored. -/
inductive Item
  | utf8 (content : Counted 2 UInt8)
  | classEntry (nameIndex : UInt16)
  | nameAndType (nameIndex descriptorIndex : UInt16)
  | methodType (descriptorIndex : UInt16)
  | plain (kind : Plain) (content : Vector UInt8 kind.size)

namespace Item

def tag : Item → UInt8
  | utf8 _ => 1
  | classEntry _ => 7
  | nameAndType _ _ => 12
  | methodType _ => 16
  | plain kind _ => kind.tag

/-- The bytes after the tag. -/
def body : Item → Bytes
  | utf8 content => content.encode fun b => [b]
  | classEntry nameIndex => encodeShort nameIndex
  | nameAndType nameIndex descriptorIndex => encodeShort nameIndex ++ encodeShort descriptorIndex
  | methodType descriptorIndex => encodeShort descriptorIndex
  | plain _ content => content.toList

def encode (item : Item) : Bytes := item.tag :: item.body

/-- How many numbers a constant takes. -/
def slots : Item → Nat
  | plain .long _ | plain .double _ => 2
  | _ => 1

/-- Where the constant says that a name or a descriptor stands. -/
def text? : Item → Option UInt16
  | classEntry nameIndex => some nameIndex
  | nameAndType _ descriptorIndex | methodType descriptorIndex => some descriptorIndex
  | utf8 _ | plain _ _ => none

end Item

/-- The constants from `number` on are `items`, the last of which reaches `count`.  Only the
first of the numbers that a constant takes has to lie below `count`. -/
inductive Fills (count : Nat) : Nat → List Item → Prop
  | done {number : Nat} (h : count ≤ number) : Fills count number []
  | more {number : Nat} {item : Item} {rest : List Item} (h : number < count)
      (hrest : Fills count (number + item.slots) rest) : Fills count number (item :: rest)

/-- Something that a class, a field or a method is equipped with. -/
structure Attribute where
  nameIndex : UInt16
  content : Counted 4 UInt8

def Attribute.encode (a : Attribute) : Bytes :=
  encodeShort a.nameIndex ++ a.content.encode fun b => [b]

/-- A field or a method. -/
structure Member where
  access : UInt16
  nameIndex : UInt16
  descriptorIndex : UInt16
  attributes : Counted 2 Attribute

def Member.encode (m : Member) : Bytes :=
  encodeShort m.access ++ encodeShort m.nameIndex ++ encodeShort m.descriptorIndex ++
    m.attributes.encode Attribute.encode

/-- A class file up to the end of its methods. -/
structure Skeleton where
  minor : UInt16
  major : UInt16
  count : UInt16
  pool : List Item
  fills : Fills count.toNat 1 pool
  access : UInt16
  thisClass : UInt16
  superClass : UInt16
  interfaces : Counted 2 UInt16
  fields : Counted 2 Member
  methods : Counted 2 Member

/-- The constant with number `index`, where the first of `items` has number `number`. -/
def itemAt? (number : Nat) : List Item → Nat → Option Item
  | [], _ => none
  | item :: rest, index =>
      if index = number then some item else itemAt? (number + item.slots) rest index

/-- The text among the constants `pool` with number `index`. -/
def textAt? (pool : List Item) (index : UInt16) : Option String :=
  match itemAt? 1 pool index.toNat with
  | some (.utf8 content) => some (Utf8.decodeLossy content.items)
  | _ => none

/-- The name of the class among the constants `pool` with number `index`. -/
def classAt? (pool : List Item) (index : UInt16) : Option String :=
  match itemAt? 1 pool index.toNat with
  | some (.classEntry nameIndex) => textAt? pool nameIndex
  | _ => none

/-- The classes that a constant mentions. -/
def Item.types (pool : List Item) : Item → List String
  | classEntry nameIndex => (textAt? pool nameIndex).toList.filterMap classEntryType?
  | nameAndType _ descriptorIndex | methodType descriptorIndex =>
      (textAt? pool descriptorIndex).toList.flatMap objectTypes
  | utf8 _ | plain _ _ => []

/-- The classes that the descriptor of a field or a method mentions. -/
def Member.types (pool : List Item) (m : Member) : List String :=
  (textAt? pool m.descriptorIndex).toList.flatMap objectTypes

namespace Skeleton

def encode (s : Skeleton) : Bytes :=
  List.flatten [stored 4 0xCAFEBABE, encodeShort s.minor, encodeShort s.major,
    encodeShort s.count, s.pool.flatMap Item.encode,
    encodeShort s.access, encodeShort s.thisClass, encodeShort s.superClass,
    s.interfaces.encode encodeShort,
    s.fields.encode Member.encode, s.methods.encode Member.encode]

/-- The class has a name, and every name of a class and every descriptor is a text. -/
structure Resolved (s : Skeleton) : Prop where
  own : ∃ name, classAt? s.pool s.thisClass = some name
  constants : ∀ item ∈ s.pool, ∀ index, item.text? = some index →
    ∃ text, textAt? s.pool index = some text
  members : ∀ m ∈ s.fields.items ++ s.methods.items,
    ∃ text, textAt? s.pool m.descriptorIndex = some text

/-- The classes that the constants, then the fields, then the methods mention. -/
def types (s : Skeleton) : List String :=
  s.pool.flatMap (Item.types s.pool) ++ s.fields.items.flatMap (Member.types s.pool) ++
    s.methods.items.flatMap (Member.types s.pool)

/-- The identities of the classes that are mentioned, each where it is first, the class's own
left out. -/
def symbols (s : Skeleton) : List String :=
  ((s.types.map toSymbol).filter fun symbol =>
    some symbol ≠ (classAt? s.pool s.thisClass).map toSymbol).eraseDups

end Skeleton
end ClassFile
end Freshness
