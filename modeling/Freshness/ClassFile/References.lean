import Std.Data.HashSet
import Freshness.ClassFile.ConstantPool
import Freshness.ClassFile.Descriptor

/-!
# The classes a class file refers to

They are named by the class constants and by the descriptors in the constant pool, of the
fields and of the methods.
-/

namespace Freshness
namespace ClassFile

/-- The number that every class file begins with. -/
def magic : Nat := 0xCAFEBABE

/-- The classes that a constant at `offset` mentions. -/
def constantTypes (pool : ConstantPool) (entry : PoolEntry) : Except ReadError (List String) :=
  match entry.constant with
  | .classEntry nameIndex =>
      (pool.utf8 nameIndex entry.offset).map fun name => (classEntryType? name).toList
  | .nameAndType _ descriptorIndex | .methodType descriptorIndex =>
      (pool.utf8 descriptorIndex entry.offset).map objectTypes
  | .utf8 _ | .other | .unusable => .ok []

/-- The classes that the constants of the pool mention, in the order of their numbers. -/
def poolTypes (pool : ConstantPool) : Except ReadError (List String) :=
  (pool.usable.mapM fun entry => constantTypes pool entry.2).map List.flatten

/-- Moves past `count` attributes. -/
def skipAttributes : (count : Nat) → Cursor → Except ReadError Cursor
  | 0, c => .ok c
  | count + 1, c => do
      let c ← c.skip 2
      let (length, c) ← c.number 4
      let c ← c.skip length
      skipAttributes count c

/-- The classes that the descriptors of the next `count` fields or methods mention, after
those in `found`, latest first. -/
def memberTypes (pool : ConstantPool) :
    (count : Nat) → Cursor → (found : List String) → Except ReadError (List String × Cursor)
  | 0, c, found => .ok (found, c)
  | count + 1, c, found => do
      let c ← c.skip 4
      let (descriptorIndex, next) ← c.number 2
      let descriptor ← pool.utf8 descriptorIndex c.offset
      let (attributes, c) ← next.number 2
      let c ← skipAttributes attributes c
      memberTypes pool count c ((objectTypes descriptor).reverse ++ found)

/-- The classes that the fields or the methods of a class mention. -/
def membersTypes (pool : ConstantPool) (c : Cursor) : Except ReadError (List String × Cursor) := do
  let (count, c) ← c.number 2
  let (found, c) ← memberTypes pool count c []
  return (found.reverse, c)

/-- The first occurrence of each text. -/
def firstOccurrences (texts : List String) : List String :=
  let step := fun (seen : Std.HashSet String × Array String) (text : String) =>
    if seen.1.contains text then seen else (seen.1.insert text, seen.2.push text)
  (texts.foldl step (∅, #[])).2.toList

/-- The identities of the classes that the class file `bytes` refers to, its own left out. -/
def references (bytes : Bytes) : Except ReadError (List String) := do
  let (found, c) ← (Cursor.start bytes).number 4
  if found ≠ magic then throw (.badMagic found)
  let c ← c.skip 4
  let (pool, c) ← ConstantPool.read c
  let c ← c.skip 2
  let (thisClass, next) ← c.number 2
  let own ← pool.className thisClass c.offset
  let c ← next.skip 2
  let (interfaces, c) ← c.number 2
  let c ← c.skip (interfaces * 2)
  let inPool ← poolTypes pool
  let (inFields, c) ← membersTypes pool c
  let (inMethods, _) ← membersTypes pool c
  let symbols := (inPool ++ inFields ++ inMethods).map toSymbol
  return firstOccurrences (symbols.filter (· ≠ toSymbol own))

end ClassFile
end Freshness
