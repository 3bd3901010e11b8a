/-!
# Descriptors

A descriptor spells the type of a field or method.  The classes it mentions stand between
an `L` and a semicolon, and nothing else in it contains either letter.
-/

namespace Freshness
namespace ClassFile

/-- The names between an `L` and the next semicolon.  `pending` holds the letters of the
name being read, in reverse, if there is one; a name that does not end does not count. -/
def scanNames (pending : Option (List Char)) : List Char → List (List Char)
  | [] => []
  | c :: rest =>
      match pending with
      | none => scanNames (if c = 'L' then some [] else none) rest
      | some letters =>
          if c = ';' then
            if letters = [] then scanNames none rest else letters.reverse :: scanNames none rest
          else scanNames (some (c :: letters)) rest

/-- The classes that a descriptor mentions, in order. -/
def objectTypes (descriptor : String) : List String :=
  (scanNames none descriptor.toList).map String.ofList

/-- The class that the name in a class constant stands for.  An array is named by its
descriptor and stands for the class of its elements. -/
def classEntryType? (name : String) : Option String :=
  if name.toList.head? = some '[' then (objectTypes name).head?
  else if name.isEmpty then none
  else some name

/-- The identity of the class with an internal name, which has slashes in place of dots. -/
def toSymbol (internal : String) : String :=
  String.ofList (internal.toList.map fun c => if c = '/' then '.' else c)

end ClassFile
end Freshness
