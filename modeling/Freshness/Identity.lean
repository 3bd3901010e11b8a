import Freshness.Path.Basic

/-!
# Identities

The identity of a class is its dotted name, `com.example.Widget`.  Files carry it in
their path below a root directory: `com/example/Widget.class` and
`com/example/Widget.java` both stand for that class.
-/

namespace Freshness

/-- The dotted name of a class. -/
abbrev Identity := String

namespace Identity

/-- The extension of class files. -/
def compiledExtension : String := "class"

/-- The extension of sources. -/
def sourceExtension : String := "java"

/-- The segments that the components of a path spell.  Only names and `.` are spelled
in an identity. -/
def segments? : List Component → Option (List String)
  | [] => some []
  | .normal name :: rest => do return (← Utf8.decode? name) :: (← segments? rest)
  | .current :: rest => segments? rest
  | .root :: _ => none
  | .parent :: _ => none

/-- The location, less its extension, and the identity of the file at `relative`, if it
has the given extension and its path spells an identity. -/
def ofRelative? (relative : Path) (extension : String) : Option (Path × Identity) :=
  if relative.extension? = some (Utf8.encode extension) then
    let location := relative.withoutExtension
    match segments? location.components with
    | none | some [] => none
    | some segments => some (location, ".".intercalate segments)
  else none

/-- The text before the first `$`, if there is a `$` and something before it. -/
def enclosing? (id : Identity) : Option Identity :=
  let outer := id.toList.takeWhile (· ≠ '$')
  if outer = [] ∨ outer = id.toList then none else some (String.ofList outer)

/-- The beginnings of names that belong to the platform unless others are configured. -/
def platformBeginnings : List String := ["java.", "javax."]

/-- A name that begins like one of the platform's. -/
def isPlatform (symbol : Identity) (beginnings : List String) : Bool :=
  let letters := symbol.toList
  beginnings.any fun beginning => beginning.toList.isPrefixOf letters

end Identity
end Freshness
