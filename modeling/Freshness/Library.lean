import Freshness.Graph
import Freshness.Path.Set

/-!
# Library dependencies

The libraries that supply the symbols a unit refers to, other than those of units in the
graph and of the platform.  Each symbol is asked for once.
-/

namespace Freshness

/-- The libraries that each unit depends on; a unit that depends on none is left out. -/
abbrev LibraryMap := Std.TreeMap Identity PathSet

namespace Library

variable {σ : Type}

/-- The answers given so far. -/
abbrev Answers := Std.TreeMap Identity (Option Path)

/-- A symbol that libraries are asked for. -/
def isExternal (g : DependencyGraph) (platform : List String) (symbol : Identity) : Bool :=
  !g.contains symbol && !Identity.isPlatform symbol platform

/-- The library that supplies a symbol, asked for unless the answer is known. -/
def ask (resolver : Identity → StateM σ (Option Path)) (symbol : Identity) :
    StateM (Answers × σ) (Option Path) := fun (answers, s) =>
  match answers[symbol]? with
  | some answer => (answer, answers, s)
  | none =>
      let (answer, s) := resolver symbol s
      (answer, answers.insert symbol answer, s)

/-- The libraries that supply the given symbols. -/
def supplying (resolver : Identity → StateM σ (Option Path)) (symbols : List Identity) :
    StateM (Answers × σ) PathSet :=
  symbols.foldlM (fun libraries symbol => do
    match ← ask resolver symbol with
    | some library => return libraries.insert library
    | none => return libraries) {}

/-- The libraries of all units of a graph. -/
def gather (resolver : Identity → StateM σ (Option Path)) (g : DependencyGraph)
    (platform : List String) : StateM (Answers × σ) LibraryMap :=
  g.forward.toList.foldlM (fun map (id, symbols) => do
    let libraries ← supplying resolver (symbols.filter (isExternal g platform))
    return if libraries.isEmpty then map else map.insert id libraries) {}

/-- The libraries of all units of a graph, and the state of the resolver afterwards. -/
def resolve (resolver : Identity → StateM σ (Option Path)) (g : DependencyGraph)
    (platform : List String) : StateM σ LibraryMap := fun s =>
  let (map, _, s) := gather resolver g platform ({}, s)
  (map, s)

end Library
end Freshness
