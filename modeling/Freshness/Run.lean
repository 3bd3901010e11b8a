import Freshness.Classpath
import Freshness.Dump
import Freshness.Extraction
import Freshness.Invalidation
import Freshness.Settings

/-!
# Runs

A run scans the output roots, builds the graph, finds the libraries and what is out of
date, and then deletes what must be compiled again, or says what it would delete.
-/

namespace Freshness

/-- What a run has found before it deletes anything. -/
structure Analysis where
  graph : DependencyGraph
  libraries : Option LibraryMap
  outOfDate : OutOfDate
  stats : GraphStats

/-- What a run has done. -/
structure RunSummary where
  outOfDate : OutOfDate
  removed : List Path
  failures : List RemovalFailure
  dump : Option GraphDump
  stats : GraphStats
  dryRun : Bool

namespace Run

variable {ε : Type}

/-- The libraries of a graph: by a table if there is one, otherwise by the classpath unless
the settings list none. -/
def libraries? (settings : Settings) (table : Option (Identity → Option Path))
    (classpath : Classpath) (fs : FileSystem) (g : DependencyGraph) : Option LibraryMap :=
  match table with
  | some lookup => some (Library.resolve (σ := Unit) (fun symbol => pure (lookup symbol)) g
      settings.platform ()).1
  | none =>
      if settings.classpath.isEmpty then none
      else some (Library.resolve (Classpath.resolve fs) g settings.platform classpath).1

/-- Finds what is out of date.  The places on the classpath are those that are there before
the cache is written. -/
def analyze (settings : Settings) (extract : Extractor ε)
    (table : Option (Identity → Option Path)) (fs : FileSystem) :
    Except (ExtractionError ε) Analysis × Gathering :=
  let classpath := Classpath.ofPaths fs settings.classpath
  let units := Scan.compiledUnits fs settings.outputRoots
  match DependencyGraph.build fs units (settings.cacheRoot.map Cache.mk) extract with
  | (.error e, g) => (.error e, g)
  | (.ok graph, g) =>
      let libraries := libraries? settings table classpath g.fileSystem graph
      let sources := Scan.sourceUnits g.fileSystem settings.sourceRoots
      let outOfDate := OutOfDate.find g.fileSystem sources graph libraries
      (.ok { graph, libraries, outOfDate, stats := g.stats }, g)

/-- Deletes what must be compiled again, or only finds it if `dryRun` says so. -/
def run (dryRun : Bool) (settings : Settings) (extract : Extractor ε)
    (table : Option (Identity → Option Path)) (fs : FileSystem) :
    Except (ExtractionError ε) RunSummary × Gathering :=
  match analyze settings extract table fs with
  | (.error e, g) => (.error e, g)
  | (.ok a, g) =>
      let sweep := Invalidation.invalidate settings.closure dryRun a.graph a.outOfDate g.fileSystem
      let dump := if settings.dump then some (GraphDump.ofGraph a.graph a.libraries) else none
      (.ok { outOfDate := a.outOfDate, removed := sweep.removed, failures := sweep.failures,
             dump, stats := a.stats, dryRun },
        { g with fileSystem := sweep.fileSystem })

/-- Finds what a run would delete. -/
def plan (settings : Settings) (extract : Extractor ε)
    (table : Option (Identity → Option Path)) (fs : FileSystem) :
    Except (ExtractionError ε) RunSummary × Gathering :=
  run true settings extract table fs

/-- Deletes what must be compiled again. -/
def execute (settings : Settings) (extract : Extractor ε)
    (table : Option (Identity → Option Path)) (fs : FileSystem) :
    Except (ExtractionError ε) RunSummary × Gathering :=
  run false settings extract table fs

end Run
end Freshness
