import Freshness.Run

/-!
# Reports

What a run has done or would do, for a reader or as JSON.
-/

namespace Freshness

/-- How a report is written. -/
inductive ReportFormat
  | text
  | json
deriving DecidableEq, Inhabited, Repr

namespace Report

/-- A document as text.  One that cannot be written is an empty object. -/
def documentText : Option Json → String
  | some document => document.pretty
  | none => "\x7b\x7d"

/-- A dump in a format. -/
def dump (format : ReportFormat) (d : GraphDump) : String :=
  match format with
  | .text => d.text
  | .json => documentText d.json?

/-- A duration in seconds, to the millisecond. -/
def seconds (milliseconds : Nat) : String :=
  let fraction := milliseconds % 1000
  let digits := [fraction / 100, fraction / 10 % 10, fraction % 10].map Nat.digitChar
  s!"{milliseconds / 1000}." ++ String.ofList digits

/-- One line that says how many artifacts were deleted. -/
def deletedLine (summary : RunSummary) (milliseconds : Nat) : String :=
  let verb := if summary.dryRun then "Would delete" else "Deleted"
  s!"{verb} {summary.removed.length} out of date files in {seconds milliseconds}s"

/-- The units that are out of date, for a reader. -/
def outOfDateText (stale : OutOfDate) : String :=
  if stale.isEmpty then "All units up to date\n"
  else "Out of date:\n" ++ String.join (stale.toList.map fun (id, reason) =>
    "  " ++ id ++ " (" ++ reason.message ++ ")\n")

/-- The artifacts that were deleted, for a reader. -/
def removedText (summary : RunSummary) : String :=
  if summary.removed.isEmpty then ""
  else (if summary.dryRun then "Would delete" else "Deleted") ++ ":\n"
    ++ String.join (summary.removed.map fun p => "  " ++ p.display ++ "\n")

/-- A summary for a reader. -/
def statusText (summary : RunSummary) : String :=
  outOfDateText summary.outOfDate ++ removedText summary
    ++ (summary.dump.map GraphDump.text).getD ""

/-- The units that are out of date, as a document. -/
def outOfDateJson (stale : OutOfDate) : Json :=
  .array (stale.toList.map fun (id, reason) =>
    .object [("unit", .text id), ("reason", .text reason.message)])

/-- A deletion that failed, as a document. -/
def failureJson? (failure : RemovalFailure) : Option Json :=
  failure.path.toString?.map fun path =>
    .object [("path", .text path), ("error", .text failure.error.message)]

/-- The dump of a summary as members of a document; there is none without a dump. -/
def dependenciesJson? : Option GraphDump → Option (List (String × Json))
  | none => some []
  | some d => d.json?.map fun document => [("dependencies", document)]

/-- A summary as a document.  Paths that are no text cannot be in it. -/
def statusJson? (summary : RunSummary) (milliseconds : Nat) : Option Json := do
  let removed ← summary.removed.mapM Path.toString?
  let failures ← summary.failures.mapM failureJson?
  let dependencies ← dependenciesJson? summary.dump
  return .object ([("dry_run", .flag summary.dryRun),
    ("out_of_date", outOfDateJson summary.outOfDate),
    ("removed", Json.ofTexts removed),
    ("failures", .array failures),
    ("elapsed_ms", .number milliseconds)] ++ dependencies)

/-- A summary in a format. -/
def status (format : ReportFormat) (summary : RunSummary) (milliseconds : Nat) : String :=
  match format with
  | .text => statusText summary
  | .json => documentText (statusJson? summary milliseconds)

end Report
end Freshness
