import Freshness.Disk

/-!
# The command
-/

/-- Deletes compiled classes that are out of date, or reports them. -/
def main (arguments : List String) : IO UInt32 := do
  let output ← Freshness.Disk.run arguments
  IO.eprint output.diagnostic
  IO.print output.standard
  return output.code.toUInt32
