import Freshness.Archive.CodePage
import Freshness.Archive.Directory
import Freshness.Archive.ExtraField
import Freshness.Cache
import Freshness.ClassFile.ConstantPool
import Freshness.ClassFile.Cursor
import Freshness.ClassFile.Descriptor
import Freshness.ClassFile.Error
import Freshness.ClassFile.References
import Freshness.Classpath
import Freshness.CommandLine.Arguments
import Freshness.CommandLine.Program
import Freshness.CompiledUnit
import Freshness.Configuration
import Freshness.Disk
import Freshness.Dump
import Freshness.Extraction
import Freshness.FileSystem.Arrangement
import Freshness.FileSystem.Basic
import Freshness.FileSystem.Change
import Freshness.FileSystem.Listing
import Freshness.FileSystem.Location
import Freshness.FileSystem.Lookup
import Freshness.Graph
import Freshness.Identity
import Freshness.Invalidation
import Freshness.Library
import Freshness.Main
import Freshness.OutOfDate
import Freshness.Path.Ancestors
import Freshness.Path.Basic
import Freshness.Path.Set
import Freshness.Proofs.Classpath
import Freshness.Proofs.Extraction
import Freshness.Proofs.FileSystem.Deleting
import Freshness.Proofs.FileSystem.Following
import Freshness.Proofs.FileSystem.Listing
import Freshness.Proofs.FileSystem.Preservation
import Freshness.Proofs.FileSystem.Refusal
import Freshness.Proofs.FileSystem.Removal
import Freshness.Proofs.FileSystem.Tree
import Freshness.Proofs.Graph
import Freshness.Proofs.Invalidation.Closure
import Freshness.Proofs.Invalidation.Deletion
import Freshness.Proofs.Invalidation.Direct
import Freshness.Proofs.Invalidation.Sweep
import Freshness.Proofs.Library
import Freshness.Proofs.OutOfDate
import Freshness.Proofs.Path.Route
import Freshness.Proofs.Path.Set
import Freshness.Proofs.Run.Analysis
import Freshness.Proofs.Run.Convergence
import Freshness.Proofs.Run.DryRun
import Freshness.Proofs.Scan
import Freshness.Report
import Freshness.Run
import Freshness.Scan
import Freshness.Settings
import Freshness.Text.Json
import Freshness.Text.Lines
import Freshness.Text.Utf8
import Freshness.Toml
import Freshness.Proofs.Cache.Building
import Freshness.Proofs.ClassFile.Cursor
import Freshness.Proofs.ClassFile.Reading
import Freshness.Proofs.ClassFile.References
import Freshness.Proofs.Run.Failure
import Freshness.Proofs.Invalidation.Modes
import Freshness.Proofs.Cache.Confinement
import Freshness.Proofs.Cache.Lasting
import Freshness.Proofs.Run.Footprint
import Freshness.Proofs.Run.History
import Freshness.Proofs.FileSystem.Permission
import Freshness.Proofs.Run.Retry
import Freshness.Proofs.ClassFile.Truncation
import Freshness.Proofs.InternalName
import Freshness.Proofs.Text.ModifiedUtf8
import Freshness.Proofs.ClassFile.Mention
import Freshness.Proofs.FileSystem.Replacing
import Freshness.Proofs.Cache.RoundTrip
import Freshness.Proofs.Cache.Keeping
import Freshness.Proofs.Library.Asking
import Freshness.Proofs.OutOfDate.Reasons
import Freshness.Proofs.Classpath.Search
import Freshness.Proofs.Graph.Inverse
import Freshness.Proofs.Classpath.Containment
import Freshness.Proofs.FileSystem.Walk
import Freshness.Proofs.Scan.Sighting
import Freshness.Proofs.Scan.LastWins
import Freshness.Proofs.CommandLine
import Freshness.Proofs.Invalidation.Enclosing
import Freshness.Proofs.ClassFile.Diagnosis
import Freshness.Proofs.ClassFile.Itinerary
import Freshness.Proofs.Report
