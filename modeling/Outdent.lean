import Outdent.Segment
import Outdent.PositionMap.Json
import Outdent.Error
import Outdent.CommandLine.Basic
import Outdent.CommandLine.Read
import Outdent.Configuration
import Outdent.Console
import Outdent.Diff.Chunk
import Outdent.Diff.Script
import Outdent.Ignore.Rule
import Outdent.Ignore.Walk
import Outdent.Log.Directive
import Outdent.Log.Document
import Outdent.Project.Check
import Outdent.Project.Listing
import Outdent.Project.Placement
import Outdent.Project.Rewriting
import Outdent.Run
import Outdent.Session
import Outdent.Proofs.Marker.Stability
import Outdent.Proofs.PositionMap.Lookup
import Outdent.Proofs.Edit.Refusal
import Outdent.Proofs.Marker.Conflict
import Outdent.Proofs.Files.Arrangement
import Outdent.Proofs.Text.ByteOrder
import Outdent.Proofs.Project.Agreement
import Outdent.Proofs.Files.Resolution
import Outdent.Proofs.Files.Growth
import Outdent.Proofs.Project.Writing
import Outdent.Proofs.Project.Confinement
import Outdent.Proofs.Files.Spelling
import Outdent.Proofs.Project.Collision
import Outdent.Proofs.Json.Reading
import Outdent.Proofs.PositionMap.Reading
import Outdent.Proofs.Edit.Length
import Outdent.Proofs.Marker.Shrinking
import Outdent.Proofs.Project.Identity
import Outdent.Proofs.Files.Persistence
import Outdent.Proofs.Ignore.Entering
import Outdent.Proofs.Project.Repetition
import Outdent.Proofs.Project.Rerun
import Outdent.Proofs.Edit.Splice
import Outdent.Proofs.Edit.Verdict
import Outdent.Proofs.Edit.Inversion
import Outdent.Proofs.Segment.Escapes
import Outdent.Proofs.Edit.Queueing
import Outdent.Proofs.PositionMap.Coverage
import Outdent.Proofs.PositionMap.Resolution
import Outdent.Proofs.Segment.Depth
import Outdent.Proofs.Segment.LineEnding
import Outdent.Proofs.Marker.Counting
import Outdent.Proofs.Segment.Content
import Outdent.Proofs.Marker.Names
import Outdent.Proofs.ByteOrderMark
import Outdent.Proofs.Text.LineTable
import Outdent.Proofs.Glob.Matching
import Outdent.Proofs.Filter
import Outdent.PositionMap.Emitter
import Outdent.Proofs.PositionMap.Emission
