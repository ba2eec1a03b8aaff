import Regeneration.Command.Arguments
import Regeneration.Command.Basic
import Regeneration.Config
import Regeneration.Decimal.Shortest
import Regeneration.Disk.Basic
import Regeneration.Disk.Fault
import Regeneration.Disk.Outputs
import Regeneration.Disk.Path
import Regeneration.Error
import Regeneration.File
import Regeneration.Json.Document
import Regeneration.Json.Error
import Regeneration.Json.Numeral
import Regeneration.Json.Quoted
import Regeneration.Json.Reader
import Regeneration.Json.Skip
import Regeneration.Json.Value
import Regeneration.Json.Writer
import Regeneration.Keyed
import Regeneration.Layout
import Regeneration.Main
import Regeneration.Manifest
import Regeneration.Merge.Basic
import Regeneration.Merge.Log
import Regeneration.Merge.Matched
import Regeneration.Merge.Order
import Regeneration.Merge.Stats
import Regeneration.Model
import Regeneration.Path
import Regeneration.Previous
import Regeneration.Record.Decode
import Regeneration.Record.Encode
import Regeneration.Run.Log
import Regeneration.Run.Report
import Regeneration.Segment.Address
import Regeneration.Segment.Basic
import Regeneration.Segment.Children
import Regeneration.Segment.Equality
import Regeneration.Segment.Error
import Regeneration.Segment.Lookup
import Regeneration.Segment.Record
import Regeneration.Segment.Rendering
import Regeneration.Segment.Sample
import Regeneration.Segment.Synchronized
import Regeneration.Session
import Regeneration.Skeleton
import Regeneration.Sorted
import Regeneration.Store
import Regeneration.Toml.Document
import Regeneration.Toml.Scalar
import Regeneration.Toml.Table
import Regeneration.Proofs.Keyed.Arrangement
import Regeneration.Proofs.Merge.Order
import Regeneration.Proofs.Segment.WellFormed
import Regeneration.Proofs.Segment.Live
import Regeneration.Proofs.Merge.Content
import Regeneration.Proofs.Merge.Shape
import Regeneration.Proofs.Merge.Persistence
import Regeneration.Proofs.Merge.Stability
import Regeneration.Proofs.Merge.Lineage
import Regeneration.Proofs.Run.ClosedLoop
import Regeneration.Proofs.Disk.Records
import Regeneration.Proofs.Model.Outputs
import Regeneration.Proofs.Run.Stale
import Regeneration.Proofs.Run.Asking
import Regeneration.Proofs.Run.Schedule
import Regeneration.Proofs.Run.Specification
import Regeneration.Proofs.Path.Records
import Regeneration.Proofs.Run.Independence
import Regeneration.Proofs.Json.Limit
import Regeneration.Proofs.Record.Limit
import Regeneration.Proofs.Record.Agreement
import Regeneration.Proofs.Merge.Emission
import Regeneration.Proofs.Disk.Writing
import Regeneration.Proofs.Merge.Generations
import Regeneration.Proofs.Merge.Membership
import Regeneration.Proofs.Run.Failing
import Regeneration.Proofs.Merge.Counting
import Regeneration.Proofs.Merge.Counters
import Regeneration.Proofs.Segment.Edits
import Regeneration.Proofs.Record.Refusal
import Regeneration.Proofs.Segment.Equality
import Regeneration.Proofs.Model.Equality
import Regeneration.Proofs.Keyed.Index
import Regeneration.Proofs.Segment.Settling
import Regeneration.Proofs.Segment.Children
import Regeneration.Proofs.Run.Answers
import Regeneration.Proofs.Disk.Confinement
import Regeneration.Proofs.Text.Bytes
import Regeneration.Proofs.Manifest.History
import Regeneration.Proofs.Model.Insertion
import Regeneration.Proofs.Command.Preview
import Regeneration.Proofs.Command.Rendering
import Regeneration.Proofs.Segment.Address
