import SandboxWorker.Archive.Header
import SandboxWorker.Archive.Name
import SandboxWorker.Archive.Pack
import SandboxWorker.Archive.Unpack
import SandboxWorker.Config.Lookup
import SandboxWorker.Config.Queue
import SandboxWorker.Config.Sandbox
import SandboxWorker.Config.Worker
import SandboxWorker.Engine.Call
import SandboxWorker.Engine.Model
import SandboxWorker.Engine.Reply
import SandboxWorker.Engine.Sandbox
import SandboxWorker.Engine.Status
import SandboxWorker.Execution.Basic
import SandboxWorker.Execution.Event
import SandboxWorker.Execution.Record
import SandboxWorker.Execution.Verdict
import SandboxWorker.Execution.Wire
import SandboxWorker.Health
import SandboxWorker.Http.Target
import SandboxWorker.Http.Uri
import SandboxWorker.Instant.Basic
import SandboxWorker.Instant.Calendar
import SandboxWorker.Instant.Reading
import SandboxWorker.Instant.Writing
import SandboxWorker.Journal
import SandboxWorker.Json.Basic
import SandboxWorker.Json.Error
import SandboxWorker.Json.Fields
import SandboxWorker.Json.Scan
import SandboxWorker.Json.Shape
import SandboxWorker.Json.Tagged
import SandboxWorker.Json.Value
import SandboxWorker.Json.Wire
import SandboxWorker.Logs.Batch
import SandboxWorker.Logs.Frame
import SandboxWorker.Queue.Address
import SandboxWorker.Queue.Broker
import SandboxWorker.Queue.Claims
import SandboxWorker.Queue.Commands
import SandboxWorker.Queue.Consumer
import SandboxWorker.Queue.Exchange
import SandboxWorker.Queue.Keys
import SandboxWorker.Queue.Server
import SandboxWorker.Storage.Desk
import SandboxWorker.Storage.Store
import SandboxWorker.Storage.Tree
import SandboxWorker.Text.Blank
import SandboxWorker.Text.Decimal
import SandboxWorker.Text.Hex
import SandboxWorker.Text.Path
import SandboxWorker.Text.Percent
import SandboxWorker.Text.Split
import SandboxWorker.Text.Utf8
import SandboxWorker.Url.Basic
import SandboxWorker.Url.Ipv6
import SandboxWorker.Uuid
import SandboxWorker.Worker.Artifacts
import SandboxWorker.Worker.Call
import SandboxWorker.Worker.Container
import SandboxWorker.Worker.Program
import SandboxWorker.Worker.Rehearsal
import SandboxWorker.Worker.Request
import SandboxWorker.Proofs.Success
import SandboxWorker.Proofs.Program.Runs
import SandboxWorker.Proofs.Worker.Work
import SandboxWorker.Proofs.Execution.Replay
import SandboxWorker.Proofs.Worker.Dialogue
import SandboxWorker.Proofs.Worker.Chores
import SandboxWorker.Proofs.Worker.Reporting
import SandboxWorker.Proofs.Worker.Deadline
import SandboxWorker.Proofs.Worker.Settlement
import SandboxWorker.Proofs.Queue.Conservation
import SandboxWorker.Proofs.Text.Paths
import SandboxWorker.Proofs.Storage.Tree
import SandboxWorker.Proofs.Storage.Objects
import SandboxWorker.Proofs.Storage.Confinement
import SandboxWorker.Proofs.Storage.Growth
import SandboxWorker.Proofs.Storage.Holdings
import SandboxWorker.Proofs.Storage.Neighbours
import SandboxWorker.Proofs.Storage.LogKeys
import SandboxWorker.Proofs.Worker.Stored
import SandboxWorker.Proofs.Worker.Belongings
import SandboxWorker.Proofs.Worker.Isolation
import SandboxWorker.Proofs.Worker.Appending
import SandboxWorker.Proofs.Worker.Following
import SandboxWorker.Proofs.Worker.Logs
import SandboxWorker.Proofs.Worker.Rehearsal
import SandboxWorker.Proofs.Execution.Lifecycle
import SandboxWorker.Proofs.Worker.Histories
import SandboxWorker.Proofs.Worker.Protocol
import SandboxWorker.Proofs.Text.Utf8
import SandboxWorker.Proofs.Archive.Headers
import SandboxWorker.Proofs.Archive.Names
import SandboxWorker.Proofs.Archive.Packing
import SandboxWorker.Proofs.Text.Decimal
import SandboxWorker.Proofs.Text.Hex
import SandboxWorker.Proofs.Instant.Civil
import SandboxWorker.Proofs.Instant.Reading
import SandboxWorker.Proofs.Logs.Frames
import SandboxWorker.Proofs.Logs.Batches
import SandboxWorker.Proofs.Json.Strings
import SandboxWorker.Proofs.Json.Numbers
import SandboxWorker.Proofs.Json.Values
import SandboxWorker.Proofs.Json.Wires
import SandboxWorker.Proofs.Json.Tags
import SandboxWorker.Proofs.Execution.Events
import SandboxWorker.Proofs.Queue.Turns
import SandboxWorker.Proofs.Queue.Window
import SandboxWorker.Proofs.Logs.Polls
import SandboxWorker.Proofs.Text.Pieces
import SandboxWorker.Proofs.Worker.Portions
import SandboxWorker.Proofs.Worker.Breakdowns
import SandboxWorker.Proofs.Worker.Verdicts
import SandboxWorker.Proofs.Execution.Transitions
import SandboxWorker.Proofs.Execution.Deliveries
import SandboxWorker.Proofs.Json.Direct
import SandboxWorker.Proofs.Execution.Records
import SandboxWorker.Proofs.Instant.Strict
import SandboxWorker.Proofs.Logs.Reads
import SandboxWorker.Proofs.Logs.Acceptance
import SandboxWorker.Proofs.Queue.Order
import SandboxWorker.Proofs.Queue.Passage
import SandboxWorker.Proofs.Queue.Draining
import SandboxWorker.Proofs.Queue.Closing
import SandboxWorker.Proofs.Queue.Serving
import SandboxWorker.Proofs.Queue.Outstanding
import SandboxWorker.Proofs.Queue.Failures
import SandboxWorker.Proofs.Queue.Ledger
import SandboxWorker.Proofs.Queue.Settling
import SandboxWorker.Proofs.Queue.Closed
import SandboxWorker.Proofs.Worker.Ties
import SandboxWorker.Proofs.Json.Grammar
import SandboxWorker.Proofs.Json.Escapes
import SandboxWorker.Proofs.Json.Numerals
import SandboxWorker.Proofs.Json.Spacing
import SandboxWorker.Proofs.Json.Trees
import SandboxWorker.Proofs.Json.Agreement
import SandboxWorker.Proofs.Json.RecordAgreement
import SandboxWorker.Proofs.Json.Layouts
import SandboxWorker.Proofs.Json.Tolerance
import SandboxWorker.Proofs.Json.TagAgreement
import SandboxWorker.Proofs.Json.Spellings
import SandboxWorker.Proofs.Json.Writing
import SandboxWorker.Proofs.Execution.Spellings
import SandboxWorker.Proofs.Text.FileNames
import SandboxWorker.Proofs.Queue.Separation
import SandboxWorker.Proofs.Worker.Sources
import SandboxWorker.Proofs.Engine.CreateBody
import SandboxWorker.Proofs.Engine.Since
import SandboxWorker.Proofs.Text.Numerals
import SandboxWorker.Proofs.Config.Settings
