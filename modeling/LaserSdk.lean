import LaserSdk.Lib.Runs
import LaserSdk.Filters.Read
import LaserSdk.Filters.Progress
import LaserSdk.Filters.Acknowledge
import LaserSdk.Filters.Stores
import LaserSdk.Lib.Text
import LaserSdk.Authz.Grants
import LaserSdk.Lib.Checks
import LaserSdk.Intents.Decide
import LaserSdk.Intents.Outcome
import LaserSdk.Intents.Stability
import LaserSdk.Intents.Repeats
import LaserSdk.Session.Fold
import LaserSdk.Filter.Path
import LaserSdk.Filter.Coerce
import LaserSdk.Filter.Expr
import LaserSdk.Filter.Compare
import LaserSdk.Filter.Eval
import LaserSdk.Filter.Prune
import LaserSdk.Filter.LastIndex
import LaserSdk.Filter.HeadersDecide
import LaserSdk.Lib.Kahn
import LaserSdk.Lib.Trace
import LaserSdk.Lib.Bytes
import LaserSdk.Sign.Envelope
import LaserSdk.Sign.Registry
import LaserSdk.Schema.Types
import LaserSdk.Schema.Validate
import LaserSdk.Schema.Typescript
import LaserSdk.Workflow.Order
import LaserSdk.Workflow.Engine
import LaserSdk.Workflow.Deliver
import LaserSdk.Workflow.Saga
import LaserSdk.Workflow.Resume
import LaserSdk.Agent.Worker
import LaserSdk.Agent.Pause
import LaserSdk.Agent.Marks
import LaserSdk.Agent.Held
import LaserSdk.Workflow.Replay
import LaserSdk.Lanes.Drive
import LaserSdk.Lanes.Links
import LaserSdk.Lanes.Order
import LaserSdk.Govern.Evidence
import LaserSdk.Filter.Explain
import LaserSdk.Filter.Reorder
import LaserSdk.Session.Retained
import LaserSdk.Agent.Parked
import LaserSdk.Agent.Warm
import LaserSdk.Lib.Firsts
import LaserSdk.Lib.Sorted
import LaserSdk.Publish.Batching
import LaserSdk.Publish.Conserve
import LaserSdk.Govern.Quorum
import LaserSdk.Control.Cancel
import LaserSdk.Control.Book
import LaserSdk.Patch.Json
import LaserSdk.Patch.Pointer
import LaserSdk.Patch.Rfc
import LaserSdk.Patch.Agree
import LaserSdk.Patch.Clients
import LaserSdk.Context.Replay
import LaserSdk.Context.Capture
import LaserSdk.Context.Resume
import LaserSdk.Memory.Fold
import LaserSdk.Memory.Handle
import LaserSdk.Memory.Sound
import LaserSdk.Memory.ReadYourWrites
import LaserSdk.Agent.Fences
import LaserSdk.Workflow.Dependencies
import LaserSdk.Workflow.EveryStep
import LaserSdk.Workflow.Spend
import LaserSdk.Filter.Depth
import LaserSdk.Filter.Cbor
import LaserSdk.Filter.Avro
import LaserSdk.Filter.AvroPaths
import LaserSdk.Session.Replace
import LaserSdk.Context.Gaps
import LaserSdk.Lib.Switches
import LaserSdk.Poll.Cursor
import LaserSdk.Registry.Quarantine
import LaserSdk.Agent.Assembler
import LaserSdk.Filter.PathText
import LaserSdk.Govern.Swarm
import LaserSdk.Filter.Decimal
import LaserSdk.Filter.Compiles
import LaserSdk.Filter.Visits
import LaserSdk.Filter.HeaderNeed
import LaserSdk.Filter.Glob
import LaserSdk.Filter.TextCase
import LaserSdk.Filter.Timestamp
import LaserSdk.Filter.TimestampRun
import LaserSdk.Ids.Crockford
import LaserSdk.Checkpoint.Lease
import LaserSdk.Memory.ContentId
import LaserSdk.Poll.Watch
import LaserSdk.Memory.Orders
import LaserSdk.Filters.Slots
import LaserSdk.Filters.Owned
import LaserSdk.Govern.Heads
import LaserSdk.Agent.Replies
import LaserSdk.Session.Concurrent
import LaserSdk.Filter.ExactDouble
import LaserSdk.Lib.Utf16
import LaserSdk.Typescript.Glob
import LaserSdk.Memory.Consolidate
import LaserSdk.Graph.Relink
import LaserSdk.Schema.Values
import LaserSdk.Schema.Canonical
import LaserSdk.Schema.Inhabited
import LaserSdk.Typescript.Decimal
import LaserSdk.Typescript.Timestamp
import LaserSdk.Sign.Card
import LaserSdk.Sign.Canonical
import LaserSdk.Typescript.Path
import LaserSdk.Typescript.Number
import LaserSdk.Typescript.Eval
import LaserSdk.Typescript.Agree
import LaserSdk.Typescript.Select
import LaserSdk.Lib.Fragment
import LaserSdk.Typescript.Regex.Syntax
import LaserSdk.Typescript.Regex.Compile
import LaserSdk.Typescript.Regex.Search
import LaserSdk.Typescript.Regex.Classes
