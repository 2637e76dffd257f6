import InlineCache.Call.Kind
import InlineCache.Cell
import InlineCache.Code.Pointer
import InlineCache.Code.Table
import InlineCache.Config.Basic
import InlineCache.Config.Document
import InlineCache.Config.Environment
import InlineCache.Entity
import InlineCache.Error
import InlineCache.Event
import InlineCache.Frame
import InlineCache.Heap.Basic
import InlineCache.Heap.Collection
import InlineCache.Heap.Marking
import InlineCache.Heap.Node
import InlineCache.Json
import InlineCache.Link.Basic
import InlineCache.Link.Edit
import InlineCache.Link.Retarget
import InlineCache.Link.WeakVisit
import InlineCache.Linker
import InlineCache.Machine.Basic
import InlineCache.Machine.Call
import InlineCache.Machine.Code
import InlineCache.Machine.Collection
import InlineCache.Proofs.Accounting
import InlineCache.Proofs.Balance
import InlineCache.Proofs.Blocks
import InlineCache.Proofs.Callable
import InlineCache.Proofs.Code.Evolution
import InlineCache.Proofs.Code.Incoming
import InlineCache.Proofs.Code.Layout
import InlineCache.Proofs.Code.Outline
import InlineCache.Proofs.Code.Provenance
import InlineCache.Proofs.Code.Table
import InlineCache.Proofs.Code.VisitOrder
import InlineCache.Proofs.Collecting
import InlineCache.Proofs.Config.Document
import InlineCache.Proofs.Config.Sources
import InlineCache.Proofs.Consistency
import InlineCache.Proofs.Crowding
import InlineCache.Proofs.Currency
import InlineCache.Proofs.Entries
import InlineCache.Proofs.Execution
import InlineCache.Proofs.Frames
import InlineCache.Proofs.Freshness
import InlineCache.Proofs.Growth
import InlineCache.Proofs.Heap.Color
import InlineCache.Proofs.Heap.Discipline
import InlineCache.Proofs.Heap.Exactness
import InlineCache.Proofs.Heap.Handles
import InlineCache.Proofs.Heap.Inventory
import InlineCache.Proofs.Heap.Marking
import InlineCache.Proofs.Heap.Pace
import InlineCache.Proofs.Heap.Progress
import InlineCache.Proofs.Heap.Tidy
import InlineCache.Proofs.Heap.Tricolor
import InlineCache.Proofs.Heap.View
import InlineCache.Proofs.Incoming
import InlineCache.Proofs.Json.Spelling
import InlineCache.Proofs.Json.Tokens
import InlineCache.Proofs.Landing
import InlineCache.Proofs.Learning
import InlineCache.Proofs.Link.Actions
import InlineCache.Proofs.Link.Linking
import InlineCache.Proofs.Link.Retargeting
import InlineCache.Proofs.Link.Routes
import InlineCache.Proofs.Link.Setters
import InlineCache.Proofs.Link.Shape
import InlineCache.Proofs.Machine.Books
import InlineCache.Proofs.Machine.Calls
import InlineCache.Proofs.Machine.Change
import InlineCache.Proofs.Machine.Counters
import InlineCache.Proofs.Machine.Exec
import InlineCache.Proofs.Machine.Heap
import InlineCache.Proofs.Machine.Oblivious
import InlineCache.Proofs.Machine.Operations
import InlineCache.Proofs.Machine.Outline
import InlineCache.Proofs.Machine.Steady
import InlineCache.Proofs.Ownership
import InlineCache.Proofs.Placement
import InlineCache.Proofs.Provenance
import InlineCache.Proofs.Realms
import InlineCache.Proofs.Rejection
import InlineCache.Proofs.Replacement
import InlineCache.Proofs.Retention
import InlineCache.Proofs.Running
import InlineCache.Proofs.Script.Preparing
import InlineCache.Proofs.Script.Reach
import InlineCache.Proofs.Script.Ways
import InlineCache.Proofs.SiteMode
import InlineCache.Proofs.Soundness
import InlineCache.Proofs.Stages
import InlineCache.Proofs.Stub
import InlineCache.Proofs.Transparency
import InlineCache.Proofs.WeakPass
import InlineCache.Proofs.WeakVisit
import InlineCache.Script.Command
import InlineCache.Script.Eval
import InlineCache.Script.Program
import InlineCache.Script.Run
import InlineCache.Script.Session
import InlineCache.Site.Basic
import InlineCache.Stats
import InlineCache.Stub
import InlineCache.Text
import InlineCache.WeakRef
