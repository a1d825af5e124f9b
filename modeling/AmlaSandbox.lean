import AmlaSandbox.Library.Computations
import AmlaSandbox.Library.Chains
import AmlaSandbox.Json.Value
import AmlaSandbox.Constraints.Basic
import AmlaSandbox.Constraints.Subsumption
import AmlaSandbox.Constraints.Attenuation
import AmlaSandbox.Protocol.Types
import AmlaSandbox.Protocol.Pca
import AmlaSandbox.Protocol.Attenuation
import AmlaSandbox.Protocol.Chain
import AmlaSandbox.Protocol.Authority
import AmlaSandbox.Protocol.Cta
import AmlaSandbox.Protocol.Replay
import AmlaSandbox.Library.Reachability
import AmlaSandbox.Library.GenTable
import AmlaSandbox.Scheduler.Basic
import AmlaSandbox.Scheduler.Table
import AmlaSandbox.Scheduler.Cancel
import AmlaSandbox.Scheduler.Ending
import AmlaSandbox.Scheduler.Insertion
import AmlaSandbox.Scheduler.Valid
import AmlaSandbox.Scheduler.Machine
import AmlaSandbox.Scheduler.Effect
import AmlaSandbox.Scheduler.Invariant
import AmlaSandbox.Scheduler.Structured
import AmlaSandbox.Scheduler.Done
import AmlaSandbox.Scheduler.Identity
import AmlaSandbox.Scheduler.Reentry
import AmlaSandbox.Scheduler.Fairness
import AmlaSandbox.Async.Basic
import AmlaSandbox.Library.Ring
import AmlaSandbox.Library.Queues
import AmlaSandbox.Pipe.Basic
import AmlaSandbox.Pipe.Fifo
import AmlaSandbox.Pipe.Machine
import AmlaSandbox.Pipe.Wakeup
import AmlaSandbox.Pipe.Eof
import AmlaSandbox.Library.Lines
import AmlaSandbox.Audit.Buffer
import AmlaSandbox.Audit.Contents
import AmlaSandbox.Audit.Machine
import AmlaSandbox.Audit.Lines
import AmlaSandbox.Host.Channel
import AmlaSandbox.Host.Table
import AmlaSandbox.Host.Machine
import AmlaSandbox.Host.Operation
import AmlaSandbox.Host.Exhaustion
import AmlaSandbox.Host.Isolation
import AmlaSandbox.Host.Completion
import AmlaSandbox.Host.Handover
import AmlaSandbox.Host.Waiters
import AmlaSandbox.Host.Reply
import AmlaSandbox.Timer.Basic
import AmlaSandbox.Timer.Consistent
import AmlaSandbox.Timer.Firing
import AmlaSandbox.Timer.Process
import AmlaSandbox.Timer.WakeAt
import AmlaSandbox.Timer.Sleep
import AmlaSandbox.Text.Basic
import AmlaSandbox.Vfs.Path
import AmlaSandbox.Vfs.Basic
import AmlaSandbox.Library.ParentTree
import AmlaSandbox.Vfs.Edit
import AmlaSandbox.Vfs.Permissions
import AmlaSandbox.Vfs.Tree
import AmlaSandbox.Library.Blocks
import AmlaSandbox.Vfs.PageCache
import AmlaSandbox.Vfs.FileHandle
import AmlaSandbox.Vfs.Refinement
import AmlaSandbox.Vfs.AsyncVfs
import AmlaSandbox.Vfs.FullCache
import AmlaSandbox.Vfs.WriteBack
import AmlaSandbox.Vfs.Shared
import AmlaSandbox.Vfs.Persist
import AmlaSandbox.Vfs.Covers
import AmlaSandbox.Vfs.AppendOnly
import AmlaSandbox.Shell.Lexer
import AmlaSandbox.Shell.Boundary
import AmlaSandbox.Shell.Scan
import AmlaSandbox.Shell.Parser
import AmlaSandbox.Shell.Grammar
import AmlaSandbox.Shell.Soundness
import AmlaSandbox.Shell.Completeness
import AmlaSandbox.Shell.Execute
import AmlaSandbox.Shell.ListSemantics
import AmlaSandbox.Library.JsText
import AmlaSandbox.Stubs.Generate
import AmlaSandbox.Stubs.Injection
import AmlaSandbox.Constraints.Format
import AmlaSandbox.Protocol.Capabilities
import AmlaSandbox.Protocol.Create
import AmlaSandbox.Runtime.Basic
import AmlaSandbox.Runtime.Registry
import AmlaSandbox.Runtime.Isolation
import AmlaSandbox.Runtime.Output
import AmlaSandbox.Runtime.History
import AmlaSandbox.Runtime.Ledger
import AmlaSandbox.Runtime.Lifecycle
import AmlaSandbox.Vfs.LazyStore
import AmlaSandbox.Vfs.FetchWaiters
import AmlaSandbox.Library.Wildcards
import AmlaSandbox.Protocol.Patterns
import AmlaSandbox.Protocol.Partitions
import AmlaSandbox.Protocol.Methods
import AmlaSandbox.Json.Rounding
import AmlaSandbox.Constraints.Integers
import AmlaSandbox.Stubs.Files
import AmlaSandbox.Vfs.Names
import AmlaSandbox.Stubs.Place
import AmlaSandbox.Stubs.Confinement
import AmlaSandbox.Node.EventLoop
import AmlaSandbox.Node.Order
import AmlaSandbox.Node.Timeouts
import AmlaSandbox.Node.DueOrder
import AmlaSandbox.Js.Ops
import AmlaSandbox.Js.Promises
import AmlaSandbox.Timer.Kinds
import AmlaSandbox.Scheduler.Roots
import AmlaSandbox.Runtime.World
import AmlaSandbox.Runtime.Engine
import AmlaSandbox.Runtime.Steps
import AmlaSandbox.Runtime.Owners
import AmlaSandbox.Runtime.Tracks
import AmlaSandbox.Runtime.Phases
import AmlaSandbox.Runtime.Status
import AmlaSandbox.Vfs.CacheOrder
import AmlaSandbox.Vfs.Coherence
import AmlaSandbox.Vfs.Canonical
import AmlaSandbox.Protocol.Verdicts
import AmlaSandbox.Protocol.Delegation
import AmlaSandbox.Library.SortedMap
import AmlaSandbox.Protocol.Serialization
import AmlaSandbox.Protocol.CanonicalCbor
import AmlaSandbox.Library.Segments
import AmlaSandbox.Protocol.Continuity
import AmlaSandbox.Timer.Slots
import AmlaSandbox.Protocol.Decoding
import AmlaSandbox.Scheduler.RootTask
import AmlaSandbox.Scheduler.Settled
import AmlaSandbox.Shell.Jobs
import AmlaSandbox.Shell.JobRuns
import AmlaSandbox.Shell.JobControl
import AmlaSandbox.Shell.Pipeline
import AmlaSandbox.Shell.Deadlock
import AmlaSandbox.Shell.GlobSearch
import AmlaSandbox.Shell.GlobLanguage
import AmlaSandbox.Vfs.Atomicity
import AmlaSandbox.Vfs.BottomUp
import AmlaSandbox.Vfs.Streams
import AmlaSandbox.Vfs.HostFile
import AmlaSandbox.Vfs.Glob
import AmlaSandbox.Vfs.FileTree
import AmlaSandbox.Vfs.GlobAgreement
import AmlaSandbox.Shell.Interpret
import AmlaSandbox.Shell.Simulation
import AmlaSandbox.Shell.Nesting
import AmlaSandbox.Shell.Isolation
import AmlaSandbox.Shell.Substitution
import AmlaSandbox.Shell.Background
import AmlaSandbox.Shell.PartialJobs
import AmlaSandbox.Shell.Shift
import AmlaSandbox.Shell.Heredoc
import AmlaSandbox.Shell.HeredocScript
import AmlaSandbox.Library.StableSort
import AmlaSandbox.Commands.Sort
import AmlaSandbox.Commands.Tr
import AmlaSandbox.Commands.TestCmd
import AmlaSandbox.Commands.HeadTail
import AmlaSandbox.Stubs.Schema
import AmlaSandbox.Stubs.Routes
import AmlaSandbox.Stubs.Globals
import AmlaSandbox.Shell.Handles
import AmlaSandbox.Shell.HostStream
import AmlaSandbox.Shell.Cut
import AmlaSandbox.Shell.Sh
import AmlaSandbox.Shell.Expand
import AmlaSandbox.Shell.Expansion
import AmlaSandbox.Commands.Grep
import AmlaSandbox.Commands.GrepWindows
import AmlaSandbox.Commands.LineFilters
import AmlaSandbox.Commands.Cut
import AmlaSandbox.Commands.Tool
import AmlaSandbox.Commands.Jq
import AmlaSandbox.Tools.Catalog
import AmlaSandbox.Commands.Xxd
import AmlaSandbox.Shell.Appends
import AmlaSandbox.Commands.Find
import AmlaSandbox.Audit.Preview
import AmlaSandbox.Commands.Date
import AmlaSandbox.Commands.Escapes
import AmlaSandbox.Commands.Sleep
