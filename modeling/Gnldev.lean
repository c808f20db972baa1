import Gnldev.Lib.Prog
import Gnldev.Lib.Protocol
import Gnldev.Lib.Exceptions
import Gnldev.Lib.RelyGuarantee
import Gnldev.Lib.JsString
import Gnldev.Lib.Kv
import Gnldev.Durable.Journal
import Gnldev.Durable.RunLock
import Gnldev.Durable.RunLock.Exclusion
import Gnldev.Durable.OwnedName
import Gnldev.Durable.WorkStore
import Gnldev.Durable.Tool.Record
import Gnldev.Durable.Tool.Execute
import Gnldev.Durable.Tool.Protocol
import Gnldev.Durable.Tool.Conforms
import Gnldev.Durable.Tool.Effects
import Gnldev.Events.Keys
import Gnldev.Events.Bus
import Gnldev.Events.Delivery
import Gnldev.Queue.Worker
import Gnldev.Queue.Cursor
import Gnldev.Queue.Erasure
import Gnldev.Queue.Lease
import Gnldev.Queue.Fencing
import Gnldev.Durable.Tool.Finality
import Gnldev.Durable.Tool.Exclusion
import Gnldev.Durable.Tool.AtMostOnce
import Gnldev.Durable.Tool.Served
import Gnldev.Durable.Tool.Duplicates
import Gnldev.Durable.Tool.Completed
import Gnldev.Events.Erasure
import Gnldev.Durable.Limits.Record
import Gnldev.Durable.Lease
import Gnldev.Durable.Lease.Elected
import Gnldev.Durable.Limits.Counting
import Gnldev.Durable.Limits.Seeding
import Gnldev.Durable.Limits.SubRuns
import Gnldev.Durable.Budget
import Gnldev.Durable.Rollover
import Gnldev.Lib.OrderedMap
import Gnldev.Durable.Fork
import Gnldev.Durable.Compensation
import Gnldev.Durable.Condemned
import Gnldev.Workflow.SideEffect
import Gnldev.Workflow.SideEffect.Certified
import Gnldev.Workflow.SideEffect.Protected
import Gnldev.Workflow.Fork
import Gnldev.Workflow.Cancel
import Gnldev.Workflow.Cancel.Looks
import Gnldev.Scheduler.Cron
import Gnldev.Scheduler.Grammar
import Gnldev.Scheduler.Poll
import Gnldev.Scheduler.Commits
import Gnldev.Scheduler.Monotone
import Gnldev.Scheduler.Move
import Gnldev.Scheduler.Grid
import Gnldev.Scheduler.Apart
import Gnldev.Scheduler.Waker
import Gnldev.Durable.Messages
import Gnldev.Durable.MemoryJournal
import Gnldev.Durable.Org.View
import Gnldev.Durable.Org.Private
import Gnldev.Durable.Org.Ports
import Gnldev.Lib.Sorting
import Gnldev.Lib.Trail
import Gnldev.Lib.Paired
import Gnldev.Durable.Org.Influence
import Gnldev.Durable.RunIndex
import Gnldev.Durable.RunIndex.Exact
import Gnldev.Durable.Org.Paging
import Gnldev.Agui.Agree
import Gnldev.Durable.JournalKey
import Gnldev.Durable.JournalKey.Distinct
import Gnldev.Durable.Model.Exclusive
import Gnldev.Durable.Model.Recorder
import Gnldev.Durable.Network
import Gnldev.Durable.Network.Records
import Gnldev.Durable.Network.Replays
import Gnldev.Durable.Network.Router
import Gnldev.Durable.Format
import Gnldev.Durable.Format.ReadsBack
import Gnldev.Durable.Outcome.Canceled
import Gnldev.Durable.Retention
import Gnldev.Durable.Retention.Delete
import Gnldev.Durable.Retention.Log
import Gnldev.Durable.Retention.Thread
import Gnldev.Durable.RunIdentity
import Gnldev.Durable.RunIdentity.OneOwner
import Gnldev.Durable.ThreadOwner.OneUser
import Gnldev.Durable.Vectors
import Gnldev.Durable.Vectors.Agree
import Gnldev.Durable.Vectors.Mirror
import Gnldev.Durable.Vectors.Stores
import Gnldev.Durable.Semantic
import Gnldev.Durable.Semantic.Candidates
import Gnldev.Durable.Semantic.Judge
import Gnldev.Durable.Semantic.Judged
import Gnldev.Durable.Semantic.Ladder
import Gnldev.Durable.Semantic.Rules
import Gnldev.Durable.ModelFallback
import Gnldev.Durable.Suggestions
import Gnldev.Durable.Suggestions.Evidence
import Gnldev.Durable.Suggestions.Injected
import Gnldev.Durable.Turn
import Gnldev.Durable.Turn.Echo
import Gnldev.Durable.Turn.Span
import Gnldev.Durable.Turn.Survives
import Gnldev.Memory.Window
import Gnldev.Memory.Recall
import Gnldev.Memory.Prompt
import Gnldev.Lib.MergePatch
import Gnldev.Memory.DeepMerge
import Gnldev.Memory.WorkingMemory
import Gnldev.Durable.Messages.InMemory
import Gnldev.Processors.TokenLimiter
import Gnldev.Lib.Sql
import Gnldev.Durable.RunLock.Released
import Gnldev.Lib.Pieces
import Gnldev.Rag.Chunk
import Gnldev.Rag.Chunk.Cut
import Gnldev.Rag.Chunk.Kept
import Gnldev.Agui.Framing
import Gnldev.Agui.Framed
import Gnldev.Lib.Blocks
import Gnldev.Durable.TimeTravel
import Gnldev.Durable.TimeTravel.Rebuilt
import Gnldev.Lib.Results
import Gnldev.ChatAdapter.Messages
import Gnldev.ChatAdapter.Shown
import Gnldev.Lib.FirstDiff
import Gnldev.Durable.Regression
import Gnldev.Durable.Regression.Sees
import Gnldev.Durable.RetryLadder.Honoured
import Gnldev.Durable.OwnedName.ReadBack
import Gnldev.Events.Markers
import Gnldev.Lib.Utf8
import Gnldev.Durable.Org.PrefixRange
import Gnldev.Lib.Double
import Gnldev.Durable.RunId.Spelled
import Gnldev.Evals.Compare
import Gnldev.Client.Sse
import Gnldev.Durable.Tool.Looks
