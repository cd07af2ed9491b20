import ConcurrentQueues.Reasoning.Threads
import ConcurrentQueues.Reasoning.Chain
import ConcurrentQueues.Reasoning.Release
import ConcurrentQueues.Reasoning.AtomicQueue
import ConcurrentQueues.Reasoning.Words
import ConcurrentQueues.Reasoning.Strings
import ConcurrentQueues.Reasoning.Regex
import ConcurrentQueues.Reasoning.Groups
import ConcurrentQueues.Reasoning.Alone
import ConcurrentQueues.Reasoning.Fair
import ConcurrentQueues.Reasoning.Locks
import ConcurrentQueues.Reasoning.Walk
import ConcurrentQueues.Reasoning.Linearizable
import ConcurrentQueues.Store
import ConcurrentQueues.Layout
import ConcurrentQueues.Nodes
import ConcurrentQueues.Accounts
import ConcurrentQueues.Destroy
import ConcurrentQueues.Queue
import ConcurrentQueues.Histories
import ConcurrentQueues.Ex1.Model
import ConcurrentQueues.Ex1.Calls
import ConcurrentQueues.Ex1.Nodes
import ConcurrentQueues.Ex1.Threads
import ConcurrentQueues.Ex1.Fifo
import ConcurrentQueues.Ex2.Model
import ConcurrentQueues.Ex2.Invariant
import ConcurrentQueues.Ex2.Steps
import ConcurrentQueues.Ex2.Refinement
import ConcurrentQueues.Ex2.Locks
import ConcurrentQueues.Ex2.Nodes
import ConcurrentQueues.Ex2.Queue
import ConcurrentQueues.Ex4.Model
import ConcurrentQueues.Ex4.Invariant
import ConcurrentQueues.Ex4.Steps
import ConcurrentQueues.Ex4.Ownership
import ConcurrentQueues.Ex4.Linearizability
import ConcurrentQueues.Ex4.Locks
import ConcurrentQueues.Ex4.Nodes
import ConcurrentQueues.Ex4.Queue
import ConcurrentQueues.Ex4.Obstruction
import ConcurrentQueues.Ex5.Model
import ConcurrentQueues.Ex5.Invariant
import ConcurrentQueues.Ex5.Effects
import ConcurrentQueues.Ex5.Steps
import ConcurrentQueues.Ex5.Runs
import ConcurrentQueues.Ex5.Linearizability
import ConcurrentQueues.Ex5.Aba
import ConcurrentQueues.Ex5.Progress
import ConcurrentQueues.Ex5.Ownership
import ConcurrentQueues.Ex5.Reclamation
import ConcurrentQueues.Ex5.Waiting
import ConcurrentQueues.Ex5.Dequeue
import ConcurrentQueues.Ex5.OutOfMemory
import ConcurrentQueues.Ex5.Alone
import ConcurrentQueues.Ex5.Records
import ConcurrentQueues.Ex5.Nodes
import ConcurrentQueues.Ex5.Queue
import ConcurrentQueues.Ex5.Retirement
import ConcurrentQueues.Ex5.GracePeriod
import ConcurrentQueues.Ex5.Stalled
import ConcurrentQueues.Ex5.Obstruction
import ConcurrentQueues.Ex5.Taken
import ConcurrentQueues.Ex5.Rest
import ConcurrentQueues.Rest
import ConcurrentQueues.Versions
import ConcurrentQueues.Overflow
import ConcurrentQueues.Flow
import ConcurrentQueues.Callers
import ConcurrentQueues.Liveness
import ConcurrentQueues.Agreement
import ConcurrentQueues.Linearization
import ConcurrentQueues.Bench.Model
import ConcurrentQueues.Bench.Check
import ConcurrentQueues.Bench.Spec
import ConcurrentQueues.Bench.Client
import ConcurrentQueues.Bench.Counters
import ConcurrentQueues.Bench.Completion
import ConcurrentQueues.Bench.Delivery
import ConcurrentQueues.Bench.Drain
import ConcurrentQueues.Bench.Pattern
import ConcurrentQueues.Bench.Grammar
import ConcurrentQueues.Bench.Parser
import ConcurrentQueues.Bench.Language
import ConcurrentQueues.Bench.Balanced
import ConcurrentQueues.Bench.Sampling
import ConcurrentQueues.Bench.Printing
import ConcurrentQueues.Bench.Faults
import ConcurrentQueues.Bench.Scripts
import ConcurrentQueues.Bench.Main
import ConcurrentQueues.Bench.Runs
import ConcurrentQueues.Plot.Filename
import ConcurrentQueues.Plot.Results
import ConcurrentQueues.Plot.Metrics
import ConcurrentQueues.Plot.Report
import ConcurrentQueues.Plot.Campaign
import ConcurrentQueues.Plot.Speedup
import ConcurrentQueues.Allocation
import ConcurrentQueues.Bench.Variants
import ConcurrentQueues.Lifetime
import ConcurrentQueues.Tests.DisjointIntervals
import ConcurrentQueues.Tests.Completion
import ConcurrentQueues.Tests.AbaProblem
import ConcurrentQueues.Tests.AbaCompletion
import ConcurrentQueues.Library
