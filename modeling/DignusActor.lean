import DignusActor.Machine.Transition
import DignusActor.Machine.BoundedFifo
import DignusActor.Queues.MpscBoundedQueue
import DignusActor.Queues.MpscInvariant
import DignusActor.Queues.MpscCalls
import DignusActor.Queues.MpscRefinement
import DignusActor.Runner.ActorRunner
import DignusActor.Runner.Moves
import DignusActor.Runner.Exclusion
import DignusActor.Runner.Scheduled
import DignusActor.Runner.Kill
import DignusActor.Runner.Delivery
import DignusActor.Stream.Cutter
import DignusActor.Network.SessionActorHost
import DignusActor.Network.Framing
import DignusActor.Network.Chunking
import DignusActor.Ask.AskSystem
import DignusActor.Ask.Moves
import DignusActor.Ask.Sweep
import DignusActor.Registry.ActorRegistry
import DignusActor.Registry.Moves
import DignusActor.Registry.Slots
import DignusActor.Registry.Threads
import DignusActor.Registry.Handles
import DignusActor.Registry.Live
import DignusActor.Runner.Finalize
import DignusActor.System.ActorSystem
import DignusActor.System.Moves
import DignusActor.System.Linked
import DignusActor.System.Released
import DignusActor.System.Shutdown
import DignusActor.System.Disposal
import DignusActor.System.Poison
import DignusActor.System.Aliases
import DignusActor.System.FailedSpawn
import DignusActor.System.Requests
import DignusActor.Ask.Stop
import DignusActor.Network.Reactor
import DignusActor.Network.ReactorMoves
import DignusActor.Network.SessionLedger
import DignusActor.Network.Callbacks
import DignusActor.Network.RoundTrip
import DignusActor.Network.Outbound
import DignusActor.Registry.Allocation
import DignusActor.Registry.Exact
import DignusActor.Runner.Pending
import DignusActor.Runner.KillSemantics
import DignusActor.Ask.History
import DignusActor.Ask.Resolve
import DignusActor.Network.ReactorOutput
import DignusActor.Network.SendClose
import DignusActor.Network.Triggers
import DignusActor.Network.HostRun
import DignusActor.Dispatcher.ActorDispatcher
import DignusActor.Dispatcher.Scheduling
import DignusActor.Runner.ActorAwait
import DignusActor.Runner.Awaited
import DignusActor.Dispatcher.ActorYieldTask
import DignusActor.Dispatcher.Moves
import DignusActor.Dispatcher.Enqueuers
import DignusActor.Dispatcher.YieldTasks
import DignusActor.Dispatcher.Continuations
import DignusActor.Machine.StoreBuffer
import DignusActor.Delayed.Mailbox
import DignusActor.Delayed.Stores
import DignusActor.Delayed.Slots
import DignusActor.Delayed.HandOff
import DignusActor.Queues.MpscProgress
import DignusActor.Runner.Failure
import DignusActor.Runner.Returning
import DignusActor.Registry.Mutexes
import DignusActor.System.Vacated
import DignusActor.System.Callers
import DignusActor.System.Panics
import DignusActor.System.Waiting
import DignusActor.System.Rejections
import DignusActor.System.Returning
import DignusActor.System.Dispatching
import DignusActor.System.Batches
import DignusActor.System.Loops
import DignusActor.System.Containment
import DignusActor.Machine.Atomic
import DignusActor.Registry.HandleTable
import DignusActor.Registry.Linearizable
import DignusActor.Machine.Counter
import DignusActor.Queues.WrappingQueue
import DignusActor.Queues.WrappingRefinement
import DignusActor.Stream.Codec
import DignusActor.Network.Link
import DignusActor.Network.Requests
import DignusActor.Network.Placement
import DignusActor.Machine.Rank
import DignusActor.Dispatcher.Disposal
import DignusActor.Runner.PollDriver
import DignusActor.System.Draining
import DignusActor.Queues.MpscNonblocking
import DignusActor.Dispatcher.Signal
import DignusActor.Registry.Snapshot
import DignusActor.Runner.Backlog
