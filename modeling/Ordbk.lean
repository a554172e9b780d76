import Ordbk.Lib.Cutter
import Ordbk.Lib.Dll
import Ordbk.Lib.OrdMap
import Ordbk.Lib.Priority
import Ordbk.Lib.Reach
import Ordbk.Lib.Trace
import Ordbk.Core.Types
import Ordbk.Orderbook.PriceLevel
import Ordbk.Utils.Pool
import Ordbk.Orderbook.Book
import Ordbk.Matching.Matcher
import Ordbk.Abstract.Sweep
import Ordbk.Abstract.QueueBook
import Ordbk.Abstract.Rested
import Ordbk.Abstract.Conserve
import Ordbk.Abstract.Fate
import Ordbk.Abstract.Indexed
import Ordbk.Abstract.Reference
import Ordbk.Refinement.Levels
import Ordbk.Refinement.Book
import Ordbk.Refinement.Matcher
import Ordbk.Refinement.Drain
import Ordbk.Refinement.Custody
import Ordbk.Matching.Desk
import Ordbk.Refinement.Desk
import Ordbk.Theorems.BookShape
import Ordbk.Theorems.FillOrKill
import Ordbk.Theorems.Conservation
import Ordbk.Theorems.Cancelling
import Ordbk.Theorems.PriceTime
import Ordbk.Matching.Engine
import Ordbk.Protocol.Codec
import Ordbk.Protocol.Session
import Ordbk.Protocol.Stream
import Ordbk.Protocol.RoundTrip
import Ordbk.Theorems.Conversation
import Ordbk.Gateway.Dispatcher
import Ordbk.Gateway.Link
import Ordbk.Refinement.Link
import Ordbk.Theorems.Segmentation
import Ordbk.Refinement.Phases
import Ordbk.Theorems.LoggedOn
import Ordbk.Refinement.Engine
import Ordbk.Refinement.Gateway
import Ordbk.Theorems.SlotSafety
import Ordbk.Matching.Floor
import Ordbk.Refinement.Floor
import Ordbk.Theorems.Expiry
import Ordbk.Refinement.Admission
import Ordbk.Theorems.WellFormed
import Ordbk.Theorems.Replies
import Ordbk.Theorems.IndexAgreement
import Ordbk.Utils.SpscRingBuffer
import Ordbk.Matching.Sharded
import Ordbk.Abstract.Rename
import Ordbk.Abstract.Play
import Ordbk.Abstract.Mirror
import Ordbk.Abstract.Bystander
import Ordbk.Refinement.View
import Ordbk.Refinement.Recorded
import Ordbk.Theorems.Isolation
import Ordbk.Theorems.Mirroring
import Ordbk.Theorems.Traceless
import Ordbk.Refinement.Sharded
import Ordbk.Refinement.Waiting
import Ordbk.Refinement.Running
import Ordbk.Refinement.Sequential
import Ordbk.Theorems.Sharding
import Ordbk.Theorems.SlotLedger
import Ordbk.Theorems.Ownership
import Ordbk.Gateway.Server
import Ordbk.Refinement.Passes
import Ordbk.Refinement.Threads
import Ordbk.Refinement.Serving
import Ordbk.Refinement.Handling
import Ordbk.Refinement.Settling
import Ordbk.Refinement.Settled
import Ordbk.Refinement.Tracked
import Ordbk.Refinement.Beginning
import Ordbk.Refinement.Following
import Ordbk.Theorems.Serial
import Ordbk.Theorems.Reasons
import Ordbk.Theorems.PostStatus
import Ordbk.Theorems.Documented
import Ordbk.Instruments.Contract
import Ordbk.Instruments.Symbol
import Ordbk.Lib.OneToOne
import Ordbk.Instruments.Chain
import Ordbk.Theorems.Symbols
import Ordbk.Refinement.Chain
import Ordbk.Lib.Prefix
import Ordbk.Theorems.Chains
import Ordbk.Instruments.Registry
import Ordbk.Refinement.Registry
import Ordbk.Theorems.Listing
import Ordbk.Lib.Multimap
import Ordbk.Matching.Sweeper
import Ordbk.Refinement.Sweeper
import Ordbk.Theorems.Pending
import Ordbk.Theorems.Sweeping
import Ordbk.Theorems.Naming
import Ordbk.Theorems.Heap
import Ordbk.Lib.Total
import Ordbk.Theorems.LevelTotals
import Ordbk.Utils.Latency
import Ordbk.Matching.Timed
import Ordbk.Theorems.Latency
import Ordbk.Utils.SpscThreads
import Ordbk.Refinement.SpscThreads
import Ordbk.Theorems.Fifo
import Ordbk.Lib.Linear
import Ordbk.Refinement.BoundedQueue
import Ordbk.Theorems.Linearizable
import Ordbk.Matching.ShardedThreads
import Ordbk.Refinement.ShardedThreads
import Ordbk.Theorems.Rings
import Ordbk.Abstract.Interest
import Ordbk.Theorems.Futures
import Ordbk.Abstract.Restore
import Ordbk.Theorems.Restoring
import Ordbk.Gateway.Net
import Ordbk.Refinement.Net
import Ordbk.Theorems.EndToEnd
import Ordbk.Lib.Fair
import Ordbk.Theorems.Delivery
import Ordbk.Lib.Greedy
import Ordbk.Theorems.BestExecution
import Ordbk.Theorems.Immediate
import Ordbk.Theorems.Splitting
import Ordbk.Theorems.LockedPool
import Ordbk.Theorems.Recording
import Ordbk.Theorems.Shutdown
import Ordbk.Theorems.Returning
import Ordbk.Theorems.Opening
