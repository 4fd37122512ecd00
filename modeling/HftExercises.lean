import HftExercises.Core.ListFacts
import HftExercises.Core.OrdMap
import HftExercises.Core.HashTable
import HftExercises.Core.Execution
import HftExercises.Domain.MatchingEngine
import HftExercises.Domain.PriceTimeBook
import HftExercises.Domain.MatchingEngineRefinement
import HftExercises.Domain.MatchingEngineRuns
import HftExercises.Domain.MatchingEngineIndex
import HftExercises.Domain.MatchingEngineConservation
import HftExercises.Domain.OrderGateway
import HftExercises.Domain.OrderGatewayRuns
import HftExercises.Domain.OrderGatewayThreads
import HftExercises.Core.MachineWord
import HftExercises.Domain.RiskGate
import HftExercises.Domain.RiskGateRuns
import HftExercises.Domain.RiskGateThreads
import HftExercises.Domain.OrderBook
import HftExercises.Domain.OrderBookLinks
import HftExercises.Domain.OrderBookSweep
import HftExercises.Domain.OrderBookRuns
import HftExercises.Logic.SequencedStream
import HftExercises.Core.Threads
import HftExercises.Domain.OrderStateMachine
import HftExercises.Domain.L2OrderBook
import HftExercises.Concurrency.SpscRingBuffer
import HftExercises.Domain.OhlcvAggregator
import HftExercises.Concurrency.MpmcQueue
import HftExercises.Concurrency.MpmcQueueTickets
import HftExercises.Concurrency.ObjectPool
import HftExercises.Concurrency.MpmcQueueThreads
import HftExercises.Concurrency.MpmcQueueRuns
import HftExercises.Logic.TimerWheel
import HftExercises.Logic.TimerWheelRuns
import HftExercises.Core.Consume
import HftExercises.Domain.MatchingEngineFill
import HftExercises.Domain.OrderBookFill
import HftExercises.Domain.BookEngineAgreement
import HftExercises.Concurrency.RwSpinLock
import HftExercises.Concurrency.RwSpinLockProgress
import HftExercises.Concurrency.SpinBarrier
import HftExercises.Concurrency.Semaphore
import HftExercises.Concurrency.McsLock
import HftExercises.Concurrency.McsLockQueue
import HftExercises.Concurrency.McsLockRuns
import HftExercises.Concurrency.ThreadPool
import HftExercises.Concurrency.ThreadPoolRuns
import HftExercises.Concurrency.SerialExecutor
import HftExercises.Concurrency.SerialExecutorInvariant
import HftExercises.Concurrency.SerialExecutorRuns
import HftExercises.Concurrency.LockFreeStack
import HftExercises.Core.Stock
import HftExercises.Concurrency.LockFreeStackInvariant
import HftExercises.Concurrency.LockFreeStackHistory
import HftExercises.Concurrency.LockFreeStackRuns
import HftExercises.Core.Retries
import HftExercises.Concurrency.LockFreeStackProgress
import HftExercises.Containers.VarintCodec
import HftExercises.Containers.FrameCodec
import HftExercises.Containers.HashMap
import HftExercises.Containers.HashMapInvariant
import HftExercises.Containers.HashMapRuns
import HftExercises.Memory.SharedPtr
import HftExercises.Memory.SharedPtrRuns
import HftExercises.Core.Worklist
import HftExercises.Memory.RcHeap
import HftExercises.Memory.RcHeapCollect
import HftExercises.Core.CountingCascade
import HftExercises.Memory.RcHeapCascade
import HftExercises.Memory.RcHeapDrop
import HftExercises.Memory.RcHeapHandles
import HftExercises.Memory.RcHeapRuns
import HftExercises.Core.UndoLog
import HftExercises.Patterns.CommandOrderEntry
import HftExercises.Patterns.ChainRisk
import HftExercises.Patterns.MaxNotional
import HftExercises.Core.StringVector
import HftExercises.Concurrency.SymbolTable
import HftExercises.Concurrency.SymbolTableRuns
import HftExercises.Core.GuardRegistry
import HftExercises.Memory.GcHeap
import HftExercises.Memory.GcHeapRuns
import HftExercises.Memory.ArenaAllocator
import HftExercises.Memory.ArenaGcHeap
import HftExercises.Memory.ArenaGcHeapRuns
import HftExercises.Memory.HandleReuse
import HftExercises.Patterns.MarketDataFeed
import HftExercises.Patterns.MarketDataFeedCalls
import HftExercises.Patterns.MarketDataFeedRuns
import HftExercises.Memory.ArenaAllocatorRuns
import HftExercises.Memory.ArenaAllocatorRollback
import HftExercises.Memory.ArenaAllocatorStorage
import HftExercises.Memory.ArenaAllocatorWrap
import HftExercises.Domain.OrderBookMarket
import HftExercises.Memory.RcPtrAssign
import HftExercises.Patterns.ChainRiskShared
import HftExercises.Domain.OrderBookQuantities
import HftExercises.Core.WordMixing
import HftExercises.Domain.L2OrderBookChecksum
import HftExercises.Domain.OhlcvLedger
import HftExercises.Domain.OhlcvRolls
import HftExercises.Domain.OhlcvTruncation
import HftExercises.Logic.TimerWheelThrows
import HftExercises.Logic.PositionTracker
import HftExercises.Core.Answers
import HftExercises.Logic.TokenBucket
import HftExercises.Logic.TwapSlicer
import HftExercises.Patterns.StrategyExecution
import HftExercises.Core.Apportionment
import HftExercises.Logic.VwapSlicer
import HftExercises.Patterns.VwapExecution
import HftExercises.Patterns.VwapAgreement
import HftExercises.Patterns.FactoryOrders
import HftExercises.Core.DoubleLinks
import HftExercises.Algorithms.LinkedList
import HftExercises.Algorithms.LinkedListRegions
import HftExercises.Algorithms.LinkedListEdits
import HftExercises.Algorithms.LinkedListRuns
import HftExercises.Algorithms.LinkedListMoves
import HftExercises.Algorithms.LinkedListExchanges
import HftExercises.Algorithms.LinkedListTransfers
import HftExercises.Containers.HashMapExceptions
import HftExercises.Containers.DynamicVector
import HftExercises.Containers.DynamicVectorMemory
import HftExercises.Containers.DynamicVectorObjects
import HftExercises.Containers.DynamicVectorOps
import HftExercises.Containers.DynamicVectorConstructors
import HftExercises.Containers.DynamicVectorContents
import HftExercises.Containers.DynamicVectorAssignments
import HftExercises.Containers.DynamicVectorLeaks
import HftExercises.Containers.DynamicVectorAliases
import HftExercises.Containers.DynamicVectorCalls
import HftExercises.Containers.DynamicVectorRuns
import HftExercises.Memory.LoanBox
import HftExercises.Memory.LoanBoxLedger
import HftExercises.Core.NodeList
import HftExercises.Containers.LruCache
import HftExercises.Core.DepthFirst
import HftExercises.Algorithms.GraphSearch
import HftExercises.Algorithms.DepthFirstOrder
import HftExercises.Core.History
import HftExercises.Memory.PoolAllocator
import HftExercises.Memory.PoolAllocatorLifetime
import HftExercises.Memory.PoolAllocatorRuns
import HftExercises.Core.AddressSpace
import HftExercises.Memory.BorrowBox
import HftExercises.Memory.BorrowBoxRuns
import HftExercises.Memory.StateBorrow
import HftExercises.Memory.StateBorrowSteps
import HftExercises.Memory.StateBorrowReaders
import HftExercises.Memory.StateBorrowExclusion
import HftExercises.Core.SearchTree
import HftExercises.Algorithms.BinarySearchTree
import HftExercises.Algorithms.BinarySearchTreeHeap
import HftExercises.Algorithms.BinarySearchTreeEdits
import HftExercises.Algorithms.BinarySearchTreeCopies
import HftExercises.Algorithms.BinarySearchTreeObjects
import HftExercises.Algorithms.BinarySearchTreeRuns
import HftExercises.Core.ImplicitHeap
import HftExercises.Algorithms.HeapSifts
import HftExercises.Algorithms.HeapArrays
import HftExercises.Algorithms.BinaryHeap
import HftExercises.Algorithms.Heapsort
import HftExercises.Containers.PriorityQueue
import HftExercises.Algorithms.TwoPointer
import HftExercises.Algorithms.SlidingWindow
import HftExercises.Algorithms.VariableWindow
import HftExercises.Algorithms.DistinctRun
import HftExercises.Core.BreadthFirst
import HftExercises.Algorithms.GraphEdges
import HftExercises.Algorithms.BreadthFirstSearch
import HftExercises.Algorithms.ConnectedComponents
import HftExercises.Core.SpanningForest
import HftExercises.Algorithms.CycleSearch
import HftExercises.Concurrency.Seqlock
import HftExercises.Concurrency.SpinLock
import HftExercises.Logic.TickStatistics
import HftExercises.Algorithms.WindowSums
import HftExercises.Algorithms.MergeSorted
import HftExercises.Patterns.ExecutionEngine
import HftExercises.Domain.MatchingEngineInvisible
import HftExercises.Core.Allocation
import HftExercises.Domain.MatchingEngineBest
import HftExercises.Algorithms.ForestFormula
import HftExercises.Memory.UniquePtr
import HftExercises.Memory.UniquePtrCascade
import HftExercises.Memory.UniquePtrLedger
import HftExercises.Core.SingleOwner
import HftExercises.Memory.UniquePtrRuns
