import CppConcur.Logic.Transition
import CppConcur.Logic.Phase
import CppConcur.Logic.Worklist
import CppConcur.Logic.RefCount
import CppConcur.Logic.Count
import CppConcur.Logic.Parking
import CppConcur.Logic.Roster
import CppConcur.Logic.Handoff
import CppConcur.Logic.Gate
import CppConcur.Logic.Linearizable
import CppConcur.Logic.Custody
import CppConcur.Logic.Register
import CppConcur.Logic.Code
import CppConcur.Intrusive.ForwardList
import CppConcur.Intrusive.Family
import CppConcur.Thread.SpinLock
import CppConcur.WorkStealing.Queue
import CppConcur.WorkStealing.QueueInvariant
import CppConcur.WorkStealing.QueueAnswers
import CppConcur.WorkStealing.Pool
import CppConcur.WorkStealing.PoolQueues
import CppConcur.WorkStealing.PoolRuns
import CppConcur.WorkStealing.PoolTasks
import CppConcur.WorkStealing.PoolParking
import CppConcur.WorkStealing.PoolWakeup
import CppConcur.WorkStealing.PoolStealing
import CppConcur.WorkStealing.PoolVictims
import CppConcur.WorkStealing.Ownership
import CppConcur.WorkStealing.PoolStop
import CppConcur.WorkStealing.PoolDrain
import CppConcur.WorkStealing.GlobalQueue
import CppConcur.WorkStealing.PoolFairness
import CppConcur.Compute.Pool
import CppConcur.Compute.PoolInvariant
import CppConcur.Compute.PoolDrain
import CppConcur.LockFree.StampedPtr
import CppConcur.LockFree.Packer
import CppConcur.LockFree.Queue
import CppConcur.LockFree.QueueInvariant
import CppConcur.LockFree.QueueSteps
import CppConcur.LockFree.QueueLinearizable
import CppConcur.LockFree.QueueLife
import CppConcur.LockFree.QueueRecycling
import CppConcur.LockFree.QueueNodes
import CppConcur.LockFree.Hazard
import CppConcur.LockFree.HazardInvariant
import CppConcur.LockFree.HazardSteps
import CppConcur.LockFree.HazardSafety
import CppConcur.LockFree.HazardBound
import CppConcur.LockFree.HazardStack
import CppConcur.LockFree.HazardScan
import CppConcur.LockFree.SharedPtr
import CppConcur.LockFree.SharedPtrInvariant
import CppConcur.LockFree.SharedPtrSteps
import CppConcur.LockFree.SharedPtrLifetime
import CppConcur.LockFree.SharedPtrCell
import CppConcur.LockFree.SharedPtrLinearizable
import CppConcur.LockFree.SharedPtrHeap
import CppConcur.LockFree.SharedPtrAgenda
import CppConcur.LockFree.SharedPtrCascade
import CppConcur.LockFree.SharedPtrAssign
import CppConcur.LockFree.SharedPtrStamps
import CppConcur.Fiber.Strand
import CppConcur.Fiber.StrandInvariant
import CppConcur.Fiber.StrandSteps
import CppConcur.Fiber.StrandSafety
import CppConcur.Fiber.StrandProgress
import CppConcur.Fiber.Lifecycle
import CppConcur.Fiber.LifecyclePlaces
import CppConcur.Fiber.LifecycleInvariant
import CppConcur.Fiber.LifecycleSafety
import CppConcur.Fiber.Context
import CppConcur.Fiber.ContextSafety
import CppConcur.Fiber.BufferedChannel
import CppConcur.Fiber.BufferedChannelWakeup
import CppConcur.Fiber.Guarded
import CppConcur.Fiber.GuardedHandles
import CppConcur.Fiber.StrandHandles
import CppConcur.Fiber.LifecyclePrimitives
import CppConcur.Futures.Expr
import CppConcur.Futures.Run
import CppConcur.Futures.Evaluation
import CppConcur.Futures.Pipeline
import CppConcur.Futures.Placement
import CppConcur.Futures.Races
import CppConcur.Futures.FirstLifetime
import CppConcur.Futures.StartLifetime
import CppConcur.Futures.Detach
import CppConcur.Futures.DetachSteps
import CppConcur.Futures.DetachLifetime
import CppConcur.Sync.Mutex
import CppConcur.Sync.MutexOrder
import CppConcur.Sync.Event
import CppConcur.Sync.EventOnce
import CppConcur.Sync.WaitGroup
import CppConcur.Sync.WaitGroupRounds
import CppConcur.Thread.Event
import CppConcur.Coro.SpinLocks
import CppConcur.Coro.SelfDeadlock
import CppConcur.Coro.RunMutex
