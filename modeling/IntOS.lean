import IntOS.Lib.Ring
import IntOS.Lib.History
import IntOS.Pmem.Theorems
import IntOS.Pmem.Body
import IntOS.Tx.Cache
import IntOS.Tx.Lemmas.Cache
import IntOS.Tx.Replay
import IntOS.Tx.Slots
import IntOS.Tx.Transaction
import IntOS.Tx.Lemmas.Transaction
import IntOS.Tx.Theorems
import IntOS.Tx.Lemmas.Unlogged
import IntOS.Tx.Lemmas.Run
import IntOS.User.Info
import IntOS.User.Lemmas.Positions
import IntOS.User.Lemmas.Steps
import IntOS.User.Lemmas.Routine
import IntOS.User.Theorems
import IntOS.User.Iteration
import IntOS.Lib.Chain
import IntOS.List.PList
import IntOS.List.Lemmas.Holds
import IntOS.List.Lemmas.Ops
import IntOS.List.Lemmas.Crash
import IntOS.Lib.Commute
import IntOS.List.Lemmas.CrashRing
import IntOS.List.Lemmas.CrashInsert
import IntOS.List.Lemmas.CrashSorted
import IntOS.Sched.Kernel
import IntOS.Sched.Lemmas.Invariant
import IntOS.Sched.Lemmas.Steps
import IntOS.Sched.Runs
import IntOS.Sched.Lemmas.Events
import IntOS.Sched.Theorems
import IntOS.Sched.Ticks
import IntOS.Sched.Recover
import IntOS.Sched.Switch
import IntOS.Sched.DelayRemoval
import IntOS.Sched.Lemmas.Crash
import IntOS.Sched.Lemmas.CrashBlock
import IntOS.Sched.Unblocking
import IntOS.Sched.ListTxDone
import IntOS.Sched.NextUnblock
import IntOS.Sched.DueTasks
import IntOS.Queue.Queue
import IntOS.Queue.Lemmas
import IntOS.Queue.Theorems
import IntOS.Queue.Blocking
import IntOS.Queue.Wakeup
import IntOS.Queue.Delivery
import IntOS.Lib.Retry
import IntOS.Task.Task
import IntOS.Task.JitRecovery
import IntOS.Lib.Evolve
import IntOS.List.Lemmas.Log
import IntOS.Sched.Lemmas.Log
import IntOS.Sched.Dispatch
import IntOS.Sched.Assertions
import IntOS.Sched.Contents
import IntOS.Sched.Lemmas.Contents
import IntOS.Sched.Schedule
import IntOS.Sched.Refinement
import IntOS.Sched.Priority
import IntOS.Sched.Selection
import IntOS.Sched.Lemmas.Confined
import IntOS.Sched.Fairness
import IntOS.Semaphore.Semaphore
import IntOS.Semaphore.Invariant
import IntOS.Semaphore.Wakeup
import IntOS.Semaphore.Mutex
import IntOS.Semaphore.Returns
import IntOS.List.Lemmas.Apart
import IntOS.Sched.Lemmas.Kinds
import IntOS.Sched.Lemmas.WaitChain
import IntOS.EventGroup.EventGroup
import IntOS.EventGroup.Lemmas.Unblock
import IntOS.EventGroup.Set
import IntOS.EventGroup.Waiters
import IntOS.EventGroup.Lemmas.Bits
import IntOS.EventGroup.System
import IntOS.EventGroup.Lemmas.Others
import IntOS.EventGroup.Wait
import IntOS.EventGroup.Lemmas.Release
import IntOS.EventGroup.Lemmas.Alive
import IntOS.EventGroup.Lemmas.Returns
import IntOS.EventGroup.Sync
import IntOS.EventGroup.Awaited
import IntOS.List.Lemmas.Alone
import IntOS.List.Sorted
import IntOS.List.Circular
import IntOS.List.Journaled
import IntOS.Timer.Timer
import IntOS.Timer.Active
import IntOS.Timer.Firing
import IntOS.Timer.Daemon
import IntOS.Timer.Journaled
import IntOS.Timer.Versions
import IntOS.Lib.Packed
import IntOS.Heap.Heap
import IntOS.Heap.Blocks
import IntOS.Heap.Release
import IntOS.Heap.Creations
import IntOS.User.PBox
import IntOS.User.Consistent
import IntOS.User.Represents
import IntOS.Sched.Nesting
import IntOS.List.Lemmas.CrashReady
import IntOS.List.Lemmas.CrashAgain
import IntOS.List.Recoverable
import IntOS.Timer.Recover
import IntOS.Timer.Recoverable
import IntOS.Boot.Boot
import IntOS.Boot.Lemmas.ReadyInsert
import IntOS.Boot.Invariant
import IntOS.Boot.Lemmas.Recovery
import IntOS.Boot.Lemmas.Registration
import IntOS.Boot.Lemmas.Attempt
import IntOS.Boot.Theorems
import IntOS.User.Containers
import IntOS.User.RawValIter
import IntOS.User.Sequences
import IntOS.User.LoopStack
import IntOS.User.LoopEnd
import IntOS.Task.SyscallReplay
import IntOS.List.Lemmas.Journaled
import IntOS.Semaphore.Plain
