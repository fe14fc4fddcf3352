import IntOS.User.Info

/-!
# A task's persistent fields, and its recovery (`src/task.rs`, `SyscallReplayCache` in `src/syscalls.rs`)

The feature `crash_safe` is on, and `opt_loop_end`. There is one memory: the journal of the task's kernel
transactions and that of its user transactions both log bytes of it. The statistics and the contents of the
stack, which is volatile, are left out.
-/

namespace IntOS

open Persist Persist.Prog

/-- The variants of `arch::initialize_stack`; host tests have no stack. -/
inductive StackLayout
  | msp430
  | armv7m
  | armv7em
  | test
deriving DecidableEq, Repr

/-- `arch::initialize_stack`: the stack top below the initial frame. -/
def initializeStack : StackLayout → Nat → Nat
  | .msp430, stackTop => stackTop - 26
  | .armv7m, stackTop => stackTop - 64
  | .armv7em, stackTop => stackTop - 68
  | .test, _ => 0

structure SyscallReplayCache where
  ptr : Nat
  tail : Nat
  cache : Nat → UInt8

/-- The fields of `Task` that recovery works with. Those of `tx` are spread out: its journal, its cache
`syscall_tx_cache` and its nesting level. `recovery_mode` is in `userTxInfo`. -/
structure Task where
  userTxInfo : UserTxInfo
  journal : Journal
  syscallTxCache : TxCache
  nestingLevel : Nat
  syscallReplayCache : SyscallReplayCache
  listTxDone : Bool
  generation : Nat
  stackTop : Nat
  stackBottom : Nat

namespace Task

variable {α : Type}

/-- The kernel transaction `tx`, with the memory. -/
def tx (t : Task) : Transaction := ⟨⟨t.userTxInfo.userTx.pm.mem, t.journal⟩, t.syscallTxCache, t.nestingLevel⟩

def setTx (x : Transaction) (t : Task) : Task :=
  { t with
    userTxInfo := { t.userTxInfo with userTx := { t.userTxInfo.userTx with
      pm := { t.userTxInfo.userTx.pm with mem := x.pm.mem } } }
    journal := x.pm.journal
    syscallTxCache := x.cache
    nestingLevel := x.nestingLevel }

def onTx (m : Prog Transaction α) : Prog Task α := zoom tx setTx m

def setUserTxInfo (u : UserTxInfo) (t : Task) : Task := { t with userTxInfo := u }

def onUser (m : Prog UserTxInfo α) : Prog Task α := zoom userTxInfo setUserTxInfo m

def resetListTransaction : Prog Task Unit := store fun t => { t with listTxDone := false }

def commitSyscallTxCache (b : Board) : Prog Task Unit :=
  onTx (Transaction.onCache (TxCache.commitResetTail b.width))

/-- `SyscallReplayCache::reset`. -/
def userTxEnd : Prog Task Unit :=
  store fun t => { t with syscallReplayCache := { t.syscallReplayCache with tail := 0 } }

def resetNestingLevel : Prog Transaction Unit := store fun x => { x with nestingLevel := 0 }

/-- `Task::user_recovery`. -/
def userRecovery (b : Board) : Prog Task Unit := do
  let committed ← onUser (UserTxInfo.onTx (Transaction.checkCommitted b))
  (if committed then do
    onUser (UserTxInfo.onTx resetNestingLevel)
    -- reset the system call cache table
    userTxEnd
  else do
    onUser (UserTxInfo.onTx (Transaction.onPm (Journal.recover b)))
    onUser (UserTxInfo.onTx resetNestingLevel))
  onUser UserTxInfo.restart

/-- An incomplete syscall return. -/
def finishSyscall (b : Board) : Prog Task Unit := do
  let ptr ← gets (·.syscallReplayCache.ptr)
  let tail ← gets (·.syscallReplayCache.tail)
  if ptr < tail then do
    commitSyscallTxCache b
    resetListTransaction

/-- An incomplete end of a turn of `nv_for_loop!`. -/
def finishLoop (b : Board) : Prog Task Unit := do
  let idOfPtr ← gets fun t => t.userTxInfo.userTx.cache.getTxIdOfPtr b.width
  let idOfTail ← gets fun t => t.userTxInfo.userTx.cache.getTxIdOfTail b.width
  if idOfTail < idOfPtr then
    onUser (UserTxInfo.setLoopCnt b)

/-- `Task::jit_recovery`. -/
def jitRecovery (b : Board) (layout : StackLayout) (currentGeneration : Nat) : Prog Task Unit := do
  let generation ← gets (·.generation)
  if generation ≠ currentGeneration then do
    onUser (store fun u => { u with recoveryMode := true })
    onTx (Transaction.rollBackIfUncommitted b)
    onTx resetNestingLevel
    finishSyscall b
    finishLoop b
    userRecovery b
    store fun t => { t with stackTop := initializeStack layout t.stackBottom }
    -- mark the completion of recovery
    store fun t => { t with generation := currentGeneration }

end Task

end IntOS
