import IntOS.Tx.Transaction

/-!
# Replay positions of user code (`UserTxInfo`, `nv_loop!` and `nv_for_loop!`)

The features `crash_safe`, `opt_tx_cache_space` and `opt_loop_end` are on. Of `Task::jit_recovery` this is
the part that works on the user transaction.
-/

namespace IntOS

open Persist Persist.Prog

def defaultStackDepth : Nat := 8

/-- The fields of `UserTxInfo`, the loop counters of the user code by address, and the `recovery_mode` of
its task. -/
structure UserTxInfo where
  userTx : Transaction
  stackTop : Nat
  tailStack : Nat → UInt16
  loopCntLog : Nat
  loopCntPtr : Option Nat
  step : Nat
  counters : Nat → Nat
  recoveryMode : Bool

namespace UserTxInfo

variable {α : Type}

def onTx (m : Prog Transaction α) : Prog UserTxInfo α :=
  zoom (·.userTx) (fun t s => { s with userTx := t }) m

def onCache (m : Prog TxCache α) : Prog UserTxInfo α := onTx (Transaction.onCache m)

/-- `UserTxInfo::restart`. -/
def restart : Prog UserTxInfo Unit := do
  onCache TxCache.resetPtr
  store fun s => { s with stackTop := 0 }

/-- `UserTxInfo::init`. -/
def init : Prog UserTxInfo Unit := do
  onTx (store fun t => { t with nestingLevel := 0 })
  onTx (Transaction.onPm Journal.init)
  onCache TxCache.init
  store fun s => { s with stackTop := 0 }
  store fun s => { s with tailStack := fun _ => 0 }
  store fun s => { s with loopCntPtr := none }

def logLoopCnt (ptr oldCnt step : Nat) : Prog UserTxInfo Unit := do
  store fun s => { s with loopCntPtr := some ptr }
  store fun s => { s with loopCntLog := oldCnt }
  store fun s => { s with step := step }

/-- `UserTxInfo::set_loop_cnt`: without a logged counter it is undefined. -/
def setLoopCnt (b : Board) : Prog UserTxInfo Unit := do
  match ← gets (·.loopCntPtr) with
  | none => fail
  | some i => do
      let old ← gets (·.loopCntLog)
      let step ← gets (·.step)
      let new ← addUsize b old step
      store fun s => { s with counters := Function.update s.counters i new }

/-- `UserTxInfo::enter_idempotent_loop`: a `TxTail` is a `u16`, and `as TxTail` truncates. -/
def enterIdempotentLoop (b : Board) : Prog UserTxInfo Unit := do
  let ptr ← gets (·.userTx.cache.ptr)
  let txTail := ptr ||| txCommitted b.width
  let top ← gets (·.stackTop)
  check (top < defaultStackDepth)
  store fun s => { s with tailStack := Function.update s.tailStack top (UInt16.ofNat txTail) }
  store fun s => { s with stackTop := s.stackTop + 1 }

/-- `UserTxInfo::exit_idempotent_loop`. -/
def exitIdempotentLoop (b : Board) : Prog UserTxInfo Unit := do
  let top ← gets (·.stackTop)
  check (1 ≤ top ∧ top - 1 < defaultStackDepth)
  let oldTxTail ← gets fun s => s.tailStack (top - 1)
  onCache (TxCache.setTail oldTxTail.toNat)
  setLoopCnt b
  onCache (TxCache.setPtr oldTxTail.toNat)
  store fun s => { s with stackTop := s.stackTop - 1 }

/-- `UserTxInfo::exit_infinite_idempotent_loop`. -/
def exitInfiniteIdempotentLoop : Prog UserTxInfo Unit := do
  let top ← gets (·.stackTop)
  check (1 ≤ top ∧ top - 1 < defaultStackDepth)
  let oldTxTail ← gets fun s => s.tailStack (top - 1)
  onCache (TxCache.setTail oldTxTail.toNat)
  onCache (TxCache.setPtr oldTxTail.toNat)
  store fun s => { s with stackTop := s.stackTop - 1 }

/-- `Task::user_recovery`. -/
def userRecovery (b : Board) : Prog UserTxInfo Unit := do
  let committed ← onTx (Transaction.checkCommitted b)
  if committed then
    onTx (store fun t => { t with nestingLevel := 0 })
  else do
    onTx (Transaction.onPm (Journal.recover b))
    onTx (store fun t => { t with nestingLevel := 0 })
  restart

/-- `Task::jit_recovery`, where the task has crashed. -/
def jitRecovery (b : Board) : Prog UserTxInfo Unit := do
  store fun s => { s with recoveryMode := true }
  let idOfPtr ← gets fun s => s.userTx.cache.getTxIdOfPtr b.width
  let idOfTail ← gets fun s => s.userTx.cache.getTxIdOfTail b.width
  if idOfTail < idOfPtr then
    setLoopCnt b
  userRecovery b

end UserTxInfo

/-! ## User code -/

/-- The closure of a user transaction, with the bytes of its result. A `T` has one size; the closure logs
what it writes, and its log fits the journal. -/
structure UserTx (b : Board) where
  body : Body b.width (List UInt8)
  size : Nat
  length_res : ∀ m, (body.eval m).1.length = size
  logged : ∀ m, body.Logged [] m
  completes : ∀ pm : Pmem, pm.journal.WellFormed → pm.journal.tail = 0 → (body.run b pm).out ≠ none

namespace UserTxInfo

/-- A transaction is only bypassed in recovery mode. -/
def checkBypass (b : Board) : Prog UserTxInfo Unit := do
  let recovering ← gets (·.recoveryMode)
  check (b.debugAssertions → recovering)

def checkLevel (b : Board) : Prog UserTxInfo Unit := do
  let level ← gets (·.userTx.nestingLevel)
  check (b.debugAssertions → level = 0)

/-- `user::transaction::run`. -/
def run (b : Board) (f : UserTx b) : Prog UserTxInfo (List UInt8) := do
  checkLevel b
  match ← onCache (TxCache.tryRetrieveResult b f.size) with
  | some cacheRes => do
      checkBypass b
      pure cacheRes
  | none => onTx (Transaction.run b f.body id)

/-- `user::transaction::fast_run` of the closure that sets the counter `i`. -/
def fastRunSet (b : Board) (i v : Nat) : Prog UserTxInfo Unit := do
  checkLevel b
  match ← onCache (TxCache.tryRetrieveResult b 0) with
  | some _ => checkBypass b
  | none => do
      onTx (Transaction.begin b)
      store fun s => { s with counters := Function.update s.counters i v }
      -- commit without resetting the journal
      onTx (do Transaction.decNesting b; Transaction.onCache (TxCache.cacheResult b []))

end UserTxInfo

/-- What a task executes between its start and its end: transactions, and loops over a persistent counter.
What follows a transaction may depend on its result, and the body of a loop on the counter. -/
inductive Routine (b : Board)
  | done
  | run (f : UserTx b) (k : List UInt8 → Routine b)
  | nvForLoop (i begin «end» step : Nat) (body : Nat → Routine b) (k : Routine b)

namespace Routine

variable {b : Board}

/-- A turn of `nv_for_loop!` after the test of the counter. -/
def round (b : Board) (i step : Nat) (body : Nat → Prog UserTxInfo Unit) (cnt : Nat) :
    Prog UserTxInfo Unit := do
  UserTxInfo.enterIdempotentLoop b
  body cnt
  UserTxInfo.logLoopCnt i cnt step
  UserTxInfo.exitIdempotentLoop b

/-- The `loop` of `nv_for_loop!`, for at most `fuel` tests of the counter. -/
def rounds (b : Board) (i endv step : Nat) (body : Nat → Prog UserTxInfo Unit) : Nat → Prog UserTxInfo Unit
  | 0 => fail
  | fuel + 1 => do
      let cnt ← gets fun s => s.counters i
      if cnt ≥ endv then
        pure ()
      else do
        round b i step body cnt
        rounds b i endv step body fuel

def exec (fuel : Nat) : Routine b → Prog UserTxInfo Unit
  | done => pure ()
  | run f k => do
      let r ← UserTxInfo.run b f
      exec fuel (k r)
  | nvForLoop i begin endv step body k => do
      UserTxInfo.fastRunSet b i begin
      rounds b i endv step (fun cnt => exec fuel (body cnt)) fuel
      exec fuel k

end Routine

end IntOS
