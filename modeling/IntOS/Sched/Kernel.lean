import IntOS.Arch
import IntOS.List.PList

/-!
# The scheduler's persistent state (`src/task.rs`, `src/list.rs`)

The lists of the scheduler hold the two nodes of each task. The main `ListTxOpLog` says which list
transaction runs and how far it is; its packed field `micro_op_old_len` is that of the lists. A task is its
id. The feature `opt_list` is on.
-/

namespace IntOS

open Persist Persist.Prog

structure Config where
  debugAssertions : Bool
  /-- `board::TASK_NUM_LIMIT`. -/
  taskNumLimit : Nat
  /-- The width of `Time`: 16 on the MSP430, 32 on the Cortex-M boards. -/
  timeBits : Nat

def numPriorityLevels : Nat := 8

def Config.maxDelayTime (cfg : Config) : Nat := 2 ^ cfg.timeBits - 1

inductive TaskState
  | ready
  | blocked
  | running
  | killed
deriving DecidableEq, Repr

inductive ListTxOpCode
  | invalid
  | waitListPopRemoval
  | waitListInsert
  | waitListRemoval
  | unsortedWaitListInsert
  | delayListRemoval
  | delayListInsert
  | readyListInsert
  | activeListRemove
  | activeListRemoveReInsert
  | activeListPopReInsert
  | activeListPop
  | activeListTxCommitted
  | readyListNext
deriving DecidableEq, Repr

/-- `sched_node` and `event_node` of a task. -/
inductive NodeRef
  | sched (task : Nat)
  | event (task : Nat)
deriving DecidableEq, Repr

/-- `node.value.task`. -/
def NodeRef.task : NodeRef → Nat
  | sched t => t
  | event t => t

/-- `TASK_LISTS[prio]`, `DELAYED_TASK_LIST`, and the wait lists of queues, semaphores and event groups. -/
inductive ListRef
  | ready (prio : Nat)
  | delayed
  | waiting (w : Nat)
deriving DecidableEq, Repr

/-- The lists that `src/task.rs` makes `CircularPList`s. -/
def ListRef.IsReady : ListRef → Prop
  | ready _ => True
  | _ => False

structure Kernel where
  lists : Lists NodeRef ListRef
  op : ListTxOpCode
  blockNodePtr : Option NodeRef
  taskPtr : Option Nat
  waitListPtr : Option Nat
  taskCnt : Nat
  priority : Nat → Nat
  status : Nat → TaskState
  wakeupTime : Nat → Nat
  listTxDone : Nat → Bool
  recoveryMode : Nat → Bool
  /-- `CURRENT_TASK_PTR`, `none` where it is null. -/
  current : Option Nat
  curMaxPriority : Nat
  schedulerStarted : Bool
  tickCounter : Nat
  nextUnblockTime : Nat

namespace Kernel

variable {α : Type}

def new (cfg : Config) : Kernel where
  lists := Lists.new
  op := .invalid
  blockNodePtr := none
  taskPtr := none
  waitListPtr := none
  taskCnt := 0
  priority := fun _ => 0
  status := fun _ => .ready
  wakeupTime := fun _ => 0
  listTxDone := fun _ => false
  recoveryMode := fun _ => false
  current := none
  curMaxPriority := numPriorityLevels
  schedulerStarted := false
  tickCounter := 0
  nextUnblockTime := cfg.maxDelayTime

def onLists (m : Prog (Lists NodeRef ListRef) α) : Prog Kernel α :=
  zoom (·.lists) (fun l k => { k with lists := l }) m

def setStatus (t : Nat) (v : TaskState) : Prog Kernel Unit :=
  store fun k => { k with status := Function.update k.status t v }

def setWakeupTime (t v : Nat) : Prog Kernel Unit :=
  store fun k => { k with wakeupTime := Function.update k.wakeupTime t v }

def setTxOp (op : ListTxOpCode) : Prog Kernel Unit := store fun k => { k with op := op }

def setMicroOp (op : ListOpCode) (oldLen : Nat) : Prog Kernel Unit :=
  onLists (Lists.setMicroOpOldLen op oldLen)

def setCurrent (t : Nat) : Prog Kernel Unit := store fun k => { k with current := some t }

/-- `task::current()`: undefined before the first task. -/
def getCurrent : Prog Kernel Nat := do
  match ← gets (·.current) with
  | none => fail
  | some t => pure t

/-- `ListTxOpLog::commit`. -/
def commit : Prog Kernel Unit := do
  setMicroOp .invalid 0
  let t ← getCurrent
  store fun k => { k with listTxDone := Function.update k.listTxDone t true }
  setTxOp .invalid

/-- `ListTxOpLog::invalidate`. -/
def invalidate : Prog Kernel Unit := do
  setMicroOp .invalid 0
  setTxOp .invalid

/-- No list has more nodes than there are. -/
def nodeBound (k : Kernel) : Nat := 2 * k.taskCnt

/-! ## Moves of one task -/

/-- `new > node` in the delayed list. -/
def wakesLater (wakeupTime : Nat → Nat) (t : Nat) (n : NodeRef) : Bool :=
  wakeupTime n.task < wakeupTime t

/-- `new > node` in a sorted wait list: a higher value is a lower priority. -/
def moreImportant (priority : Nat → Nat) (t : Nat) (n : NodeRef) : Bool :=
  priority t < priority n.task

def insertDelayed (cfg : Config) (t : Nat) : Prog Kernel Unit := do
  let fuel ← gets nodeBound
  let wakeupTime ← gets (·.wakeupTime)
  onLists (Lists.insertSorted cfg.debugAssertions .insertSortedDelayList fuel (wakesLater wakeupTime t)
    .delayed (.sched t))

def insertWaiting (cfg : Config) (w t : Nat) : Prog Kernel Unit := do
  let fuel ← gets nodeBound
  let priority ← gets (·.priority)
  onLists (Lists.insertSorted cfg.debugAssertions .insertSortedWaitList fuel (moreImportant priority t)
    (.waiting w) (.event t))

/-- `Task::add_to_delayed_list`. -/
def addToDelayedList (cfg : Config) (t : Nat) : Prog Kernel Unit := do
  setStatus t .blocked
  insertDelayed cfg t
  let unblockTime ← gets (·.wakeupTime t)
  let nextUnblockTime ← gets (·.nextUnblockTime)
  if unblockTime < nextUnblockTime then
    store fun k => { k with nextUnblockTime := unblockTime }

def removeFromDelayedList (cfg : Config) (t : Nat) : Prog Kernel Unit :=
  onLists (Lists.optimizedRemove cfg.debugAssertions .delayed (.sched t))

/-- `Task::add_to_ready_list`. -/
def addToReadyList (t : Nat) : Prog Kernel Unit := do
  let prio ← gets (·.priority t)
  onLists (Lists.optimizedInsertBeforeCursor (.ready prio) (.sched t))
  setStatus t .ready

def removeFromReadyList (cfg : Config) (t : Nat) : Prog Kernel Unit := do
  let prio ← gets (·.priority t)
  onLists (Lists.optimizedRemove cfg.debugAssertions (.ready prio) (.sched t))

/-! ## List transactions -/

/-- Whether the list transaction was already done in this syscall. -/
def bypass (cfg : Config) : Prog Kernel Bool := do
  let t ← getCurrent
  let done ← gets (·.listTxDone t)
  let recovering ← gets (·.recoveryMode t)
  check (cfg.debugAssertions → done → recovering)
  pure done

/-- `roll_forward_pop_remove_from_waitlist`. -/
def rollForwardPopRemoveFromWaitlist (cfg : Config) (w : Nat) : Prog Kernel Unit := do
  if ← bypass cfg then
    pure ()
  else do
    let head ← gets (·.lists.head (.waiting w))
    store fun k => { k with blockNodePtr := head }
    setTxOp .waitListPopRemoval
    match ← onLists (Lists.optimizedPopFront (.waiting w)) with
    | none => pure ()
    | some node => do
        removeFromDelayedList cfg node.task
        addToReadyList node.task
    commit

/-- `roll_forward_remove_from_unsorted_waitlist`. -/
def rollForwardRemoveFromUnsortedWaitlist (cfg : Config) (w : Nat) (node : NodeRef) : Prog Kernel Unit := do
  store fun k => { k with blockNodePtr := some node }
  setTxOp .waitListRemoval
  onLists (Lists.optimizedRemove cfg.debugAssertions (.waiting w) node)
  removeFromDelayedList cfg node.task
  addToReadyList node.task
  invalidate

/-- `roll_forward_insert_into_waitlist`, of the task `t`. -/
def rollForwardInsertIntoWaitlist (cfg : Config) (w t : Nat) : Prog Kernel Unit := do
  store fun k => { k with waitListPtr := some w }
  setTxOp .waitListInsert
  removeFromReadyList cfg t
  insertWaiting cfg w t
  addToDelayedList cfg t
  invalidate

/-- `roll_forward_insert_into_unsorted_waitlist`, of the task `t`. -/
def rollForwardInsertIntoUnsortedWaitlist (cfg : Config) (w t : Nat) : Prog Kernel Unit := do
  store fun k => { k with waitListPtr := some w }
  setTxOp .unsortedWaitListInsert
  removeFromReadyList cfg t
  onLists (Lists.optimizedInsertFront cfg.debugAssertions (.waiting w) (.event t))
  addToDelayedList cfg t
  invalidate

/-- `event_node.list.map(|wait_list| wait_list.optimized_remove(event_node))`. -/
def removeFromOwnWaitlist (cfg : Config) (t : Nat) : Prog Kernel Unit := do
  match ← gets fun k => k.lists.list (.event t) with
  | none => pure ()
  | some waitList => onLists (Lists.optimizedRemove cfg.debugAssertions waitList (.event t))

/-- `roll_forward_remove_from_delaylist`. -/
def rollForwardRemoveFromDelaylist (cfg : Config) : Prog Kernel Unit := do
  setTxOp .delayListRemoval
  match ← onLists (Lists.optimizedPopFront .delayed) with
  | none => fail
  | some schedNode => do
      removeFromOwnWaitlist cfg schedNode.task
      addToReadyList schedNode.task
      invalidate

/-- `roll_forward_insert_into_delaylist`. -/
def rollForwardInsertIntoDelaylist (cfg : Config) : Prog Kernel Unit := do
  if ← bypass cfg then
    pure ()
  else do
    setTxOp .delayListInsert
    let t ← getCurrent
    removeFromReadyList cfg t
    addToDelayedList cfg t
    commit

/-- `roll_forward_insert_into_readylist`. -/
def rollForwardInsertIntoReadylist (t : Nat) : Prog Kernel Unit := do
  store fun k => { k with taskPtr := some t }
  setTxOp .readyListInsert
  addToReadyList t
  invalidate

/-- `atomic_roll_foward_context_switch`, where `task` is in the ready list `prio`. -/
def atomicRollFowardContextSwitch (task prevTask prio : Nat) : Prog Kernel Unit := do
  store fun k => { k with taskPtr := some prevTask }
  setMicroOp .readyListNext 0
  setStatus task .running
  let prevStatus ← gets (·.status prevTask)
  if prevStatus ≠ .blocked then
    setStatus prevTask .ready
  let _ ← onLists (Lists.nextItem (.ready prio))
  setCurrent task
  setMicroOp .invalid 0

/-! ## Operations -/

/-- `Task::initialize_task`: the fields of the task that the scheduler uses. -/
def initializeTask (t prio : Nat) : Prog Kernel Unit := do
  onLists (Lists.resetNode (.sched t))
  onLists (Lists.resetNode (.event t))
  setWakeupTime t 0
  store fun k => { k with listTxDone := Function.update k.listTxDone t false }
  store fun k => { k with priority := Function.update k.priority t prio }
  setStatus t .ready
  store fun k => { k with recoveryMode := Function.update k.recoveryMode t false }

/-- `create_task_static`. -/
def createTaskStatic (cfg : Config) (prio : Nat) : Prog Kernel (Except ErrorCode Nat) := do
  let tid ← gets (·.taskCnt)
  if tid ≥ cfg.taskNumLimit then
    pure (.error .noSpace)
  else if prio ≥ numPriorityLevels then
    pure (.error .invalidParam)
  else do
    store fun k => { k with taskCnt := tid + 1 }
    initializeTask tid prio
    let started ← gets (·.schedulerStarted)
    let curMax ← gets (·.curMaxPriority)
    if ¬ started ∧ prio < curMax then do
      setCurrent tid
      store fun k => { k with curMaxPriority := prio }
    rollForwardInsertIntoReadylist tid
    pure (.ok tid)

/-- `checked_add(..).unwrap()` on `Time`. -/
def addTime (cfg : Config) (x y : Nat) : Prog Kernel Nat := do
  check (x + y < 2 ^ cfg.timeBits)
  pure (x + y)

/-- `task_delay` before it yields. -/
def taskDelay (cfg : Config) (nticks : Nat) : Prog Kernel Unit := do
  let t ← getCurrent
  let now ← gets (·.tickCounter)
  let wakeupTime ← addTime cfg now nticks
  setWakeupTime t wakeupTime
  rollForwardInsertIntoDelaylist cfg

/-- `atomic_roll_forward_insert_into_waitlist` of the current task, by a queue or a semaphore. -/
def blockOnWaitlist (cfg : Config) (w wakeupTime : Nat) : Prog Kernel Unit := do
  let t ← getCurrent
  setWakeupTime t wakeupTime
  rollForwardInsertIntoWaitlist cfg w t

/-- The same for an event group. -/
def blockOnUnsortedWaitlist (cfg : Config) (w wakeupTime : Nat) : Prog Kernel Unit := do
  let t ← getCurrent
  setWakeupTime t wakeupTime
  rollForwardInsertIntoUnsortedWaitlist cfg w t

/-- `TIME_MANAGER.inc_tick`. -/
def incTick (cfg : Config) : Prog Kernel Nat := do
  let ticks ← gets (·.tickCounter)
  check (cfg.debugAssertions → ticks + 1 < 2 ^ cfg.timeBits)
  let v := (ticks + 1) % 2 ^ cfg.timeBits
  store fun k => { k with tickCounter := v }
  pure v

/-- The loop of `process_tick`. Each round takes a node out of the delayed list. -/
def wakeDue (cfg : Config) (curTicks : Nat) : Nat → Prog Kernel Unit
  | 0 => fail
  | fuel + 1 => do
      match ← gets (·.lists.head .delayed) with
      | none => pure ()
      | some item => do
          let wakeupTime ← gets (·.wakeupTime item.task)
          if wakeupTime > curTicks then
            pure ()
          else do
            rollForwardRemoveFromDelaylist cfg
            wakeDue cfg curTicks fuel

/-- `process_tick`, up to the `task_switch` that ends it in the default build for the MSP430. -/
def processTick (cfg : Config) : Prog Kernel Unit := do
  let curTicks ← incTick cfg
  let nextUnblockTime ← gets (·.nextUnblockTime)
  if curTicks ≥ nextUnblockTime then do
    let fuel ← gets nodeBound
    wakeDue cfg curTicks (fuel + 1)
    let head ← gets (·.lists.head .delayed)
    let wakeupTime ← gets (·.wakeupTime)
    store fun k => { k with nextUnblockTime := (head.map fun n => wakeupTime n.task).getD cfg.maxDelayTime }

/-- The highest priority whose ready list has a next task, with this task. -/
def nextTask (k : Kernel) : Option (Nat × Nat) :=
  (List.range numPriorityLevels).findSome? fun i => (k.lists.peekNext (.ready i)).map fun n => (i, n.task)

/-- `task_switch`. The task it chooses has not crashed, so `jit_recovery` does nothing. -/
def taskSwitch (cfg : Config) : Prog Kernel Unit := do
  let prevTask ← getCurrent
  match ← gets nextTask with
  | none => fail
  | some (i, task) =>
      if task ≠ prevTask then do
        let status ← gets (·.status task)
        check (cfg.debugAssertions → status = .ready ∨ status = .running)
        atomicRollFowardContextSwitch task prevTask i
      else do
        let len ← gets (·.lists.len (.ready i))
        check (cfg.debugAssertions → len = 1)

/-- `process_tick` in the default build for the MSP430, without the feature `power_failure`. -/
def processTickMsp430 (cfg : Config) : Prog Kernel Unit := do
  processTick cfg
  taskSwitch cfg

end Kernel

end IntOS
