import IntOS.Sched.Kernel

/-!
# Recovery of the list transactions (`src/list.rs`, `recover_list_transaction` in `src/recover.rs`)

The recovery functions of the main log. A pointer of the log that is `None` where the code unwraps it stops
the program, as does an operation code that no branch expects. `impossible` stands at all of these places: it is
what the program does there.
-/

namespace IntOS

open Persist Persist.Prog IntOS.Lists

namespace Kernel

def getMicroOp (impossible : {α : Type} → Prog Kernel α := fail) : Prog Kernel ListOpCode := do
  match ← gets fun k => k.lists.getMicroOp with
  | none => impossible
  | some op => pure op

def getOldLen : Prog Kernel Nat := gets fun k => k.lists.getOldLen

/-- `log.get_block_node_ptr().unwrap_unchecked()`. -/
def getBlockNode (impossible : {α : Type} → Prog Kernel α := fail) : Prog Kernel NodeRef := do
  match ← gets (·.blockNodePtr) with
  | none => impossible
  | some n => pure n

/-- `log.get_wait_list_ptr().unwrap_unchecked()`. -/
def getWaitList (impossible : {α : Type} → Prog Kernel α := fail) : Prog Kernel Nat := do
  match ← gets (·.waitListPtr) with
  | none => impossible
  | some w => pure w

/-- `log.get_task_ptr().unwrap()`. -/
def getTask (impossible : {α : Type} → Prog Kernel α := fail) : Prog Kernel Nat := do
  match ← gets (·.taskPtr) with
  | none => impossible
  | some t => pure t

/-! ## Interrupted moves -/

def recoverPopFront (n : NodeRef) (oldLen : Nat) : Prog Kernel Unit := do
  match ← gets fun k => k.lists.list n with
  | none => pure ()
  | some l => onLists (recoverFromFailedPopFront l n oldLen)

def recoverRemoveFromReadyList (t oldLen : Nat) : Prog Kernel Unit := do
  let prio ← gets (·.priority t)
  onLists (recoverFromFailedRemove (.ready prio) (.sched t) oldLen)

def recoverInsertIntoReadyList (t oldLen : Nat) : Prog Kernel Unit := do
  let prio ← gets (·.priority t)
  onLists (recoverFromFailedInsertBeforeCursor (.ready prio) (.sched t) oldLen)
  setStatus t .ready

def recoverInsertIntoDelayedList (cfg : Config) (t oldLen : Nat) : Prog Kernel Unit := do
  let fuel ← gets nodeBound
  let wakeupTime ← gets (·.wakeupTime)
  onLists (recoverFromFailedInsertSorted cfg.debugAssertions fuel (wakesLater wakeupTime t) .delayed
    (.sched t) oldLen)
  setStatus t .blocked

/-! ## Interrupted transactions -/

/-- `recover_and_roll_forward_of_waitlist_pop_remove`. -/
def recoverAndRollForwardOfWaitlistPopRemove (cfg : Config)
    (impossible : {α : Type} → Prog Kernel α := fail) : Prog Kernel Unit := do
  let op ← getMicroOp impossible
  let oldLen ← getOldLen
  let node ← getBlockNode impossible
  match op with
  | .popFront => do
      recoverPopFront node oldLen
      removeFromDelayedList cfg node.task
      addToReadyList node.task
  | .remove => do
      onLists (recoverFromFailedRemove .delayed (.sched node.task) oldLen)
      addToReadyList node.task
  | .insertBeforeCursor => recoverInsertIntoReadyList node.task oldLen
  | .invalid => pure ()
  | _ => impossible
  commit

/-- `recover_and_roll_forward_of_unsorted_waitlist_remove`. -/
def recoverAndRollForwardOfUnsortedWaitlistRemove (cfg : Config)
    (impossible : {α : Type} → Prog Kernel α := fail) : Prog Kernel Unit := do
  let op ← getMicroOp impossible
  let oldLen ← getOldLen
  let node ← getBlockNode impossible
  match op with
  | .remove => do
      match ← gets fun k => k.lists.list node with
      | none => do
          onLists (recoverFromFailedRemove .delayed (.sched node.task) oldLen)
          addToReadyList node.task
      | some l => do
          onLists (recoverFromFailedRemove l node oldLen)
          removeFromDelayedList cfg node.task
          addToReadyList node.task
  | .insertBeforeCursor => recoverInsertIntoReadyList node.task oldLen
  | .invalid => pure ()
  | _ => impossible
  invalidate

/-- `recover_and_roll_forward_of_waitlist_insert`. -/
def recoverAndRollForwardOfWaitlistInsert (cfg : Config)
    (impossible : {α : Type} → Prog Kernel α := fail) : Prog Kernel Unit := do
  let op ← getMicroOp impossible
  let oldLen ← getOldLen
  let w ← getWaitList impossible
  let t ← getCurrent
  match op with
  | .remove => do
      recoverRemoveFromReadyList t oldLen
      insertWaiting cfg w t
      addToDelayedList cfg t
  | .insertSortedWaitList => do
      let fuel ← gets nodeBound
      let priority ← gets (·.priority)
      onLists (recoverFromFailedInsertSorted cfg.debugAssertions fuel (moreImportant priority t) (.waiting w)
        (.event t) oldLen)
      addToDelayedList cfg t
  | .insertSortedDelayList => recoverInsertIntoDelayedList cfg t oldLen
  | .invalid => pure ()
  | _ => impossible
  invalidate

/-- `recover_and_roll_forward_of_unsorted_waitlist_insert`. The log gives the wait list as a
`SortedPList`. -/
def recoverAndRollForwardOfUnsortedWaitlistInsert (cfg : Config)
    (impossible : {α : Type} → Prog Kernel α := fail) : Prog Kernel Unit := do
  let op ← getMicroOp impossible
  let oldLen ← getOldLen
  let w ← getWaitList impossible
  let t ← getCurrent
  match op with
  | .remove => do
      recoverRemoveFromReadyList t oldLen
      insertWaiting cfg w t
      addToDelayedList cfg t
  | .insertFront => do
      onLists (recoverFromFailedInsertFront (.waiting w) (.event t) oldLen)
      addToDelayedList cfg t
  | .insertSortedDelayList => recoverInsertIntoDelayedList cfg t oldLen
  | .invalid => pure ()
  | _ => impossible
  invalidate

/-- `recover_and_roll_forward_of_delaylist_removal`. -/
def recoverAndRollForwardOfDelaylistRemoval (cfg : Config)
    (impossible : {α : Type} → Prog Kernel α := fail) : Prog Kernel Unit := do
  let op ← getMicroOp impossible
  let oldLen ← getOldLen
  let node ← getBlockNode impossible
  match op with
  | .popFront => do
      recoverPopFront node oldLen
      removeFromOwnWaitlist cfg node.task
      addToReadyList node.task
  | .remove => do
      match ← gets fun k => k.lists.list (.event node.task) with
      | none => impossible
      | some waitList => onLists (recoverFromFailedRemove waitList (.event node.task) oldLen)
      addToReadyList node.task
  | .insertBeforeCursor => recoverInsertIntoReadyList node.task oldLen
  | .invalid => pure ()
  | _ => impossible
  invalidate

/-- `recover_and_roll_forward_of_delaylist_insert`. -/
def recoverAndRollForwardOfDelaylistInsert (cfg : Config)
    (impossible : {α : Type} → Prog Kernel α := fail) : Prog Kernel Unit := do
  let op ← getMicroOp impossible
  let oldLen ← getOldLen
  let t ← getCurrent
  match op with
  | .remove => do
      recoverRemoveFromReadyList t oldLen
      addToDelayedList cfg t
  | .insertSortedDelayList => recoverInsertIntoDelayedList cfg t oldLen
  | .invalid => pure ()
  | _ => impossible
  commit

/-- `recover_and_roll_forward_of_readylist_insert`. -/
def recoverAndRollForwardOfReadylistInsert (impossible : {α : Type} → Prog Kernel α := fail) :
    Prog Kernel Unit := do
  let op ← getMicroOp impossible
  let oldLen ← getOldLen
  let t ← getTask impossible
  match op with
  | .insertBeforeCursor => recoverInsertIntoReadyList t oldLen
  | .invalid => pure ()
  | _ => impossible
  commit

/-- `recover_and_roll_forward_context_switch`. -/
def recoverAndRollForwardContextSwitch (impossible : {α : Type} → Prog Kernel α := fail) :
    Prog Kernel Unit := do
  match ← getMicroOp impossible with
  | .readyListNext => do
      let prevTask ← getTask impossible
      let prio ← gets (·.priority prevTask)
      match ← gets fun k => k.lists.cursor (.ready prio) with
      | none => impossible
      | some cursor => do
          if cursor.task = prevTask then do
            setStatus prevTask .ready
            match ← onLists (nextItem (.ready prio)) with
            | none => impossible
            | some item => do
                setStatus item.task .running
                setCurrent item.task
          else do
            -- cursor already moved
            setStatus cursor.task .running
            setCurrent cursor.task
      setMicroOp .invalid 0
  | .invalid => pure ()
  | _ => impossible

/-- `recover_list_transaction`. -/
def recoverListTransaction (cfg : Config)
    (impossible : {α : Type} → Prog Kernel α := fail) : Prog Kernel Unit := do
  match ← gets (·.op) with
  | .invalid => pure ()
  | .waitListPopRemoval => recoverAndRollForwardOfWaitlistPopRemove cfg impossible
  | .waitListInsert => recoverAndRollForwardOfWaitlistInsert cfg impossible
  | .waitListRemoval => recoverAndRollForwardOfUnsortedWaitlistRemove cfg impossible
  | .unsortedWaitListInsert => recoverAndRollForwardOfUnsortedWaitlistInsert cfg impossible
  | .delayListRemoval => recoverAndRollForwardOfDelaylistRemoval cfg impossible
  | .delayListInsert => recoverAndRollForwardOfDelaylistInsert cfg impossible
  | .readyListInsert => recoverAndRollForwardOfReadylistInsert impossible
  | _ => impossible
  recoverAndRollForwardContextSwitch impossible

end Kernel

end IntOS
