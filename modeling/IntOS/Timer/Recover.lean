import IntOS.Timer.Timer

/-!
# Recovery of the timer list (`src/list.rs`, `src/recover.rs`)

The three recovery functions of the active list; `false` is their `Err`.
-/

namespace IntOS

open Persist Persist.Prog

namespace TimeManager

variable {N : Type} [DecidableEq N]

/-- `log.get_block_node_ptr().unwrap_unchecked()`. -/
def unwrapBlockNodePtr : Prog (TimeManager N) N := do
  match ← gets (·.blockNodePtr) with
  | none => fail
  | some t => pure t

def recoverAndRollForwardOfActivelistRemove : Prog (TimeManager N) Bool := do
  let opcode ← gets (·.lists.getMicroOp)
  let oldLen ← gets (·.lists.getOldLen)
  let node ← unwrapBlockNodePtr
  match opcode with
  | some .remove => do
      onLists (Lists.recoverFromFailedRemove () node oldLen)
      commitActivelist
      pure true
  | some .invalid => pure false
  | _ => fail

/-- What the recoveries of the two moves share: `opcode` is the operation that takes the timer out, and `leave`
recovers it. -/
def recoverReinsert (cfg : Config) (opcode : ListOpCode) (leave : N → Nat → Prog (Lists N Unit) Unit) :
    Prog (TimeManager N) Bool := do
  let micro ← gets (·.lists.getMicroOp)
  let oldLen ← gets (·.lists.getOldLen)
  let node ← unwrapBlockNodePtr
  if micro = some opcode then do
    onLists (leave node oldLen)
    insertActive cfg node
    commitActivelist
    pure true
  else
    match micro with
    | some .insertSortedDelayList => do
        let s ← gets id
        onLists (Lists.recoverFromFailedInsertSorted cfg.debugAssertions s.timers.length (greater s node) () node
          oldLen)
        commitActivelist
        pure true
    | some .invalid => pure false
    | _ => fail

/-- Only a timer that says it is in the list is taken out. -/
def leaveByRemove (node : N) (oldLen : Nat) : Prog (Lists N Unit) Unit := do
  let list ← gets (·.list node)
  if list ≠ none then
    Lists.recoverFromFailedRemove () node oldLen

def leaveByPopFront (node : N) (oldLen : Nat) : Prog (Lists N Unit) Unit := do
  match ← gets (·.list node) with
  | none => pure ()
  | some l => Lists.recoverFromFailedPopFront l node oldLen

def recoverAndRollForwardOfActivelistRemoveReinsert (cfg : Config) : Prog (TimeManager N) Bool :=
  recoverReinsert cfg .remove leaveByRemove

def recoverAndRollForwardOfActivelistPopReinsert (cfg : Config) : Prog (TimeManager N) Bool :=
  recoverReinsert cfg .popFront leaveByPopFront

/-- `ListTxOpLog::invalidate_activelist`. -/
def invalidateActivelist : Prog (TimeManager N) Unit := store fun s => { s with op := .invalid }

/-- What `recover_timer_daemon_list_transaction` does to the list and its log: the recovery that the log names. The
transaction of the daemon, which it commits and ends before it invalidates the log, has no part in the list. -/
def recoverActivelist (cfg : Config) : Prog (TimeManager N) Unit := do
  match ← gets (·.op) with
  | .invalid => pure ()
  | .activeListTxCommitted => invalidateActivelist
  | .activeListRemove => do
      let ok ← recoverAndRollForwardOfActivelistRemove
      if ok then invalidateActivelist
  | .activeListPopReInsert => do
      let ok ← recoverAndRollForwardOfActivelistPopReinsert cfg
      if ok then invalidateActivelist
  | .activeListRemoveReInsert => do
      let ok ← recoverAndRollForwardOfActivelistRemoveReinsert cfg
      if ok then invalidateActivelist
  | _ => fail

end TimeManager

end IntOS
