import IntOS.Sched.Kernel

/-!
# Software timers (`src/time.rs`, with `opt_list`)

A timer and its list node are one `N`. The timers have a list and a `ListTxOpLog` of their own. The command queue
is its contents in order, and a transaction that runs to its end is its body.
-/

namespace IntOS

open Persist Persist.Prog

structure Timer where
  /-- `list_node.value.expiry_time`. -/
  expiryTime : Nat
  periodTicks : Nat
  callBackIsClosure : Bool
  active : Bool
  autoReload : Bool
deriving DecidableEq, Repr

inductive TimerCmd
  | invalid
  | start
  | stop
  | reset
  | delete
  | setPeriod
deriving DecidableEq, Repr

/-- `opaqueTime` is the field `opaque`: the tick of a start or reset, the new period. -/
structure TimerMessage (N : Type) where
  cmd : TimerCmd
  timer : Option N
  opaqueTime : Nat

structure TimeManager (N : Type) where
  tickCounter : Nat
  nextExpiryTime : Nat
  timerCmdQueue : List (TimerMessage N)
  messageBuf : TimerMessage N
  /-- The timers on the heap. -/
  timers : List N
  timer : N → Timer
  lists : Lists N Unit
  op : ListTxOpCode
  blockNodePtr : Option N

namespace TimeManager

variable {N α : Type}

def cmdQueueSize : Nat := 32

/-- `TimeManager::new`, and no timer yet. -/
def new (cfg : Config) : TimeManager N where
  tickCounter := 0
  nextExpiryTime := cfg.maxDelayTime
  timerCmdQueue := []
  messageBuf := ⟨.invalid, none, 0⟩
  timers := []
  timer := fun _ => ⟨0, 0, false, false, false⟩
  lists := Lists.new
  op := .invalid
  blockNodePtr := none

variable [DecidableEq N]

def onLists (m : Prog (Lists N Unit) α) : Prog (TimeManager N) α := zoom (·.lists) (fun r s => { s with lists := r }) m

def update (t : N) (f : Timer → Timer) : Prog (TimeManager N) Unit :=
  store fun s => { s with timer := Function.update s.timer t (f (s.timer t)) }

/-- `x.checked_add(y).unwrap()`. -/
def checkedAdd (cfg : Config) (x y : Nat) : Prog (TimeManager N) Nat := do
  check (x + y < 2 ^ cfg.timeBits)
  pure (x + y)

/-- `TimeManager::inc_tick`. -/
def incTick (cfg : Config) : Prog (TimeManager N) Unit := do
  let now ← gets (·.tickCounter)
  check (now + 1 < 2 ^ cfg.timeBits)
  store fun s => { s with tickCounter := now + 1 }

/-- `create_timer` and `create_timer_with_closure`, with the memory that the heap returned. -/
def createTimer (t : N) (periodTicks : Nat) (autoReload isClosure : Bool) : Prog (TimeManager N) Unit := do
  let timers ← gets (·.timers)
  check (t ∉ timers)
  onLists (Lists.resetNode t)
  update t fun _ => ⟨0, periodTicks, isClosure, false, autoReload⟩
  store fun s => { s with timers := t :: s.timers }

inductive TimerErr
  | noTimerDaemon
  | cmdQueueBusy
deriving DecidableEq, Repr

/-- `timer_control`, without waiting for room in the queue. -/
def timerControl (cmd : TimerCmd) (opaqueTime : Nat) (t : N) : Prog (TimeManager N) (Except TimerErr Unit) := do
  let timers ← gets (·.timers)
  check (t ∈ timers)
  let queue ← gets (·.timerCmdQueue)
  if queue.length < cmdQueueSize then do
    store fun s => { s with timerCmdQueue := s.timerCmdQueue ++ [⟨cmd, some t, opaqueTime⟩] }
    pure (.ok ())
  else
    pure (.error .cmdQueueBusy)

/-! ## The active list -/

/-- `TimeManager::activate_timer`. -/
def activateTimer (t : N) (expiryTime : Nat) : Prog (TimeManager N) Unit := do
  update t fun x => { x with active := true }
  update t fun x => { x with expiryTime := expiryTime }

/-- `TimerListItem::cmp`: the value of the new node is greater. -/
def greater (s : TimeManager N) (t x : N) : Bool := decide ((s.timer x).expiryTime < (s.timer t).expiryTime)

/-- `SortedPList::<TimerListItem>::insert`. -/
def insertActive (cfg : Config) (t : N) : Prog (TimeManager N) Unit := do
  let s ← gets id
  onLists (Lists.insertSorted cfg.debugAssertions .insertSortedDelayList s.timers.length (greater s t) () t)

def startTx (ptr : Option N) (op : ListTxOpCode) : Prog (TimeManager N) Unit := do
  store fun s => { s with blockNodePtr := ptr }
  store fun s => { s with op := op }

/-- `ListTxOpLog::commit_activelist`. -/
def commitActivelist : Prog (TimeManager N) Unit := do
  store fun s => { s with op := .activeListTxCommitted }
  onLists (Lists.setMicroOpOldLen .invalid 0)

/-- `ListTxOpLog::invalidate`. -/
def invalidate : Prog (TimeManager N) Unit := do
  onLists (Lists.setMicroOpOldLen .invalid 0)
  store fun s => { s with op := .invalid }

def atomicRollForwardRemoveReinsertIntoActivelist (cfg : Config) (t : N) : Prog (TimeManager N) Unit := do
  startTx (some t) .activeListRemoveReInsert
  onLists (Lists.optimizedRemove cfg.debugAssertions () t)
  insertActive cfg t
  commitActivelist

def atomicRollForwardPopReinsertIntoActivelist (cfg : Config) : Prog (TimeManager N) Unit := do
  let head ← gets (·.lists.head ())
  startTx head .activeListPopReInsert
  match ← onLists (Lists.optimizedPopFront ()) with
  | some t => insertActive cfg t
  | none => pure ()
  commitActivelist

def atomicRollForwardRemoveFromActivelist (cfg : Config) (t : N) : Prog (TimeManager N) Unit := do
  startTx (some t) .activeListRemove
  onLists (Lists.optimizedRemove cfg.debugAssertions () t)
  commitActivelist

/-! ## The daemon -/

/-- What `process_receive_timer_cmd` does with one message. -/
def processTimerCmd (cfg : Config) (msg : TimerMessage N) : Prog (TimeManager N) Unit :=
  match msg.timer with
  | none => pure ()
  | some t =>
      let restart : Prog (TimeManager N) Unit := do
        let period ← gets fun s => (s.timer t).periodTicks
        let expiryTime ← checkedAdd cfg msg.opaqueTime period
        activateTimer t expiryTime
        atomicRollForwardRemoveReinsertIntoActivelist cfg t
      let deactivate : Prog (TimeManager N) Unit := do
        update t fun x => { x with active := false }
        atomicRollForwardRemoveFromActivelist cfg t
      match msg.cmd with
      | .start => restart
      | .reset => restart
      | .stop => deactivate
      | .delete => deactivate
      | .setPeriod =>
          if msg.opaqueTime = 0 then pure ()
          else do
            update t fun x => { x with periodTicks := msg.opaqueTime }
            let now ← gets (·.tickCounter)
            let expiryTime ← checkedAdd cfg now msg.opaqueTime
            activateTimer t expiryTime
            atomicRollForwardRemoveReinsertIntoActivelist cfg t
      | .invalid => pure ()

/-- One round of the loop of `process_receive_timer_cmd`; `false` where it ends the loop. -/
def processReceiveTimerCmd (cfg : Config) : Prog (TimeManager N) Bool := do
  invalidate
  match ← gets (·.timerCmdQueue) with
  | [] => pure false
  | msg :: rest => do
      store fun s => { s with timerCmdQueue := rest }
      store fun s => { s with messageBuf := msg }
      processTimerCmd cfg msg
      pure true

/-- "reload timer if necessary": the end of the dispatch of an expired timer. -/
def reloadIfNecessary (cfg : Config) (t : N) : Prog (TimeManager N) Unit := do
  let autoReload ← gets fun s => (s.timer t).autoReload
  if autoReload then do
    let now ← gets (·.tickCounter)
    let period ← gets fun s => (s.timer t).periodTicks
    let expiryTime ← checkedAdd cfg now period
    activateTimer t expiryTime
    atomicRollForwardPopReinsertIntoActivelist cfg
  else do
    update t fun x => { x with active := false }
    atomicRollForwardRemoveFromActivelist cfg t

/-- What `process_expired_timer` does with an expired timer. -/
def dispatchExpired (cfg : Config) (callback : Prog (TimeManager N) Unit) (t : N) : Prog (TimeManager N) Unit := do
  let isClosure ← gets fun s => (s.timer t).callBackIsClosure
  if isClosure then pure () else callback
  reloadIfNecessary cfg t

/-- `process_expired_timer`; the result is what it passes to `queue_block_until_not_empty`, if it calls it: the ticks
to wait, and whether it waits for ever. -/
def processExpiredTimer (cfg : Config) (callback : Prog (TimeManager N) Unit) :
    Prog (TimeManager N) (Option (Nat × Bool)) := do
  invalidate
  match ← gets (·.lists.head ()) with
  | some t => do
      let expiryTime ← gets fun s => (s.timer t).expiryTime
      store fun s => { s with nextExpiryTime := expiryTime }
      let now ← gets (·.tickCounter)
      if expiryTime ≤ now then do
        dispatchExpired cfg callback t
        pure none
      else do
        let now ← gets (·.tickCounter)
        let expiry ← gets (·.nextExpiryTime)
        pure (if now < expiry then some (expiry - now, false) else none)
  | none => pure (some (0, true))

end TimeManager

end IntOS
