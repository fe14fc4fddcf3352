import IntOS.Arch
import IntOS.Sched.Recover
import IntOS.Sched.Runs

/-!
# Event groups (`src/event_group.rs`, and their syscalls in `src/syscalls.rs`)

One event group, its wait list and the tasks that use it. A kernel transaction takes effect as a whole, together
with its result in the `syscall_tx_cache` of the task. Of the replay cache of a task there is the entry of the
call that it is in.
-/

namespace IntOS

open Persist Persist.Prog

abbrev EventBits (width : PtrWidth) : Type := BitVec width.bits

namespace EventGroup

variable {width : PtrWidth} {α : Type}

def clearEventsOnExitBit : (width : PtrWidth) → EventBits width
  | .w32 => 0x01000000
  | .w16 => 0x0100
  | .w64 => 0x0100

def unblockedDueToBitSet : (width : PtrWidth) → EventBits width
  | .w32 => 0x02000000
  | .w16 => 0x0200
  | .w64 => 0x0200

def waitForAllBits : (width : PtrWidth) → EventBits width
  | .w32 => 0x04000000
  | .w16 => 0x0400
  | .w64 => 0x0400

def eventBitsControlBytes : (width : PtrWidth) → EventBits width
  | .w32 => 0xff000000
  | .w16 => 0xff00
  | .w64 => 0xff00

/-- `x & !EVENT_BITS_CONTROL_BYTES`. -/
def eventsOf (x : EventBits width) : EventBits width := x &&& ~~~eventBitsControlBytes width

/-- What a call returns; `sys_event_group_set` returns nothing, which is `Ok(0)` here. -/
abbrev Outcome (width : PtrWidth) : Type := Except (EventBits width) (EventBits width)

structure Machine (width : PtrWidth) where
  kernel : Kernel
  eventBits : EventBits width
  /-- `event_node.value.opaque`. -/
  blockItemValue : Nat → EventBits width
  txResults : Nat → List (EventBits width)
  /-- How many of the results the running call has already read or written. -/
  txPtr : Nat → Nat
  entry : Nat → Option (Outcome width)

def onKernel (m : Prog Kernel α) : Prog (Machine width) α := zoom (·.kernel) (fun k s => { s with kernel := k }) m

def getEventBits (m : Machine width) : EventBits width := eventsOf m.eventBits

def waitConditionOk (bitsToWaitFor : EventBits width) (waitForAllBits : Bool) (m : Machine width) : Bool :=
  if !waitForAllBits then
    m.eventBits &&& bitsToWaitFor != 0
  else
    m.eventBits &&& bitsToWaitFor == bitsToWaitFor

def setBlockItemValue (t : Nat) (v : EventBits width) : Prog (Machine width) Unit :=
  store fun m => { m with blockItemValue := Function.update m.blockItemValue t v }

def setTxPtr (t ptr : Nat) : Prog (Machine width) Unit :=
  store fun m => { m with txPtr := Function.update m.txPtr t ptr }

/-- `transaction::run`: from the event bits, `f` gives the result and the new event bits. -/
def run (cfg : Config) (f : EventBits width → EventBits width × EventBits width) :
    Prog (Machine width) (EventBits width) := do
  let t ← onKernel Kernel.getCurrent
  let ptr ← gets (·.txPtr t)
  let results ← gets (·.txResults t)
  match results[ptr]? with
  | some res => do
      let started ← gets (·.kernel.schedulerStarted)
      let recovering ← gets (·.kernel.recoveryMode t)
      check (cfg.debugAssertions → started → recovering)
      setTxPtr t (ptr + 1)
      pure res
  | none => do
      let res ← gets fun m => (f m.eventBits).1
      store fun m => { m with
        eventBits := (f m.eventBits).2
        txResults := Function.update m.txResults t (results ++ [res]) }
      setTxPtr t (ptr + 1)
      pure res

def setEventBits (cfg : Config) (bits : EventBits width) : Prog (Machine width) Unit := do
  let _ ← run cfg fun b => (0, b ||| bits)

def clearEventBits (cfg : Config) (bits : EventBits width) : Prog (Machine width) Unit := do
  let _ ← run cfg fun b => (0, b &&& ~~~bits)

/-! ## Setting bits -/

/-- Whether a waiter with this block item is unblocked. -/
def unblocks (eventBits bitsSet : EventBits width) : Bool :=
  if eventBits &&& waitForAllBits width != 0 then
    eventsOf eventBits &&& bitsSet == eventsOf eventBits
  else
    eventsOf eventBits &&& bitsSet != 0

/-- The bits that a waiter clears when it is unblocked. -/
def clears (eventBits : EventBits width) : EventBits width :=
  if eventBits &&& clearEventsOnExitBit width != 0 then eventsOf eventBits else 0

/-- The loop over the waiting tasks, from `item` on, which returns `bits_to_clear` and `yld_to_higher_prio`. -/
def unblockWaiters (cfg : Config) (waitList : Nat) (bitsSet : EventBits width) :
    Nat → Option NodeRef → EventBits width → Bool → Prog (Machine width) (EventBits width × Bool)
  | _, none, bitsToClear, yldToHigherPrio => pure (bitsToClear, yldToHigherPrio)
  | 0, some _, _, _ => fail
  | fuel + 1, some node, bitsToClear, yldToHigherPrio => do
      let next ← gets (·.kernel.lists.next node)
      let eventBits ← gets (·.blockItemValue node.task)
      if unblocks eventBits bitsSet then do
        let current ← onKernel Kernel.getCurrent
        let higher ← gets fun m => decide (m.kernel.priority node.task < m.kernel.priority current)
        setBlockItemValue node.task (bitsSet ||| unblockedDueToBitSet width)
        onKernel (Kernel.rollForwardRemoveFromUnsortedWaitlist cfg waitList node)
        unblockWaiters cfg waitList bitsSet fuel next (bitsToClear ||| clears eventBits) (yldToHigherPrio || higher)
      else
        unblockWaiters cfg waitList bitsSet fuel next bitsToClear yldToHigherPrio

/-- The critical section of `set_event_group_bits`, which returns `yld_to_higher_prio`. -/
def setEventGroupBits (cfg : Config) (waitList : Nat) (bitsToSet : EventBits width) : Prog (Machine width) Bool := do
  setEventBits cfg (eventsOf bitsToSet)
  let bitsSet ← gets getEventBits
  let head ← gets (·.kernel.lists.head (.waiting waitList))
  let fuel ← gets (·.kernel.nodeBound)
  let (bitsToClear, yldToHigherPrio) ← unblockWaiters cfg waitList bitsSet fuel head 0 false
  clearEventBits cfg bitsToClear
  pure yldToHigherPrio

/-! ## Waiting for bits -/

/-- The task goes into the wait list, with this block item. -/
def blockFor (cfg : Config) (waitList : Nat) (blockItemVal : EventBits width) (waitTicks : Nat) :
    Prog (Machine width) Unit := do
  let t ← onKernel Kernel.getCurrent
  setBlockItemValue t blockItemVal
  let now ← gets (·.kernel.tickCounter)
  let wakeupTime ← onKernel (Kernel.addTime cfg now waitTicks)
  onKernel (Kernel.blockOnUnsortedWaitlist cfg waitList wakeupTime)

/-- `wait_for_event_group_bits` before the yield: nothing is returned where it yields. -/
def waitForEventGroupBits (cfg : Config) (waitList : Nat) (bitsToWaitFor : EventBits width)
    (clearOnExit waitForAll : Bool) (waitTicks : Nat) : Prog (Machine width) (Option (Outcome width)) := do
  let t ← onKernel Kernel.getCurrent
  let bits ← gets (·.blockItemValue t)
  if bits &&& unblockedDueToBitSet width != 0 then
    pure (some (.ok (eventsOf bits)))
  else if ← gets (waitConditionOk bitsToWaitFor waitForAll) then do
    let res ← gets getEventBits
    if clearOnExit then
      clearEventBits cfg bitsToWaitFor
    pure (some (.ok res))
  else if waitTicks > 0 then do
    let controlBits := (if clearOnExit then clearEventsOnExitBit width else 0) |||
      (if waitForAll then waitForAllBits width else 0)
    blockFor cfg waitList (bitsToWaitFor ||| controlBits) waitTicks
    pure none
  else do
    let res ← gets getEventBits
    pure (some (.ok res))

/-- After the yield, where the task was not unblocked by `set`: the condition is looked at again. -/
def lastLook (cfg : Config) (bitsToWaitFor : EventBits width) (waitForAll : Bool) (eventBits : EventBits width) :
    Prog (Machine width) (Outcome width) := do
  let res := eventsOf eventBits
  if eventBits &&& unblockedDueToBitSet width == 0 then do
    let ok ← gets (waitConditionOk bitsToWaitFor waitForAll)
    if ok && eventBits &&& clearEventsOnExitBit width != 0 then
      clearEventBits cfg bitsToWaitFor
    pure (if ok then .ok res else .error res)
  else
    pure (.ok res)

/-- `wait_for_event_group_bits` after the yield. -/
def waitAwoken (cfg : Config) (bitsToWaitFor : EventBits width) (waitForAll : Bool) :
    Prog (Machine width) (Outcome width) := do
  let t ← onKernel Kernel.getCurrent
  let eventBits ← gets (·.blockItemValue t)
  lastLook cfg bitsToWaitFor waitForAll eventBits

/-! ## Synchronization -/

/-- `sync_event_group_bits` up to the yield of its `set_event_group_bits`, with `original_bits`. -/
def syncSet (cfg : Config) (waitList : Nat) (bitsToSet : EventBits width) :
    Prog (Machine width) (EventBits width × Bool) := do
  let originalBits ← run cfg fun b => (eventsOf b, b)
  let yldToHigherPrio ← setEventGroupBits cfg waitList bitsToSet
  pure (originalBits, yldToHigherPrio)

/-- The rest of its critical section: nothing is returned where it yields. -/
def syncTest (cfg : Config) (waitList : Nat) (bitsToSet bitsToWaitFor : EventBits width) (waitTicks : Nat)
    (originalBits : EventBits width) : Prog (Machine width) (Option (Outcome width)) := do
  if (originalBits ||| bitsToSet) &&& bitsToWaitFor == bitsToWaitFor then do
    clearEventBits cfg bitsToWaitFor
    pure (some (.ok (originalBits ||| bitsToSet)))
  else if waitTicks > 0 then do
    blockFor cfg waitList (bitsToWaitFor ||| clearEventsOnExitBit width ||| waitForAllBits width) waitTicks
    pure none
  else do
    let ret ← gets getEventBits
    pure (some (.ok ret))

/-- `sync_event_group_bits` after the yield. -/
def syncAwoken (cfg : Config) (bitsToWaitFor : EventBits width) : Prog (Machine width) (Outcome width) := do
  let t ← onKernel Kernel.getCurrent
  let eventBits ← gets (·.blockItemValue t)
  -- `reset_block_item_value`
  setBlockItemValue t 0
  lastLook cfg bitsToWaitFor true eventBits

/-! ## The syscalls -/

inductive Call (width : PtrWidth)
  | wait (bitsToWaitFor : EventBits width) (clearOnExit waitForAll : Bool) (waitTicks : Nat)
  | set (bitsToSet : EventBits width)
  | sync (bitsToSet bitsToWaitFor : EventBits width) (waitTicks : Nat)
deriving DecidableEq

/-- What a task is about to do. -/
inductive Activity (width : PtrWidth)
  /-- It is outside of syscalls. -/
  | idle
  /-- It begins the call, or begins it again after a power failure. -/
  | calling (c : Call width)
  /-- It is in the `arch_yield` of `set` and in the critical section of `sync`. -/
  | inSet (bitsToSet bitsToWaitFor : EventBits width) (waitTicks : Nat) (originalBits : EventBits width)
  /-- It is in the `arch_yield` after it has gone into the wait list. -/
  | yielding (c : Call width)
  /-- The body of the call has returned. -/
  | ending (c : Call width) (r : Outcome width)
  /-- It is in a syscall that is not about this event group. -/
  | elsewhere
deriving DecidableEq

/-- The epilogue of `sys_event_group_wait`. -/
def epilogue (t : Nat) : Call width → Prog (Machine width) Unit
  | .wait _ _ _ _ => setBlockItemValue t 0
  | _ => pure ()

def returnOrYield (c : Call width) : Option (Outcome width) → Activity width
  | none => .yielding c
  | some r => .ending c r

/-- The body of the call, up to where it yields or returns. -/
def begin (cfg : Config) (port : Port) (waitList : Nat) : Call width → Prog (Machine width) (Activity width)
  | .wait bitsToWaitFor clearOnExit waitForAll waitTicks => do
      let r ← waitForEventGroupBits cfg waitList bitsToWaitFor clearOnExit waitForAll waitTicks
      pure (returnOrYield (.wait bitsToWaitFor clearOnExit waitForAll waitTicks) r)
  | .set bitsToSet => do
      let _ ← setEventGroupBits cfg waitList bitsToSet
      pure (.ending (.set bitsToSet) (.ok 0))
  | .sync bitsToSet bitsToWaitFor waitTicks => do
      let (originalBits, yldToHigherPrio) ← syncSet cfg waitList bitsToSet
      -- on Cortex-M the yield takes effect at the end of the critical section
      if port = .msp430 ∧ yldToHigherPrio = true then
        pure (.inSet bitsToSet bitsToWaitFor waitTicks originalBits)
      else do
        let r ← syncTest cfg waitList bitsToSet bitsToWaitFor waitTicks originalBits
        pure (returnOrYield (.sync bitsToSet bitsToWaitFor waitTicks) r)

/-- `syscall_begin!` and the body. -/
def attempt (cfg : Config) (port : Port) (waitList : Nat) (c : Call width) : Prog (Machine width) (Activity width) := do
  let t ← onKernel Kernel.getCurrent
  match ← gets (·.entry t) with
  | some _ => do
      let recovering ← gets (·.kernel.recoveryMode t)
      check (cfg.debugAssertions → recovering)
      epilogue t c
      pure .idle
  | none => do
      setTxPtr t 0
      begin cfg port waitList c

/-- `syscall_end!`. -/
def syscallEnd (c : Call width) (r : Outcome width) : Prog (Machine width) (Activity width) := do
  let t ← onKernel Kernel.getCurrent
  store fun m => { m with entry := Function.update m.entry t (some r) }
  store fun m => { m with txResults := Function.update m.txResults t [] }
  onKernel (store fun k => { k with listTxDone := Function.update k.listTxDone t false })
  epilogue t c
  pure .idle

/-- What the task does next, without a break in which others could run. -/
def Activity.prog (cfg : Config) (port : Port) (waitList : Nat) : Activity width → Prog (Machine width) (Activity width)
  | calling c => attempt cfg port waitList c
  | inSet bitsToSet bitsToWaitFor waitTicks originalBits => do
      let r ← syncTest cfg waitList bitsToSet bitsToWaitFor waitTicks originalBits
      pure (returnOrYield (.sync bitsToSet bitsToWaitFor waitTicks) r)
  | yielding (.wait bitsToWaitFor clearOnExit waitForAll waitTicks) => do
      let r ← waitAwoken cfg bitsToWaitFor waitForAll
      pure (.ending (.wait bitsToWaitFor clearOnExit waitForAll waitTicks) r)
  | yielding (.sync bitsToSet bitsToWaitFor waitTicks) => do
      let r ← syncAwoken cfg bitsToWaitFor
      pure (.ending (.sync bitsToSet bitsToWaitFor waitTicks) r)
  | ending c r => syscallEnd c r
  -- what `syscall_end!` does to the event group is the same for every syscall that returns
  | elsewhere => syscallEnd (.set 0) (.ok 0)
  | a => pure a

/-- `sys_event_group_set`. -/
def sysEventGroupSet (cfg : Config) (port : Port) (waitList : Nat) (bitsToSet : EventBits width) :
    Prog (Machine width) Unit := do
  let a ← attempt cfg port waitList (.set bitsToSet)
  let _ ← a.prog cfg port waitList

/-- The restart of the scheduler. A task recovers when it runs next, which nothing before that depends on: an entry
says that it had reached `syscall_end!`. -/
def reboot (cfg : Config) : Prog (Machine width) Unit := do
  onKernel (Kernel.recoverListTransaction cfg)
  store fun m => { m with
    kernel := { m.kernel with
      recoveryMode := fun _ => true
      listTxDone := fun t => m.kernel.listTxDone t && (m.entry t).isNone }
    txResults := fun t => if (m.entry t).isNone then m.txResults t else [] }

end EventGroup

end IntOS
