import IntOS.Queue.Queue
import IntOS.Sched.Runs

/-!
# Sending and receiving (`queue_send_impl` and `queue_receive` in `src/queue.rs`)

One queue, its two wait lists and the tasks that use it, without power failures. A call goes through its loop
in rounds, each without interrupts, and yields in between.
-/

namespace IntOS

open Persist Persist.Prog

inductive Role
  | sender
  | receiver
deriving DecidableEq, Repr

def Role.other : Role → Role
  | sender => receiver
  | receiver => sender

def Queue.Op.role : Queue.Op → Role
  | pushBack _ => .sender
  | pushFront _ => .sender
  | dequeue => .receiver

/-- The wait lists of a queue. -/
structure QueueLists where
  blockedReaders : Nat
  blockedWriters : Nat
  ne : blockedReaders ≠ blockedWriters

/-- Where the tasks of a role wait. -/
def QueueLists.of (lists : QueueLists) : Role → Nat
  | .sender => lists.blockedWriters
  | .receiver => lists.blockedReaders

/-- What a wait for a role is about: free slots or items. -/
def Queue.available {w : PtrWidth} (q : Queue w) (m : Nat → UInt8) : Role → Nat
  | .sender => q.length - (q.content m).length
  | .receiver => (q.content m).length

/-- The scheduler and the memory of the queue. -/
structure Machine where
  kernel : Kernel
  mem : Nat → UInt8

/-- The variables `wait_ticks`, `wakeup_time_set` and `wakeup_time` of a call. -/
structure Countdown where
  waitTicks : Nat
  wakeupTimeSet : Bool
  wakeupTime : Nat

/-- `time::update_countdown`. -/
def updateCountdown (curTime : Nat) (c : Countdown) : Countdown :=
  { c with waitTicks := if curTime ≥ c.wakeupTime then 0 else c.wakeupTime - curTime }

/-- How a round ends: `yld` is set, or `exit_loop` is. -/
inductive Outcome
  | yield (c : Countdown)
  | exit (res : Except QueueErr (List UInt8))

namespace Machine

variable {w : PtrWidth} {α : Type}

def onKernel (m : Prog Kernel α) : Prog Machine α := zoom (·.kernel) (fun k s => { s with kernel := k }) m

/-- `try_run_relaxed` of an operation on the buffer, when no power failure interrupts it. -/
def tryRunRelaxed (q : Queue w) (op : Queue.Op) : Prog Machine (Except QueueErr (List UInt8)) := do
  let r ← gets fun s => (op.body q).eval s.mem
  store fun s => { s with mem := r.2 }
  pure r.1

/-- One round of a call. `queue_send_impl` and `queue_receive` differ in the operation, in the list on which
the task blocks, in the one from which it wakes a task, and in the error. -/
def queueRound (cfg : Config) (q : Queue w) (op : Queue.Op) (blocked waked : Nat) (err : QueueErr)
    (c : Countdown) : Prog Machine Outcome := do
  match ← tryRunRelaxed q op with
  | .error _ =>
      if c.waitTicks ≠ 0 then do
        let now ← gets (·.kernel.tickCounter)
        let wakeupTime ← onKernel
          (if c.wakeupTimeSet then pure c.wakeupTime else Kernel.addTime cfg now c.waitTicks)
        onKernel (Kernel.blockOnWaitlist cfg blocked wakeupTime)
        pure (.yield { c with wakeupTimeSet := true, wakeupTime := wakeupTime })
      else
        pure (.exit (.error err))
  | .ok item => do
      onKernel (Kernel.rollForwardPopRemoveFromWaitlist cfg waked)
      pure (.exit (.ok item))

/-- A round of `queue_send_impl`. -/
def queueSendImpl (cfg : Config) (q : Queue w) (lists : QueueLists) (item : Nat → UInt8) (isBack : Bool) :
    Countdown → Prog Machine Outcome :=
  queueRound cfg q (if isBack then .pushBack item else .pushFront item) lists.blockedWriters
    lists.blockedReaders .queueFull

def queueSendBack (cfg : Config) (q : Queue w) (lists : QueueLists) (item : Nat → UInt8) :
    Countdown → Prog Machine Outcome :=
  queueSendImpl cfg q lists item true

def queueSendFront (cfg : Config) (q : Queue w) (lists : QueueLists) (item : Nat → UInt8) :
    Countdown → Prog Machine Outcome :=
  queueSendImpl cfg q lists item false

/-- A round of `queue_receive`. -/
def queueReceive (cfg : Config) (q : Queue w) (lists : QueueLists) : Countdown → Prog Machine Outcome :=
  queueRound cfg q .dequeue lists.blockedReaders lists.blockedWriters .queueEmpty

/-- A round of the call that operates on the buffer with `op`. -/
def round (cfg : Config) (q : Queue w) (lists : QueueLists) : Queue.Op → Countdown → Prog Machine Outcome
  | .pushBack item => queueSendBack cfg q lists item
  | .pushFront item => queueSendFront cfg q lists item
  | .dequeue => queueReceive cfg q lists

end Machine

/-! ## The tasks -/

inductive Activity
  /-- Outside of syscalls. -/
  | idle
  /-- Before a round. -/
  | trying (op : Queue.Op) (c : Countdown)
  /-- In `arch_yield`. -/
  | yielding (op : Queue.Op) (c : Countdown)
  /-- Between the call and `syscall_end!`. -/
  | leaving (res : Except QueueErr (List UInt8))
  /-- In a syscall that is not about this queue. -/
  | elsewhere

def Outcome.activity (op : Queue.Op) : Outcome → Activity
  | yield c => .yielding op c
  | exit res => .leaving res

structure System where
  machine : Machine
  activity : Nat → Activity
  /-- The tasks of each role that a call of the other role has taken out of their wait list and that have not
  tried again since. -/
  woken : Role → Finset Nat

namespace System

open Kernel

variable {w : PtrWidth}

abbrev kernel (s : System) : Kernel := s.machine.kernel

/-- Memory in an arbitrary state, apart from the new queue. -/
def start (cfg : Config) (q : Queue w) (m : Nat → UInt8) : System where
  machine := ⟨Kernel.new cfg, (q.init.eval m).2⟩
  activity := fun _ => .idle
  woken := fun _ => ∅

/-- The task executes. -/
def Executes (s : System) (t : Nat) : Prop := s.kernel.current = some t ∧ s.kernel.status t ≠ .blocked

/-- The tasks whose event node leaves the wait list `l`. -/
def leaves (k k' : Kernel) (l : Nat) : Finset Nat :=
  (Finset.range k.taskCnt).filter fun u =>
    k.lists.list (.event u) = some (.waiting l) ∧ k'.lists.list (.event u) ≠ some (.waiting l)

/-- What is not a call on this queue: the scheduler and its interrupts, and other syscalls, which have wait
lists of their own. -/
def Other (lists : QueueLists) (s : System) : Kernel.Op → Prop
  | .createTask _ | .startKernel | .processTick | .taskSwitch => True
  | .taskDelay _ => ∀ t, s.kernel.current = some t → s.activity t = .elsewhere
  | .block l _ | .blockUnsorted l _ | .wake l | .wakeNode l _ =>
      (∀ t, s.kernel.current = some t → s.activity t = .elsewhere) ∧ ∀ r, l ≠ lists.of r
  | .syscallEnd => False

inductive Step (cfg : Config) (q : Queue w) (lists : QueueLists) : System → System → Prop
  | call {s : System} {t : Nat} (op : Queue.Op) (waitTicks : Nat) : s.Executes t → s.activity t = .idle →
      Step cfg q lists s { s with activity := Function.update s.activity t (.trying op ⟨waitTicks, false, 0⟩) }
  | round {s : System} {t : Nat} {op : Queue.Op} {c : Countdown} {o : Outcome} {m : Machine} : s.Executes t →
      s.activity t = .trying op c → (Machine.round cfg q lists op c s.machine).out = some (o, m) →
      Step cfg q lists s
        { machine := m
          activity := Function.update s.activity t (o.activity op)
          woken := fun r => (s.woken r ∪ leaves s.kernel m.kernel (lists.of r)).erase t }
  /-- The task is back from `arch_yield`. -/
  | resume {s : System} {t : Nat} {op : Queue.Op} {c : Countdown} : s.Executes t →
      s.activity t = .yielding op c →
      Step cfg q lists s { s with
        activity := Function.update s.activity t (.trying op (updateCountdown s.kernel.tickCounter c)) }
  | syscallBegin {s : System} {t : Nat} : s.Executes t → s.activity t = .idle →
      Step cfg q lists s { s with activity := Function.update s.activity t .elsewhere }
  | syscallEnd {s : System} {t : Nat} {k : Kernel} : s.Executes t →
      (s.activity t = .elsewhere ∨ ∃ res, s.activity t = .leaving res) →
      (Op.syscallEnd.prog cfg s.kernel).out = some ((), k) →
      Step cfg q lists s { s with
        machine := { s.machine with kernel := k }
        activity := Function.update s.activity t .idle }
  | other {s : System} {op : Kernel.Op} {k : Kernel} : op.Enabled s.kernel → Other lists s op →
      (op.prog cfg s.kernel).out = some ((), k) →
      Step cfg q lists s { s with machine := { s.machine with kernel := k } }

/-- The states of runs of any length. -/
def Reachable (cfg : Config) (q : Queue w) (lists : QueueLists) (m : Nat → UInt8) : System → Prop :=
  Relation.ReflTransGen (Step cfg q lists) (start cfg q m)

end System

end IntOS
