import IntOS.Arch
import IntOS.Queue.Blocking

/-!
# Counting semaphores (`src/semaphore.rs`)

One semaphore, its wait list and the tasks that use it, without power failures. A kernel transaction takes
effect as a whole, so that of `try_take` and that of `give` are one store each.
-/

namespace IntOS

open Persist Persist.Prog

/-- What of a semaphore never changes. -/
structure Semaphore where
  size : Nat
  waitList : Nat

namespace Semaphore

variable {α : Type}

/-- The scheduler, and what of the semaphore changes. -/
structure Machine where
  kernel : Kernel
  count : Nat
  mutexHolder : Option Nat

def onKernel (m : Prog Kernel α) : Prog Machine α := zoom (·.kernel) (fun k s => { s with kernel := k }) m

def tryTake : Prog Machine Bool := do
  let count ← gets (·.count)
  if count > 0 then do
    let t ← onKernel Kernel.getCurrent
    store fun s => { s with count := s.count - 1, mutexHolder := some t }
    pure true
  else
    pure false

/-- Whether a task is to be woken. -/
def give (sem : Semaphore) : Prog Machine Bool := do
  let count ← gets (·.count)
  if count = sem.size then
    pure false
  else do
    check (count < sem.size)
    store fun s => { s with count := s.count + 1 }
    pure true

/-- How a round of `semaphore_take` ends. -/
inductive Outcome
  | yield (c : Countdown)
  | exit (taken : Bool)

/-- A round of the loop of `semaphore_take`. On Cortex-M the countdown is updated before the yield takes
effect. -/
def semaphoreTake (cfg : Config) (port : Port) (sem : Semaphore) (c : Countdown) : Prog Machine Outcome := do
  if ← tryTake then
    pure (.exit true)
  else if c.waitTicks ≠ 0 then do
    let now ← gets (·.kernel.tickCounter)
    let wakeupTime ← onKernel
      (if c.wakeupTimeSet then pure c.wakeupTime else Kernel.addTime cfg now c.waitTicks)
    onKernel (Kernel.blockOnWaitlist cfg sem.waitList wakeupTime)
    let c' : Countdown := { c with wakeupTimeSet := true, wakeupTime := wakeupTime }
    pure (.yield (match port with
      | .msp430 => c'
      | .cortexM => updateCountdown now c'))
  else
    pure (.exit false)

/-- The critical section of `semaphore_give`, which returns `yield_now`. -/
def semaphoreGive (cfg : Config) (sem : Semaphore) : Prog Machine Bool := do
  if ← sem.give then do
    let item ← gets (·.kernel.lists.head (.waiting sem.waitList))
    let current ← onKernel Kernel.getCurrent
    let yieldNow ← gets fun s => item.any fun n =>
      s.kernel.priority n.task < s.kernel.priority current && s.kernel.status n.task == .ready
    onKernel (Kernel.rollForwardPopRemoveFromWaitlist cfg sem.waitList)
    pure yieldNow
  else
    pure false

/-! ## The tasks -/

inductive Activity
  /-- Outside of syscalls. -/
  | idle
  /-- Before a round of `semaphore_take`. -/
  | trying (c : Countdown)
  /-- In `arch_yield`. -/
  | yielding (c : Countdown)
  /-- Between `semaphore_take` and the end of the syscall. -/
  | taken (ok : Bool)
  /-- Between the critical section of `semaphore_give` and the end of the syscall. -/
  | given (yieldNow : Bool)
  /-- In a syscall that is not about this semaphore. -/
  | elsewhere

/-- In a syscall that may have done its list transaction. -/
def Activity.Finishing : Activity → Prop
  | taken _ | given _ | elsewhere => True
  | _ => False

/-- In a call of `semaphore_take` that has not ended. -/
def Activity.Tries : Activity → Prop
  | trying _ | yielding _ => True
  | _ => False

def Outcome.activity : Outcome → Activity
  | yield c => .yielding c
  | exit taken => .taken taken

structure System where
  machine : Machine
  activity : Nat → Activity
  /-- The tasks that a give has taken out of the wait list and that have not tried again since. -/
  woken : Finset Nat

namespace System

open Kernel

abbrev kernel (s : System) : Kernel := s.machine.kernel

/-- `Semaphore::new`. -/
def start (cfg : Config) (sem : Semaphore) : System where
  machine := ⟨Kernel.new cfg, sem.size, none⟩
  activity := fun _ => .idle
  woken := ∅

def Executes (s : System) (t : Nat) : Prop := s.kernel.current = some t ∧ s.kernel.status t ≠ .blocked

/-- What is not a call on this semaphore. -/
def Other (sem : Semaphore) (s : System) : Kernel.Op → Prop
  | .createTask _ | .startKernel | .processTick | .taskSwitch => True
  | .taskDelay _ => ∀ t, s.kernel.current = some t → s.activity t = .elsewhere
  | .block l _ | .blockUnsorted l _ | .wake l | .wakeNode l _ =>
      (∀ t, s.kernel.current = some t → s.activity t = .elsewhere) ∧ l ≠ sem.waitList
  | .syscallEnd => False

/-- The countdown of a task that is back from `arch_yield`. -/
def resumed (port : Port) (now : Nat) (c : Countdown) : Countdown :=
  match port with
  | .msp430 => updateCountdown now c
  | .cortexM => c

inductive Step (cfg : Config) (port : Port) (sem : Semaphore) : System → System → Prop
  /-- The holder of the semaphore returns at once. -/
  | holds {s : System} {t : Nat} : s.Executes t → s.activity t = .idle → s.machine.mutexHolder = some t →
      Step cfg port sem s { s with activity := Function.update s.activity t (.taken true) }
  | take {s : System} {t : Nat} (waitTicks : Nat) : s.Executes t → s.activity t = .idle →
      s.machine.mutexHolder ≠ some t →
      Step cfg port sem s { s with activity := Function.update s.activity t (.trying ⟨waitTicks, false, 0⟩) }
  | round {s : System} {t : Nat} {c : Countdown} {o : Outcome} {m : Machine} : s.Executes t →
      s.activity t = .trying c → (semaphoreTake cfg port sem c s.machine).out = some (o, m) →
      Step cfg port sem s
        { machine := m
          activity := Function.update s.activity t o.activity
          woken := s.woken.erase t }
  | resume {s : System} {t : Nat} {c : Countdown} : s.Executes t → s.activity t = .yielding c →
      Step cfg port sem s { s with
        activity := Function.update s.activity t (.trying (resumed port s.kernel.tickCounter c)) }
  | give {s : System} {t : Nat} {yieldNow : Bool} {m : Machine} : s.Executes t → s.activity t = .idle →
      (semaphoreGive cfg sem s.machine).out = some (yieldNow, m) →
      Step cfg port sem s
        { machine := m
          activity := Function.update s.activity t (.given yieldNow)
          woken := s.woken ∪ System.leaves s.kernel m.kernel sem.waitList }
  | syscallBegin {s : System} {t : Nat} : s.Executes t → s.activity t = .idle →
      Step cfg port sem s { s with activity := Function.update s.activity t .elsewhere }
  | syscallEnd {s : System} {t : Nat} {k : Kernel} : s.Executes t → (s.activity t).Finishing →
      (Op.syscallEnd.prog cfg s.kernel).out = some ((), k) →
      Step cfg port sem s { s with
        machine := { s.machine with kernel := k }
        activity := Function.update s.activity t .idle }
  | other {s : System} {op : Kernel.Op} {k : Kernel} : op.Enabled s.kernel → Other sem s op →
      (op.prog cfg s.kernel).out = some ((), k) →
      Step cfg port sem s { s with machine := { s.machine with kernel := k } }

/-- The states of runs of any length. -/
def Reachable (cfg : Config) (port : Port) (sem : Semaphore) : System → Prop :=
  Relation.ReflTransGen (Step cfg port sem) (start cfg sem)

end System

end Semaphore

end IntOS
