import IntOS.Sched.Lemmas.Contents

/-!
# The scheduler as a program on sequences

What the scheduler is for, without links, cursors and logs: `Schedule.step` is a function on the sequences of the tasks
that are ready, delayed and waiting.
-/

namespace IntOS

structure Schedule where
  contents : Contents
  taskCnt : Nat
  priority : Nat → Nat
  status : Nat → TaskState
  wakeupTime : Nat → Nat
  listTxDone : Nat → Bool
  recoveryMode : Nat → Bool
  current : Option Nat
  curMaxPriority : Nat
  schedulerStarted : Bool
  tickCounter : Nat
  nextUnblockTime : Nat

namespace Schedule

open Kernel (Op)

def new (cfg : Config) : Schedule where
  contents := fun _ => []
  taskCnt := 0
  priority := fun _ => 0
  status := fun _ => .ready
  wakeupTime := fun _ => 0
  listTxDone := fun _ => false
  recoveryMode := fun _ => false
  current := none
  curMaxPriority := numPriorityLevels
  schedulerStarted := false
  tickCounter := 0
  nextUnblockTime := cfg.maxDelayTime

def setWakeupTime (t v : Nat) (s : Schedule) : Schedule := { s with wakeupTime := Function.update s.wakeupTime t v }

/-- A task leaves the delayed list, and its wait list if it waits. -/
def wake (s : Schedule) (t : Nat) : Schedule :=
  { s with contents := s.contents.wake s.priority t, status := Function.update s.status t .ready }

/-- A task is delayed until its wakeup time. -/
def sleep (t : Nat) (s : Schedule) : Schedule :=
  { s with
    contents := s.contents.sleep s.wakeupTime t
    status := Function.update s.status t .blocked
    nextUnblockTime := if s.wakeupTime t < s.nextUnblockTime then s.wakeupTime t else s.nextUnblockTime }

def wakeFirst (w : Nat) (s : Schedule) : Schedule :=
  match (s.contents (.waiting w)).head? with
  | none => s
  | some n => s.wake n.task

/-- What a syscall of the task `t` does once. -/
def once (cfg : Config) (t : Nat) (f : Schedule → Schedule) (s : Schedule) : Option Schedule :=
  if s.listTxDone t then
    if cfg.debugAssertions && !s.recoveryMode t then none else some s
  else
    some { f s with listTxDone := Function.update (f s).listTxDone t true }

/-- The new task runs first if none of a higher priority was there before it. -/
def createTask (cfg : Config) (prio : Nat) (s : Schedule) : Schedule :=
  if s.taskCnt ≥ cfg.taskNumLimit ∨ prio ≥ numPriorityLevels then
    s
  else
    let first := ¬ s.schedulerStarted ∧ prio < s.curMaxPriority
    { s with
      contents := s.contents.join prio s.taskCnt
      taskCnt := s.taskCnt + 1
      priority := Function.update s.priority s.taskCnt prio
      status := Function.update s.status s.taskCnt .ready
      wakeupTime := Function.update s.wakeupTime s.taskCnt 0
      listTxDone := Function.update s.listTxDone s.taskCnt false
      recoveryMode := Function.update s.recoveryMode s.taskCnt false
      current := if first then some s.taskCnt else s.current
      curMaxPriority := if first then prio else s.curMaxPriority }

/-- The tasks that wake at the tick `now`, in the order in which they do. -/
def due (s : Schedule) (now : Nat) : List Nat :=
  ((s.contents .delayed).map NodeRef.task).takeWhile fun t => s.wakeupTime t ≤ now

def wakeDue (now : Nat) (s : Schedule) : Schedule := (s.due now).foldl wake s

def setNextUnblockTime (cfg : Config) (s : Schedule) : Schedule :=
  { s with
    nextUnblockTime := ((s.contents .delayed).head?.map fun n => s.wakeupTime n.task).getD cfg.maxDelayTime }

def processTick (cfg : Config) (s : Schedule) : Option Schedule :=
  if cfg.debugAssertions && decide (2 ^ cfg.timeBits ≤ s.tickCounter + 1) then
    none
  else
    let now := (s.tickCounter + 1) % 2 ^ cfg.timeBits
    let s := { s with tickCounter := now }
    if now ≥ s.nextUnblockTime then
      some ((s.wakeDue now).setNextUnblockTime cfg)
    else
      some s

/-- The highest priority with a ready task, and the task after its first one. -/
def nextTask (s : Schedule) : Option (Nat × Nat) :=
  (List.range numPriorityLevels).findSome? fun i =>
    ((s.contents (.ready i)).rotate 1).head?.map fun n => (i, n.task)

/-- The chosen task goes on, and the previous one goes to the end of its ring. -/
def switchTo (cfg : Config) (prevTask i t : Nat) (s : Schedule) : Option Schedule :=
  if t ≠ prevTask then
    if cfg.debugAssertions && s.status t != .ready && s.status t != .running then
      none
    else
      some { s with
        contents := s.contents.turn i
        status := Function.update (Function.update s.status t .running) prevTask
          (if s.status prevTask = .blocked then .blocked else .ready)
        current := some t }
  else if cfg.debugAssertions && (s.contents (.ready i)).length != 1 then
    none
  else
    some s

def taskSwitch (cfg : Config) (s : Schedule) : Option Schedule := do
  let prevTask ← s.current
  let next ← s.nextTask
  s.switchTo cfg prevTask next.1 next.2

/-- The state after an operation, if it does not panic. -/
def step (cfg : Config) : Op → Schedule → Option Schedule
  | .createTask prio, s => some (s.createTask cfg prio)
  | .startKernel, s => some { s with schedulerStarted := true }
  | .taskDelay nticks, s => do
      let t ← s.current
      if s.tickCounter + nticks < 2 ^ cfg.timeBits then
        (s.setWakeupTime t (s.tickCounter + nticks)).once cfg t (sleep t)
      else
        none
  | .block w wakeupTime, s => do
      let t ← s.current
      let s' := (s.setWakeupTime t wakeupTime).sleep t
      some { s' with contents := s'.contents.wait s'.priority w t }
  | .blockUnsorted w wakeupTime, s => do
      let t ← s.current
      let s' := (s.setWakeupTime t wakeupTime).sleep t
      some { s' with contents := s'.contents.waitFront w t }
  | .wake w, s => do
      let t ← s.current
      s.once cfg t (wakeFirst w)
  | .wakeNode _ n, s => some (s.wake n.task)
  | .processTick, s => s.processTick cfg
  | .taskSwitch, s => s.taskSwitch cfg
  | .syscallEnd, s => do
      let t ← s.current
      some { s with listTxDone := Function.update s.listTxDone t false }

/-- When an operation may come. -/
def enabled (s : Schedule) : Op → Bool
  | .taskDelay _ | .block _ _ | .blockUnsorted _ _ => s.current.all fun t => s.status t != .blocked
  | .wakeNode w n => decide (n ∈ s.contents (.waiting w))
  | .taskSwitch => s.schedulerStarted
  | _ => true

def run (cfg : Config) : List Op → Schedule → Option Schedule
  | [], s => some s
  | op :: ops, s => if s.enabled op then (s.step cfg op).bind (run cfg ops) else none

/-- The schedule that a kernel shows whose lists hold `q`. -/
@[simps] def of (k : Kernel) (q : Contents) : Schedule :=
  ⟨q, k.taskCnt, k.priority, k.status, k.wakeupTime, k.listTxDone, k.recoveryMode, k.current, k.curMaxPriority,
    k.schedulerStarted, k.tickCounter, k.nextUnblockTime⟩

end Schedule

namespace Kernel

/-- The linked lists hold the sequences, and the other fields are the same. -/
structure Refines (k : Kernel) (s : Schedule) : Prop where
  shows : Shows k s.contents
  same : s = Schedule.of k s.contents

end Kernel

end IntOS
