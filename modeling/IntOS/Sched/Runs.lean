import IntOS.Sched.Lemmas.Steps

/-!
# Runs of the scheduler

What tasks, interrupts and the boot code do to the scheduler, one operation after the other, without power
failures.
-/

namespace IntOS

open Persist Persist.Prog IntOS.Lists

namespace Kernel

/-- The node from which the code goes through a list. -/
def entry (k : Kernel) : ListRef → Option NodeRef
  | .ready prio => k.lists.cursor (.ready prio)
  | l => k.lists.head l

/-- The node is found in the list. -/
def InList (k : Kernel) (n : NodeRef) (l : ListRef) : Prop :=
  ∃ x, entry k l = some x ∧ Chain.Reaches k.lists.next x n

inductive Op
  | createTask (prio : Nat)
  | startKernel
  | taskDelay (nticks : Nat)
  /-- A queue or a semaphore blocks the current task. -/
  | block (w wakeupTime : Nat)
  /-- An event group blocks the current task. -/
  | blockUnsorted (w wakeupTime : Nat)
  /-- A peer wakes the first task of the wait list of a queue or a semaphore. -/
  | wake (w : Nat)
  /-- A peer wakes a task of the wait list of an event group. -/
  | wakeNode (w : Nat) (n : NodeRef)
  | processTick
  | taskSwitch
  /-- `syscall_end!` resets `list_tx_done`. -/
  | syscallEnd

def Op.prog (cfg : Config) : Op → Prog Kernel Unit
  | createTask prio => do
      let _ ← createTaskStatic cfg prio
  | startKernel => store fun k => { k with schedulerStarted := true }
  | taskDelay nticks => Kernel.taskDelay cfg nticks
  | block w wakeupTime => blockOnWaitlist cfg w wakeupTime
  | blockUnsorted w wakeupTime => blockOnUnsortedWaitlist cfg w wakeupTime
  | wake w => rollForwardPopRemoveFromWaitlist cfg w
  | wakeNode w n => rollForwardRemoveFromUnsortedWaitlist cfg w n
  | processTick => Kernel.processTick cfg
  | taskSwitch => Kernel.taskSwitch cfg
  | syscallEnd => do
      let t ← getCurrent
      store fun k => { k with listTxDone := Function.update k.listTxDone t false }

/-- A blocked task yields before it does anything else, an event group goes through the tasks that wait, and
tasks are switched once the scheduler has started. -/
def Op.Enabled (k : Kernel) : Op → Prop
  | taskDelay _ => Executing k
  | block _ _ => Executing k
  | blockUnsorted _ _ => Executing k
  | wakeNode w n => InList k n (.waiting w)
  | taskSwitch => k.schedulerStarted = true
  | _ => True

/-- The states of runs without power failures. -/
inductive Reachable (cfg : Config) : Kernel → Prop
  | init : Reachable cfg (new cfg)
  | step {k k' : Kernel} {op : Op} : Reachable cfg k → op.Enabled k → (op.prog cfg k).out = some ((), k') →
      Reachable cfg k'

/-- The state after the operation, if it does not panic. -/
def Op.exec (cfg : Config) (op : Op) (k : Kernel) : Kernel :=
  match (op.prog cfg k).out with
  | none => k
  | some (_, k') => k'

variable {cfg : Config} {k k' : Kernel} {n : NodeRef} {l : ListRef}

theorem Op.out_exec (op : Op) (hsome : (op.prog cfg k).out.isSome = true) :
    (op.prog cfg k).out = some ((), op.exec cfg k) := by
  obtain ⟨⟨_, k'⟩, hout⟩ := Option.isSome_iff_exists.mp hsome
  rw [Op.exec, hout]

theorem Reachable.exec (h : Reachable cfg k) (op : Op) (ho : op.Enabled k)
    (hsome : (op.prog cfg k).out.isSome = true) : Reachable cfg (op.exec cfg k) := h.step ho (op.out_exec hsome)

theorem Reachable.switched (h : Reachable cfg k) (hst : k.schedulerStarted = true)
    (hout : (Kernel.taskSwitch cfg k).out = some ((), k')) : Reachable cfg k' := by
  have ho : Op.taskSwitch.Enabled k := hst
  exact h.step ho hout

/-- What is found in a list is what the fields `list` say, once. -/
theorem WellOrdered.enum {wk : Nat → Nat} (h : WellOrdered wk k.lists) (l : ListRef) :
    ∃ xs : List NodeRef, xs.Nodup ∧ k.lists.len l = xs.length ∧
      ∀ n, (n ∈ xs ↔ InList k n l) ∧ (n ∈ xs ↔ k.lists.list n = some l) := by
  obtain ⟨seq, hs, _⟩ := h
  refine ⟨seq l, hs.nodup l, hs.len l, fun n => ⟨?_, (hs.owner l n).symm⟩⟩
  have hentry : entry k l = (seq l).head? := by
    cases l with
    | ready prio => exact (hs.rings (.ready prio) trivial).cursor
    | delayed => exact (hs.linears .delayed id).head
    | waiting w => exact (hs.linears (.waiting w) id).head
  have hlinks : ∃ p q, Chain.Linked k.lists.prev k.lists.next p (seq l) q ∧ ∀ y, q = some y → y ∈ seq l := by
    cases l with
    | ready prio => exact ⟨_, _, (hs.rings (.ready prio) trivial).links, fun y => List.mem_of_head?⟩
    | delayed => exact ⟨_, _, (hs.linears .delayed id).links, nofun⟩
    | waiting w => exact ⟨_, _, (hs.linears (.waiting w) id).links, nofun⟩
  obtain ⟨p, q, hlinked, hq⟩ := hlinks
  unfold InList
  rw [hentry]
  constructor
  · intro hn
    cases hxs : seq l with
    | nil =>
        rw [hxs] at hn
        cases hn
    | cons x xs =>
        rw [hxs] at hn hlinked
        exact ⟨x, rfl, hlinked.reaches hn⟩
  · rintro ⟨x, hx, hr⟩
    exact hlinked.mem_of_reaches hq (List.mem_of_head? hx) hr

theorem WellOrdered.inList_iff {wk : Nat → Nat} (h : WellOrdered wk k.lists) :
    InList k n l ↔ k.lists.list n = some l := by
  obtain ⟨xs, _, _, hxs⟩ := h.enum l
  rw [← (hxs n).1, (hxs n).2]

theorem Inv.enum (h : Inv k) (l : ListRef) :
    ∃ xs : List NodeRef, xs.Nodup ∧ k.lists.len l = xs.length ∧
      ∀ n, (n ∈ xs ↔ InList k n l) ∧ (n ∈ xs ↔ k.lists.list n = some l) := h.linked.enum l

theorem Inv.inList_iff (h : Inv k) : InList k n l ↔ k.lists.list n = some l := h.linked.inList_iff

theorem Inv.step (h : Inv k) {op : Op} (ho : op.Enabled k) : After (op.prog cfg) (fun _ => Inv) k := by
  cases op with
  | createTask prio =>
      simp only [Op.prog, after_bind]
      exact (h.createTaskStatic prio).after.mono fun _ _ h' => h'.1
  | startKernel =>
      exact ⟨h.linked, h.timely, h.placed, h.free, h.current, h.running, (fun h => by cases h), h.op, h.microOp⟩
  | taskDelay nticks => exact (h.taskDelay ho nticks).mono fun _ _ h' => h'.1
  | block w wakeupTime => exact (h.blockOnWaitlist ho w wakeupTime).mono fun _ _ h' => h'.1
  | blockUnsorted w wakeupTime => exact (h.blockOnUnsortedWaitlist ho w wakeupTime).mono fun _ _ h' => h'.1
  | wake w => exact (h.wakeFirst w).mono fun _ _ h' => h'.1
  | wakeNode w n =>
      have hn := h.inList_iff.mp ho
      obtain ⟨_, hevent, _⟩ := h.waiting hn
      simp only [Op.prog]
      rw [hevent] at hn ⊢
      exact (h.removeFromUnsortedWaitlist hn).after.mono fun _ _ h' => h'.1
  | processTick => exact h.processTick.mono fun _ _ h' => h'.1
  | taskSwitch => exact (h.taskSwitch ho).mono fun _ _ h' => h'.1
  | syscallEnd =>
      simp only [Op.prog, after_bind, after_getCurrent, after_store]
      exact fun t _ => ⟨h.linked, h.timely, h.placed, h.free, h.current, h.running, h.stopped, h.op, h.microOp⟩

theorem Reachable.inv (h : Reachable cfg k) : Inv k := by
  induction h with
  | init => exact inv_new cfg
  | step _ ho hout ih => exact (ih.step ho).post hout

/-! ## A run -/

def qemuDebug : Config := ⟨true, 6, 32⟩

/-- Two tasks of different priorities, the first of them delayed and still to yield. -/
def sleeping : Kernel :=
  (Op.taskDelay 5).exec qemuDebug (Op.startKernel.exec qemuDebug
    ((Op.createTask 7).exec qemuDebug ((Op.createTask 0).exec qemuDebug (new qemuDebug))))

theorem reachable_sleeping : Reachable qemuDebug sleeping := by
  have hinit : Reachable qemuDebug (new qemuDebug) := .init
  have hstart := ((hinit.exec (.createTask 0) trivial rfl).exec (.createTask 7) trivial rfl).exec
    .startKernel trivial rfl
  exact hstart.exec (.taskDelay 5) (fun t ht => by cases ht; exact nofun) rfl

end Kernel

end IntOS
