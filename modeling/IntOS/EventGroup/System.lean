import IntOS.EventGroup.EventGroup
import IntOS.Sched.Lemmas.Events

/-!
# Tasks that use an event group

The calls of all tasks on one event group, step by step, with what else goes on in the kernel and with power failures.
-/

namespace IntOS

open Persist Persist.Prog

namespace EventGroup

variable {width : PtrWidth}

def Activity.call : Activity width → Option (Call width)
  | calling c | yielding c | ending c _ => some c
  | inSet bitsToSet bitsToWaitFor waitTicks _ => some (.sync bitsToSet bitsToWaitFor waitTicks)
  | idle | elsewhere => none

/-- After a power failure a call begins again. -/
def Activity.restarted (a : Activity width) : Activity width :=
  match a.call with
  | some c => .calling c
  | none => a

/-- The kernel transactions of the call up to the one with which it takes the bits that it waits for. A `sync` takes
them itself where the bits before it and its own are enough. -/
def Call.took : Call width → List (EventBits width) → Bool
  | .wait _ _ _ _, results => !results.isEmpty
  | .sync bitsToSet bitsToWaitFor _, originalBits :: _ :: _ :: _ :: _ =>
      (originalBits ||| bitsToSet) &&& bitsToWaitFor == bitsToWaitFor
  | _, _ => false

structure System (width : PtrWidth) where
  machine : Machine width
  activity : Nat → Activity width
  /-- In its call the task has taken the bits that it waits for. -/
  took : Nat → Bool
  /-- In its call the task has been unblocked by the set of another task. -/
  released : Nat → Bool

namespace System

open Kernel

abbrev kernel (s : System width) : Kernel := s.machine.kernel

/-- `EventGroup::new`. -/
def start (cfg : Config) : System width where
  machine :=
    { kernel := Kernel.new cfg, eventBits := 0, blockItemValue := fun _ => 0, txResults := fun _ => [],
      txPtr := fun _ => 0, entry := fun _ => none }
  activity := fun _ => .idle
  took := fun _ => false
  released := fun _ => false

def Executes (s : System width) (t : Nat) : Prop := s.kernel.current = some t ∧ s.kernel.status t ≠ .blocked

/-- What is not a call on this event group. -/
def Other (waitList : Nat) (s : System width) : Kernel.Op → Prop
  | .createTask _ | .startKernel | .processTick | .taskSwitch => True
  | .taskDelay _ => ∀ t, s.kernel.current = some t → s.activity t = .elsewhere
  | .block l _ | .blockUnsorted l _ | .wake l | .wakeNode l _ =>
      (∀ t, s.kernel.current = some t → s.activity t = .elsewhere) ∧ l ≠ waitList
  | .syscallEnd => False

/-- What has come of the calls when the task `t` has got to `m`. -/
def noting (s : System width) (t : Nat) (m : Machine width) : System width :=
  { s with
    took := fun u => s.took u || (s.activity u).call.any fun c => c.took (m.txResults u)
    released := fun u => s.released u || (u != t && (m.entry u).isNone &&
      m.blockItemValue u != s.machine.blockItemValue u && m.blockItemValue u &&& unblockedDueToBitSet width != 0) }

inductive Event
  /-- The task goes on. -/
  | run (t : Nat)
  /-- Power fails, while a task goes on or else. -/
  | fail (running : Option Nat)
  | other

/-- The task goes on, to the end or not. -/
def Event.Runs (t : Nat) : Event → Prop
  | run u => u = t
  | fail running => running = some t
  | other => False

inductive Step (cfg : Config) (port : Port) (waitList : Nat) : Event → System width → System width → Prop
  | call {s : System width} {t : Nat} (c : Call width) : s.Executes t → s.activity t = .idle →
      Step cfg port waitList .other s
        { machine := { s.machine with entry := Function.update s.machine.entry t none }
          activity := Function.update s.activity t (.calling c)
          took := Function.update s.took t false
          released := Function.update s.released t false }
  | run {s : System width} {t : Nat} {a : Activity width} {m : Machine width} : s.Executes t → s.activity t ≠ .idle →
      ((s.activity t).prog cfg port waitList s.machine).out = some (a, m) →
      Step cfg port waitList (.run t) s
        { s.noting t m with
          machine := m
          activity := Function.update s.activity t a }
  /-- The task has been in another wait before, which it bypasses on its way to the call. -/
  | bypass {s : System width} {t : Nat} {c : Call width} : s.Executes t → s.activity t = .calling c →
      Step cfg port waitList .other s { s with
        machine := { s.machine with blockItemValue := Function.update s.machine.blockItemValue t 0 } }
  | syscallBegin {s : System width} {t : Nat} : s.Executes t → s.activity t = .idle →
      Step cfg port waitList .other s { s with
        machine := { s.machine with entry := Function.update s.machine.entry t none }
        activity := Function.update s.activity t .elsewhere }
  | other {s : System width} {op : Kernel.Op} {k : Kernel} : op.Enabled s.kernel → Other waitList s op →
      (op.prog cfg s.kernel).out = some ((), k) →
      Step cfg port waitList .other s { s with machine := { s.machine with kernel := k } }
  | fail {s : System width} {t : Nat} {c m : Machine width} : s.Executes t →
      c ∈ crashes ((s.activity t).prog cfg port waitList) s.machine → (reboot cfg c).out = some ((), m) →
      Step cfg port waitList (.fail (some t)) s
        { s.noting t c with
          machine := m
          activity := fun u => (s.activity u).restarted }
  | failOther {s : System width} {op : Kernel.Op} {k : Kernel} {m : Machine width} : op.Enabled s.kernel →
      Other waitList s op → k ∈ crashes (op.prog cfg) s.kernel →
      (reboot cfg { s.machine with kernel := k }).out = some ((), m) →
      Step cfg port waitList (.fail none) s { s with
        machine := m
        activity := fun u => (s.activity u).restarted }

/-- The states of the runs all of whose steps meet the condition `Ok`. -/
inductive Reachable (cfg : Config) (port : Port) (waitList : Nat) (Ok : Event → System width → System width → Prop) :
    System width → Prop
  | start : Reachable cfg port waitList Ok (start cfg)
  | step {e : Event} {s s' : System width} : Reachable cfg port waitList Ok s → Step cfg port waitList e s s' →
      Ok e s s' → Reachable cfg port waitList Ok s'

/-! ## Runs that follow a schedule -/

/-- What happens next, to the task that executes or else. -/
inductive Choice (width : PtrWidth)
  | call (c : Call width)
  | run
  | createTask (prio : Nat)
  | startKernel
  | processTick
  | taskSwitch
  /-- Power fails after so many stores of what the task does. -/
  | fail (stores : Nat)

variable {cfg : Config} {port : Port} {waitList : Nat}

/-- The task that executes. -/
def executing (s : System width) : Option Nat := s.kernel.current.filter fun t => s.kernel.status t != .blocked

def isIdle (s : System width) (t : Nat) : Bool :=
  match s.activity t with
  | .idle => true
  | _ => false

def doOther (cfg : Config) (s : System width) (op : Kernel.Op) : Option (Event × System width) := do
  let (_, k) ← (op.prog cfg s.kernel).out
  pure (.other, { s with machine := { s.machine with kernel := k } })

def next (cfg : Config) (port : Port) (waitList : Nat) (s : System width) : Choice width → Option (Event × System width)
  | .call c => do
      let t ← s.executing
      guard (s.isIdle t)
      pure (.other,
        { machine := { s.machine with entry := Function.update s.machine.entry t none }
          activity := Function.update s.activity t (.calling c)
          took := Function.update s.took t false
          released := Function.update s.released t false })
  | .run => do
      let t ← s.executing
      guard (!s.isIdle t)
      let (a, m) ← ((s.activity t).prog cfg port waitList s.machine).out
      pure (.run t, { s.noting t m with machine := m, activity := Function.update s.activity t a })
  | .createTask prio => s.doOther cfg (.createTask prio)
  | .startKernel => s.doOther cfg .startKernel
  | .processTick => s.doOther cfg .processTick
  | .taskSwitch => do
      guard s.kernel.schedulerStarted
      s.doOther cfg .taskSwitch
  | .fail stores => do
      let t ← s.executing
      let c ← (crashes ((s.activity t).prog cfg port waitList) s.machine)[stores]?
      let (_, m) ← (reboot cfg c).out
      pure (.fail (some t), { s.noting t c with machine := m, activity := fun u => (s.activity u).restarted })

/-- The state after the schedule, if all steps are there and meet the condition. -/
def follow (cfg : Config) (port : Port) (waitList : Nat) (ok : Event → System width → System width → Bool) :
    List (Choice width) → System width → Option (System width)
  | [], s => some s
  | x :: xs, s => do
      let (e, s') ← s.next cfg port waitList x
      guard (ok e s s')
      follow cfg port waitList ok xs s'

variable {s s' : System width} {e : Event} {x : Choice width} {t : Nat}

theorem executes_of_executing (h : s.executing = some t) : s.Executes t := by
  obtain ⟨hcur, hstatus⟩ := Option.filter_eq_some_iff.mp h
  exact ⟨hcur, by simpa using hstatus⟩

theorem isIdle_iff : s.isIdle t = true ↔ s.activity t = .idle := by
  unfold isIdle
  cases s.activity t <;> simp

theorem step_of_doOther (op : Kernel.Op) (ho : op.Enabled s.kernel) (hother : Other waitList s op)
    (h : s.doOther cfg op = some (e, s')) : Step cfg port waitList e s s' := by
  obtain ⟨⟨_, k⟩, hout, h⟩ := Option.bind_eq_some_iff.mp h
  cases h
  exact .other ho hother hout

theorem step_of_next (h : s.next cfg port waitList x = some (e, s')) : Step cfg port waitList e s s' := by
  cases x with
  | call c =>
      obtain ⟨t, ht, h⟩ := Option.bind_eq_some_iff.mp h
      obtain ⟨_, hidle, h⟩ := Option.bind_eq_some_iff.mp h
      cases h
      exact .call c (executes_of_executing ht) (isIdle_iff.mp (by simpa using hidle))
  | run =>
      obtain ⟨t, ht, h⟩ := Option.bind_eq_some_iff.mp h
      obtain ⟨_, hidle, h⟩ := Option.bind_eq_some_iff.mp h
      obtain ⟨⟨a, m⟩, hout, h⟩ := Option.bind_eq_some_iff.mp h
      cases h
      refine .run (executes_of_executing ht) (fun hi => ?_) hout
      simp [isIdle_iff.mpr hi] at hidle
  | createTask prio => exact step_of_doOther (.createTask prio) trivial trivial h
  | startKernel => exact step_of_doOther .startKernel trivial trivial h
  | processTick => exact step_of_doOther .processTick trivial trivial h
  | taskSwitch =>
      obtain ⟨_, hstarted, h⟩ := Option.bind_eq_some_iff.mp h
      exact step_of_doOther .taskSwitch (by simpa [Kernel.Op.Enabled] using hstarted) trivial h
  | fail stores =>
      obtain ⟨t, ht, h⟩ := Option.bind_eq_some_iff.mp h
      obtain ⟨c, hc, h⟩ := Option.bind_eq_some_iff.mp h
      obtain ⟨⟨_, m⟩, hout, h⟩ := Option.bind_eq_some_iff.mp h
      cases h
      exact .fail (executes_of_executing ht) (List.mem_of_getElem? hc) hout

theorem Reachable.follow {Ok : Event → System width → System width → Prop}
    {ok : Event → System width → System width → Bool} {xs : List (Choice width)}
    (hok : ∀ e s s', ok e s s' = true → Ok e s s') (h : Reachable cfg port waitList Ok s)
    (hf : s.follow cfg port waitList ok xs = some s') : Reachable cfg port waitList Ok s' := by
  induction xs generalizing s with
  | nil =>
      cases hf
      exact h
  | cons x xs ih =>
      obtain ⟨⟨e, r⟩, hnext, hf⟩ := Option.bind_eq_some_iff.mp hf
      obtain ⟨_, hguard, hf⟩ := Option.bind_eq_some_iff.mp hf
      exact ih (h.step (step_of_next hnext) (hok _ _ _ (by simpa using hguard))) hf

end System

end EventGroup

end IntOS
