import Mathlib

/-!
# Nested critical sections on MSP430 (`src/critical.rs`, `src/arch/msp430.rs`)

`NESTING_CNT` is one counter for all tasks, `GIE` one bit of the processor. Which task comes next does not matter here,
so a switch may be to any task. `semaphore_take` yields within its closure, the other calls yield after theirs.
-/

namespace IntOS

structure Msp430 where
  nestingCnt : Nat
  /-- Interrupts are enabled. -/
  gie : Bool
  current : Nat
  /-- `GIE` of the status register on the stack of a task that does not run. -/
  savedGie : Nat → Bool
  /-- The `with_no_interrupt` closures that a task is within. -/
  depth : Nat → Nat

namespace Msp430

/-- After `start_kernel`, as `initialize_stack` left the stacks. -/
def start (t : Nat) : Msp430 := ⟨0, true, t, fun _ => true, fun _ => 0⟩

def disableInterrupt (s : Msp430) : Msp430 := { s with gie := false }

def enableInterrupt (s : Msp430) : Msp430 := { s with gie := true }

/-- `CriticalNestingLevel::inc`. -/
def inc (s : Msp430) : Msp430 := { s with nestingCnt := s.nestingCnt + 1 }

/-- `CriticalNestingLevel::dec` panics at zero. -/
def dec (s : Msp430) : Option Msp430 :=
  if s.nestingCnt = 0 then none else some { s with nestingCnt := s.nestingCnt - 1 }

/-- `with_no_interrupt` up to the closure. -/
def withNoInterruptBegin (s : Msp430) : Msp430 := s.disableInterrupt.inc

/-- `with_no_interrupt` after the closure. -/
def withNoInterruptEnd (s : Msp430) : Option Msp430 :=
  s.dec.map fun s => if s.nestingCnt = 0 then s.enableInterrupt else s

/-- The status register goes to the stack, where it comes first or second. -/
def saveContext (s : Msp430) : Msp430 := { s with savedGie := Function.update s.savedGie s.current s.gie }

/-- `reti`. -/
def restoreContext (s : Msp430) : Msp430 := { s with gie := s.savedGie s.current }

/-- `task_switch` to a task. -/
def taskSwitch (t : Nat) (s : Msp430) : Msp430 := { s with current := t }

def archYield (t : Nat) (s : Msp430) : Msp430 := (taskSwitch t s.saveContext.disableInterrupt).restoreContext

/-- `TickHandler`: `process_tick` switches within a closure of its own. -/
def tickHandler (t : Nat) (s : Msp430) : Option Msp430 :=
  (taskSwitch t s.saveContext.withNoInterruptBegin).withNoInterruptEnd.map restoreContext

/-- What the running task does next, or a tick. -/
inductive Action
  | enter
  | leave
  | yield (t : Nat)
  | tick (t : Nat)
deriving DecidableEq, Repr

def step (s : Msp430) : Action → Option Msp430
  | .enter => some { s.withNoInterruptBegin with depth := Function.update s.depth s.current (s.depth s.current + 1) }
  | .leave =>
      if s.depth s.current = 0 then none
      else s.withNoInterruptEnd.map fun s' =>
        { s' with depth := Function.update s.depth s.current (s.depth s.current - 1) }
  | .yield t => some (s.archYield t)
  | .tick t => if s.gie then s.tickHandler t else none

/-- Outside of every closure the count is zero and interrupts are enabled, inside of one they are disabled. -/
def Nested (s : Msp430) : Prop :=
  (s.depth s.current = 0 → s.nestingCnt = 0 ∧ s.gie = true) ∧ (s.depth s.current ≠ 0 → s.gie = false)

/-- In every state of the run. -/
def AlwaysNested : Msp430 → List Action → Prop
  | s, [] => s.Nested
  | s, a :: as => s.Nested ∧ ∀ s', s.step a = some s' → s'.AlwaysNested as

/-- The step does not switch from a task within a closure to another one. -/
def Action.Holds (s : Msp430) : Action → Prop
  | .yield t => s.depth s.current = 0 ∨ t = s.current
  | _ => True

def AlwaysHolds : Msp430 → List Action → Prop
  | _, [] => True
  | s, a :: as => a.Holds s ∧ ∀ s', s.step a = some s' → s'.AlwaysHolds as

/-- The count is that of the running task, the others are outside. -/
structure Inv (s : Msp430) : Prop where
  count : s.nestingCnt = s.depth s.current
  enabled : s.gie = decide (s.depth s.current = 0)
  others : ∀ t, t ≠ s.current → s.depth t = 0 ∧ s.savedGie t = true

variable {s s' : Msp430} {a : Action} {as : List Action} {t : Nat}

theorem Inv.start : Inv (start t) := ⟨rfl, rfl, fun _ _ => ⟨rfl, rfl⟩⟩

theorem Inv.nested (h : Inv s) : s.Nested := by
  refine ⟨fun hd => ⟨h.count.trans hd, ?_⟩, fun hd => ?_⟩
  · simp [h.enabled, hd]
  · simp [h.enabled, hd]

theorem Inv.enter (h : Inv s) (hs : s.step .enter = some s') : Inv s' := by
  obtain rfl := Option.some.inj hs
  refine ⟨?_, ?_, fun t ht => ?_⟩
  · simp [withNoInterruptBegin, inc, disableInterrupt, h.count]
  · simp [withNoInterruptBegin, inc, disableInterrupt]
  · have hne : t ≠ s.current := ht
    simpa [withNoInterruptBegin, inc, disableInterrupt, hne] using h.others t hne

theorem Inv.leave (h : Inv s) (hs : s.step .leave = some s') : Inv s' := by
  simp only [step] at hs
  split at hs
  · cases hs
  · next hd =>
      have hcnt : s.nestingCnt ≠ 0 := by rwa [h.count]
      have hgie : s.gie = false := by simp [h.enabled, hd]
      simp only [withNoInterruptEnd, dec, hcnt, if_false, Option.map_some, Option.some.injEq] at hs
      subst hs
      refine ⟨?_, ?_, fun t ht => ?_⟩
      · split <;> simp [enableInterrupt, h.count]
      · split
        · next h1 => simp [enableInterrupt, ← h.count, h1]
        · next h1 => simpa [hgie, ← h.count] using h1
      · have hne : t ≠ s.current := by
          split at ht
          · exact ht
          · exact ht
        split <;> simpa [enableInterrupt, hne] using h.others t hne

/-- A task that is switched out outside of every closure goes on with interrupts enabled. -/
theorem Inv.switch (h : Inv s) (hd : s.depth s.current = 0) :
    Inv { s with
      gie := Function.update s.savedGie s.current true t
      current := t
      savedGie := Function.update s.savedGie s.current true } := by
  have hall : ∀ u, s.depth u = 0 ∧ Function.update s.savedGie s.current true u = true := by
    intro u
    by_cases hu : u = s.current
    · simp [hu, hd]
    · simpa [hu] using h.others u hu
  refine ⟨?_, ?_, fun u _ => hall u⟩
  · exact (h.count.trans hd).trans (hall t).1.symm
  · simp [hall t]

theorem Inv.yield (h : Inv s) (ha : (Action.yield t).Holds s) (hs : s.step (.yield t) = some s') : Inv s' := by
  obtain rfl := Option.some.inj hs
  by_cases hd : s.depth s.current = 0
  · have hgie : s.gie = true := by simp [h.enabled, hd]
    have hswitch := h.switch (t := t) hd
    rwa [← hgie] at hswitch
  · obtain rfl := ha.resolve_left hd
    refine ⟨h.count, ?_, fun u hu => ?_⟩
    · simpa [archYield, saveContext, taskSwitch, disableInterrupt, restoreContext] using h.enabled
    · have hne : u ≠ s.current := hu
      simpa [archYield, saveContext, taskSwitch, disableInterrupt, restoreContext, hne] using h.others u hne

theorem Inv.tick (h : Inv s) (hs : s.step (.tick t) = some s') : Inv s' := by
  simp only [step] at hs
  split at hs
  · next hgie =>
      have hd : s.depth s.current = 0 := by simpa [h.enabled] using hgie
      have hcnt : s.nestingCnt = 0 := h.count.trans hd
      have hswitch := h.switch (t := t) hd
      simp [tickHandler, withNoInterruptEnd, withNoInterruptBegin, dec, inc, taskSwitch, saveContext,
        disableInterrupt, enableInterrupt, restoreContext, hcnt, hgie] at hs
      rw [← hs]
      simpa [hcnt] using hswitch
  · cases hs

theorem Inv.step (h : Inv s) (ha : a.Holds s) (hs : s.step a = some s') : Inv s' := by
  cases a with
  | enter => exact h.enter hs
  | leave => exact h.leave hs
  | yield t => exact h.yield ha hs
  | tick t => exact h.tick hs

/-- The task switched to is outside of every closure, but the count is that of the other. -/
theorem Inv.not_nested (h : Inv s) (ha : ¬ a.Holds s) : ∃ s', s.step a = some s' ∧ ¬ s'.Nested := by
  cases a with
  | yield t =>
      simp only [Action.Holds, not_or] at ha
      refine ⟨_, rfl, fun hn => ha.1 ?_⟩
      have hcnt : s.nestingCnt = 0 := (hn.1 (h.others t ha.2).1).1
      rw [← h.count, hcnt]
  | _ => exact absurd trivial ha

theorem Inv.always (h : Inv s) : s.AlwaysNested as ↔ s.AlwaysHolds as := by
  induction as generalizing s with
  | nil => exact ⟨fun _ => trivial, fun _ => h.nested⟩
  | cons a as ih =>
      constructor
      · rintro ⟨-, hnext⟩
        have ha : a.Holds s := by
          by_contra ha
          obtain ⟨s', hs, hn⟩ := h.not_nested ha
          have hs' := hnext s' hs
          cases as with
          | nil => exact hn hs'
          | cons => exact hn hs'.1
        exact ⟨ha, fun s' hs => (ih (h.step ha hs)).mp (hnext s' hs)⟩
      · rintro ⟨ha, hnext⟩
        exact ⟨h.nested, fun s' hs => (ih (h.step ha hs)).mpr (hnext s' hs)⟩

/-- A run keeps sections nested exactly if it switches from no task within one. -/
theorem always_nested_iff (t : Nat) (as : List Action) : (start t).AlwaysNested as ↔ (start t).AlwaysHolds as :=
  Inv.start.always

/-- The first round of `semaphore_take` where the semaphore is not free: the task is blocked within the closure. -/
def semaphoreTakeBlocked (t : Nat) : List Action := [.enter, .yield t]

theorem not_always_nested_semaphoreTake : ¬ (start 0).AlwaysNested (semaphoreTakeBlocked 1) := by
  rintro ⟨-, hnext⟩
  obtain ⟨-, hnext⟩ := hnext _ rfl
  obtain ⟨hcnt, -⟩ := (hnext _ rfl).1 rfl
  cases hcnt

end Msp430

end IntOS
