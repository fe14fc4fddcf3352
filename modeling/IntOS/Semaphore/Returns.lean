import IntOS.Queue.Delivery
import IntOS.Semaphore.Mutex

/-!
# What the calls on a semaphore return

A semaphore is a bounded counter. A take counts in its last round, and the holder of the semaphore, who returns at
once, does not count. A take that fails has waited for its ticks, on both ports.
-/

namespace IntOS

open Persist Persist.Prog History

namespace Semaphore

/-- A call that reaches the counter. -/
inductive Call
  | take (task : Nat)
  | give
deriving DecidableEq

/-- The counter that a semaphore stands for, with the task that took last. A give at the size is lost. -/
def counterStep (size : Nat) : Call → Nat × Option Nat → Bool × (Nat × Option Nat)
  | .take t, a => if 0 < a.1 then (true, (a.1 - 1, some t)) else (false, a)
  | .give, a => (true, if a.1 = size then a else (a.1 + 1, a.2))

/-- The takes of a history that succeeded. -/
def takes (h : List (Call × Bool)) : Nat := h.countP fun x => x.1 ≠ .give && x.2

def gives (h : List (Call × Bool)) : Nat := h.countP fun x => x.1 = .give

section
variable {h : List (Call × Bool)} {a : Nat × Option Nat} {size t : Nat} {ok : Bool}

theorem takes_take : takes (h ++ [(.take t, ok)]) = takes h + if ok then 1 else 0 := by
  cases ok <;> simp [takes, List.countP_append]

theorem takes_give : takes (h ++ [(.give, ok)]) = takes h := by simp [takes, List.countP_append]

theorem gives_take : gives (h ++ [(.take t, ok)]) = gives h := by simp [gives, List.countP_append]

theorem gives_give : gives (h ++ [(.give, ok)]) = gives h + 1 := by simp [gives, List.countP_append]

/-- What is there and what was taken is not more than what there was and what was given. -/
theorem count_of_answers (hans : Answers (counterStep size) h (size, none) a) :
    a.1 ≤ size ∧ a.1 + takes h ≤ size + gives h := by
  refine hans.keeps (I := fun h a => a.1 ≤ size ∧ a.1 + takes h ≤ size + gives h) ⟨Nat.le_refl _, Nat.le_refl _⟩ ?_
  rintro h a call ⟨hle, hsum⟩
  cases call with
  | take t =>
      rw [takes_take, gives_take]
      simp only [counterStep]
      split
      · simp only [if_true]
        omega
      · simp only [Bool.false_eq_true, if_false]
        exact ⟨hle, hsum⟩
  | give =>
      simp only [counterStep]
      rw [takes_give, gives_give]
      split
      · exact ⟨hle, by omega⟩
      · exact ⟨by omega, by omega⟩

/-- Where nobody gives what was not taken before, no give is lost. -/
theorem count_of_balanced (hans : Answers (counterStep size) h (size, none) a)
    (hbal : ∀ h', h' <+: h → gives h' ≤ takes h') : a.1 + takes h = size + gives h := by
  refine hans.keeps (I := fun h a => (∀ h', h' <+: h → gives h' ≤ takes h') → a.1 + takes h = size + gives h)
    (fun _ => rfl) ?_ hbal
  intro h a call hsum hbal
  have hsum := hsum fun h' hpre => hbal h' (hpre.trans (List.prefix_append _ _))
  have hlast := hbal _ (List.prefix_refl _)
  cases call with
  | take t =>
      rw [takes_take, gives_take]
      simp only [counterStep]
      split
      · simp only [if_true]
        omega
      · simp only [Bool.false_eq_true, if_false]
        exact hsum
  | give =>
      rw [takes_give, gives_give] at hlast ⊢
      simp only [counterStep]
      split
      case isTrue hfull => omega
      case isFalse =>
        dsimp only
        omega

end

variable {cfg : Config} {port : Port} {sem : Semaphore}

/-- A round that ends answers as the counter does, and one that yields leaves it as it is. -/
theorem after_semaphoreTake_counter {m : Machine} {c : Countdown} {t : Nat} (ht : m.kernel.current = some t) :
    After (semaphoreTake cfg port sem c) (fun o m' => match o with
      | .yield _ => (m'.count, m'.mutexHolder) = (m.count, m.mutexHolder)
      | .exit taken => counterStep sem.size (.take t) (m.count, m.mutexHolder) =
          (taken, (m'.count, m'.mutexHolder))) m := by
  simp only [semaphoreTake, tryTake, after_bind, after_gets, counterStep]
  split
  case isTrue hpos =>
    simp only [after_bind, onKernel]
    refine after_zoom.mpr (Kernel.after_getCurrent.mpr fun u hu => ?_)
    cases ht.symm.trans hu
    rfl
  case isFalse hzero =>
    simp only [after_pure, Bool.false_eq_true, if_false]
    split
    case isTrue =>
      simp only [after_bind, after_gets, onKernel]
      refine after_zoom.mpr (After.of_forall fun _ _ => ?_)
      rw [after_bind]
      exact after_zoom.mpr (After.of_forall fun _ _ => rfl)
    case isFalse => rfl

theorem after_semaphoreGive_counter {m : Machine} :
    After (semaphoreGive cfg sem) (fun _ m' =>
      counterStep sem.size .give (m.count, m.mutexHolder) = (true, (m'.count, m'.mutexHolder))) m := by
  simp only [semaphoreGive, Semaphore.give, after_bind, after_gets, counterStep]
  split
  case isTrue => rfl
  case isFalse =>
    simp only [after_bind, after_check, after_store, after_pure, if_true, after_gets, onKernel]
    intro _
    refine after_zoom.mpr (After.of_forall fun _ _ => ?_)
    rw [after_bind, after_gets, after_bind]
    exact after_zoom.mpr (After.of_forall fun _ _ => rfl)

/-- A take that ends without the semaphore has found the countdown at its end. -/
theorem after_semaphoreTake_since {m : Machine} {c : Countdown} {start n : Nat}
    (h : c.Since start n m.kernel.tickCounter) :
    After (semaphoreTake cfg port sem c) (fun o _ => match o with
      | .yield c' => c'.wakeupTimeSet = true ∧ c'.Since start n m.kernel.tickCounter
      | .exit taken => taken = false → start + n ≤ m.kernel.tickCounter) m := by
  simp only [semaphoreTake, tryTake, after_bind, after_gets]
  split
  case isTrue =>
    simp only [after_bind, onKernel]
    refine after_zoom.mpr (After.of_forall fun _ _ => ?_)
    exact fun h => by cases h
  case isFalse =>
    simp only [after_pure, Bool.false_eq_true, if_false]
    split
    case isTrue hne =>
      simp only [after_bind, after_gets, onKernel]
      refine after_zoom.mpr ((System.after_wakeupTime _ c _).mono ?_)
      rintro v _ ⟨rfl, hv⟩
      rw [after_bind]
      refine after_zoom.mpr (After.of_forall fun _ _ => ?_)
      have hwait := h.wait hne hv
      cases port with
      | msp430 => exact ⟨rfl, hwait⟩
      | cortexM => exact ⟨rfl, hwait.update rfl⟩
    case isFalse hzero => exact fun _ => h.elapsed (not_not.mp hzero)

namespace System

variable {s s' s₀ : System} {t t₀ n : Nat}

/-! ## Takes and gives are those on a counter -/

/-- The call whose last round is this step. -/
def calls (s s' : System) : List (Call × Bool) :=
  match s.kernel.current with
  | none => []
  | some t =>
      match s.activity t, s'.activity t with
      | .trying _, .taken ok => [(.take t, ok)]
      | .idle, .given _ => [(.give, true)]
      | _, _ => []

theorem calls_of_executes (ht : s.Executes t) : calls s s' =
    match s.activity t, s'.activity t with
    | .trying _, .taken ok => [(.take t, ok)]
    | .idle, .given _ => [(.give, true)]
    | _, _ => [] := by
  rw [calls, ht.1]

theorem calls_of_same (hact : s'.activity = s.activity) : calls s s' = [] := by
  unfold calls
  rw [hact]
  cases s.kernel.current with
  | none => rfl
  | some t =>
      dsimp only
      cases s.activity t <;> rfl

def counter (s : System) : Nat × Option Nat := (s.machine.count, s.machine.mutexHolder)

theorem Step.answers (hs : Step cfg port sem s s') :
    Answers (counterStep sem.size) (calls s s') (counter s) (counter s') := by
  cases hs with
  | holds ht ha hm =>
      rw [calls_of_executes ht, ha]
      dsimp only
      rw [Function.update_self]
      rfl
  | take waitTicks ht ha hm =>
      rw [calls_of_executes ht, ha]
      dsimp only
      rw [Function.update_self]
      rfl
  | @round t c o m ht ha hout =>
      have hround := (after_semaphoreTake_counter ht.1).post hout
      rw [calls_of_executes ht, ha]
      dsimp only
      rw [Function.update_self]
      cases o with
      | yield c' => exact hround.symm
      | exit taken =>
          simp only [Outcome.activity, Answers, counter, hround]
          exact ⟨trivial, trivial⟩
  | resume ht ha =>
      rw [calls_of_executes ht, ha]
      rfl
  | @give t yieldNow m ht ha hout =>
      have hgive := after_semaphoreGive_counter.post hout
      rw [calls_of_executes ht, ha]
      dsimp only
      rw [Function.update_self]
      simp only [Answers, counter, hgive]
      exact ⟨trivial, trivial⟩
  | syscallBegin ht ha =>
      rw [calls_of_executes ht, ha]
      dsimp only
      rw [Function.update_self]
      rfl
  | @syscallEnd t k ht ha hout =>
      rw [calls_of_executes ht]
      dsimp only
      rw [Function.update_self]
      cases hact : s.activity t with
      | idle => rfl
      | trying c => rfl
      | _ => rfl
  | @other op k ho hother hout =>
      have hnone : calls s { s with machine := { s.machine with kernel := k } } = [] := calls_of_same rfl
      rw [hnone]
      rfl

/-- The calls of a run, in the order of their last rounds, are those on the counter. -/
theorem run_answers {h : List (Call × Bool)} (hrun : Run (Noted (Step cfg port sem) calls) (start cfg sem) h s) :
    Answers (counterStep sem.size) h (sem.size, none) (s.machine.count, s.machine.mutexHolder) := by
  have hans : Answers (counterStep sem.size) (h.map id) (counter (System.start cfg sem)) (counter s) := by
    refine Run.answers id counter (I := fun _ => True) hrun trivial ?_
    rintro s es s' - ⟨hs, rfl⟩
    rw [List.map_id]
    exact ⟨trivial, hs.answers⟩
  rwa [List.map_id] at hans

/-- In every run of any number of tasks, the takes, each in its last round, and the gives are answered as a counter
answers them that begins at the size, never exceeds it and remembers who took last. Nothing is taken that was not
there or given, and where at no time more was given than taken, what is taken and not given back is what the count is
short of the size. -/
theorem semaphore_conserves {h : List (Call × Bool)}
    (hrun : Run (Noted (Step cfg port sem) calls) (start cfg sem) h s) :
    Answers (counterStep sem.size) h (sem.size, none) (s.machine.count, s.machine.mutexHolder) ∧
      s.machine.count ≤ sem.size ∧ s.machine.count + takes h ≤ sem.size + gives h ∧
      ((∀ h', h' <+: h → gives h' ≤ takes h') →
        s.machine.count + takes h = sem.size + gives h ∧ takes h - gives h ≤ sem.size) := by
  have hans := run_answers hrun
  obtain ⟨hle, hsum⟩ := count_of_answers hans
  refine ⟨hans, hle, hsum, fun hbal => ?_⟩
  have hexact := count_of_balanced hans hbal
  dsimp only at hexact
  exact ⟨hexact, by omega⟩

/-- What is not a call on the semaphore has no place in the history. -/
theorem run_foreign {h : List (Call × Bool)} (hrun : Run (Noted (Step cfg port sem) calls) (start cfg sem) h s)
    (op : Kernel.Op) (ho : op.Enabled s.kernel) (hother : Other sem s op)
    (hsome : (op.prog cfg s.kernel).out.isSome = true) :
    Run (Noted (Step cfg port sem) calls) (start cfg sem) h
      { s with machine := { s.machine with kernel := op.exec cfg s.kernel } } := by
  have hrun' := hrun.tail ⟨Step.other ho hother (op.out_exec hsome), (calls_of_same rfl).symm⟩
  rwa [List.append_nil] at hrun'

/-- Two tasks take one of two each, and the second one gives its own back. -/
theorem semaphore_conserves_given : ∃ s,
    Run (Noted (Step Kernel.qemuDebug .msp430 ⟨2, 0⟩) calls) (start Kernel.qemuDebug ⟨2, 0⟩)
      [(.take 0, true), (.take 1, true), (.give, true)] s ∧
      s.machine.count + 2 = 2 + 1 ∧ 2 - 1 ≤ 2 := by
  have hstart : Run (Noted (Step Kernel.qemuDebug .msp430 ⟨2, 0⟩) calls) (start Kernel.qemuDebug ⟨2, 0⟩) [] _ := .refl
  have hrun := run_foreign (run_foreign (run_foreign hstart (.createTask 0) trivial trivial rfl) (.createTask 0) trivial
    trivial rfl) .startKernel trivial trivial rfl
  have htake := hrun.tail ⟨.take (t := 0) 5 ⟨rfl, (fun h => by cases h)⟩ rfl (fun h => by cases h), rfl⟩
  have htaken := htake.tail ⟨.round (t := 0) ⟨rfl, (fun h => by cases h)⟩ rfl rfl, rfl⟩
  have hswitch := run_foreign htaken .taskSwitch rfl trivial rfl
  have htake' := hswitch.tail ⟨.take (t := 1) 5 ⟨rfl, (fun h => by cases h)⟩ rfl (fun h => by cases h), rfl⟩
  have htaken' := htake'.tail ⟨.round (t := 1) ⟨rfl, (fun h => by cases h)⟩ rfl rfl, rfl⟩
  have hend := htaken'.tail ⟨.syscallEnd (t := 1) ⟨rfl, (fun h => by cases h)⟩ trivial rfl, rfl⟩
  have hgiven := hend.tail ⟨.give (t := 1) ⟨rfl, (fun h => by cases h)⟩ rfl rfl, rfl⟩
  refine ⟨_, hgiven, (semaphore_conserves hgiven).2.2.2 fun h' hpre => ?_⟩
  have hbal : ∀ n ≤ 3, gives ([(.take 0, true), (.take 1, true), (.give, true)].take n) ≤
    takes ([(.take 0, true), (.take 1, true), (.give, true)].take n) := by decide
  rw [List.prefix_iff_eq_take.mp hpre]
  exact hbal _ hpre.length_le

/-! ## A take that fails has waited -/

/-- A step before the task `t` is out of its call, in which the clock does not wrap around. -/
def Meanwhile (cfg : Config) (port : Port) (sem : Semaphore) (t : Nat) (s s' : System) : Prop :=
  Step cfg port sem s s' ∧ s.activity t ≠ .idle ∧ s.kernel.tickCounter ≤ s'.kernel.tickCounter

/-- How far the take is that began at the time `t₀` with `n` ticks. -/
def TakesSince (t₀ n now : Nat) : Activity → Prop
  | .idle => True
  | .trying c => c.Since t₀ n now
  | .yielding c => c.wakeupTimeSet = true ∧ c.Since t₀ n now
  | .taken ok => ok = false → t₀ + n ≤ now
  | .given _ | .elsewhere => False

theorem TakesSince.later {now now' : Nat} {a : Activity} (h : TakesSince t₀ n now a) (hle : now ≤ now') :
    TakesSince t₀ n now' a := by
  cases a with
  | idle => trivial
  | trying c => exact Countdown.Since.later h hle
  | yielding c => exact ⟨h.1, h.2.later hle⟩
  | taken ok => exact fun hok => (h hok).trans hle
  | given yieldNow => exact h
  | elsewhere => exact h

theorem TakesSince.step (h : TakesSince t₀ n s.kernel.tickCounter (s.activity t))
    (hs : Meanwhile cfg port sem t s s') : TakesSince t₀ n s'.kernel.tickCounter (s'.activity t) := by
  obtain ⟨hs, hbusy, hclock⟩ := hs
  refine TakesSince.later ?_ hclock
  have hmoved : ∀ {u a}, (u = t → TakesSince t₀ n s.kernel.tickCounter a) →
      TakesSince t₀ n s.kernel.tickCounter (Function.update s.activity u a t) := by
    intro u a ha
    by_cases htu : u = t
    · rw [← htu, Function.update_self]
      exact ha htu
    · rwa [Function.update_of_ne (Ne.symm htu)]
  have hfresh : ∀ {u a}, s.activity u = .idle →
      TakesSince t₀ n s.kernel.tickCounter (Function.update s.activity u a t) := by
    intro u a ha
    refine hmoved fun htu => ?_
    rw [htu] at ha
    exact absurd ha hbusy
  cases hs with
  | holds ht ha hm => exact hfresh ha
  | take waitTicks ht ha hm => exact hfresh ha
  | @round u c o m ht ha hout =>
      refine hmoved fun htu => ?_
      rw [htu] at ha
      rw [ha] at h
      have hround := (after_semaphoreTake_since h).post hout
      cases o with
      | yield c' => exact hround
      | exit taken => exact hround
  | @resume u c ht ha =>
      refine hmoved fun htu => ?_
      rw [htu] at ha
      rw [ha] at h
      cases port with
      | msp430 => exact h.2.update h.1
      | cortexM => exact h.2
  | give ht ha hout => exact hfresh ha
  | syscallBegin ht ha => exact hfresh ha
  | syscallEnd ht ha hout => exact hmoved fun _ => trivial
  | other ho hother hout => exact h

/-- A take with `waitTicks` ticks that fails does so when they are over, on both ports, however often the task is
woken and finds that another one was faster. -/
theorem semaphore_take_waits {waitTicks : Nat} (hcall : s₀.activity t = .trying ⟨waitTicks, false, 0⟩)
    (hrun : Relation.ReflTransGen (Meanwhile cfg port sem t) s₀ s) (hfailed : s.activity t = .taken false) :
    s₀.kernel.tickCounter + waitTicks ≤ s.kernel.tickCounter := by
  have hsince : TakesSince s₀.kernel.tickCounter waitTicks s.kernel.tickCounter (s.activity t) := by
    clear hfailed
    induction hrun with
    | refl =>
        rw [hcall]
        exact .begin _ _
    | tail _ hs ih => exact ih.step hs
  rw [hfailed] at hsince
  exact hsince rfl

/-- Of two tasks, the first begins to take what is never there. -/
def taking : System where
  machine := ⟨Kernel.Op.startKernel.exec Kernel.qemuDebug ((Kernel.Op.createTask 7).exec Kernel.qemuDebug
    ((Kernel.Op.createTask 0).exec Kernel.qemuDebug (Kernel.new Kernel.qemuDebug))), 0, none⟩
  activity := Function.update (fun _ => .idle) 0 (.trying ⟨1, false, 0⟩)
  woken := ∅

def refusedFrom (now : Nat) : Outcome × Machine → Bool
  | (.exit false, m) => now ≤ m.kernel.tickCounter
  | _ => false

theorem meanwhile_foreign (hrun : Relation.ReflTransGen (Meanwhile cfg port sem t) s₀ s) (op : Kernel.Op)
    (ho : op.Enabled s.kernel) (hother : Other sem s op) (hsome : (op.prog cfg s.kernel).out.isSome = true)
    (hbusy : s.activity t ≠ .idle) (hclock : s.kernel.tickCounter ≤ (op.exec cfg s.kernel).tickCounter) :
    Relation.ReflTransGen (Meanwhile cfg port sem t) s₀
      { s with machine := { s.machine with kernel := op.exec cfg s.kernel } } :=
  hrun.tail ⟨.other ho hother (op.out_exec hsome), hbusy, hclock⟩

theorem meanwhile_refused {c : Countdown} (hrun : Relation.ReflTransGen (Meanwhile cfg port sem t) s₀ s)
    (ht : s.Executes t) (ha : s.activity t = .trying c)
    (hrefused : (semaphoreTake cfg port sem c s.machine).out.any (refusedFrom s.kernel.tickCounter) = true) :
    ∃ s', Relation.ReflTransGen (Meanwhile cfg port sem t) s₀ s' ∧ s'.activity t = .taken false := by
  obtain ⟨⟨o, m⟩, hout, hrefused⟩ := (Option.any_eq_true _ _).mp hrefused
  cases o with
  | yield c' => cases hrefused
  | exit taken =>
      cases taken with
      | true => cases hrefused
      | false =>
          have hbusy : s.activity t ≠ .idle := by
            rw [ha]
            exact fun h => by cases h
          refine ⟨_, hrun.tail ⟨.round ht ha hout, hbusy, of_decide_eq_true hrefused⟩, ?_⟩
          exact Function.update_self ..

/-- A tick comes while it waits. -/
theorem semaphore_take_waits_one : ∃ s : System,
    Relation.ReflTransGen (Meanwhile Kernel.qemuDebug .msp430 ⟨0, 0⟩ 0) taking s ∧ s.activity 0 = .taken false ∧
      taking.kernel.tickCounter + 1 ≤ s.kernel.tickCounter := by
  have hstart : Relation.ReflTransGen (Meanwhile Kernel.qemuDebug .msp430 ⟨0, 0⟩ 0) taking taking := .refl
  have hround := hstart.tail ⟨.round (t := 0) ⟨rfl, (fun h => by cases h)⟩ rfl rfl, (fun h => by cases h),
    Nat.le_refl 0⟩
  have htick := meanwhile_foreign hround .processTick trivial trivial (by decide +kernel) (fun h => by cases h)
    (by decide +kernel)
  have hback := htick.tail ⟨.resume (t := 0) ⟨by decide +kernel, by decide +kernel⟩ rfl, (fun h => by cases h),
    Nat.le_refl _⟩
  obtain ⟨s, hlast, hfailed⟩ := meanwhile_refused hback ⟨by decide +kernel, by decide +kernel⟩ rfl (by decide +kernel)
  exact ⟨s, hlast, hfailed, semaphore_take_waits rfl hlast hfailed⟩

end System

end Semaphore

end IntOS
