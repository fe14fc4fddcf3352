import IntOS.Sched.DelayRemoval
import IntOS.Sched.Lemmas.Contents

/-!
# Who changes the clock

Ticks change the tick counter, and nobody else does. The wakeup time of a task changes where the task goes to
sleep and where it is created.
-/

namespace IntOS

open Persist Persist.Prog IntOS.Lists

namespace Kernel

variable {α : Type} {cfg : Config} {k k' : Kernel} {t u w : Nat}

/-- What tells when a task is due. -/
def clock (k : Kernel) : Nat × (Nat → Nat) := (k.tickCounter, k.wakeupTime)

theorem keeps_clock_onLists (m : Prog (Lists NodeRef ListRef) α) : Keeps clock (onLists m) :=
  keeps_onLists (fun _ _ => rfl) m

theorem keeps_clock_getCurrent : Keeps clock getCurrent := by
  refine (keeps_gets _).bind fun c => ?_
  cases c with
  | none => exact keeps_fail
  | some t => exact keeps_pure t

theorem keeps_clock_invalidate : Keeps clock invalidate :=
  (keeps_clock_onLists _).bind fun _ => keeps_store fun _ => rfl

theorem keeps_clock_commit : Keeps clock commit :=
  (keeps_clock_onLists _).bind fun _ => keeps_clock_getCurrent.bind fun _ =>
    Keeps.bind (keeps_store fun _ => rfl) fun _ => keeps_store fun _ => rfl

theorem keeps_clock_bypass : Keeps clock (bypass cfg) :=
  keeps_clock_getCurrent.bind fun _ => (keeps_gets _).bind fun _ => (keeps_gets _).bind fun _ =>
    (keeps_check _).bind fun _ => keeps_pure _

theorem keeps_clock_addToReadyList : Keeps clock (addToReadyList t) :=
  (keeps_gets _).bind fun _ => (keeps_clock_onLists _).bind fun _ => keeps_store fun _ => rfl

theorem keeps_clock_removeFromReadyList : Keeps clock (removeFromReadyList cfg t) :=
  (keeps_gets _).bind fun _ => keeps_clock_onLists _

theorem keeps_clock_addToDelayedList : Keeps clock (addToDelayedList cfg t) := by
  refine Keeps.bind (keeps_store fun _ => rfl) fun _ => ?_
  refine Keeps.bind ((keeps_gets _).bind fun _ => (keeps_gets _).bind fun _ => keeps_clock_onLists _) fun _ => ?_
  refine (keeps_gets _).bind fun _ => (keeps_gets _).bind fun _ => ?_
  split
  · exact keeps_store fun _ => rfl
  · exact keeps_pure _

theorem keeps_clock_removeFromOwnWaitlist : Keeps clock (removeFromOwnWaitlist cfg t) := by
  refine (keeps_gets _).bind fun l => ?_
  cases l with
  | none => exact keeps_pure _
  | some l => exact keeps_clock_onLists _

/-! ## The transactions -/

theorem keeps_clock_popRemove : Keeps clock (rollForwardPopRemoveFromWaitlist cfg w) := by
  refine keeps_clock_bypass.bind fun b => ?_
  cases b with
  | true => exact keeps_pure _
  | false =>
      refine (keeps_gets _).bind fun _ => Keeps.bind (keeps_store fun _ => rfl) fun _ => ?_
      refine Keeps.bind (keeps_store fun _ => rfl) fun _ => (keeps_clock_onLists _).bind fun r => ?_
      cases r with
      | none => exact keeps_clock_commit
      | some n =>
          exact (keeps_clock_onLists _).bind fun _ => keeps_clock_addToReadyList.bind fun _ => keeps_clock_commit

theorem keeps_clock_removeUnsorted {n : NodeRef} : Keeps clock (rollForwardRemoveFromUnsortedWaitlist cfg w n) := by
  refine Keeps.bind (keeps_store fun _ => rfl) fun _ => Keeps.bind (keeps_store fun _ => rfl) fun _ => ?_
  exact (keeps_clock_onLists _).bind fun _ => (keeps_clock_onLists _).bind fun _ =>
    keeps_clock_addToReadyList.bind fun _ => keeps_clock_invalidate

theorem keeps_clock_insertWaitlist : Keeps clock (rollForwardInsertIntoWaitlist cfg w t) := by
  refine Keeps.bind (keeps_store fun _ => rfl) fun _ => Keeps.bind (keeps_store fun _ => rfl) fun _ => ?_
  refine keeps_clock_removeFromReadyList.bind fun _ => ?_
  refine Keeps.bind ((keeps_gets _).bind fun _ => (keeps_gets _).bind fun _ => keeps_clock_onLists _) fun _ => ?_
  exact keeps_clock_addToDelayedList.bind fun _ => keeps_clock_invalidate

theorem keeps_clock_insertUnsorted : Keeps clock (rollForwardInsertIntoUnsortedWaitlist cfg w t) := by
  refine Keeps.bind (keeps_store fun _ => rfl) fun _ => Keeps.bind (keeps_store fun _ => rfl) fun _ => ?_
  exact keeps_clock_removeFromReadyList.bind fun _ => (keeps_clock_onLists _).bind fun _ =>
    keeps_clock_addToDelayedList.bind fun _ => keeps_clock_invalidate

theorem keeps_clock_insertDelaylist : Keeps clock (rollForwardInsertIntoDelaylist cfg) := by
  refine keeps_clock_bypass.bind fun b => ?_
  cases b with
  | true => exact keeps_pure _
  | false =>
      refine Keeps.bind (keeps_store fun _ => rfl) fun _ => keeps_clock_getCurrent.bind fun _ => ?_
      exact keeps_clock_removeFromReadyList.bind fun _ => keeps_clock_addToDelayedList.bind fun _ => keeps_clock_commit

theorem keeps_clock_removeDelaylist : Keeps clock (rollForwardRemoveFromDelaylist cfg) := by
  refine Keeps.bind (keeps_store fun _ => rfl) fun _ => (keeps_clock_onLists _).bind fun r => ?_
  cases r with
  | none => exact keeps_fail
  | some n =>
      exact keeps_clock_removeFromOwnWaitlist.bind fun _ => keeps_clock_addToReadyList.bind fun _ =>
        keeps_clock_invalidate

theorem keeps_clock_insertReadylist : Keeps clock (rollForwardInsertIntoReadylist t) := by
  refine Keeps.bind (keeps_store fun _ => rfl) fun _ => Keeps.bind (keeps_store fun _ => rfl) fun _ => ?_
  exact keeps_clock_addToReadyList.bind fun _ => keeps_clock_invalidate

theorem keeps_clock_contextSwitch {prevTask prio : Nat} :
    Keeps clock (atomicRollFowardContextSwitch t prevTask prio) := by
  have hend : Keeps clock (do
      let _ ← onLists (nextItem (.ready prio))
      setCurrent t
      setMicroOp .invalid 0) :=
    (keeps_clock_onLists _).bind fun _ => Keeps.bind (keeps_store fun _ => rfl) fun _ => keeps_clock_onLists _
  refine Keeps.bind (keeps_store fun _ => rfl) fun _ => (keeps_clock_onLists _).bind fun _ => ?_
  refine Keeps.bind (keeps_store fun _ => rfl) fun _ => (keeps_gets _).bind fun _ => ?_
  split
  · exact Keeps.bind (keeps_store fun _ => rfl) fun _ => hend
  · exact hend

theorem keeps_clock_taskSwitch : Keeps clock (taskSwitch cfg) := by
  refine keeps_clock_getCurrent.bind fun _ => (keeps_gets _).bind fun r => ?_
  cases r with
  | none => exact keeps_fail
  | some p =>
      dsimp only
      split
      · exact (keeps_gets _).bind fun _ => (keeps_check _).bind fun _ => keeps_clock_contextSwitch
      · exact (keeps_gets _).bind fun _ => keeps_check _

/-! ## Operations -/

/-- What tells when the task `u` is due. -/
def due (u : Nat) (k : Kernel) : Nat × Nat := (k.tickCounter, k.wakeupTime u)

theorem due_of_clock {p : Prog Kernel α} (h : Keeps clock p) : Keeps (due u) p := h.comp fun c => (c.1, c.2 u)

theorem keeps_due_initializeTask (hu : u ≠ t) (prio : Nat) : Keeps (due u) (initializeTask t prio) := by
  have hwake : ∀ k : Kernel, due u { k with wakeupTime := Function.update k.wakeupTime t 0 } = due u k := by
    intro k
    simp [due, Function.update_of_ne hu]
  refine (due_of_clock (keeps_clock_onLists _)).bind fun _ => (due_of_clock (keeps_clock_onLists _)).bind fun _ => ?_
  refine Keeps.bind (keeps_store hwake) fun _ => Keeps.bind (keeps_store fun _ => rfl) fun _ => ?_
  refine Keeps.bind (keeps_store fun _ => rfl) fun _ => Keeps.bind (keeps_store fun _ => rfl) fun _ => ?_
  exact keeps_store fun _ => rfl

/-- A task that exists is due when it was. -/
theorem createTaskStatic_due (hu : u ≠ k.taskCnt) (prio : Nat) :
    After (createTaskStatic cfg prio) (fun _ k' => due u k' = due u k) k := by
  have hrest : Keeps (due u) (do
      initializeTask k.taskCnt prio
      let started ← gets (·.schedulerStarted)
      let curMax ← gets (·.curMaxPriority)
      if ¬ started ∧ prio < curMax then do
        setCurrent k.taskCnt
        store fun k => { k with curMaxPriority := prio }
      rollForwardInsertIntoReadylist k.taskCnt
      pure (Except.ok (ε := ErrorCode) k.taskCnt)) := by
    refine (keeps_due_initializeTask hu prio).bind fun _ => (keeps_gets _).bind fun _ => (keeps_gets _).bind fun _ => ?_
    have hend := (due_of_clock (u := u) (keeps_clock_insertReadylist (t := k.taskCnt))).bind fun _ =>
      keeps_pure (Except.ok (ε := ErrorCode) k.taskCnt)
    split
    · exact Keeps.bind (keeps_store fun _ => rfl) fun _ => Keeps.bind (keeps_store fun _ => rfl) fun _ => hend
    · exact hend
  unfold createTaskStatic
  rw [after_bind, after_gets]
  split
  · rfl
  split
  · rfl
  rw [after_bind, after_store]
  exact (hrest _).2

/-- Ticks apart, no operation changes the tick counter. -/
theorem Op.tickCounter_eq {o : Op} (ho : o ≠ .processTick) :
    After (o.prog cfg) (fun _ k' => k'.tickCounter = k.tickCounter) k := by
  have hclock : ∀ {p : Prog Kernel Unit} {k : Kernel}, Keeps clock p →
      After p (fun _ k' => k'.tickCounter = k.tickCounter) k :=
    fun hp => ((hp.comp Prod.fst) _).2
  cases o with
  | createTask prio =>
      simp only [Op.prog, after_bind]
      refine (createTaskStatic_due (Nat.succ_ne_self _) prio).mono fun _ k' hk' => ?_
      exact congrArg Prod.fst hk'
  | startKernel => rfl
  | taskDelay nticks =>
      simp only [Op.prog, Kernel.taskDelay, addTime, after_bind, after_getCurrent, after_gets, after_check, after_pure,
        after_setWakeupTime]
      exact fun _ _ _ => hclock keeps_clock_insertDelaylist
  | block w wakeupTime =>
      simp only [Op.prog, blockOnWaitlist, after_bind, after_getCurrent, after_setWakeupTime]
      exact fun _ _ => hclock keeps_clock_insertWaitlist
  | blockUnsorted w wakeupTime =>
      simp only [Op.prog, blockOnUnsortedWaitlist, after_bind, after_getCurrent, after_setWakeupTime]
      exact fun _ _ => hclock keeps_clock_insertUnsorted
  | wake w => exact hclock keeps_clock_popRemove
  | wakeNode w n => exact hclock keeps_clock_removeUnsorted
  | processTick => exact absurd rfl ho
  | taskSwitch => exact hclock keeps_clock_taskSwitch
  | syscallEnd =>
      simp only [Op.prog, after_bind, after_getCurrent, after_store]
      exact fun _ _ => trivial

/-! ## A task that is delayed -/

/-- The task `t` waits for the tick `wk`, and for nothing else. -/
structure Dozes (t wk : Nat) (k : Kernel) : Prop where
  sched : k.lists.list (.sched t) = some .delayed
  event : k.lists.list (.event t) = none
  wakeupTime : k.wakeupTime t = wk

variable {wk : Nat}

theorem Dozes.of_woke (h : Dozes t wk k) (hw : Woke k u k') (hu : k.lists.list (.event u) ≠ none) : Dozes t wk k' := by
  have hut : t ≠ u := by
    rintro rfl
    exact hu h.event
  refine ⟨?_, ?_, ?_⟩
  · exact (hw.others (n := .sched t) hut).trans h.sched
  · exact (hw.others (n := .event t) hut).trans h.event
  · rw [hw.frame.wakeupTime]
    exact h.wakeupTime

theorem Dozes.of_slept {v : Option ListRef} {wakeupTime : Nat} (h : Dozes t wk k) (hut : t ≠ u)
    (hs : Slept { k with wakeupTime := Function.update k.wakeupTime u wakeupTime } u v k') : Dozes t wk k' := by
  refine ⟨?_, ?_, ?_⟩
  · exact (hs.others (n := .sched t) hut).trans h.sched
  · exact (hs.others (n := .event t) hut).trans h.event
  · rw [hs.frame.wakeupTime]
    dsimp only
    rw [Function.update_of_ne hut]
    exact h.wakeupTime

/-- A task that executes is not the one that is delayed. -/
theorem Dozes.ne_current (h : Dozes t wk k) (hinv : Inv k) (hcur : k.current = some u) (hb : Executing k) : t ≠ u := by
  rintro rfl
  exact (hinv.executing hcur hb).2 h.sched

/-- The operations of other tasks let it sleep. -/
theorem Dozes.op (h : Dozes t wk k) (hinv : Inv k) {o : Op} (ho : o.Enabled k) (htick : o ≠ .processTick) :
    After (o.prog cfg) (fun _ => Dozes t wk) k := by
  cases o with
  | createTask prio =>
      obtain ⟨q, hq⟩ := hinv.shows
      have ht : t ≠ k.taskCnt := (Nat.ne_of_lt (hinv.of_list h.sched).1)
      simp only [Op.prog, after_bind]
      refine (((hinv.createTaskStatic_shows hq prio).after.and (hinv.createTaskStatic prio).after).and
        (createTaskStatic_due ht prio)).mono ?_
      rintro _ k' ⟨⟨hshows, _, hc⟩, hdue⟩
      have hmem := hq.mem.mpr h.sched
      refine ⟨?_, (hc.events t).trans h.event, (congrArg Prod.snd hdue).trans h.wakeupTime⟩
      rcases hshows with ⟨_, hq'⟩ | ⟨_, hq'⟩
      · exact hq'.mem.mp hmem
      · exact hq'.mem.mp hmem
  | startKernel => exact ⟨h.sched, h.event, h.wakeupTime⟩
  | taskDelay nticks =>
      simp only [Op.prog, Kernel.taskDelay, addTime, after_bind, after_getCurrent, after_gets, after_check, after_pure,
        after_setWakeupTime]
      intro u hcur _
      have hut := h.ne_current hinv hcur ho
      have hinv' := hinv.setWakeupTime (hinv.executing hcur ho).2 (k.tickCounter + nticks)
      by_cases hdone : k.listTxDone u = true
      · simp only [rollForwardInsertIntoDelaylist, after_bind, after_bypass]
        intro v hv _
        rw [hcur] at hv
        cases hv
        rw [hdone]
        exact ⟨h.sched, h.event, (Function.update_of_ne hut _ _).trans h.wakeupTime⟩
      · refine (hinv'.insertIntoDelaylist hcur (Bool.eq_false_iff.mpr hdone) (ho u hcur)).after.mono ?_
        exact fun _ k' hk' => h.of_slept hut hk'.2.2
  | block w wakeupTime =>
      refine (hinv.blockOnWaitlist ho w wakeupTime).mono ?_
      rintro _ k' ⟨_, _, u, hcur, hs⟩
      exact h.of_slept (h.ne_current hinv hcur ho) hs
  | blockUnsorted w wakeupTime =>
      refine (hinv.blockOnUnsortedWaitlist ho w wakeupTime).mono ?_
      rintro _ k' ⟨_, _, u, hcur, hs⟩
      exact h.of_slept (h.ne_current hinv hcur ho) hs
  | wake w =>
      cases hcur : k.current with
      | none =>
          simp only [Op.prog, rollForwardPopRemoveFromWaitlist, after_bind, after_bypass, hcur]
          exact fun _ h => by cases h
      | some u =>
          by_cases hdone : k.listTxDone u = true
          · simp only [Op.prog, rollForwardPopRemoveFromWaitlist, after_bind, after_bypass]
            intro v hv _
            rw [hcur] at hv
            cases hv
            rw [hdone]
            exact h
          · refine (hinv.popRemoveFromWaitlist w hcur (Bool.eq_false_iff.mpr hdone)).after.mono ?_
            rintro _ k' ⟨_, _, ⟨_, hk⟩ | ⟨u, _, _, hu, hw⟩⟩
            · refine ⟨?_, ?_, ?_⟩
              · rw [hk.lists]
                exact h.sched
              · rw [hk.lists]
                exact h.event
              · rw [hk.frame.wakeupTime]
                exact h.wakeupTime
            · apply h.of_woke hw
              simp [hu]
  | wakeNode w n =>
      have hn := hinv.inList_iff.mp ho
      obtain ⟨_, hevent, _⟩ := hinv.waiting hn
      simp only [Op.prog]
      rw [hevent] at hn ⊢
      refine (hinv.removeFromUnsortedWaitlist hn).after.mono ?_
      rintro _ k' ⟨_, _, hw⟩
      apply h.of_woke hw
      simp [hn]
  | processTick => exact absurd rfl htick
  | taskSwitch =>
      have hclock : After (Kernel.taskSwitch cfg) (fun _ k' => clock k' = clock k) k := (keeps_clock_taskSwitch k).2
      refine ((hinv.taskSwitch ho).and hclock).mono ?_
      rintro _ k' ⟨⟨_, hs⟩, hk'⟩
      refine ⟨?_, ?_, ?_⟩
      · rw [hs.list]
        exact h.sched
      · rw [hs.list]
        exact h.event
      · exact (congrFun (congrArg Prod.snd hk') t).trans h.wakeupTime
  | syscallEnd =>
      simp only [Op.prog, after_bind, after_getCurrent, after_store]
      exact fun _ _ => ⟨h.sched, h.event, h.wakeupTime⟩

/-! ## A tick -/

/-- The task is where it was. -/
structure Unmoved (k : Kernel) (t : Nat) (k' : Kernel) : Prop where
  sched : k'.lists.list (.sched t) = k.lists.list (.sched t)
  event : k'.lists.list (.event t) = k.lists.list (.event t)
  status : k'.status t = k.status t

/-- The task was delayed until `cur` at the latest, and it is ready. -/
structure Due (cur : Nat) (k : Kernel) (t : Nat) (k' : Kernel) : Prop where
  delayed : k.lists.list (.sched t) = some .delayed
  wakeupTime : k.wakeupTime t ≤ cur
  ready : k'.lists.list (.sched t) = some (.ready (k.priority t))
  status : k'.status t = .ready

/-- Some delayed tasks that are due at the tick `cur` wake up, and the others stay where they are. -/
structure Passed (cur : Nat) (k k' : Kernel) : Prop where
  priority : k'.priority = k.priority
  wakeupTime : k'.wakeupTime = k.wakeupTime
  tasks : ∀ t, Unmoved k t k' ∨ Due cur k t k'

/-- No task that is due at the tick `cur` is asleep. -/
def AllWoken (cur : Nat) (k : Kernel) : Prop :=
  ∀ t, k.lists.list (.sched t) = some .delayed → cur < k.wakeupTime t

variable {cur : Nat} {q : Contents}

theorem Passed.refl (k : Kernel) : Passed cur k k := ⟨rfl, rfl, fun _ => Or.inl ⟨rfl, rfl, rfl⟩⟩

theorem Passed.trans {k₁ : Kernel} (h : Passed cur k k₁) (h' : Passed cur k₁ k') : Passed cur k k' := by
  refine ⟨h'.priority.trans h.priority, h'.wakeupTime.trans h.wakeupTime, fun t => ?_⟩
  rcases h.tasks t with hk | hk
  · rcases h'.tasks t with hk' | hk'
    · exact Or.inl ⟨hk'.sched.trans hk.sched, hk'.event.trans hk.event, hk'.status.trans hk.status⟩
    · refine Or.inr ⟨hk.sched.symm.trans hk'.delayed, ?_, ?_, hk'.status⟩
      · rw [← h.wakeupTime]
        exact hk'.wakeupTime
      · rw [← h.priority]
        exact hk'.ready
  · rcases h'.tasks t with hk' | hk'
    · exact Or.inr ⟨hk.delayed, hk.wakeupTime, hk'.sched.trans hk.ready, hk'.status.trans hk.status⟩
    · have hd := hk'.delayed
      rw [hk.ready] at hd
      cases hd

theorem Woke.passed (h : Woke k u k') (hd : k.lists.list (.sched u) = some .delayed) (hu : k.wakeupTime u ≤ cur) :
    Passed cur k k' := by
  refine ⟨h.frame.priority, h.frame.wakeupTime, fun t => ?_⟩
  by_cases hut : t = u
  · subst hut
    refine Or.inr ⟨hd, hu, h.sched, ?_⟩
    simp [h.status]
  · refine Or.inl ⟨h.others (n := .sched t) hut, h.others (n := .event t) hut, ?_⟩
    simp [h.status, hut]

theorem keeps_clock_wakeDue (curTicks fuel : Nat) : Keeps clock (wakeDue cfg curTicks fuel) := by
  induction fuel with
  | zero => exact keeps_fail
  | succ fuel ih =>
      refine (keeps_gets _).bind fun r => ?_
      cases r with
      | none => exact keeps_pure _
      | some item =>
          refine (keeps_gets _).bind fun _ => ?_
          split
          · exact keeps_pure _
          · exact keeps_clock_removeDelaylist.bind fun _ => ih

/-- The loop ends before it has made more rounds than there are delayed tasks. -/
theorem Inv.wakeDue_ends {fuel : Nat} (h : Inv k) (hq : Shows k q) (hfuel : (q .delayed).length < fuel) :
    Ends (Kernel.wakeDue cfg cur fuel) (fun _ k' => Inv k' ∧ Passed cur k k' ∧ AllWoken cur k') k := by
  induction fuel generalizing k q with
  | zero => exact absurd hfuel (Nat.not_lt_zero _)
  | succ fuel ih =>
      simp only [Kernel.wakeDue, ends_bind, ends_gets]
      cases hhead : k.lists.head .delayed with
      | none => exact ⟨h, .refl k, fun t ht => absurd ht (h.linked.head_none id hhead)⟩
      | some item =>
          simp only [ends_bind, ends_gets]
          split
          case isTrue hlater =>
            refine ⟨h, .refl k, fun t ht => ?_⟩
            exact Nat.lt_of_lt_of_le hlater (h.linked.head_le id (fun _ => Nat.le_refl _) ht hhead)
          case isFalse hdue =>
            rw [ends_bind]
            have hsome : k.lists.head .delayed ≠ none := by simp [hhead]
            refine ((h.removeFromDelaylist_ends hsome).and_after (h.removeFromDelaylist_shows hq)).mono ?_
            rintro _ k₁ ⟨⟨h₁, _, u, hu, hw⟩, hq₁⟩
            rw [hhead] at hu
            cases hu
            have hmem : .sched u ∈ q .delayed := by
              rw [hq.head id] at hhead
              exact List.mem_of_head? hhead
            have hlen : ((q.wake k.priority u) .delayed).length < fuel := by
              have hpos := List.length_pos_of_mem hmem
              simp only [Contents.wake, List.length_erase_of_mem hmem]
              omega
            refine (ih h₁ (hq₁ u hhead) hlen).mono ?_
            rintro _ k' ⟨h', hp, hall⟩
            exact ⟨h', (hw.passed (hq.mem.mp hmem) (Nat.le_of_not_lt hdue)).trans hp, hall⟩

/-- The tick of a clock that has room for it wakes the tasks that are due. -/
theorem Inv.tick (h : Inv k) (hroom : k.tickCounter + 1 ≤ cfg.maxDelayTime) :
    Ends (Kernel.processTick cfg) (fun _ k' => Inv k' ∧ k'.tickCounter = k.tickCounter + 1 ∧
      Passed (k.tickCounter + 1) k k' ∧ AllWoken (k.tickCounter + 1) k') k := by
  have hlt : k.tickCounter + 1 < 2 ^ cfg.timeBits := by
    have hpos : 0 < 2 ^ cfg.timeBits := Nat.two_pow_pos _
    unfold Config.maxDelayTime at hroom
    omega
  have hinv : Inv { k with tickCounter := k.tickCounter + 1 } :=
    ⟨h.linked, h.timely, h.placed, h.free, h.current, h.running, h.stopped, h.op, h.microOp⟩
  refine Ends.and_after (Q := fun _ k' => k'.tickCounter = k.tickCounter + 1 ∧
    Passed (k.tickCounter + 1) k k' ∧ AllWoken (k.tickCounter + 1) k') ?_ (h.processTick.mono fun _ _ hk' => hk'.1)
    |>.mono fun _ _ hk' => ⟨hk'.2, hk'.1⟩
  simp only [Kernel.processTick, incTick, ends_bind, ends_gets, ends_check, ends_store, ends_pure,
    Nat.mod_eq_of_lt hlt]
  refine ⟨fun _ => hlt, ?_⟩
  split
  case isTrue =>
    obtain ⟨q, hq⟩ := hinv.shows
    have hlen : (q .delayed).length < nodeBound { k with tickCounter := k.tickCounter + 1 } + 1 :=
      Nat.lt_succ_of_le (length_le h.free (hq.nodup .delayed) fun x hx => hq.mem.mp hx)
    simp only [ends_bind, ends_gets]
    have hclock : ∀ fuel, Keeps clock (Kernel.wakeDue cfg (k.tickCounter + 1) fuel) := keeps_clock_wakeDue _
    refine ((hinv.wakeDue_ends hq hlen).and_after (hclock _ _).2).mono ?_
    rintro _ k' ⟨⟨_, hp, hall⟩, hk'⟩
    refine ⟨congrArg Prod.fst hk', ⟨hp.priority, hp.wakeupTime, fun t => ?_⟩, hall⟩
    rcases hp.tasks t with ⟨hsched, hevent, hstatus⟩ | ⟨hd, hdue, hready, hstatus⟩
    · exact Or.inl ⟨hsched, hevent, hstatus⟩
    · exact Or.inr ⟨hd, hdue, hready, hstatus⟩
  case isFalse hearly =>
    refine ⟨rfl, ⟨rfl, rfl, fun _ => Or.inl ⟨rfl, rfl, rfl⟩⟩, fun t ht => ?_⟩
    exact Nat.lt_of_lt_of_le (Nat.lt_of_not_le hearly) (h.timely _ ht)

theorem Dozes.tick_early (h : Dozes t wk k) (hp : Passed cur k k') (hcur : cur < wk) : Dozes t wk k' := by
  rcases hp.tasks t with hk | hk
  · exact ⟨hk.sched.trans h.sched, hk.event.trans h.event, (congrFun hp.wakeupTime t).trans h.wakeupTime⟩
  · have hle := hk.wakeupTime
    rw [h.wakeupTime] at hle
    omega

theorem Dozes.tick_due (h : Dozes t wk k) (hp : Passed cur k k') (hall : AllWoken cur k') (hcur : wk ≤ cur) :
    k'.lists.list (.sched t) = some (.ready (k.priority t)) ∧ k'.status t = .ready := by
  rcases hp.tasks t with hk | hk
  · have hlt := hall t (hk.sched.trans h.sched)
    rw [hp.wakeupTime, h.wakeupTime] at hlt
    omega
  · exact ⟨hk.ready, hk.status⟩

end Kernel

end IntOS
