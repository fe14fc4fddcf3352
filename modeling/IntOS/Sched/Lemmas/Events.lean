import IntOS.Sched.Runs

/-!
# What an operation does to the event nodes
-/

namespace IntOS

open Persist Persist.Prog

namespace Kernel

variable {cfg : Config} {k k' : Kernel} {t w : Nat}

/-- The operations that a task does in a syscall. -/
def Op.InSyscall : Op → Prop
  | taskDelay _ | block _ _ | blockUnsorted _ _ | wake _ | wakeNode _ _ | syscallEnd => True
  | _ => False

/-- The wait list that the current task enters. -/
def Op.entered : Op → Option Nat
  | block w _ => some w
  | blockUnsorted w _ => some w
  | _ => none

/-- The event nodes stay in their wait lists or leave them, and that of the current task enters the list on which
it blocks. The current task may do its list transaction. -/
structure Events (cfg : Config) (op : Op) (k k' : Kernel) : Prop where
  inv : Inv k'
  limit : k.taskCnt ≤ cfg.taskNumLimit → k'.taskCnt ≤ cfg.taskNumLimit
  listTxDone : ∀ u, k'.listTxDone u = true → k.listTxDone u = true ∨ op.InSyscall ∧ k.current = some u
  event : ∀ u, k'.lists.list (.event u) = k.lists.list (.event u) ∨ k'.lists.list (.event u) = none ∨
    ∃ w, op.entered = some w ∧ k.current = some u ∧ k'.lists.list (.event u) = some (.waiting w)

theorem Slept.events {op : Op} {v : Nat → Nat} (hop : op.entered = some w) (hcur : k.current = some t) (hinv : Inv k')
    (hd : k'.listTxDone = k.listTxDone) (hs : Slept { k with wakeupTime := v } t (some (.waiting w)) k') :
    Events cfg op k k' := by
  refine ⟨hinv, fun hlimit => hs.frame.taskCnt.le.trans hlimit, fun u hu => ?_, fun u => ?_⟩
  · rw [hd] at hu
    exact Or.inl hu
  · by_cases hut : u = t
    · rw [hut]
      exact Or.inr (Or.inr ⟨w, hop, hcur, hs.event⟩)
    · exact Or.inl (hs.others hut)

theorem keeps_taskCnt_onLists {α : Type} (m : Prog (Lists NodeRef ListRef) α) : Keeps Kernel.taskCnt (onLists m) :=
  keeps_zoom fun _ _ => rfl

theorem keeps_taskCnt_initializeTask (t prio : Nat) : Keeps Kernel.taskCnt (initializeTask t prio) := by
  refine (keeps_taskCnt_onLists _).bind fun _ => (keeps_taskCnt_onLists _).bind fun _ => ?_
  refine Keeps.bind (keeps_store fun _ => rfl) fun _ => Keeps.bind (keeps_store fun _ => rfl) fun _ => ?_
  refine Keeps.bind (keeps_store fun _ => rfl) fun _ => Keeps.bind (keeps_store fun _ => rfl) fun _ => ?_
  exact keeps_store fun _ => rfl

theorem keeps_taskCnt_insertIntoReadylist (t : Nat) : Keeps Kernel.taskCnt (rollForwardInsertIntoReadylist t) := by
  refine Keeps.bind (keeps_store fun _ => rfl) fun _ => Keeps.bind (keeps_store fun _ => rfl) fun _ => ?_
  apply Keeps.bind
  · refine (keeps_gets _).bind fun _ => (keeps_taskCnt_onLists _).bind fun _ => ?_
    exact keeps_store fun _ => rfl
  · refine fun _ => (keeps_taskCnt_onLists _).bind fun _ => ?_
    exact keeps_store fun _ => rfl

/-- A task is created only where there is room for it. -/
theorem createTaskStatic_limit (prio : Nat) (hlimit : k.taskCnt ≤ cfg.taskNumLimit) :
    After (Kernel.createTaskStatic cfg prio) (fun _ k' => k'.taskCnt ≤ cfg.taskNumLimit) k := by
  have hrest : Keeps Kernel.taskCnt (do
      initializeTask k.taskCnt prio
      let started ← gets (·.schedulerStarted)
      let curMax ← gets (·.curMaxPriority)
      if ¬ started ∧ prio < curMax then do
        setCurrent k.taskCnt
        store fun k => { k with curMaxPriority := prio }
      rollForwardInsertIntoReadylist k.taskCnt
      pure (Except.ok (ε := ErrorCode) k.taskCnt)) := by
    refine (keeps_taskCnt_initializeTask _ _).bind fun _ => (keeps_gets _).bind fun started => ?_
    refine (keeps_gets _).bind fun curMax => ?_
    have hend := (keeps_taskCnt_insertIntoReadylist k.taskCnt).bind fun _ =>
      keeps_pure (f := Kernel.taskCnt) (Except.ok (ε := ErrorCode) k.taskCnt)
    split
    · refine Keeps.bind (keeps_store fun _ => rfl) fun _ => Keeps.bind (keeps_store fun _ => rfl) fun _ => ?_
      exact hend
    · exact hend
  unfold Kernel.createTaskStatic
  rw [after_bind, after_gets]
  split
  · exact hlimit
  split
  · exact hlimit
  case isFalse hroom _ =>
    rw [after_bind, after_store]
    refine After.mono (hrest _).2 fun _ k' hk' => ?_
    rw [hk']
    exact Nat.succ_le_of_lt (Nat.lt_of_not_le hroom)

theorem Inv.events (h : Inv k) {op : Op} (ho : op.Enabled k) : After (op.prog cfg) (fun _ => Events cfg op k) k := by
  cases op with
  | createTask prio =>
      have hlimit : After (Kernel.createTaskStatic cfg prio) (fun _ k' =>
          k.taskCnt ≤ cfg.taskNumLimit → k'.taskCnt ≤ cfg.taskNumLimit) k := by
        by_cases hk : k.taskCnt ≤ cfg.taskNumLimit
        · exact (createTaskStatic_limit prio hk).mono fun _ _ hk' _ => hk'
        · exact (h.createTaskStatic prio).after.mono fun _ _ _ hk' => absurd hk' hk
      simp only [Op.prog, after_bind]
      refine ((h.createTaskStatic prio).after.and hlimit).mono ?_
      rintro _ k' ⟨⟨hinv, hc⟩, hk'⟩
      exact ⟨hinv, hk', fun u hu => Or.inl (hc.listTxDone u hu), fun u => Or.inl (hc.events u)⟩
  | startKernel =>
      refine ⟨?_, id, fun _ => Or.inl, fun _ => Or.inl rfl⟩
      exact ⟨h.linked, h.timely, h.placed, h.free, h.current, h.running, (fun h => by cases h), h.op, h.microOp⟩
  | taskDelay nticks =>
      refine (h.taskDelay ho nticks).mono ?_
      rintro _ k' ⟨hinv, hcnt, he, hd⟩
      exact ⟨hinv, fun hk => hcnt.le.trans hk, fun u hu => (hd u hu).imp_right fun hcur => ⟨trivial, hcur⟩,
        fun u => Or.inl (he u)⟩
  | block w wakeupTime =>
      refine (h.blockOnWaitlist ho w wakeupTime).mono ?_
      rintro _ k' ⟨hinv, hd, t, hcur, hs⟩
      exact hs.events rfl hcur hinv hd
  | blockUnsorted w wakeupTime =>
      refine (h.blockOnUnsortedWaitlist ho w wakeupTime).mono ?_
      rintro _ k' ⟨hinv, hd, t, hcur, hs⟩
      exact hs.events rfl hcur hinv hd
  | wake w =>
      refine (h.wakeFirst w).mono ?_
      rintro _ k' ⟨hinv, hcnt, he, hd⟩
      refine ⟨hinv, fun hk => hcnt.le.trans hk, fun u hu => (hd u hu).imp_right fun hcur => ⟨trivial, hcur⟩,
        fun u => ?_⟩
      exact (he u).imp_right fun hu => Or.inl hu.2
  | wakeNode w n =>
      have hn := h.inList_iff.mp ho
      obtain ⟨_, hevent, _⟩ := h.waiting hn
      simp only [Op.prog]
      rw [hevent] at hn ⊢
      refine (h.removeFromUnsortedWaitlist hn).after.mono ?_
      rintro _ k' ⟨hinv, hd, hw⟩
      refine ⟨hinv, fun hk => hw.frame.taskCnt.le.trans hk, fun u hu => ?_, fun u => (hw.events u).imp_right Or.inl⟩
      rw [hd] at hu
      exact Or.inl hu
  | processTick =>
      refine h.processTick.mono ?_
      rintro _ k' ⟨hinv, he⟩
      refine ⟨hinv, fun hk => he.taskCnt.le.trans hk, fun u hu => ?_, fun u => (he.events u).imp_right Or.inl⟩
      rw [he.listTxDone] at hu
      exact Or.inl hu
  | taskSwitch =>
      refine (h.taskSwitch ho).mono ?_
      rintro _ k' ⟨hinv, hs⟩
      refine ⟨hinv, fun hk => hs.taskCnt.le.trans hk, fun u hu => ?_, fun u => Or.inl (by rw [hs.list])⟩
      rw [hs.listTxDone] at hu
      exact Or.inl hu
  | syscallEnd =>
      simp only [Op.prog, after_bind, after_getCurrent, after_store]
      refine fun t hcur => ⟨?_, id, fun u hu => ?_, fun _ => Or.inl rfl⟩
      · exact ⟨h.linked, h.timely, h.placed, h.free, h.current, h.running, h.stopped, h.op, h.microOp⟩
      · by_cases hut : u = t
        · exact Or.inr ⟨trivial, hut ▸ hcur⟩
        · dsimp only at hu
          rw [Function.update_of_ne hut] at hu
          exact Or.inl hu

theorem Reachable.limit (h : Reachable cfg k) : k.taskCnt ≤ cfg.taskNumLimit := by
  induction h with
  | init => exact Nat.zero_le _
  | step h ho hout ih => exact (((h.inv).events ho).post hout).limit ih

end Kernel

end IntOS
