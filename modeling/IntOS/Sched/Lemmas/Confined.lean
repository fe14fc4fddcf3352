import IntOS.Sched.Lemmas.Kinds
import IntOS.Sched.Recover

/-!
# Tasks that have been created

Whatever a power failure has left of the lists, the scheduler and its recovery name none but tasks that have been
created, and of their modes of recovery they change only that of a task that they create.
-/

namespace IntOS

open Persist Persist.Prog IntOS.Lists

namespace Kernel

variable {α : Type} {cfg : Config} {k c : Kernel} {n t w oldLen : Nat} {mode : Nat → Bool} {Q : α → Prop}

/-- A node of one of the first `n` tasks. -/
def NodeBelow (n : Nat) (x : NodeRef) : Prop := x.task < n

/-- The tasks are the first `n`, and nothing points to others. -/
structure Confined (n : Nat) (mode : Nat → Bool) (k : Kernel) : Prop where
  taskCnt : k.taskCnt = n
  recoveryMode : k.recoveryMode = mode
  lists : Within (NodeBelow n) (fun _ => True) Lists.new k.lists
  blockNode : Own (NodeBelow n) k.blockNodePtr
  task : Own (· < n) k.taskPtr
  current : Own (· < n) k.current

theorem confined_new : Confined 0 (fun _ => false) (new cfg) where
  taskCnt := rfl
  recoveryMode := rfl
  lists := Closed.within ⟨fun _ _ => own_none, fun _ _ => own_none, fun _ _ => own_none, fun _ _ => own_none,
    fun _ _ => own_none⟩
  blockNode := own_none
  task := own_none
  current := own_none

/-- There is one task more, whose nodes are in no list. -/
theorem Confined.grow (h : Confined n mode k) : Confined (n + 1) mode { k with taskCnt := n + 1 } where
  taskCnt := rfl
  recoveryMode := h.recoveryMode
  lists := by
    have hle : ∀ {v : Option NodeRef}, Own (NodeBelow n) v → Own (NodeBelow (n + 1)) v := fun hv x hx =>
      Nat.lt_succ_of_lt (hv x hx)
    have hnew : ∀ x, ¬ NodeBelow (n + 1) x → ¬ NodeBelow n x := fun x hx h => hx (Nat.lt_succ_of_lt h)
    have hlinks : ∀ {f : NodeRef → Option NodeRef}, (∀ x, NodeBelow n x → Own (NodeBelow n) (f x)) →
        (∀ x, ¬ NodeBelow n x → f x = none) → ∀ x, Own (NodeBelow (n + 1)) (f x) := by
      intro f hf hnone x
      by_cases hx : NodeBelow n x
      · exact hle (hf x hx)
      · rw [hnone x hx]
        exact own_none
    refine ⟨⟨fun x _ => ?_, fun x _ => ?_, fun _ _ _ _ => trivial, fun l _ => ?_, fun l _ => ?_⟩, ?_⟩
    · exact hlinks h.lists.closed.prev h.lists.beside.prev x
    · exact hlinks h.lists.closed.next h.lists.beside.next x
    · exact hle (h.lists.closed.cursor l trivial)
    · exact hle (h.lists.closed.head l trivial)
    · exact ⟨fun x hx => h.lists.beside.prev x (hnew x hx), fun x hx => h.lists.beside.next x (hnew x hx),
        fun x hx => h.lists.beside.list x (hnew x hx), h.lists.beside.len, h.lists.beside.cursor, h.lists.beside.head⟩
  blockNode := fun x hx => Nat.lt_succ_of_lt (h.blockNode x hx)
  task := fun x hx => Nat.lt_succ_of_lt (h.task x hx)
  current := fun x hx => Nat.lt_succ_of_lt (h.current x hx)

/-! ## Moves of one task -/

/-- What is not to name other tasks. -/
def names (k : Kernel) : Nat × (Nat → Bool) × Lists NodeRef ListRef × Option NodeRef × Option Nat × Option Nat :=
  (k.taskCnt, k.recoveryMode, k.lists, k.blockNodePtr, k.taskPtr, k.current)

theorem Confined.same (h : Confined n mode k) (hc : c.names = k.names) : Confined n mode c := by
  simp only [names, Prod.mk.injEq] at hc
  obtain ⟨hcnt, hmode, hlists, hblock, htask, hcur⟩ := hc
  exact ⟨hcnt.trans h.taskCnt, hmode.trans h.recoveryMode, hlists ▸ h.lists, hblock ▸ h.blockNode, htask ▸ h.task,
    hcur ▸ h.current⟩

theorem confined_store {g : Kernel → Kernel} (h : ∀ k, (g k).names = k.names) :
    Stays (Confined n mode) (store g) fun _ => True :=
  stays_store fun k hk => hk.same (h k)

theorem confined_gets (g : Kernel → α) : Stays (Confined n mode) (gets g) fun _ => True := stays_gets fun _ _ => trivial

theorem confined_onLists {m : Prog (Lists NodeRef ListRef) α}
    (hm : Stays (Within (NodeBelow n) (fun _ => True) Lists.new) m Q) : Stays (Confined n mode) (onLists m) Q := by
  intro k hk
  have hkept : ∀ l, Within (NodeBelow n) (fun _ => True) Lists.new l → Confined n mode { k with lists := l } :=
    fun _ hl => ⟨hk.taskCnt, hk.recoveryMode, hl, hk.blockNode, hk.task, hk.current⟩
  refine wpc_zoom rfl (wpc_mono (hm k.lists hk.lists) ?_ hkept)
  exact fun _ l hl => ⟨hkept l hl.1, hl.2⟩

theorem confined_setMicroOp (op : ListOpCode) (len : Nat) :
    Stays (Confined n mode) (setMicroOp op len) fun _ => True :=
  confined_onLists (stays_store fun _ h =>
    ⟨⟨h.closed.prev, h.closed.next, h.closed.list, h.closed.cursor, h.closed.head⟩,
      ⟨h.beside.prev, h.beside.next, h.beside.list, h.beside.len, h.beside.cursor, h.beside.head⟩⟩)

theorem confined_setTxOp (op : ListTxOpCode) : Stays (Confined n mode) (setTxOp op) fun _ => True :=
  confined_store fun _ => rfl

theorem confined_setStatus (v : TaskState) : Stays (Confined n mode) (setStatus t v) fun _ => True :=
  confined_store fun _ => rfl

theorem confined_setWakeupTime (v : Nat) : Stays (Confined n mode) (setWakeupTime t v) fun _ => True :=
  confined_store fun _ => rfl

theorem confined_setCurrent (ht : t < n) : Stays (Confined n mode) (setCurrent t) fun _ => True :=
  stays_store fun _ h => ⟨h.taskCnt, h.recoveryMode, h.lists, h.blockNode, h.task, own_some ht⟩

theorem confined_setBlockNode {x : Option NodeRef} (hx : Own (NodeBelow n) x) :
    Stays (Confined n mode) (store fun k => { k with blockNodePtr := x }) fun _ => True :=
  stays_store fun _ h => ⟨h.taskCnt, h.recoveryMode, h.lists, hx, h.task, h.current⟩

theorem confined_setTask (ht : t < n) :
    Stays (Confined n mode) (store fun k => { k with taskPtr := some t }) fun _ => True :=
  stays_store fun _ h => ⟨h.taskCnt, h.recoveryMode, h.lists, h.blockNode, own_some ht, h.current⟩

theorem confined_getCurrent : Stays (Confined n mode) getCurrent (· < n) := by
  refine (stays_gets (Q := Own (· < n)) fun _ h => h.current).bind fun t ht => ?_
  cases t with
  | none => exact stays_fail
  | some t => exact stays_pure (ht t rfl)

theorem confined_commit : Stays (Confined n mode) commit fun _ => True :=
  (confined_setMicroOp _ _).bind fun _ _ => confined_getCurrent.bind fun _ _ =>
    Stays.bind (confined_store fun _ => rfl) fun _ _ => confined_setTxOp _

theorem confined_invalidate : Stays (Confined n mode) invalidate fun _ => True :=
  (confined_setMicroOp _ _).bind fun _ _ => confined_setTxOp _

theorem confined_bypass : Stays (Confined n mode) (bypass cfg) fun _ => True :=
  confined_getCurrent.bind fun _ _ => (confined_gets _).bind fun _ _ => (confined_gets _).bind fun _ _ =>
    (stays_check _).bind fun _ _ => stays_pure trivial

theorem confined_optimizedRemove {debug : Bool} {l : ListRef} {x : NodeRef} (hx : NodeBelow n x) :
    Stays (Confined n mode) (onLists (optimizedRemove debug l x)) fun _ => True :=
  confined_onLists (stays_optimizedRemove trivial hx)

theorem confined_removeFromDelayedList (ht : t < n) :
    Stays (Confined n mode) (removeFromDelayedList cfg t) fun _ => True :=
  confined_onLists (stays_optimizedRemove (n := NodeRef.sched t) trivial ht)

theorem confined_removeFromReadyList (ht : t < n) : Stays (Confined n mode) (removeFromReadyList cfg t) fun _ => True :=
  (confined_gets _).bind fun _ _ => confined_optimizedRemove ht

theorem confined_addToReadyList (ht : t < n) : Stays (Confined n mode) (addToReadyList t) fun _ => True := by
  refine (confined_gets _).bind fun _ _ => Stays.bind (Q := fun _ => True) ?_ fun _ _ => confined_setStatus _
  exact confined_onLists (stays_optimizedInsertBeforeCursor trivial ht)

theorem confined_insertDelayed (ht : t < n) : Stays (Confined n mode) (insertDelayed cfg t) fun _ => True :=
  (confined_gets _).bind fun _ _ => (confined_gets _).bind fun _ _ => confined_onLists (stays_insertSorted trivial ht)

theorem confined_insertWaiting (ht : t < n) : Stays (Confined n mode) (insertWaiting cfg w t) fun _ => True :=
  (confined_gets _).bind fun _ _ => (confined_gets _).bind fun _ _ => confined_onLists (stays_insertSorted trivial ht)

theorem confined_addToDelayedList (ht : t < n) : Stays (Confined n mode) (addToDelayedList cfg t) fun _ => True := by
  refine (confined_setStatus _).bind fun _ _ => (confined_insertDelayed ht).bind fun _ _ => ?_
  refine (confined_gets _).bind fun _ _ => (confined_gets _).bind fun _ _ => ?_
  split
  · exact confined_store fun _ => rfl
  · exact stays_pure trivial

theorem confined_removeOwn (ht : t < n) : Stays (Confined n mode) (removeFromOwnWaitlist cfg t) fun _ => True := by
  refine (confined_gets _).bind fun l _ => ?_
  cases l with
  | none => exact stays_pure trivial
  | some l => exact confined_optimizedRemove ht

/-! ## List transactions -/

theorem confined_popRemove : Stays (Confined n mode) (rollForwardPopRemoveFromWaitlist cfg w) fun _ => True := by
  refine confined_bypass.bind fun b _ => ?_
  split
  · exact stays_pure trivial
  refine (stays_gets (Q := Own (NodeBelow n)) fun _ h => h.lists.closed.head _ trivial).bind fun head hhead => ?_
  refine (confined_setBlockNode hhead).bind fun _ _ => (confined_setTxOp _).bind fun _ _ => ?_
  refine (confined_onLists (stays_optimizedPopFront trivial)).bind fun x hx => ?_
  cases x with
  | none => exact confined_commit
  | some x =>
      exact (confined_removeFromDelayedList (hx x rfl)).bind fun _ _ =>
        (confined_addToReadyList (hx x rfl)).bind fun _ _ => confined_commit

theorem confined_removeUnsorted {x : NodeRef} (hx : NodeBelow n x) :
    Stays (Confined n mode) (rollForwardRemoveFromUnsortedWaitlist cfg w x) fun _ => True :=
  (confined_setBlockNode (own_some hx)).bind fun _ _ => (confined_setTxOp _).bind fun _ _ =>
    (confined_optimizedRemove hx).bind fun _ _ => (confined_removeFromDelayedList hx).bind fun _ _ =>
      (confined_addToReadyList hx).bind fun _ _ => confined_invalidate

theorem confined_insertWaitlist (ht : t < n) :
    Stays (Confined n mode) (rollForwardInsertIntoWaitlist cfg w t) fun _ => True :=
  Stays.bind (confined_store fun _ => rfl) fun _ _ => (confined_setTxOp _).bind fun _ _ =>
    (confined_removeFromReadyList ht).bind fun _ _ => (confined_insertWaiting ht).bind fun _ _ =>
      (confined_addToDelayedList ht).bind fun _ _ => confined_invalidate

theorem confined_insertUnsorted (ht : t < n) :
    Stays (Confined n mode) (rollForwardInsertIntoUnsortedWaitlist cfg w t) fun _ => True :=
  Stays.bind (confined_store fun _ => rfl) fun _ _ => (confined_setTxOp _).bind fun _ _ =>
    (confined_removeFromReadyList ht).bind fun _ _ =>
      (confined_onLists (stays_optimizedInsertFront (n := NodeRef.event t) trivial ht)).bind fun _ _ =>
        (confined_addToDelayedList ht).bind fun _ _ => confined_invalidate

theorem confined_removeDelayed : Stays (Confined n mode) (rollForwardRemoveFromDelaylist cfg) fun _ => True := by
  refine (confined_setTxOp _).bind fun _ _ => (confined_onLists (stays_optimizedPopFront trivial)).bind fun x hx => ?_
  cases x with
  | none => exact stays_fail
  | some x =>
      exact (confined_removeOwn (hx x rfl)).bind fun _ _ => (confined_addToReadyList (hx x rfl)).bind fun _ _ =>
        confined_invalidate

theorem confined_insertDelaylist : Stays (Confined n mode) (rollForwardInsertIntoDelaylist cfg) fun _ => True := by
  refine confined_bypass.bind fun b _ => ?_
  split
  · exact stays_pure trivial
  refine (confined_setTxOp _).bind fun _ _ => confined_getCurrent.bind fun t ht => ?_
  exact (confined_removeFromReadyList ht).bind fun _ _ => (confined_addToDelayedList ht).bind fun _ _ => confined_commit

theorem confined_insertReadylist (ht : t < n) :
    Stays (Confined n mode) (rollForwardInsertIntoReadylist t) fun _ => True :=
  (confined_setTask ht).bind fun _ _ => (confined_setTxOp _).bind fun _ _ =>
    (confined_addToReadyList ht).bind fun _ _ => confined_invalidate

/-! ## Operations -/

theorem confined_addTime (x y : Nat) : Stays (Confined n mode) (addTime cfg x y) fun _ => True :=
  (stays_check _).bind fun _ _ => stays_pure trivial

theorem confined_blockUnsorted (wakeupTime : Nat) :
    Stays (Confined n mode) (blockOnUnsortedWaitlist cfg w wakeupTime) fun _ => True :=
  confined_getCurrent.bind fun _ ht => (confined_setWakeupTime _).bind fun _ _ => confined_insertUnsorted ht

theorem confined_wakeDue (now fuel : Nat) : Stays (Confined n mode) (wakeDue cfg now fuel) fun _ => True := by
  induction fuel with
  | zero => exact stays_fail
  | succ fuel ih =>
      refine (confined_gets _).bind fun head _ => ?_
      cases head with
      | none => exact stays_pure trivial
      | some item =>
          refine (confined_gets _).bind fun _ _ => ?_
          split
          · exact stays_pure trivial
          · exact confined_removeDelayed.bind fun _ _ => ih

theorem confined_processTick : Stays (Confined n mode) (processTick cfg) fun _ => True := by
  refine Stays.bind (Q := fun _ => True) ?_ fun now _ => (confined_gets _).bind fun _ _ => ?_
  · exact (confined_gets _).bind fun _ _ => (stays_check _).bind fun _ _ =>
      Stays.bind (confined_store fun _ => rfl) fun _ _ => stays_pure trivial
  · split
    · exact (confined_gets _).bind fun _ _ => (confined_wakeDue _ _).bind fun _ _ => (confined_gets _).bind fun _ _ =>
        (confined_gets _).bind fun _ _ => confined_store fun _ => rfl
    · exact stays_pure trivial

/-- The task that is chosen is in a ready list. -/
theorem Confined.nextTask {i : Nat} (h : Confined n mode k) (hnext : k.nextTask = some (i, t)) : t < n := by
  obtain ⟨j, _, hj⟩ := List.exists_of_findSome?_eq_some hnext
  obtain ⟨x, hx, hxt⟩ := Option.map_eq_some_iff.mp hj
  cases hxt
  obtain ⟨cursor, hcursor, hx⟩ := Option.bind_eq_some_iff.mp hx
  exact h.lists.closed.next cursor (h.lists.closed.cursor _ trivial cursor hcursor) x hx

theorem confined_contextSwitch {task prev : Nat} (prio : Nat) (htask : task < n) (hprev : prev < n) :
    Stays (Confined n mode) (atomicRollFowardContextSwitch task prev prio) fun _ => True := by
  have hend : Stays (Confined n mode) (do
      let _ ← onLists (nextItem (.ready prio))
      setCurrent task
      setMicroOp .invalid 0) fun _ => True :=
    (confined_onLists (stays_nextItem trivial)).bind fun _ _ => (confined_setCurrent htask).bind fun _ _ =>
      confined_setMicroOp _ _
  refine (confined_setTask hprev).bind fun _ _ => (confined_setMicroOp _ _).bind fun _ _ => ?_
  refine (confined_setStatus _).bind fun _ _ => (confined_gets _).bind fun _ _ => ?_
  split
  · exact (confined_setStatus _).bind fun _ _ => hend
  · exact hend

theorem confined_taskSwitch : Stays (Confined n mode) (taskSwitch cfg) fun _ => True := by
  refine confined_getCurrent.bind fun prev hprev => ?_
  refine (stays_gets (Q := fun next => ∀ i t, next = some (i, t) → t < n) fun _ h _ _ => h.nextTask).bind
    fun next hnext => ?_
  cases next with
  | none => exact stays_fail
  | some next =>
      dsimp only
      split
      · exact (confined_gets _).bind fun _ _ => (stays_check _).bind fun _ _ =>
          confined_contextSwitch _ (hnext _ _ rfl) hprev
      · exact (confined_gets _).bind fun _ _ => stays_check _

/-- One task has been created. -/
def Joined (n : Nat) (mode : Nat → Bool) (k : Kernel) : Prop :=
  ∃ mode' : Nat → Bool, (∀ t, t < n → mode' t = mode t) ∧ Confined (n + 1) mode' k

theorem stays_joined {m : Prog Kernel α} (hm : ∀ mode', Stays (Confined (n + 1) mode') m Q) :
    Stays (Joined n mode) m Q := by
  rintro k ⟨mode', hmode, hk⟩
  exact wpc_mono (hm mode' k hk) (fun _ _ hc => ⟨⟨mode', hmode, hc.1⟩, hc.2⟩) fun _ hc => ⟨mode', hmode, hc⟩

theorem joined_initializeTask (prio : Nat) : Stays (Joined n mode) (initializeTask n prio) fun _ => True := by
  have hn : n < n + 1 := Nat.lt_succ_self n
  have hreset : ∀ x : NodeRef, NodeBelow (n + 1) x → Stays (Joined n mode) (onLists (resetNode x)) fun _ => True :=
    fun _ hx => stays_joined fun _ => confined_onLists (stays_resetNode hx)
  have hstore : ∀ {g : Kernel → Kernel}, (∀ k, (g k).names = k.names) → Stays (Joined n mode) (store g) fun _ => True :=
    fun h => stays_joined fun _ => confined_store h
  refine (hreset (.sched n) hn).bind fun _ _ => (hreset (.event n) hn).bind fun _ _ => ?_
  refine Stays.bind (hstore fun _ => rfl) fun _ _ => Stays.bind (hstore fun _ => rfl) fun _ _ => ?_
  refine Stays.bind (hstore fun _ => rfl) fun _ _ => Stays.bind (hstore fun _ => rfl) fun _ _ => ?_
  refine stays_store fun k hk => ?_
  obtain ⟨mode', hmode, hk⟩ := hk
  refine ⟨Function.update mode' n false, fun t ht => ?_, hk.taskCnt, ?_, hk.lists, hk.blockNode, hk.task, hk.current⟩
  · rw [Function.update_of_ne ht.ne]
    exact hmode t ht
  · dsimp only
    rw [hk.recoveryMode]

theorem confined_createTask (prio : Nat) (h : Confined n mode k) :
    wpc (createTaskStatic cfg prio) (fun _ c => Confined n mode c ∨ Joined n mode c) True
      (fun c => Confined n mode c ∨ Joined n mode c) k := by
  have hend : Stays (Joined n mode) (do
      rollForwardInsertIntoReadylist n
      pure (Except.ok (ε := ErrorCode) n)) fun _ => True :=
    (stays_joined fun _ => confined_insertReadylist (Nat.lt_succ_self n)).bind fun _ _ => stays_pure trivial
  have hrest : Stays (Joined n mode) (do
      initializeTask n prio
      let started ← gets (·.schedulerStarted)
      let curMax ← gets (·.curMaxPriority)
      if ¬ started ∧ prio < curMax then do
        setCurrent n
        store fun k => { k with curMaxPriority := prio }
      rollForwardInsertIntoReadylist n
      pure (Except.ok (ε := ErrorCode) n)) fun _ => True := by
    refine (joined_initializeTask prio).bind fun _ _ => ?_
    refine (stays_joined fun _ => confined_gets _).bind fun _ _ =>
      (stays_joined fun _ => confined_gets _).bind fun _ _ => ?_
    split
    · refine (stays_joined fun _ => confined_setCurrent (Nat.lt_succ_self n)).bind fun _ _ => ?_
      exact Stays.bind (stays_joined fun _ => confined_store fun _ => rfl) fun _ _ => hend
    · exact hend
  unfold createTaskStatic
  refine wpc_bind (wpc_gets (Or.inl h) ?_)
  rw [h.taskCnt]
  split
  · exact wpc_pure (Or.inl h) (Or.inl h)
  split
  · exact wpc_pure (Or.inl h) (Or.inl h)
  have hnew : Joined n mode { k with taskCnt := n + 1 } := ⟨mode, fun _ _ => rfl, h.grow⟩
  refine wpc_bind (wpc_store (Or.inl h) (Or.inr hnew) ?_)
  exact wpc_mono (hrest _ hnew) (fun _ _ hc => Or.inr hc.1) fun _ hc => Or.inr hc

theorem Confined.reaches {x y : NodeRef} (h : Confined n mode k) (hx : NodeBelow n x)
    (hy : Chain.Reaches k.lists.next x y) : NodeBelow n y := by
  induction hy with
  | refl => exact hx
  | tail _ hnext ih => exact h.lists.closed.next _ ih _ hnext

/-- What the tasks and interrupts do; a task that is created comes after the others. -/
theorem confined_prog {op : Op} (ho : op.Enabled k) (h : Confined n mode k) :
    wpc (op.prog cfg) (fun _ c => Confined n mode c ∨ Joined n mode c) True
      (fun c => Confined n mode c ∨ Joined n mode c) k := by
  have hstays : Stays (Confined n mode) (op.prog cfg) (fun _ => True) →
      wpc (op.prog cfg) (fun _ c => Confined n mode c ∨ Joined n mode c) True
        (fun c => Confined n mode c ∨ Joined n mode c) k := fun hs =>
    wpc_mono (hs k h) (fun _ _ hc => Or.inl hc.1) fun _ hc => Or.inl hc
  cases op with
  | createTask prio =>
      exact wpc_bind (wpc_mono (confined_createTask prio h) (fun _ _ hc => wpc_pure hc hc) fun _ hc => hc)
  | startKernel => exact hstays (confined_store fun _ => rfl)
  | taskDelay nticks =>
      exact hstays (confined_getCurrent.bind fun _ _ => (confined_gets _).bind fun _ _ =>
        (confined_addTime _ _).bind fun _ _ => (confined_setWakeupTime _).bind fun _ _ => confined_insertDelaylist)
  | block w wakeupTime =>
      exact hstays (confined_getCurrent.bind fun _ ht => (confined_setWakeupTime _).bind fun _ _ =>
        confined_insertWaitlist ht)
  | blockUnsorted w wakeupTime => exact hstays (confined_blockUnsorted wakeupTime)
  | wake w => exact hstays confined_popRemove
  | wakeNode w x =>
      obtain ⟨y, hy, hreach⟩ := ho
      exact hstays (confined_removeUnsorted (h.reaches (h.lists.closed.head (.waiting w) trivial y hy) hreach))
  | processTick => exact hstays confined_processTick
  | taskSwitch => exact hstays confined_taskSwitch
  | syscallEnd => exact hstays (confined_getCurrent.bind fun _ _ => confined_store fun _ => rfl)

/-- The tasks that there were are still there, in their modes. -/
theorem Confined.carried (h : Confined n mode k ∨ Joined n mode k) :
    Confined k.taskCnt k.recoveryMode k ∧ n ≤ k.taskCnt ∧ ∀ t, t < n → k.recoveryMode t = mode t := by
  have hself : ∀ {n' : Nat} {mode' : Nat → Bool}, Confined n' mode' k → Confined k.taskCnt k.recoveryMode k := by
    rintro n' mode' hk
    rwa [hk.taskCnt, hk.recoveryMode]
  rcases h with hk | ⟨mode', hmode, hk⟩
  · exact ⟨hself hk, hk.taskCnt.ge, fun t _ => congrFun hk.recoveryMode t⟩
  · refine ⟨hself hk, ?_, fun t ht => (congrFun hk.recoveryMode t).trans (hmode t ht)⟩
    rw [hk.taskCnt]
    exact Nat.le_succ n

/-! ## Recovery -/

theorem confined_getMicroOp : Stays (Confined n mode) getMicroOp fun _ => True := by
  refine (confined_gets _).bind fun op _ => ?_
  cases op with
  | none => exact stays_fail
  | some op => exact stays_pure trivial

theorem confined_getOldLen : Stays (Confined n mode) getOldLen fun _ => True := confined_gets _

theorem confined_getBlockNode : Stays (Confined n mode) getBlockNode (NodeBelow n) := by
  refine (stays_gets (Q := Own (NodeBelow n)) fun _ h => h.blockNode).bind fun x hx => ?_
  cases x with
  | none => exact stays_fail
  | some x => exact stays_pure (hx x rfl)

theorem confined_getWaitList : Stays (Confined n mode) getWaitList fun _ => True := by
  refine (confined_gets _).bind fun w _ => ?_
  cases w with
  | none => exact stays_fail
  | some w => exact stays_pure trivial

theorem confined_getTask : Stays (Confined n mode) getTask (· < n) := by
  refine (stays_gets (Q := Own (· < n)) fun _ h => h.task).bind fun t ht => ?_
  cases t with
  | none => exact stays_fail
  | some t => exact stays_pure (ht t rfl)

theorem confined_recoverRemove {l : ListRef} {x : NodeRef} (hx : NodeBelow n x) :
    Stays (Confined n mode) (onLists (recoverFromFailedRemove l x oldLen)) fun _ => True :=
  confined_onLists (stays_recoverFromFailedRemove trivial hx)

theorem confined_recoverRemoveReady (ht : t < n) :
    Stays (Confined n mode) (recoverRemoveFromReadyList t oldLen) fun _ => True :=
  (confined_gets _).bind fun _ _ => confined_recoverRemove ht

theorem confined_recoverInsertReady (ht : t < n) :
    Stays (Confined n mode) (recoverInsertIntoReadyList t oldLen) fun _ => True := by
  refine (confined_gets _).bind fun _ _ => Stays.bind (Q := fun _ => True) ?_ fun _ _ => confined_setStatus _
  exact confined_onLists (stays_recoverFromFailedInsertBeforeCursor trivial ht)

theorem confined_recoverInsertDelayed (ht : t < n) :
    Stays (Confined n mode) (recoverInsertIntoDelayedList cfg t oldLen) fun _ => True := by
  refine (confined_gets _).bind fun _ _ => (confined_gets _).bind fun _ _ =>
    Stays.bind (Q := fun _ => True) ?_ fun _ _ =>
    confined_setStatus _
  exact confined_onLists (stays_recoverFromFailedInsertSorted trivial ht)

theorem confined_recoverPopFront {x : NodeRef} (hx : NodeBelow n x) :
    Stays (Confined n mode) (recoverPopFront x oldLen) fun _ => True := by
  refine (confined_gets _).bind fun l _ => ?_
  cases l with
  | none => exact stays_pure trivial
  | some l => exact confined_onLists (stays_recoverFromFailedPopFront trivial hx)

theorem confined_recoverPopRemove :
    Stays (Confined n mode) (recoverAndRollForwardOfWaitlistPopRemove cfg) fun _ => True := by
  refine confined_getMicroOp.bind fun op _ => confined_getOldLen.bind fun oldLen _ => ?_
  refine confined_getBlockNode.bind fun x hx => ?_
  cases op with
  | popFront =>
      exact (confined_recoverPopFront hx).bind fun _ _ => (confined_removeFromDelayedList hx).bind fun _ _ =>
        (confined_addToReadyList hx).bind fun _ _ => confined_commit
  | remove =>
      exact (confined_recoverRemove (x := .sched x.task) hx).bind fun _ _ =>
        (confined_addToReadyList hx).bind fun _ _ => confined_commit
  | insertBeforeCursor => exact (confined_recoverInsertReady hx).bind fun _ _ => confined_commit
  | invalid => exact confined_commit
  | _ => exact stays_fail_bind

theorem confined_recoverUnsortedRemove :
    Stays (Confined n mode) (recoverAndRollForwardOfUnsortedWaitlistRemove cfg) fun _ => True := by
  refine confined_getMicroOp.bind fun op _ => confined_getOldLen.bind fun oldLen _ => ?_
  refine confined_getBlockNode.bind fun x hx => ?_
  cases op with
  | remove =>
      refine (confined_gets _).bind fun l _ => ?_
      cases l with
      | none =>
          exact (confined_recoverRemove (x := .sched x.task) hx).bind fun _ _ =>
            (confined_addToReadyList hx).bind fun _ _ => confined_invalidate
      | some l =>
          exact (confined_recoverRemove hx).bind fun _ _ => (confined_removeFromDelayedList hx).bind fun _ _ =>
            (confined_addToReadyList hx).bind fun _ _ => confined_invalidate
  | insertBeforeCursor => exact (confined_recoverInsertReady hx).bind fun _ _ => confined_invalidate
  | invalid => exact confined_invalidate
  | _ => exact stays_fail_bind

theorem confined_recoverInsertWaiting :
    Stays (Confined n mode) (recoverAndRollForwardOfWaitlistInsert cfg) fun _ => True := by
  refine confined_getMicroOp.bind fun op _ => confined_getOldLen.bind fun oldLen _ => ?_
  refine confined_getWaitList.bind fun w _ => confined_getCurrent.bind fun t ht => ?_
  cases op with
  | remove =>
      exact (confined_recoverRemoveReady ht).bind fun _ _ => (confined_insertWaiting ht).bind fun _ _ =>
        (confined_addToDelayedList ht).bind fun _ _ => confined_invalidate
  | insertSortedWaitList =>
      refine (confined_gets _).bind fun _ _ => (confined_gets _).bind fun _ _ => ?_
      exact (confined_onLists (stays_recoverFromFailedInsertSorted (n := NodeRef.event t) trivial ht)).bind fun _ _ =>
        (confined_addToDelayedList ht).bind fun _ _ => confined_invalidate
  | insertSortedDelayList => exact (confined_recoverInsertDelayed ht).bind fun _ _ => confined_invalidate
  | invalid => exact confined_invalidate
  | _ => exact stays_fail_bind

theorem confined_recoverInsertUnsorted :
    Stays (Confined n mode) (recoverAndRollForwardOfUnsortedWaitlistInsert cfg) fun _ => True := by
  refine confined_getMicroOp.bind fun op _ => confined_getOldLen.bind fun oldLen _ => ?_
  refine confined_getWaitList.bind fun w _ => confined_getCurrent.bind fun t ht => ?_
  cases op with
  | remove =>
      exact (confined_recoverRemoveReady ht).bind fun _ _ => (confined_insertWaiting ht).bind fun _ _ =>
        (confined_addToDelayedList ht).bind fun _ _ => confined_invalidate
  | insertFront =>
      exact (confined_onLists (stays_recoverFromFailedInsertFront (n := NodeRef.event t) trivial ht)).bind fun _ _ =>
        (confined_addToDelayedList ht).bind fun _ _ => confined_invalidate
  | insertSortedDelayList => exact (confined_recoverInsertDelayed ht).bind fun _ _ => confined_invalidate
  | invalid => exact confined_invalidate
  | _ => exact stays_fail_bind

theorem confined_recoverDelayedRemoval :
    Stays (Confined n mode) (recoverAndRollForwardOfDelaylistRemoval cfg) fun _ => True := by
  refine confined_getMicroOp.bind fun op _ => confined_getOldLen.bind fun oldLen _ => ?_
  refine confined_getBlockNode.bind fun x hx => ?_
  cases op with
  | popFront =>
      exact (confined_recoverPopFront hx).bind fun _ _ => (confined_removeOwn hx).bind fun _ _ =>
        (confined_addToReadyList hx).bind fun _ _ => confined_invalidate
  | remove =>
      refine (confined_gets _).bind fun l _ => ?_
      cases l with
      | none => exact stays_fail_bind
      | some l =>
          exact (confined_recoverRemove (x := .event x.task) hx).bind fun _ _ =>
            (confined_addToReadyList hx).bind fun _ _ => confined_invalidate
  | insertBeforeCursor => exact (confined_recoverInsertReady hx).bind fun _ _ => confined_invalidate
  | invalid => exact confined_invalidate
  | _ => exact stays_fail_bind

theorem confined_recoverDelayedInsert :
    Stays (Confined n mode) (recoverAndRollForwardOfDelaylistInsert cfg) fun _ => True := by
  refine confined_getMicroOp.bind fun op _ => confined_getOldLen.bind fun oldLen _ => ?_
  refine confined_getCurrent.bind fun t ht => ?_
  cases op with
  | remove =>
      exact (confined_recoverRemoveReady ht).bind fun _ _ => (confined_addToDelayedList ht).bind fun _ _ =>
        confined_commit
  | insertSortedDelayList => exact (confined_recoverInsertDelayed ht).bind fun _ _ => confined_commit
  | invalid => exact confined_commit
  | _ => exact stays_fail_bind

theorem confined_recoverReadyInsert :
    Stays (Confined n mode) recoverAndRollForwardOfReadylistInsert fun _ => True := by
  refine confined_getMicroOp.bind fun op _ => confined_getOldLen.bind fun oldLen _ => ?_
  refine confined_getTask.bind fun t ht => ?_
  cases op with
  | insertBeforeCursor => exact (confined_recoverInsertReady ht).bind fun _ _ => confined_commit
  | invalid => exact confined_commit
  | _ => exact stays_fail_bind

theorem confined_recoverSwitch :
    Stays (Confined n mode) recoverAndRollForwardContextSwitch fun _ => True := by
  refine confined_getMicroOp.bind fun op _ => ?_
  cases op with
  | readyListNext =>
      refine confined_getTask.bind fun t ht => (confined_gets _).bind fun prio _ => ?_
      refine (stays_gets (Q := Own (NodeBelow n)) fun _ h => h.lists.closed.cursor _ trivial).bind
        fun cursor hcursor => ?_
      cases cursor with
      | none => exact stays_fail_bind
      | some x =>
          dsimp only
          split
          · refine (confined_setStatus _).bind fun _ _ => ?_
            refine (confined_onLists (stays_nextItem trivial)).bind fun item hitem => ?_
            cases item with
            | none => exact stays_fail_bind
            | some item =>
                exact (confined_setStatus _).bind fun _ _ => (confined_setCurrent (hitem item rfl)).bind fun _ _ =>
                  confined_setMicroOp _ _
          · exact (confined_setStatus _).bind fun _ _ => (confined_setCurrent (hcursor x rfl)).bind fun _ _ =>
              confined_setMicroOp _ _
  | invalid => exact stays_pure trivial
  | _ => exact stays_fail

theorem confined_recoverListTransaction : Stays (Confined n mode) (recoverListTransaction cfg) fun _ => True := by
  refine (confined_gets _).bind fun op _ => ?_
  cases op with
  | invalid => exact confined_recoverSwitch
  | waitListPopRemoval => exact confined_recoverPopRemove.bind fun _ _ => confined_recoverSwitch
  | waitListInsert => exact confined_recoverInsertWaiting.bind fun _ _ => confined_recoverSwitch
  | waitListRemoval => exact confined_recoverUnsortedRemove.bind fun _ _ => confined_recoverSwitch
  | unsortedWaitListInsert => exact confined_recoverInsertUnsorted.bind fun _ _ => confined_recoverSwitch
  | delayListRemoval => exact confined_recoverDelayedRemoval.bind fun _ _ => confined_recoverSwitch
  | delayListInsert => exact confined_recoverDelayedInsert.bind fun _ _ => confined_recoverSwitch
  | readyListInsert => exact confined_recoverReadyInsert.bind fun _ _ => confined_recoverSwitch
  | _ => exact stays_fail_bind

end Kernel

end IntOS
