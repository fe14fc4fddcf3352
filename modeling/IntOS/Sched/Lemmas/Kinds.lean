import IntOS.List.Lemmas.Apart
import IntOS.Sched.Runs

/-!
# Scheduler nodes and event nodes

The nodes of the two kinds are never linked to each other, not even by the links that a node keeps when it is in
no list.
-/

namespace IntOS

open Persist Persist.Prog IntOS.Lists

def NodeRef.IsSched : NodeRef → Prop
  | sched _ => True
  | event _ => False

def NodeRef.IsEvent : NodeRef → Prop
  | sched _ => False
  | event _ => True

def ListRef.IsWaiting : ListRef → Prop
  | waiting _ => True
  | _ => False

/-- `TASK_LISTS` and `DELAYED_TASK_LIST`. -/
def ListRef.OfTasks : ListRef → Prop
  | waiting _ => False
  | _ => True

namespace Kernel

variable {α : Type} {cfg : Config} {k c : Kernel} {t w : Nat} {s r : Lists NodeRef ListRef}

structure Typed (s : Lists NodeRef ListRef) : Prop where
  sched : Closed NodeRef.IsSched ListRef.OfTasks s
  event : Closed NodeRef.IsEvent ListRef.IsWaiting s

theorem Typed.of_sched (h : Typed s) (hw : Within NodeRef.IsSched ListRef.OfTasks s r) : Typed r := by
  refine ⟨hw.closed, h.event.beside hw.beside ?_ ?_⟩
  · intro n hn
    cases n with
    | sched t => exact hn.elim
    | event t => exact id
  · intro l hl
    cases l with
    | waiting w => exact id
    | _ => exact hl.elim

theorem Typed.of_event (h : Typed s) (hw : Within NodeRef.IsEvent ListRef.IsWaiting s r) : Typed r := by
  refine ⟨h.sched.beside hw.beside ?_ ?_, hw.closed⟩
  · intro n hn
    cases n with
    | sched t => exact id
    | event t => exact hn.elim
  · intro l hl
    cases l with
    | waiting w => exact hl.elim
    | _ => exact id

theorem typed_new : Typed (Lists.new : Lists NodeRef ListRef) :=
  ⟨⟨fun _ _ => own_none, fun _ _ => own_none, fun _ _ => own_none, fun _ _ => own_none, fun _ _ => own_none⟩,
    ⟨fun _ _ => own_none, fun _ _ => own_none, fun _ _ => own_none, fun _ _ => own_none, fun _ _ => own_none⟩⟩

/-! ## Every operation keeps them apart -/

def KeepsKinds (m : Prog Kernel α) (Q : α → Prop) : Prop := Stays (fun k => Typed k.lists) m Q

theorem keepsKinds_store {g : Kernel → Kernel} (h : ∀ k, (g k).lists = k.lists) : KeepsKinds (store g) fun _ => True :=
  stays_store fun k hk => (h k).symm ▸ hk

theorem keepsKinds_gets (g : Kernel → α) : KeepsKinds (gets g) fun _ => True := stays_gets fun _ _ => trivial

theorem keepsKinds_onSched {m : Prog (Lists NodeRef ListRef) α} {Q : α → Prop}
    (hm : ∀ s, Stays (Within NodeRef.IsSched ListRef.OfTasks s) m Q) : KeepsKinds (onLists m) Q := by
  refine stays_zoom (P := Typed) (fun s hs => ?_) (fun _ => rfl) (fun _ => id) fun _ _ _ => id
  refine wpc_mono (hm s s hs.sched.within) ?_ ?_
  · exact fun _ r hr => ⟨hs.of_sched hr.1, hr.2⟩
  · exact fun r hr => hs.of_sched hr

theorem keepsKinds_onEvent {m : Prog (Lists NodeRef ListRef) α} {Q : α → Prop}
    (hm : ∀ s, Stays (Within NodeRef.IsEvent ListRef.IsWaiting s) m Q) : KeepsKinds (onLists m) Q := by
  refine stays_zoom (P := Typed) (fun s hs => ?_) (fun _ => rfl) (fun _ => id) fun _ _ _ => id
  refine wpc_mono (hm s s hs.event.within) ?_ ?_
  · exact fun _ r hr => ⟨hs.of_event hr.1, hr.2⟩
  · exact fun r hr => hs.of_event hr

theorem keepsKinds_setMicroOp (op : ListOpCode) (oldLen : Nat) : KeepsKinds (setMicroOp op oldLen) fun _ => True := by
  refine keepsKinds_onSched fun s => stays_store fun _ h => ?_
  exact ⟨⟨h.closed.prev, h.closed.next, h.closed.list, h.closed.cursor, h.closed.head⟩,
    ⟨h.beside.prev, h.beside.next, h.beside.list, h.beside.len, h.beside.cursor, h.beside.head⟩⟩

theorem keepsKinds_getCurrent : KeepsKinds getCurrent fun _ => True := by
  refine (keepsKinds_gets _).bind fun t _ => ?_
  cases t with
  | none => exact stays_fail
  | some t => exact stays_pure trivial

theorem keepsKinds_commit : KeepsKinds commit fun _ => True :=
  (keepsKinds_setMicroOp _ _).bind fun _ _ => keepsKinds_getCurrent.bind fun _ _ =>
    Stays.bind (keepsKinds_store fun _ => rfl) fun _ _ => keepsKinds_store fun _ => rfl

theorem keepsKinds_invalidate : KeepsKinds invalidate fun _ => True :=
  (keepsKinds_setMicroOp _ _).bind fun _ _ => keepsKinds_store fun _ => rfl

theorem keepsKinds_bypass : KeepsKinds (bypass cfg) fun _ => True :=
  keepsKinds_getCurrent.bind fun _ _ => (keepsKinds_gets _).bind fun _ _ => (keepsKinds_gets _).bind fun _ _ =>
    (stays_check _).bind fun _ _ => stays_pure trivial

theorem keepsKinds_removeFromDelayedList : KeepsKinds (removeFromDelayedList cfg t) fun _ => True :=
  keepsKinds_onSched fun _ => stays_optimizedRemove trivial trivial

theorem keepsKinds_removeFromReadyList : KeepsKinds (removeFromReadyList cfg t) fun _ => True :=
  (keepsKinds_gets _).bind fun _ _ => keepsKinds_onSched fun _ => stays_optimizedRemove trivial trivial

theorem keepsKinds_addToReadyList : KeepsKinds (addToReadyList t) fun _ => True := by
  refine (keepsKinds_gets _).bind fun _ _ => Stays.bind (Q := fun _ => True) ?_ fun _ _ => ?_
  · exact keepsKinds_onSched fun _ => stays_optimizedInsertBeforeCursor trivial trivial
  · exact keepsKinds_store fun _ => rfl

theorem keepsKinds_addToDelayedList : KeepsKinds (addToDelayedList cfg t) fun _ => True := by
  refine Stays.bind (keepsKinds_store fun _ => rfl) fun _ _ => Stays.bind (Q := fun _ => True) ?_ fun _ _ => ?_
  · exact (keepsKinds_gets _).bind fun _ _ => (keepsKinds_gets _).bind fun _ _ =>
      keepsKinds_onSched fun _ => stays_insertSorted trivial trivial
  · refine (keepsKinds_gets _).bind fun _ _ => (keepsKinds_gets _).bind fun _ _ => ?_
    split
    · exact keepsKinds_store fun _ => rfl
    · exact stays_pure trivial

theorem keepsKinds_insertWaiting : KeepsKinds (insertWaiting cfg w t) fun _ => True :=
  (keepsKinds_gets _).bind fun _ _ => (keepsKinds_gets _).bind fun _ _ =>
    keepsKinds_onEvent fun _ => stays_insertSorted trivial trivial

theorem keepsKinds_popRemove : KeepsKinds (rollForwardPopRemoveFromWaitlist cfg w) fun _ => True := by
  refine keepsKinds_bypass.bind fun b _ => ?_
  split
  · exact stays_pure trivial
  refine (keepsKinds_gets _).bind fun _ _ => Stays.bind (keepsKinds_store fun _ => rfl) fun _ _ => ?_
  refine Stays.bind (keepsKinds_store fun _ => rfl) fun _ _ => Stays.bind (Q := Own NodeRef.IsEvent) ?_ fun n _ => ?_
  · exact keepsKinds_onEvent fun _ => stays_optimizedPopFront trivial
  · cases n with
    | none => exact keepsKinds_commit
    | some n =>
        exact keepsKinds_removeFromDelayedList.bind fun _ _ => keepsKinds_addToReadyList.bind fun _ _ =>
          keepsKinds_commit

theorem keepsKinds_removeUnsorted : KeepsKinds (rollForwardRemoveFromUnsortedWaitlist cfg w (.event t))
    fun _ => True := by
  refine Stays.bind (keepsKinds_store fun _ => rfl) fun _ _ => Stays.bind (keepsKinds_store fun _ => rfl) fun _ _ => ?_
  refine Stays.bind (Q := fun _ => True) (keepsKinds_onEvent fun _ => stays_optimizedRemove trivial trivial)
    fun _ _ => ?_
  exact keepsKinds_removeFromDelayedList.bind fun _ _ => keepsKinds_addToReadyList.bind fun _ _ => keepsKinds_invalidate

theorem keepsKinds_insertWaitlist : KeepsKinds (rollForwardInsertIntoWaitlist cfg w t) fun _ => True := by
  refine Stays.bind (keepsKinds_store fun _ => rfl) fun _ _ => Stays.bind (keepsKinds_store fun _ => rfl) fun _ _ => ?_
  exact keepsKinds_removeFromReadyList.bind fun _ _ => keepsKinds_insertWaiting.bind fun _ _ =>
    keepsKinds_addToDelayedList.bind fun _ _ => keepsKinds_invalidate

theorem keepsKinds_insertUnsorted : KeepsKinds (rollForwardInsertIntoUnsortedWaitlist cfg w t) fun _ => True := by
  refine Stays.bind (keepsKinds_store fun _ => rfl) fun _ _ => Stays.bind (keepsKinds_store fun _ => rfl) fun _ _ => ?_
  refine keepsKinds_removeFromReadyList.bind fun _ _ => Stays.bind (Q := fun _ => True) ?_ fun _ _ => ?_
  · exact keepsKinds_onEvent fun _ => stays_optimizedInsertFront trivial trivial
  · exact keepsKinds_addToDelayedList.bind fun _ _ => keepsKinds_invalidate

/-- The event node of a task is in a wait list. -/
theorem keepsKinds_removeOwn : KeepsKinds (removeFromOwnWaitlist cfg t) fun _ => True := by
  refine Stays.bind (Q := Own ListRef.IsWaiting) (stays_gets fun k hk => hk.event.list _ trivial) fun l hl => ?_
  cases l with
  | none => exact stays_pure trivial
  | some l => exact keepsKinds_onEvent fun _ => stays_optimizedRemove (hl l rfl) trivial

theorem keepsKinds_removeDelayed : KeepsKinds (rollForwardRemoveFromDelaylist cfg) fun _ => True := by
  refine Stays.bind (keepsKinds_store fun _ => rfl) fun _ _ => Stays.bind (Q := Own NodeRef.IsSched) ?_ fun n _ => ?_
  · exact keepsKinds_onSched fun _ => stays_optimizedPopFront trivial
  · cases n with
    | none => exact stays_fail
    | some n =>
        exact keepsKinds_removeOwn.bind fun _ _ => keepsKinds_addToReadyList.bind fun _ _ => keepsKinds_invalidate

theorem keepsKinds_insertDelaylist : KeepsKinds (rollForwardInsertIntoDelaylist cfg) fun _ => True := by
  refine keepsKinds_bypass.bind fun b _ => ?_
  split
  · exact stays_pure trivial
  refine Stays.bind (keepsKinds_store fun _ => rfl) fun _ _ => keepsKinds_getCurrent.bind fun _ _ => ?_
  exact keepsKinds_removeFromReadyList.bind fun _ _ => keepsKinds_addToDelayedList.bind fun _ _ => keepsKinds_commit

theorem keepsKinds_initializeTask (prio : Nat) : KeepsKinds (initializeTask t prio) fun _ => True := by
  refine Stays.bind (Q := fun _ => True) (keepsKinds_onSched fun _ => stays_resetNode trivial) fun _ _ => ?_
  refine Stays.bind (Q := fun _ => True) (keepsKinds_onEvent fun _ => stays_resetNode trivial) fun _ _ => ?_
  refine Stays.bind (keepsKinds_store fun _ => rfl) fun _ _ => Stays.bind (keepsKinds_store fun _ => rfl) fun _ _ => ?_
  refine Stays.bind (keepsKinds_store fun _ => rfl) fun _ _ => Stays.bind (keepsKinds_store fun _ => rfl) fun _ _ => ?_
  exact keepsKinds_store fun _ => rfl

theorem keepsKinds_createTask (prio : Nat) : KeepsKinds (createTaskStatic cfg prio) fun _ => True := by
  have hend : ∀ tid, KeepsKinds (do
      rollForwardInsertIntoReadylist tid
      pure (Except.ok (ε := ErrorCode) tid)) fun _ => True := by
    intro tid
    refine Stays.bind (Q := fun _ => True) ?_ fun _ _ => stays_pure trivial
    refine Stays.bind (keepsKinds_store fun _ => rfl) fun _ _ =>
      Stays.bind (keepsKinds_store fun _ => rfl) fun _ _ => ?_
    exact keepsKinds_addToReadyList.bind fun _ _ => keepsKinds_invalidate
  refine (keepsKinds_gets _).bind fun tid _ => ?_
  split
  · exact stays_pure trivial
  split
  · exact stays_pure trivial
  refine Stays.bind (keepsKinds_store fun _ => rfl) fun _ _ => (keepsKinds_initializeTask prio).bind fun _ _ => ?_
  refine (keepsKinds_gets _).bind fun _ _ => (keepsKinds_gets _).bind fun _ _ => ?_
  split
  · exact Stays.bind (keepsKinds_store fun _ => rfl) fun _ _ => Stays.bind (keepsKinds_store fun _ => rfl) fun _ _ =>
      hend tid
  · exact hend tid

theorem keepsKinds_addTime (x y : Nat) : KeepsKinds (addTime cfg x y) fun _ => True :=
  (stays_check _).bind fun _ _ => stays_pure trivial

theorem keepsKinds_wakeDue (now fuel : Nat) : KeepsKinds (wakeDue cfg now fuel) fun _ => True := by
  induction fuel with
  | zero => exact stays_fail
  | succ fuel ih =>
      refine (keepsKinds_gets _).bind fun head _ => ?_
      cases head with
      | none => exact stays_pure trivial
      | some item =>
          refine (keepsKinds_gets _).bind fun _ _ => ?_
          split
          · exact stays_pure trivial
          · exact keepsKinds_removeDelayed.bind fun _ _ => ih

theorem keepsKinds_processTick : KeepsKinds (processTick cfg) fun _ => True := by
  refine Stays.bind (Q := fun _ => True) ?_ fun now _ => (keepsKinds_gets _).bind fun _ _ => ?_
  · exact (keepsKinds_gets _).bind fun _ _ => (stays_check _).bind fun _ _ =>
      Stays.bind (keepsKinds_store fun _ => rfl) fun _ _ => stays_pure trivial
  · split
    · exact (keepsKinds_gets _).bind fun _ _ => (keepsKinds_wakeDue _ _).bind fun _ _ =>
        (keepsKinds_gets _).bind fun _ _ => (keepsKinds_gets _).bind fun _ _ => keepsKinds_store fun _ => rfl
    · exact stays_pure trivial

theorem keepsKinds_taskSwitch : KeepsKinds (taskSwitch cfg) fun _ => True := by
  have hend : ∀ task prio, KeepsKinds (do
      let _ ← onLists (nextItem (.ready prio))
      setCurrent task
      setMicroOp .invalid 0) fun _ => True := by
    intro task prio
    refine Stays.bind (Q := Own NodeRef.IsSched) (keepsKinds_onSched fun _ => stays_nextItem trivial) fun _ _ => ?_
    exact Stays.bind (keepsKinds_store fun _ => rfl) fun _ _ => keepsKinds_setMicroOp _ _
  refine keepsKinds_getCurrent.bind fun prev _ => (keepsKinds_gets _).bind fun next _ => ?_
  cases next with
  | none => exact stays_fail
  | some next =>
      dsimp only
      split
      · refine (keepsKinds_gets _).bind fun _ _ => (stays_check _).bind fun _ _ => ?_
        refine Stays.bind (keepsKinds_store fun _ => rfl) fun _ _ => (keepsKinds_setMicroOp _ _).bind fun _ _ => ?_
        refine Stays.bind (keepsKinds_store fun _ => rfl) fun _ _ => (keepsKinds_gets _).bind fun _ _ => ?_
        split
        · exact Stays.bind (keepsKinds_store fun _ => rfl) fun _ _ => hend _ _
        · exact hend _ _
      · exact (keepsKinds_gets _).bind fun _ _ => stays_check _

theorem keepsKinds_prog (h : Inv k) {op : Op} (ho : op.Enabled k) : KeepsKinds (op.prog cfg) fun _ => True := by
  cases op with
  | createTask prio => exact (keepsKinds_createTask prio).bind fun _ _ => stays_pure trivial
  | startKernel => exact keepsKinds_store fun _ => rfl
  | taskDelay nticks =>
      refine keepsKinds_getCurrent.bind fun _ _ => (keepsKinds_gets _).bind fun _ _ => ?_
      exact (keepsKinds_addTime _ _).bind fun _ _ => Stays.bind (keepsKinds_store fun _ => rfl) fun _ _ =>
        keepsKinds_insertDelaylist
  | block w wakeupTime =>
      exact keepsKinds_getCurrent.bind fun _ _ => Stays.bind (keepsKinds_store fun _ => rfl) fun _ _ =>
        keepsKinds_insertWaitlist
  | blockUnsorted w wakeupTime =>
      exact keepsKinds_getCurrent.bind fun _ _ => Stays.bind (keepsKinds_store fun _ => rfl) fun _ _ =>
        keepsKinds_insertUnsorted
  | wake w => exact keepsKinds_popRemove
  | wakeNode w n =>
      obtain ⟨_, hevent, _⟩ := h.waiting (h.inList_iff.mp ho)
      simp only [Op.prog]
      rw [hevent]
      exact keepsKinds_removeUnsorted
  | processTick => exact keepsKinds_processTick
  | taskSwitch => exact keepsKinds_taskSwitch
  | syscallEnd => exact keepsKinds_getCurrent.bind fun _ _ => keepsKinds_store fun _ => rfl

theorem Reachable.typed (h : Reachable cfg k) : Typed k.lists := by
  induction h with
  | init => exact typed_new
  | @step k k' op hk ho hout ih => exact ((keepsKinds_prog hk.inv ho k ih).post hout).1

end Kernel

end IntOS
