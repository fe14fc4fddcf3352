import IntOS.List.Lemmas.Unlisted
import IntOS.Sched.Lemmas.Events
import IntOS.Sched.Lemmas.WaitChain

/-!
# Tasks that come into no wait list

Whatever the lists are like, a task comes into a wait list only where it blocks on that list.
-/

namespace IntOS

open Persist Persist.Prog IntOS.Lists

namespace Kernel

variable {α : Type} {cfg : Config} {R : NodeRef → ListRef → Prop} {k c : Kernel} {t w : Nat}

/-- No node has come into a list of which `R` is. -/
def Unlists (R : NodeRef → ListRef → Prop) (k : Kernel) (m : Prog Kernel α) : Prop :=
  Stays (fun c => Unlisting R k.lists c.lists) m fun _ => True

theorem unlists_store {g : Kernel → Kernel} (h : ∀ c, (g c).lists = c.lists) : Unlists R k (store g) :=
  stays_store fun c hc => (h c).symm ▸ hc

theorem unlists_gets (g : Kernel → α) : Unlists R k (gets g) := stays_gets fun _ _ => trivial

theorem unlists_onLists {m : Prog (Lists NodeRef ListRef) α} {Q : α → Prop}
    (hm : Stays (Unlisting R k.lists) m Q) : Stays (fun c => Unlisting R k.lists c.lists) (onLists m) Q :=
  stays_zoom hm (fun _ => rfl) (fun _ => id) fun _ _ _ => id

theorem unlists_setMicroOp (op : ListOpCode) (oldLen : Nat) : Unlists R k (setMicroOp op oldLen) :=
  unlists_onLists (stays_store fun _ h => h)

theorem unlists_getCurrent : Unlists R k getCurrent := by
  refine (unlists_gets _).bind fun t _ => ?_
  cases t with
  | none => exact stays_fail
  | some t => exact stays_pure trivial

theorem unlists_commit : Unlists R k commit :=
  (unlists_setMicroOp _ _).bind fun _ _ => unlists_getCurrent.bind fun _ _ =>
    Stays.bind (unlists_store fun _ => rfl) fun _ _ => unlists_store fun _ => rfl

theorem unlists_invalidate : Unlists R k invalidate :=
  (unlists_setMicroOp _ _).bind fun _ _ => unlists_store fun _ => rfl

theorem unlists_bypass : Unlists R k (bypass cfg) :=
  unlists_getCurrent.bind fun _ _ => (unlists_gets _).bind fun _ _ => (unlists_gets _).bind fun _ _ =>
    (stays_check _).bind fun _ _ => stays_pure trivial

theorem unlists_addTime (x y : Nat) : Unlists R k (addTime cfg x y) :=
  (stays_check _).bind fun _ _ => stays_pure trivial

theorem unlists_optimizedRemove {debug : Bool} {l : ListRef} {n : NodeRef} :
    Unlists R k (onLists (optimizedRemove debug l n)) := unlists_onLists unlisting_optimizedRemove

theorem unlists_removeFromReadyList : Unlists R k (removeFromReadyList cfg t) :=
  (unlists_gets _).bind fun _ _ => unlists_optimizedRemove

theorem unlists_removeOwn : Unlists R k (removeFromOwnWaitlist cfg t) := by
  refine Stays.bind (Q := fun _ => True) (stays_gets fun _ _ => trivial) fun l _ => ?_
  cases l with
  | none => exact stays_pure trivial
  | some l => exact unlists_optimizedRemove

/-! ## Scheduler nodes are not in wait lists -/

section
variable (hsched : ∀ t l, ¬ R (.sched t) l)
include hsched

theorem unlists_addToReadyList : Unlists R k (addToReadyList t) := by
  refine (unlists_gets _).bind fun _ _ => Stays.bind (Q := fun _ => True) ?_ fun _ _ => unlists_store fun _ => rfl
  exact unlists_onLists (unlisting_optimizedInsertBeforeCursor (hsched _ _))

theorem unlists_addToDelayedList : Unlists R k (addToDelayedList cfg t) := by
  refine Stays.bind (unlists_store fun _ => rfl) fun _ _ => Stays.bind (Q := fun _ => True) ?_ fun _ _ => ?_
  · exact (unlists_gets _).bind fun _ _ => (unlists_gets _).bind fun _ _ =>
      unlists_onLists (unlisting_insertSorted (hsched _ _))
  · refine (unlists_gets _).bind fun _ _ => (unlists_gets _).bind fun _ _ => ?_
    split
    · exact unlists_store fun _ => rfl
    · exact stays_pure trivial

theorem unlists_popRemove : Unlists R k (rollForwardPopRemoveFromWaitlist cfg w) := by
  refine unlists_bypass.bind fun b _ => ?_
  split
  · exact stays_pure trivial
  refine (unlists_gets _).bind fun _ _ => Stays.bind (unlists_store fun _ => rfl) fun _ _ => ?_
  refine Stays.bind (unlists_store fun _ => rfl) fun _ _ => ?_
  refine Stays.bind (Q := fun _ => True) (unlists_onLists unlisting_optimizedPopFront) fun n _ => ?_
  cases n with
  | none => exact unlists_commit
  | some n =>
      exact Stays.bind (Q := fun _ => True) unlists_optimizedRemove fun _ _ =>
        (unlists_addToReadyList hsched).bind fun _ _ => unlists_commit

theorem unlists_removeUnsorted {n : NodeRef} : Unlists R k (rollForwardRemoveFromUnsortedWaitlist cfg w n) := by
  refine Stays.bind (unlists_store fun _ => rfl) fun _ _ => Stays.bind (unlists_store fun _ => rfl) fun _ _ => ?_
  refine Stays.bind (Q := fun _ => True) unlists_optimizedRemove fun _ _ => ?_
  refine Stays.bind (Q := fun _ => True) unlists_optimizedRemove fun _ _ => ?_
  exact (unlists_addToReadyList hsched).bind fun _ _ => unlists_invalidate

theorem unlists_insertWaitlist (h : ¬ R (.event t) (.waiting w)) :
    Unlists R k (rollForwardInsertIntoWaitlist cfg w t) := by
  refine Stays.bind (unlists_store fun _ => rfl) fun _ _ => Stays.bind (unlists_store fun _ => rfl) fun _ _ => ?_
  refine unlists_removeFromReadyList.bind fun _ _ => Stays.bind (Q := fun _ => True) ?_ fun _ _ => ?_
  · exact (unlists_gets _).bind fun _ _ => (unlists_gets _).bind fun _ _ => unlists_onLists (unlisting_insertSorted h)
  · exact (unlists_addToDelayedList hsched).bind fun _ _ => unlists_invalidate

theorem unlists_insertUnsorted (h : ¬ R (.event t) (.waiting w)) :
    Unlists R k (rollForwardInsertIntoUnsortedWaitlist cfg w t) := by
  refine Stays.bind (unlists_store fun _ => rfl) fun _ _ => Stays.bind (unlists_store fun _ => rfl) fun _ _ => ?_
  refine unlists_removeFromReadyList.bind fun _ _ => Stays.bind (Q := fun _ => True) ?_ fun _ _ => ?_
  · exact unlists_onLists (unlisting_optimizedInsertFront h)
  · exact (unlists_addToDelayedList hsched).bind fun _ _ => unlists_invalidate

theorem unlists_removeDelayed : Unlists R k (rollForwardRemoveFromDelaylist cfg) := by
  refine Stays.bind (unlists_store fun _ => rfl) fun _ _ => ?_
  refine Stays.bind (Q := fun _ => True) (unlists_onLists unlisting_optimizedPopFront) fun n _ => ?_
  cases n with
  | none => exact stays_fail
  | some n =>
      exact unlists_removeOwn.bind fun _ _ => (unlists_addToReadyList hsched).bind fun _ _ => unlists_invalidate

theorem unlists_insertDelaylist : Unlists R k (rollForwardInsertIntoDelaylist cfg) := by
  refine unlists_bypass.bind fun b _ => ?_
  split
  · exact stays_pure trivial
  refine Stays.bind (unlists_store fun _ => rfl) fun _ _ => unlists_getCurrent.bind fun _ _ => ?_
  exact unlists_removeFromReadyList.bind fun _ _ => (unlists_addToDelayedList hsched).bind fun _ _ => unlists_commit

theorem unlists_createTask (prio : Nat) : Unlists R k (createTaskStatic cfg prio) := by
  have hend : ∀ tid, Unlists R k (do
      rollForwardInsertIntoReadylist tid
      pure (Except.ok (ε := ErrorCode) tid)) := by
    intro tid
    refine Stays.bind (Q := fun _ => True) ?_ fun _ _ => stays_pure trivial
    refine Stays.bind (unlists_store fun _ => rfl) fun _ _ => Stays.bind (unlists_store fun _ => rfl) fun _ _ => ?_
    exact (unlists_addToReadyList hsched).bind fun _ _ => unlists_invalidate
  have hinit : ∀ tid, Unlists R k (initializeTask tid prio) := by
    intro tid
    refine Stays.bind (Q := fun _ => True) (unlists_onLists unlisting_resetNode) fun _ _ => ?_
    refine Stays.bind (Q := fun _ => True) (unlists_onLists unlisting_resetNode) fun _ _ => ?_
    refine Stays.bind (unlists_store fun _ => rfl) fun _ _ => Stays.bind (unlists_store fun _ => rfl) fun _ _ => ?_
    refine Stays.bind (unlists_store fun _ => rfl) fun _ _ => Stays.bind (unlists_store fun _ => rfl) fun _ _ => ?_
    exact unlists_store fun _ => rfl
  refine (unlists_gets _).bind fun tid _ => ?_
  split
  · exact stays_pure trivial
  split
  · exact stays_pure trivial
  refine Stays.bind (unlists_store fun _ => rfl) fun _ _ => (hinit _).bind fun _ _ => ?_
  refine (unlists_gets _).bind fun _ _ => (unlists_gets _).bind fun _ _ => ?_
  split
  · exact Stays.bind (unlists_store fun _ => rfl) fun _ _ => Stays.bind (unlists_store fun _ => rfl) fun _ _ => hend _
  · exact hend _

theorem unlists_processTick : Unlists R k (processTick cfg) := by
  have hwake : ∀ now fuel, Unlists R k (wakeDue cfg now fuel) := by
    intro now fuel
    induction fuel with
    | zero => exact stays_fail
    | succ fuel ih =>
        refine (unlists_gets _).bind fun head _ => ?_
        cases head with
        | none => exact stays_pure trivial
        | some item =>
            refine (unlists_gets _).bind fun _ _ => ?_
            split
            · exact stays_pure trivial
            · exact (unlists_removeDelayed hsched).bind fun _ _ => ih
  refine Stays.bind (Q := fun _ => True) ?_ fun now _ => (unlists_gets _).bind fun _ _ => ?_
  · exact (unlists_gets _).bind fun _ _ => (stays_check _).bind fun _ _ =>
      Stays.bind (unlists_store fun _ => rfl) fun _ _ => stays_pure trivial
  · split
    · exact (unlists_gets _).bind fun _ _ => (hwake _ _).bind fun _ _ => (unlists_gets _).bind fun _ _ =>
        (unlists_gets _).bind fun _ _ => unlists_store fun _ => rfl
    · exact stays_pure trivial

end

theorem unlists_taskSwitch : Unlists R k (taskSwitch cfg) := by
  have hend : ∀ task prio, Unlists R k (do
      let _ ← onLists (nextItem (.ready prio))
      setCurrent task
      setMicroOp .invalid 0) := by
    intro task prio
    refine Stays.bind (Q := fun _ => True) (unlists_onLists (unlisting_of_keeps keeps_list_nextItem)) fun _ _ => ?_
    exact Stays.bind (unlists_store fun _ => rfl) fun _ _ => unlists_setMicroOp _ _
  refine unlists_getCurrent.bind fun prev _ => (unlists_gets _).bind fun next _ => ?_
  cases next with
  | none => exact stays_fail
  | some next =>
      dsimp only
      split
      · refine (unlists_gets _).bind fun _ _ => (stays_check _).bind fun _ _ => ?_
        refine Stays.bind (unlists_store fun _ => rfl) fun _ _ => (unlists_setMicroOp _ _).bind fun _ _ => ?_
        refine Stays.bind (unlists_store fun _ => rfl) fun _ _ => (unlists_gets _).bind fun _ _ => ?_
        split
        · exact Stays.bind (unlists_store fun _ => rfl) fun _ _ => hend _ _
        · exact hend _ _
      · exact (unlists_gets _).bind fun _ _ => stays_check _

/-- A task comes into the wait list `w` only by an operation that enters it. -/
theorem listed_of_prog {op : Op} {k' : Kernel} (hop : op.entered ≠ some w) (hout : (op.prog cfg k).out = some ((), k'))
    (hk : Listed w k' t) : Listed w k t := by
  have hpass : Unlists (fun n l => n.IsEvent ∧ l = .waiting w) k (op.prog cfg) := by
    have hs : ∀ u l, ¬ ((NodeRef.sched u).IsEvent ∧ l = ListRef.waiting w) := fun u l h => h.1
    have he : ∀ {w' : Nat}, w' ≠ w → ∀ u, ¬ ((NodeRef.event u).IsEvent ∧ ListRef.waiting w' = .waiting w) :=
      fun hw u h => hw (ListRef.waiting.inj h.2)
    cases op with
    | createTask prio => exact (unlists_createTask hs prio).bind fun _ _ => stays_pure trivial
    | startKernel => exact unlists_store fun _ => rfl
    | taskDelay nticks =>
        refine unlists_getCurrent.bind fun _ _ => (unlists_gets _).bind fun _ _ =>
          (unlists_addTime _ _).bind fun _ _ => ?_
        exact Stays.bind (unlists_store fun _ => rfl) fun _ _ => unlists_insertDelaylist hs
    | block w' wakeupTime =>
        have hw : w' ≠ w := fun h => hop (congrArg some h)
        exact unlists_getCurrent.bind fun u _ => Stays.bind (unlists_store fun _ => rfl) fun _ _ =>
          unlists_insertWaitlist hs (he hw u)
    | blockUnsorted w' wakeupTime =>
        have hw : w' ≠ w := fun h => hop (congrArg some h)
        exact unlists_getCurrent.bind fun u _ => Stays.bind (unlists_store fun _ => rfl) fun _ _ =>
          unlists_insertUnsorted hs (he hw u)
    | wake w' => exact unlists_popRemove hs
    | wakeNode w' n => exact unlists_removeUnsorted hs
    | processTick => exact unlists_processTick hs
    | taskSwitch => exact unlists_taskSwitch
    | syscallEnd => exact unlists_getCurrent.bind fun _ _ => unlists_store fun _ => rfl
  exact (((hpass k .refl).post hout).1) _ _ ⟨trivial, rfl⟩ hk

end Kernel

end IntOS
