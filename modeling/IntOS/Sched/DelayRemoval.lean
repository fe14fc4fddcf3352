import IntOS.Sched.Recover
import IntOS.Sched.Runs

/-!
# Waking a delayed task and power failures

`roll_forward_remove_from_delaylist` does not store `block_node_ptr`, but its recovery starts from there.
-/

namespace IntOS

open Persist Persist.Prog IntOS.Lists

namespace Kernel

variable {cfg : Config} {k c : Kernel} {t : Nat} {α β : Type}

/-- The task `t` still waits as before, or it is ready and waits no more; nothing else has changed. -/
structure WokenOrNot (k : Kernel) (t : Nat) (k' : Kernel) : Prop where
  task : (∀ n l, InList k' n l ↔ InList k n l) ∨
    ((∀ l, InList k' (.sched t) l ↔ l = .ready (k.priority t)) ∧ (∀ l, ¬ InList k' (.event t) l) ∧
      k'.status t = .ready)
  lists : ∀ n, n.task ≠ t → ∀ l, InList k' n l ↔ InList k n l
  status : ∀ u, u ≠ t → k'.status u = k.status u

/-- Recovery after a failure in `c` wakes the task `t` of `k` or leaves it, whatever the fields of the log
hold that the transaction does not write. -/
def SurvivesFailure (cfg : Config) (k : Kernel) (t : Nat) (c : Kernel) : Prop :=
  ∀ blockNodePtr taskPtr waitListPtr, Ends (recoverListTransaction cfg) (fun _ => WokenOrNot k t)
    { c with blockNodePtr := blockNodePtr, taskPtr := taskPtr, waitListPtr := waitListPtr }

theorem keeps_onLists {f : Kernel → β} (h : ∀ s k, f { k with lists := s } = f k)
    (m : Prog (Lists NodeRef ListRef) α) : Keeps f (onLists m) := keeps_zoom h

theorem keeps_op_addToReadyList (t : Nat) : Keeps Kernel.op (addToReadyList t) :=
  (keeps_gets _).bind fun _ => (keeps_onLists (fun _ _ => rfl) _).bind fun _ => keeps_store fun _ => rfl

theorem keeps_op_removeFromOwnWaitlist (t : Nat) : Keeps Kernel.op (removeFromOwnWaitlist cfg t) := by
  refine (keeps_gets _).bind fun l => ?_
  cases l with
  | none => exact keeps_pure _
  | some l => exact keeps_onLists (fun _ _ => rfl) _

/-- The removal up to the last store. -/
def removalUncommitted (cfg : Config) : Prog Kernel Unit := do
  setTxOp .delayListRemoval
  match ← onLists (optimizedPopFront .delayed) with
  | none => fail
  | some schedNode => do
      removeFromOwnWaitlist cfg schedNode.task
      addToReadyList schedNode.task
      setMicroOp .invalid 0

theorem rollForwardRemoveFromDelaylist_eq : rollForwardRemoveFromDelaylist cfg =
    removalUncommitted cfg >>= fun _ => store fun k => { k with op := .invalid } := by
  simp only [rollForwardRemoveFromDelaylist, removalUncommitted, invalidate, assoc]
  congr 1
  funext _
  congr 1
  funext r
  cases r with
  | none => rfl
  | some n =>
      simp only [assoc]
      rfl

/-- All stores of the removal but the last one leave its operation code. -/
theorem op_of_mem_removal (hc : c ∈ (rollForwardRemoveFromDelaylist cfg k).trace.dropLast) :
    c.op = .delayListRemoval := by
  rw [rollForwardRemoveFromDelaylist_eq] at hc
  have hmem := mem_trace_of_mem_dropLast hc
  have hkeeps : Keeps Kernel.op (do
      match ← onLists (optimizedPopFront .delayed) with
      | none => fail
      | some schedNode => do
          removeFromOwnWaitlist cfg schedNode.task
          addToReadyList schedNode.task
          setMicroOp .invalid 0) := by
    refine (keeps_onLists (fun _ _ => rfl) _).bind fun r => ?_
    cases r with
    | none => exact keeps_fail
    | some n =>
        exact (keeps_op_removeFromOwnWaitlist _).bind fun _ => (keeps_op_addToReadyList _).bind fun _ =>
          keeps_onLists (fun _ _ => rfl) _
  rw [removalUncommitted, setTxOp, store_bind_apply, List.mem_cons] at hmem
  rcases hmem with rfl | hmem
  · rfl
  · exact hkeeps.trace hmem

theorem recover_delayListRemoval_none (hop : c.op = .delayListRemoval) (hptr : c.blockNodePtr = none) :
    ((recoverListTransaction cfg) c).out = none := by
  simp only [recoverListTransaction, gets_bind_apply, hop]
  apply congrArg Run.out (bind_of_none _)
  simp only [recoverAndRollForwardOfDelaylistRemoval, getMicroOp, getOldLen, getBlockNode, assoc,
    gets_bind_apply]
  cases Lists.getMicroOp c.lists with
  | none => rfl
  | some op => simp only [pure_bind_apply, gets_bind_apply, hptr, fail_bind_apply]

/-- No failure during the removal is survived. -/
theorem delay_removal_never_survives (hc : c ∈ (rollForwardRemoveFromDelaylist cfg k).trace.dropLast) :
    ¬ SurvivesFailure cfg k t c := by
  intro h
  obtain ⟨_, _, hout, _⟩ := (h none c.taskPtr c.waitListPtr).returns
  have hop := op_of_mem_removal hc
  have hnone : ((recoverListTransaction cfg) { c with blockNodePtr := none }).out = none :=
    recover_delayListRemoval_none hop rfl
  cases hnone.symm.trans hout

/-- One tick before the delayed task is due. -/
def almostDue : Kernel :=
  Op.processTick.exec qemuDebug (Op.processTick.exec qemuDebug (Op.processTick.exec qemuDebug
    (Op.processTick.exec qemuDebug sleeping)))

theorem reachable_almostDue : Reachable qemuDebug almostDue :=
  (((reachable_sleeping.exec .processTick trivial rfl).exec .processTick trivial rfl).exec .processTick trivial
    rfl).exec .processTick trivial rfl

theorem delay_removal_never_survives_sleeping :
    ∃ c ∈ (rollForwardRemoveFromDelaylist qemuDebug sleeping).trace.dropLast,
      ¬ SurvivesFailure qemuDebug sleeping 0 c := by
  have hmem : ∃ c, c ∈ (rollForwardRemoveFromDelaylist qemuDebug sleeping).trace.dropLast :=
    ⟨_, List.mem_of_getElem? (i := 0) rfl⟩
  obtain ⟨c, hc⟩ := hmem
  exact ⟨c, hc, delay_removal_never_survives hc⟩

/-- Power fails after the first store of the removal; no transaction has stored `block_node_ptr` before. -/
theorem delay_removal_unwraps_none :
    Reachable qemuDebug almostDue ∧ 3 < (processTick qemuDebug almostDue).trace.length ∧
    ∃ c, (processTick qemuDebug almostDue).trace[1]? = some c ∧ c.op = .delayListRemoval ∧
      ((recoverListTransaction qemuDebug) c).out = none :=
  ⟨reachable_almostDue, by decide, _, rfl, rfl, rfl⟩

end Kernel

end IntOS
