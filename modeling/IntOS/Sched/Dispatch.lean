import IntOS.Sched.Lemmas.Log
import IntOS.Sched.Lemmas.Resume

/-!
# What recovery finds in the log

The recovery functions first decide what to do by the operation code, the micro-operation and the pointers of the
log. Whatever the lists look like, a run with any number of power failures leaves a log that they expect, but for
the cases of `Tolerable`.
-/

namespace IntOS

open Persist Persist.Prog IntOS.Lists

namespace Kernel

variable {α β : Type} {cfg : Config} {k c : Kernel} {t w oldLen : Nat} {x : ListTxOpCode} {op : ListOpCode}
  {impossible : {α : Type} → Prog Kernel α}

/-- Recovery does the same whatever it would do at the places that it takes for impossible: it reaches none of them. -/
def Recognized (cfg : Config) (c : Kernel) : Prop :=
  ∀ impossible : {α : Type} → Prog Kernel α, recoverListTransaction cfg impossible c = (recoverListTransaction cfg) c

/-- The failure did not strike a waiter's wake-up from an empty wait list; a wake-up by the tick, whose node nothing
logs, or the removal of its event node from the wait list; the sorted insertion that recovery uses for the wait list
of an event group; or a context switch away from a ring that has no next task. -/
def Tolerable (c : Kernel) : Prop :=
  match c.op with
  | .waitListPopRemoval => c.blockNodePtr ≠ none
  | .delayListRemoval => ∃ n, c.blockNodePtr = some n ∧
      (c.lists.getMicroOp = some .remove → c.lists.list (.event n.task) ≠ none)
  | .unsortedWaitListInsert => c.lists.getMicroOp ≠ some .insertSortedWaitList
  | .invalid => c.lists.getMicroOp = some .readyListNext → ∀ t, c.taskPtr = some t →
      ∃ n, c.lists.cursor (.ready (c.priority t)) = some n ∧ (n.task = t → c.lists.next n ≠ none)
  | _ => True

/-! ## Runs with power failures -/

/-- The states in which operations and recoveries start, whatever the other parts of the kernel do between two
operations, over all schedules of power failures. Every list fits the log. -/
inductive Runs (cfg : Config) : Phase → Kernel → Prop
  | boot : Runs cfg .up (new cfg)
  | other {k k' : Kernel} : Runs cfg .up k → k'.lists = k.lists → k'.op = k.op → Runs cfg .up k'
  | completed {k k' : Kernel} {op : Op} : Runs cfg .up k → (∀ c ∈ crashes (op.prog cfg) k, FitsLog c) →
      (op.prog cfg k).out = some ((), k') → Runs cfg .up k'
  | failed {k c : Kernel} {op : Op} : Runs cfg .up k → (∀ c ∈ crashes (op.prog cfg) k, FitsLog c) →
      c ∈ crashes (op.prog cfg) k → Runs cfg .down c
  | failedAgain {c c' : Kernel} : Runs cfg .down c → (∀ d ∈ crashes (recoverListTransaction cfg) c, FitsLog d) →
      c' ∈ ((recoverListTransaction cfg) c).trace → Runs cfg .down c'
  | recovered {c k : Kernel} : Runs cfg .down c → (∀ d ∈ crashes (recoverListTransaction cfg) c, FitsLog d) →
      ((recoverListTransaction cfg) c).out = some ((), k) → Runs cfg .up k

/-! ## Recovery -/

theorem finishes_recoverWaitlistPopRemove :
    Finishes .waitListPopRemoval (recoverAndRollForwardOfWaitlistPopRemove cfg) := by
  have hready : ∀ t, LogsOnly (· ∈ microOps .waitListPopRemoval) (addToReadyList t) := fun t =>
    logsOnly_addToReadyList (by decide)
  refine logsOnly_getMicroOp.finishes fun op => (logsOnly_gets _).finishes fun oldLen => ?_
  refine logsOnly_getBlockNode.finishes fun node => ?_
  cases op
  case popFront =>
    refine (logsOnly_recoverPopFront node oldLen (by decide)).finishes fun _ => ?_
    exact (logsOnly_removeFromDelayedList (by decide)).finishes fun _ => (hready _).finishes fun _ => finishes_commit
  case remove =>
    refine (logsOnly_onLists (logging_recoverFromFailedRemove oldLen)).finishes fun _ => ?_
    exact (hready _).finishes fun _ => finishes_commit
  case insertBeforeCursor =>
    exact (logsOnly_recoverInsertIntoReadyList oldLen).finishes fun _ => finishes_commit
  case invalid => exact (logsOnly_pure ()).finishes fun _ => finishes_commit
  all_goals exact logsOnly_fail.finishes fun _ => finishes_commit

theorem finishes_recoverUnsortedWaitlistRemove :
    Finishes .waitListRemoval (recoverAndRollForwardOfUnsortedWaitlistRemove cfg) := by
  have hready : ∀ t, LogsOnly (· ∈ microOps .waitListRemoval) (addToReadyList t) := fun t =>
    logsOnly_addToReadyList (by decide)
  refine logsOnly_getMicroOp.finishes fun op => (logsOnly_gets _).finishes fun oldLen => ?_
  refine logsOnly_getBlockNode.finishes fun node => ?_
  cases op
  case remove =>
    refine (logsOnly_gets _).finishes fun l => ?_
    cases l with
    | none =>
        refine (logsOnly_onLists (logging_recoverFromFailedRemove oldLen)).finishes fun _ => ?_
        exact (hready _).finishes fun _ => finishes_invalidate
    | some l =>
        refine (logsOnly_onLists (logging_recoverFromFailedRemove oldLen)).finishes fun _ => ?_
        exact (logsOnly_removeFromDelayedList (by decide)).finishes fun _ => (hready _).finishes fun _ =>
          finishes_invalidate
  case insertBeforeCursor =>
    exact (logsOnly_recoverInsertIntoReadyList oldLen).finishes fun _ => finishes_invalidate
  case invalid => exact (logsOnly_pure ()).finishes fun _ => finishes_invalidate
  all_goals exact logsOnly_fail.finishes fun _ => finishes_invalidate

theorem finishes_recoverWaitlistInsert : Finishes .waitListInsert (recoverAndRollForwardOfWaitlistInsert cfg) := by
  have hdelay : ∀ t, LogsOnly (· ∈ microOps .waitListInsert) (addToDelayedList cfg t) := fun t =>
    logsOnly_addToDelayedList (by decide)
  refine logsOnly_getMicroOp.finishes fun op => (logsOnly_gets _).finishes fun oldLen => ?_
  refine logsOnly_getWaitList.finishes fun w => logsOnly_getCurrent.finishes fun t => ?_
  cases op
  case remove =>
    refine (logsOnly_recoverRemoveFromReadyList oldLen).finishes fun _ => ?_
    exact (logsOnly_insertWaiting (by decide)).finishes fun _ => (hdelay t).finishes fun _ => finishes_invalidate
  case insertSortedWaitList =>
    refine (logsOnly_gets _).finishes fun fuel => (logsOnly_gets _).finishes fun priority => ?_
    refine (logsOnly_onLists (logging_recoverFromFailedInsertSorted _ _ _ oldLen)).finishes fun _ => ?_
    exact (hdelay t).finishes fun _ => finishes_invalidate
  case insertSortedDelayList =>
    exact (logsOnly_recoverInsertIntoDelayedList oldLen).finishes fun _ => finishes_invalidate
  case invalid => exact (logsOnly_pure ()).finishes fun _ => finishes_invalidate
  all_goals exact logsOnly_fail.finishes fun _ => finishes_invalidate

theorem finishes_recoverUnsortedWaitlistInsert :
    Finishes .unsortedWaitListInsert (recoverAndRollForwardOfUnsortedWaitlistInsert cfg) := by
  have hdelay : ∀ t, LogsOnly (· ∈ microOps .unsortedWaitListInsert) (addToDelayedList cfg t) := fun t =>
    logsOnly_addToDelayedList (by decide)
  refine logsOnly_getMicroOp.finishes fun op => (logsOnly_gets _).finishes fun oldLen => ?_
  refine logsOnly_getWaitList.finishes fun w => logsOnly_getCurrent.finishes fun t => ?_
  cases op
  case remove =>
    refine (logsOnly_recoverRemoveFromReadyList oldLen).finishes fun _ => ?_
    exact (logsOnly_insertWaiting (by decide)).finishes fun _ => (hdelay t).finishes fun _ => finishes_invalidate
  case insertFront =>
    refine (logsOnly_onLists (logging_recoverFromFailedInsertFront oldLen)).finishes fun _ => ?_
    exact (hdelay t).finishes fun _ => finishes_invalidate
  case insertSortedDelayList =>
    exact (logsOnly_recoverInsertIntoDelayedList oldLen).finishes fun _ => finishes_invalidate
  case invalid => exact (logsOnly_pure ()).finishes fun _ => finishes_invalidate
  all_goals exact logsOnly_fail.finishes fun _ => finishes_invalidate

theorem finishes_recoverDelaylistRemoval :
    Finishes .delayListRemoval (recoverAndRollForwardOfDelaylistRemoval cfg) := by
  have hready : ∀ t, LogsOnly (· ∈ microOps .delayListRemoval) (addToReadyList t) := fun t =>
    logsOnly_addToReadyList (by decide)
  refine logsOnly_getMicroOp.finishes fun op => (logsOnly_gets _).finishes fun oldLen => ?_
  refine logsOnly_getBlockNode.finishes fun node => ?_
  cases op
  case popFront =>
    refine (logsOnly_recoverPopFront node oldLen (by decide)).finishes fun _ => ?_
    exact (logsOnly_removeFromOwnWaitlist (by decide)).finishes fun _ => (hready _).finishes fun _ =>
      finishes_invalidate
  case remove =>
    refine (logsOnly_gets _).finishes fun l => ?_
    cases l with
    | none => exact logsOnly_fail.finishes fun _ => (hready _).finishes fun _ => finishes_invalidate
    | some l =>
        refine (logsOnly_onLists (logging_recoverFromFailedRemove oldLen)).finishes fun _ => ?_
        exact (hready _).finishes fun _ => finishes_invalidate
  case insertBeforeCursor =>
    exact (logsOnly_recoverInsertIntoReadyList oldLen).finishes fun _ => finishes_invalidate
  case invalid => exact (logsOnly_pure ()).finishes fun _ => finishes_invalidate
  all_goals exact logsOnly_fail.finishes fun _ => finishes_invalidate

theorem finishes_recoverDelaylistInsert : Finishes .delayListInsert (recoverAndRollForwardOfDelaylistInsert cfg) := by
  refine logsOnly_getMicroOp.finishes fun op => (logsOnly_gets _).finishes fun oldLen => ?_
  refine logsOnly_getCurrent.finishes fun t => ?_
  cases op
  case remove =>
    refine (logsOnly_recoverRemoveFromReadyList oldLen).finishes fun _ => ?_
    exact (logsOnly_addToDelayedList (by decide)).finishes fun _ => finishes_commit
  case insertSortedDelayList =>
    exact (logsOnly_recoverInsertIntoDelayedList oldLen).finishes fun _ => finishes_commit
  case invalid => exact (logsOnly_pure ()).finishes fun _ => finishes_commit
  all_goals exact logsOnly_fail.finishes fun _ => finishes_commit

theorem finishes_recoverReadylistInsert : Finishes .readyListInsert recoverAndRollForwardOfReadylistInsert := by
  refine logsOnly_getMicroOp.finishes fun op => (logsOnly_gets _).finishes fun oldLen => ?_
  refine logsOnly_getTask.finishes fun t => ?_
  cases op
  case insertBeforeCursor =>
    exact (logsOnly_recoverInsertIntoReadyList oldLen).finishes fun _ => finishes_commit
  case invalid => exact (logsOnly_pure ()).finishes fun _ => finishes_commit
  all_goals exact logsOnly_fail.finishes fun _ => finishes_commit

/-- Reading the micro-operation that the log names. -/
theorem wpcOn_getMicroOp {A C : Kernel → Prop} {Q : ListOpCode → Kernel → Prop} {op : ListOpCode} (hn : Names k op)
    (hC : C k) (hQ : Q op k) : wpcOn A getMicroOp Q C k := by
  unfold getMicroOp
  apply wpcOn_bind
  apply wpcOn_gets hC
  rw [hn.getMicroOp]
  exact wpcOn_pure hC hQ

/-- A context switch that has been logged. -/
theorem finishes_recoverReadyListNext : Finishes .invalid (do
    let prevTask ← getTask
    let prio ← gets (·.priority prevTask)
    match ← gets fun k => k.lists.cursor (.ready prio) with
    | none => fail
    | some cursor => do
        if cursor.task = prevTask then do
          setStatus prevTask .ready
          match ← onLists (nextItem (.ready prio)) with
          | none => fail
          | some item => do
              setStatus item.task .running
              setCurrent item.task
        else do
          setStatus cursor.task .running
          setCurrent cursor.task
    setMicroOp .invalid 0) := by
  refine logsOnly_getTask.finishes fun prevTask => (logsOnly_gets _).finishes fun prio => ?_
  refine (logsOnly_gets _).finishes fun cursor => ?_
  cases cursor with
  | none => exact logsOnly_fail.finishes fun _ => finishes_switch
  | some cursor =>
      dsimp only
      split
      · refine (logsOnly_setStatus _).finishes fun _ => ?_
        refine (logsOnly_onLists logging_nextItem).finishes fun item => ?_
        cases item with
        | none => exact logsOnly_fail.finishes fun _ => finishes_switch
        | some item =>
            exact (logsOnly_setStatus _).finishes fun _ => logsOnly_setCurrent.finishes fun _ => finishes_switch
      · exact (logsOnly_setStatus _).finishes fun _ => logsOnly_setCurrent.finishes fun _ => finishes_switch

theorem wpcOn_recoverContextSwitch (h : Logged k) (hop : k.op = .invalid) :
    wpcOn FitsLog recoverAndRollForwardContextSwitch (fun _ => Idle) Logged k := by
  obtain ⟨⟨op, hmem, hn⟩, hpointed⟩ := h
  unfold recoverAndRollForwardContextSwitch
  apply wpcOn_bind
  apply wpcOn_getMicroOp hn ⟨⟨op, hmem, hn⟩, hpointed⟩
  rw [hop] at hmem
  cases op
  case invalid =>
    have hidle : Idle k := ⟨hop, hn⟩
    exact wpcOn_pure hidle.logged hidle
  case readyListNext =>
    refine finishes_recoverReadyListNext k ⟨⟨_, hop ▸ hmem, hn⟩, hpointed⟩ hop fun _ => ?_
    unfold Pointed at hpointed
    rw [hop] at hpointed
    refine hpointed.resolve_left fun hn' => ?_
    cases hn.getMicroOp.symm.trans hn'.getMicroOp
  all_goals simp [microOps] at hmem

/-- Recovery, from whatever a failure leaves. -/
theorem Logged.recover (h : Logged k) : wpcOn FitsLog (recoverListTransaction cfg) (fun _ => Idle) Logged k := by
  have hthen : ∀ {x m}, Finishes x m → k.op = x → x ≠ .invalid →
      wpcOn FitsLog (m >>= fun _ => recoverAndRollForwardContextSwitch) (fun _ => Idle) Logged k := by
    intro x m hm hx hne
    apply wpcOn_bind
    refine wpcOn_mono (hm k h hx fun he => absurd he hne) ?_ fun _ hc => hc
    exact fun _ r hr => wpcOn_recoverContextSwitch hr.logged hr.op
  unfold recoverListTransaction
  apply wpcOn_bind
  apply wpcOn_gets h
  cases hk : k.op
  case invalid => exact wpcOn_recoverContextSwitch h hk
  case waitListPopRemoval => exact hthen finishes_recoverWaitlistPopRemove hk nofun
  case waitListInsert => exact hthen finishes_recoverWaitlistInsert hk nofun
  case waitListRemoval => exact hthen finishes_recoverUnsortedWaitlistRemove hk nofun
  case unsortedWaitListInsert => exact hthen finishes_recoverUnsortedWaitlistInsert hk nofun
  case delayListRemoval => exact hthen finishes_recoverDelaylistRemoval hk nofun
  case delayListInsert => exact hthen finishes_recoverDelaylistInsert hk nofun
  case readyListInsert => exact hthen finishes_recoverReadylistInsert hk nofun
  all_goals exact wpcOn_bind (wpcOn_fail h)

/-! ## Operations -/

/-- From one moment without list transactions to the next. -/
def Idles (m : Prog Kernel α) : Prop := ∀ k, Idle k → wpcOn FitsLog m (fun _ => Idle) Logged k

theorem Idles.bind {m : Prog Kernel α} {f : α → Prog Kernel β} (hm : Idles m) (hf : ∀ a, Idles (f a)) :
    Idles (m >>= f) := fun k hk =>
  wpcOn_bind (wpcOn_mono (hm k hk) (fun a c hc => hf a c hc) fun _ hc => hc)

theorem idles_pure (a : α) : Idles (pure a) := fun _ hk => wpcOn_pure hk.logged hk

theorem idles_gets (g : Kernel → α) : Idles (gets g) := fun _ hk => wpcOn_gets hk.logged hk

theorem idles_fail : Idles (fail : Prog Kernel α) := fun _ hk => wpcOn_fail hk.logged

theorem idles_check (p : Prop) [Decidable p] : Idles (check p) := fun _ hk => wpcOn_check hk.logged fun _ => hk

/-- A store to anything but what the log is about. The pointers may change. -/
theorem Idle.store {g : Kernel → Kernel} (h : Idle k) (hop : ∀ k, (g k).op = k.op)
    (hm : ∀ k, (g k).lists.microOpOldLen = k.lists.microOpOldLen) : Idle (g k) := by
  obtain ⟨oldLen, hlt, hn⟩ := h.micro
  exact ⟨(hop k).trans h.op, oldLen, hlt, (hm k).trans hn⟩

theorem idles_store {g : Kernel → Kernel} (hop : ∀ k, (g k).op = k.op)
    (hm : ∀ k, (g k).lists.microOpOldLen = k.lists.microOpOldLen) : Idles (store g) := fun _ hk =>
  wpcOn_store hk.logged fun _ => ⟨(hk.store hop hm).logged, hk.store hop hm⟩

theorem idles_onLists {m : Prog (Lists NodeRef ListRef) α} (hm : Logging (fun _ => False) m) : Idles (onLists m) := by
  intro k hk
  have hstep : ∀ {c}, LogStep (fun _ => False) k c → Idle c := by
    intro c hs
    rcases hs.names hk.micro with hn | ⟨_, hno, _⟩
    · exact ⟨hs.op.trans hk.op, hn⟩
    · exact hno.elim
  exact wpcOn_mono (logsOnly_onLists hm k) (fun _ _ hs => hstep hs) fun _ hs => (hstep hs).logged

theorem idles_getCurrent : Idles getCurrent := by
  refine (idles_gets _).bind fun t => ?_
  cases t with
  | none => exact idles_fail
  | some t => exact idles_pure t

/-- A transaction, once its pointers are set. -/
theorem Idle.transaction {m : Prog Kernel Unit} (h : Idle k) (hm : Finishes x m) (hne : x ≠ .invalid)
    (hmem : .invalid ∈ microOps x) (hp : Pointed { k with op := x }) :
    wpcOn FitsLog (setTxOp x >>= fun _ => m) (fun _ => Idle) Logged k := by
  have hlogged : Logged { k with op := x } := ⟨⟨.invalid, hmem, h.micro⟩, hp⟩
  apply wpcOn_bind
  apply wpcOn_store h.logged
  exact fun _ => ⟨hlogged, hm _ hlogged rfl fun he => absurd he hne⟩

/-- A transaction that begins with a pointer of the log. -/
theorem idles_transaction {m : Prog Kernel Unit} {g : Kernel → Kernel} (hop : ∀ k, (g k).op = k.op)
    (hmicro : ∀ k, (g k).lists.microOpOldLen = k.lists.microOpOldLen) (hm : Finishes x m) (hne : x ≠ .invalid)
    (hmem : .invalid ∈ microOps x) (hp : ∀ k, Pointed { g k with op := x }) :
    Idles (store g >>= fun _ => setTxOp x >>= fun _ => m) := by
  intro k hk
  apply wpcOn_bind
  apply wpcOn_store hk.logged
  have hidle : Idle (g k) := hk.store hop hmicro
  exact fun _ => ⟨hidle.logged, hidle.transaction hm hne hmem (hp k)⟩

theorem idles_bypass : Idles (bypass cfg) :=
  idles_getCurrent.bind fun _ => (idles_gets _).bind fun _ => (idles_gets _).bind fun _ => (idles_check _).bind fun _ =>
    idles_pure _

theorem idles_popRemoveFromWaitlist (w : Nat) : Idles (rollForwardPopRemoveFromWaitlist cfg w) := by
  refine idles_bypass.bind fun done => ?_
  cases done with
  | true => exact idles_pure ()
  | false =>
      refine (idles_gets _).bind fun head => ?_
      refine idles_transaction (fun _ => rfl) (fun _ => rfl) ?_ nofun (by decide) fun _ => trivial
      refine (logsOnly_onLists (logging_optimizedPopFront (by decide))).finishes fun node => ?_
      cases node with
      | none => exact (logsOnly_pure ()).finishes fun _ => finishes_commit
      | some node =>
          refine (logsOnly_removeFromDelayedList (by decide)).finishes fun _ => ?_
          exact (logsOnly_addToReadyList (by decide)).finishes fun _ => finishes_commit

theorem idles_removeFromUnsortedWaitlist (w : Nat) (node : NodeRef) :
    Idles (rollForwardRemoveFromUnsortedWaitlist cfg w node) := by
  refine idles_transaction (fun _ => rfl) (fun _ => rfl) ?_ nofun (by decide) fun _ => nofun
  refine (logsOnly_onLists (logging_optimizedRemove _ (by decide))).finishes fun _ => ?_
  refine (logsOnly_removeFromDelayedList (by decide)).finishes fun _ => ?_
  exact (logsOnly_addToReadyList (by decide)).finishes fun _ => finishes_invalidate

theorem idles_insertIntoWaitlist (w t : Nat) : Idles (rollForwardInsertIntoWaitlist cfg w t) := by
  refine idles_transaction (fun _ => rfl) (fun _ => rfl) ?_ nofun (by decide) fun _ => nofun
  refine (logsOnly_removeFromReadyList (by decide)).finishes fun _ => ?_
  refine (logsOnly_insertWaiting (by decide)).finishes fun _ => ?_
  exact (logsOnly_addToDelayedList (by decide)).finishes fun _ => finishes_invalidate

theorem Idle.insertIntoUnsortedWaitlist (h : Idle k) (hcur : k.current ≠ none) :
    wpcOn FitsLog (rollForwardInsertIntoUnsortedWaitlist cfg w t) (fun _ => Idle) Logged k := by
  have hidle : Idle { k with waitListPtr := some w } := ⟨h.op, h.micro⟩
  apply wpcOn_bind
  apply wpcOn_store h.logged
  have hpointed : Pointed { k with waitListPtr := some w, op := .unsortedWaitListInsert } := ⟨nofun, hcur⟩
  refine fun _ => ⟨hidle.logged, hidle.transaction ?_ nofun (by decide) hpointed⟩
  refine (logsOnly_removeFromReadyList (by decide)).finishes fun _ => ?_
  refine (logsOnly_onLists (logging_optimizedInsertFront _ (by decide))).finishes fun _ => ?_
  exact (logsOnly_addToDelayedList (by decide)).finishes fun _ => finishes_invalidate

/-- An unsorted insertion is for the current task. -/
theorem idles_blockUnsorted (w wakeupTime : Nat) : Idles ((Op.blockUnsorted w wakeupTime).prog cfg) := by
  intro k hk
  apply wpcOn_bind
  unfold getCurrent
  apply wpcOn_bind
  apply wpcOn_gets hk.logged
  cases hcur : k.current with
  | none => exact wpcOn_fail hk.logged
  | some t =>
      refine wpcOn_pure hk.logged (wpcOn_bind (wpcOn_store hk.logged fun _ => ?_))
      have hidle : Idle { k with wakeupTime := Function.update k.wakeupTime t wakeupTime } := ⟨hk.op, hk.micro⟩
      exact ⟨hidle.logged, hidle.insertIntoUnsortedWaitlist (hcur ▸ nofun)⟩

theorem idles_removeFromDelaylist : Idles (rollForwardRemoveFromDelaylist cfg) := by
  intro k hk
  refine hk.transaction ?_ nofun (by decide) trivial
  refine (logsOnly_onLists (logging_optimizedPopFront (by decide))).finishes fun node => ?_
  cases node with
  | none => exact finishes_fail
  | some node =>
      refine (logsOnly_removeFromOwnWaitlist (by decide)).finishes fun _ => ?_
      exact (logsOnly_addToReadyList (by decide)).finishes fun _ => finishes_invalidate

theorem idles_insertIntoDelaylist : Idles (rollForwardInsertIntoDelaylist cfg) := by
  refine idles_bypass.bind fun done => ?_
  cases done with
  | true => exact idles_pure ()
  | false =>
      intro k hk
      refine hk.transaction ?_ nofun (by decide) trivial
      refine logsOnly_getCurrent.finishes fun t => (logsOnly_removeFromReadyList (by decide)).finishes fun _ => ?_
      exact (logsOnly_addToDelayedList (by decide)).finishes fun _ => finishes_commit

theorem idles_insertIntoReadylist (t : Nat) : Idles (rollForwardInsertIntoReadylist t) := by
  refine idles_transaction (fun _ => rfl) (fun _ => rfl) ?_ nofun (by decide) fun _ => nofun
  exact (logsOnly_addToReadyList (by decide)).finishes fun _ => finishes_invalidate

theorem idles_contextSwitch (task prevTask prio : Nat) : Idles (atomicRollFowardContextSwitch task prevTask prio) := by
  intro k hk
  apply wpcOn_bind
  apply wpcOn_store hk.logged
  have hidle : Idle { k with taskPtr := some prevTask } := ⟨hk.op, hk.micro⟩
  refine fun _ => ⟨hidle.logged, ?_⟩
  apply wpcOn_bind
  apply wpcOn_setMicroOp hidle.logged
  have hlt : 0 < 2 ^ opCodeShift := by decide
  have hlogged : Logged { k with
      taskPtr := some prevTask, lists := { k.lists with microOpOldLen := microOpOldLenOf .readyListNext 0 } } := by
    refine hidle.logged.step ⟨rfl, rfl, rfl, rfl, id, Or.inr ⟨.readyListNext, 0, ?_, hlt, rfl⟩⟩ nofun
    rw [hidle.op]
    decide
  refine ⟨hlogged, ?_⟩
  have hrest : Finishes .invalid (do
      setStatus task .running
      let prevStatus ← gets (·.status prevTask)
      if prevStatus ≠ .blocked then
        setStatus prevTask .ready
      let _ ← onLists (nextItem (.ready prio))
      setCurrent task
      setMicroOp .invalid 0) := by
    have hnext : Finishes .invalid (do
        let _ ← onLists (nextItem (.ready prio))
        setCurrent task
        setMicroOp .invalid 0) :=
      (logsOnly_onLists logging_nextItem).finishes fun _ => logsOnly_setCurrent.finishes fun _ => finishes_switch
    refine (logsOnly_setStatus _).finishes fun _ => (logsOnly_gets _).finishes fun prevStatus => ?_
    dsimp only
    split
    · exact (logsOnly_setStatus _).finishes fun _ => hnext
    · exact hnext
  exact hrest _ hlogged hidle.op nofun

theorem idles_createTask (prio : Nat) : Idles (createTaskStatic cfg prio) := by
  have hreset : ∀ n, Idles (onLists (resetNode n)) := fun n => idles_onLists logging_resetNode
  unfold createTaskStatic
  refine (idles_gets _).bind fun tid => ?_
  split
  · exact idles_pure _
  split
  · exact idles_pure _
  refine Idles.bind (idles_store (fun _ => rfl) fun _ => rfl) fun _ => Idles.bind ?_ fun _ => ?_
  · exact (hreset _).bind fun _ => (hreset _).bind fun _ =>
      Idles.bind (idles_store (fun _ => rfl) fun _ => rfl) fun _ =>
      Idles.bind (idles_store (fun _ => rfl) fun _ => rfl) fun _ =>
      Idles.bind (idles_store (fun _ => rfl) fun _ => rfl) fun _ =>
      Idles.bind (idles_store (fun _ => rfl) fun _ => rfl) fun _ => idles_store (fun _ => rfl) fun _ => rfl
  refine (idles_gets _).bind fun started => (idles_gets _).bind fun curMax => ?_
  have hinsert : Idles (do
      rollForwardInsertIntoReadylist tid
      pure (.ok tid) : Prog Kernel (Except ErrorCode Nat)) :=
    (idles_insertIntoReadylist tid).bind fun _ => idles_pure _
  dsimp only
  split
  · exact Idles.bind (idles_store (fun _ => rfl) fun _ => rfl) fun _ =>
      Idles.bind (idles_store (fun _ => rfl) fun _ => rfl) fun _ => hinsert
  · exact hinsert

theorem idles_wakeDue (curTicks fuel : Nat) : Idles (wakeDue cfg curTicks fuel) := by
  induction fuel with
  | zero => exact idles_fail
  | succ fuel ih =>
      refine (idles_gets _).bind fun head => ?_
      cases head with
      | none => exact idles_pure ()
      | some item =>
          refine (idles_gets _).bind fun wakeupTime => ?_
          split
          · exact idles_pure ()
          · exact idles_removeFromDelaylist.bind fun _ => ih

theorem idles_processTick : Idles (processTick cfg) := by
  have htick : Idles (incTick cfg) :=
    (idles_gets _).bind fun _ => (idles_check _).bind fun _ =>
      Idles.bind (idles_store (fun _ => rfl) fun _ => rfl) fun _ => idles_pure _
  refine htick.bind fun curTicks => (idles_gets _).bind fun nextUnblockTime => ?_
  split
  · refine (idles_gets _).bind fun fuel => (idles_wakeDue _ _).bind fun _ => ?_
    exact (idles_gets _).bind fun _ => (idles_gets _).bind fun _ => idles_store (fun _ => rfl) fun _ => rfl
  · exact idles_pure ()

theorem idles_taskSwitch : Idles (taskSwitch cfg) := by
  refine idles_getCurrent.bind fun prevTask => (idles_gets _).bind fun next => ?_
  cases next with
  | none => exact idles_fail
  | some next =>
      obtain ⟨i, task⟩ := next
      dsimp only
      split
      · exact (idles_gets _).bind fun _ => (idles_check _).bind fun _ => idles_contextSwitch _ _ _
      · exact (idles_gets _).bind fun _ => idles_check _

/-- Every operation. -/
theorem idles_prog (op : Op) : Idles (op.prog cfg) := by
  have hwakeup : ∀ t v, Idles (setWakeupTime t v) := fun _ _ => idles_store (fun _ => rfl) fun _ => rfl
  cases op with
  | createTask prio => exact (idles_createTask prio).bind fun _ => idles_pure ()
  | startKernel => exact idles_store (fun _ => rfl) fun _ => rfl
  | taskDelay nticks =>
      refine idles_getCurrent.bind fun t => (idles_gets _).bind fun now => ?_
      refine Idles.bind ((idles_check _).bind fun _ => idles_pure _) fun wakeupTime => ?_
      exact (hwakeup _ _).bind fun _ => idles_insertIntoDelaylist
  | block w wakeupTime =>
      exact idles_getCurrent.bind fun t => (hwakeup _ _).bind fun _ => idles_insertIntoWaitlist w t
  | blockUnsorted w wakeupTime => exact idles_blockUnsorted w wakeupTime
  | wake w => exact idles_popRemoveFromWaitlist w
  | wakeNode w n => exact idles_removeFromUnsortedWaitlist w n
  | processTick => exact idles_processTick
  | taskSwitch => exact idles_taskSwitch
  | syscallEnd => exact idles_getCurrent.bind fun _ => idles_store (fun _ => rfl) fun _ => rfl

/-! ## What recovery is started with -/

theorem Runs.log {phase : Phase} (h : Runs cfg phase k) : match phase with
    | .up => Idle k
    | .down => Logged k := by
  induction h with
  | boot => exact ⟨rfl, names_invalid rfl⟩
  | @other k k' _ hlists hop ih =>
      obtain ⟨oldLen, hlt, hn⟩ := ih.micro
      exact ⟨hop.trans ih.op, oldLen, hlt, hlists ▸ hn⟩
  | @completed k k' op _ hfits hout ih => exact ((idles_prog op k ih hfits).post hout).2
  | @failed k c op _ hfits hc ih => exact (idles_prog op k ih hfits).crash hc
  | failedAgain _ hfits hc ih => exact ((Logged.recover ih) hfits).trace hc
  | recovered _ hfits hout ih => exact ((Logged.recover ih hfits).post hout).2

/-! ## Places that recovery does not reach -/

/-- Where the program returns, the log names no micro-operation. -/
def Clears (m : Prog Kernel α) : Prop := ∀ k, After m (fun _ k' => Names k' .invalid) k

theorem Clears.bind {m : Prog Kernel β} {f : β → Prog Kernel α} (h : ∀ b, Clears (f b)) : Clears (m >>= f) :=
  fun _ => after_bind.mpr (.of_forall fun b k' => h b k')

theorem clears_setMicroOp {m : Prog Kernel α} (hm : ∀ k, After m (fun _ k' => k'.lists = k.lists) k) :
    Clears (setMicroOp .invalid 0 >>= fun _ => m) := by
  intro k
  rw [after_bind, setMicroOp, onLists, after_zoom, setMicroOpOldLen, after_store]
  refine (hm _).mono fun _ k' hlists => ⟨0, by decide, ?_⟩
  rw [hlists]

theorem clears_commit : Clears commit := by
  refine clears_setMicroOp fun k => ?_
  rw [after_bind, getCurrent, after_bind, after_gets]
  cases k.current with
  | none => trivial
  | some t => exact rfl

theorem clears_invalidate : Clears invalidate := clears_setMicroOp fun _ => rfl

/-- After a transaction that recovery completes no context switch is left. -/
theorem run_contextSwitch (h : Names k .invalid) :
    recoverAndRollForwardContextSwitch impossible k = (recoverAndRollForwardContextSwitch) k := by
  obtain ⟨oldLen, hlt, hm⟩ := h
  rw [recoverAndRollForwardContextSwitch, run_getMicroOp hm hlt, recoverAndRollForwardContextSwitch,
    run_getMicroOp hm hlt]

/-- It is enough to look at the transaction itself. -/
theorem recognized_of_transaction {m : ({α : Type} → Prog Kernel α) → Prog Kernel Unit}
    (hrun : ∀ impossible : {α : Type} → Prog Kernel α, recoverListTransaction cfg impossible c =
      (m impossible >>= fun _ => recoverAndRollForwardContextSwitch impossible) c)
    (hclears : Clears (m fail)) (h : ∀ impossible : {α : Type} → Prog Kernel α, m impossible c = m fail c) :
    Recognized cfg c := by
  intro impossible
  rw [hrun impossible, hrun fail, bind_apply, bind_apply, h impossible]
  have hcleared := hclears c
  unfold After at hcleared
  rcases hm : m fail c with ⟨tr, _ | ⟨a, k'⟩⟩
  · rfl
  · rw [hm] at hcleared
    dsimp only
    rw [run_contextSwitch hcleared]

theorem clears_waitlistPopRemove : Clears (recoverAndRollForwardOfWaitlistPopRemove cfg) := by
  refine .bind fun op => .bind fun oldLen => .bind fun node => ?_
  cases op
  case popFront => exact .bind fun _ => .bind fun _ => .bind fun _ => clears_commit
  case remove => exact .bind fun _ => .bind fun _ => clears_commit
  case invalid => exact clears_commit
  all_goals exact .bind fun _ => clears_commit

theorem clears_unsortedWaitlistRemove : Clears (recoverAndRollForwardOfUnsortedWaitlistRemove cfg) := by
  refine .bind fun op => .bind fun oldLen => .bind fun node => ?_
  cases op
  case remove =>
    refine .bind fun l => ?_
    cases l with
    | none => exact .bind fun _ => .bind fun _ => clears_invalidate
    | some l => exact .bind fun _ => .bind fun _ => .bind fun _ => clears_invalidate
  case invalid => exact clears_invalidate
  all_goals exact .bind fun _ => clears_invalidate

theorem clears_waitlistInsert : Clears (recoverAndRollForwardOfWaitlistInsert cfg) := by
  refine .bind fun op => .bind fun oldLen => .bind fun w => .bind fun t => ?_
  cases op
  case remove => exact .bind fun _ => .bind fun _ => .bind fun _ => clears_invalidate
  case insertSortedWaitList =>
    exact .bind fun _ => .bind fun _ => .bind fun _ => .bind fun _ => clears_invalidate
  case invalid => exact clears_invalidate
  all_goals exact .bind fun _ => clears_invalidate

theorem clears_unsortedWaitlistInsert : Clears (recoverAndRollForwardOfUnsortedWaitlistInsert cfg) := by
  refine .bind fun op => .bind fun oldLen => .bind fun w => .bind fun t => ?_
  cases op
  case remove => exact .bind fun _ => .bind fun _ => .bind fun _ => clears_invalidate
  case insertFront => exact .bind fun _ => .bind fun _ => clears_invalidate
  case invalid => exact clears_invalidate
  all_goals exact .bind fun _ => clears_invalidate

theorem clears_delaylistRemoval : Clears (recoverAndRollForwardOfDelaylistRemoval cfg) := by
  refine .bind fun op => .bind fun oldLen => .bind fun node => ?_
  cases op
  case popFront => exact .bind fun _ => .bind fun _ => .bind fun _ => clears_invalidate
  case remove =>
    refine .bind fun l => ?_
    cases l with
    | none => exact .bind fun _ => .bind fun _ => clears_invalidate
    | some l => exact .bind fun _ => .bind fun _ => clears_invalidate
  case invalid => exact clears_invalidate
  all_goals exact .bind fun _ => clears_invalidate

theorem clears_delaylistInsert : Clears (recoverAndRollForwardOfDelaylistInsert cfg) := by
  refine .bind fun op => .bind fun oldLen => .bind fun t => ?_
  cases op
  case remove => exact .bind fun _ => .bind fun _ => clears_commit
  case invalid => exact clears_commit
  all_goals exact .bind fun _ => clears_commit

theorem clears_readylistInsert : Clears recoverAndRollForwardOfReadylistInsert := by
  refine .bind fun op => .bind fun oldLen => .bind fun t => ?_
  cases op
  case invalid => exact clears_commit
  all_goals exact .bind fun _ => clears_commit

/-- From a log that it is to tolerate, recovery reaches none of these places. -/
theorem Logged.recognized (h : Logged c) (ht : Tolerable c) : Recognized cfg c := by
  obtain ⟨⟨op, hmem, oldLen, hlt, hm⟩, hp⟩ := h
  unfold Tolerable at ht
  unfold Pointed at hp
  have hmicro := Lists.getMicroOp_eq hlt hm
  cases hop : c.op <;> simp only [hop] at hmem hp ht
  case invalid =>
    intro impossible
    have hrun : ∀ impossible : {α : Type} → Prog Kernel α, recoverListTransaction cfg impossible c =
        recoverAndRollForwardContextSwitch impossible c := by
      intro impossible
      simp only [recoverListTransaction, gets_bind_apply, hop]
    rw [hrun impossible, hrun fail]
    cases op
    case invalid => exact run_contextSwitch ⟨oldLen, hlt, hm⟩
    case readyListNext =>
      have hset : c.taskPtr ≠ none := hp.resolve_left fun hn => by cases hmicro.symm.trans hn.getMicroOp
      obtain ⟨t, htask⟩ := Option.ne_none_iff_exists'.mp hset
      obtain ⟨n, hcursor, hnext⟩ := ht hmicro t htask
      simp only [recoverAndRollForwardContextSwitch, run_getMicroOp hm hlt, run_getTask htask,
        gets_bind_apply, hcursor]
      split
      case isFalse => rfl
      case isTrue heq =>
        obtain ⟨x, hx⟩ := Option.ne_none_iff_exists'.mp (hnext heq)
        simp only [setStatus, store_bind_apply, onLists, zoom_bind_apply, nextItem, gets_bind_apply, hcursor,
          setCursor, hx, gets, Function.update_self]
    all_goals simp [microOps] at hmem
  case waitListPopRemoval =>
    obtain ⟨n, hptr⟩ := Option.ne_none_iff_exists'.mp ht
    refine recognized_of_transaction (m := fun impossible => recoverAndRollForwardOfWaitlistPopRemove cfg impossible)
      (fun impossible => ?_) clears_waitlistPopRemove fun impossible => ?_
    · simp only [recoverListTransaction, gets_bind_apply, hop]
    · simp only [recoverAndRollForwardOfWaitlistPopRemove, run_getMicroOp hm hlt, run_getOldLen hm hlt,
        run_getBlockNode hptr]
      cases op
      case popFront => rfl
      case remove => rfl
      case insertBeforeCursor => rfl
      case invalid => rfl
      all_goals simp [microOps] at hmem
  case waitListInsert =>
    obtain ⟨w, hptr⟩ := Option.ne_none_iff_exists'.mp hp
    refine recognized_of_transaction (m := fun impossible => recoverAndRollForwardOfWaitlistInsert cfg impossible)
      (fun impossible => ?_) clears_waitlistInsert fun impossible => ?_
    · simp only [recoverListTransaction, gets_bind_apply, hop]
    · simp only [recoverAndRollForwardOfWaitlistInsert, run_getMicroOp hm hlt, run_getOldLen hm hlt,
        run_getWaitList hptr]
      cases op
      case remove => rfl
      case insertSortedWaitList => rfl
      case insertSortedDelayList => rfl
      case invalid => rfl
      all_goals simp [microOps] at hmem
  case waitListRemoval =>
    obtain ⟨n, hptr⟩ := Option.ne_none_iff_exists'.mp hp
    refine recognized_of_transaction (m := fun impossible =>
      recoverAndRollForwardOfUnsortedWaitlistRemove cfg impossible)
      (fun impossible => ?_) clears_unsortedWaitlistRemove fun impossible => ?_
    · simp only [recoverListTransaction, gets_bind_apply, hop]
    · simp only [recoverAndRollForwardOfUnsortedWaitlistRemove, run_getMicroOp hm hlt, run_getOldLen hm hlt,
        run_getBlockNode hptr]
      cases op
      case remove => rfl
      case insertBeforeCursor => rfl
      case invalid => rfl
      all_goals simp [microOps] at hmem
  case unsortedWaitListInsert =>
    obtain ⟨w, hptr⟩ := Option.ne_none_iff_exists'.mp hp.1
    refine recognized_of_transaction (m := fun impossible =>
      recoverAndRollForwardOfUnsortedWaitlistInsert cfg impossible)
      (fun impossible => ?_) clears_unsortedWaitlistInsert fun impossible => ?_
    · simp only [recoverListTransaction, gets_bind_apply, hop]
    · simp only [recoverAndRollForwardOfUnsortedWaitlistInsert, run_getMicroOp hm hlt, run_getOldLen hm hlt,
        run_getWaitList hptr]
      cases op
      case remove => rfl
      case insertFront => rfl
      case insertSortedDelayList => rfl
      case insertSortedWaitList => exact absurd hmicro ht
      case invalid => rfl
      all_goals simp [microOps] at hmem
  case delayListRemoval =>
    obtain ⟨n, hptr, hlist⟩ := ht
    refine recognized_of_transaction (m := fun impossible => recoverAndRollForwardOfDelaylistRemoval cfg impossible)
      (fun impossible => ?_) clears_delaylistRemoval fun impossible => ?_
    · simp only [recoverListTransaction, gets_bind_apply, hop]
    · simp only [recoverAndRollForwardOfDelaylistRemoval, run_getMicroOp hm hlt, run_getOldLen hm hlt,
        run_getBlockNode hptr]
      cases op
      case popFront => rfl
      case remove =>
        obtain ⟨l, hl⟩ := Option.ne_none_iff_exists'.mp (hlist hmicro)
        simp only [gets_bind_apply, hl]
      case insertBeforeCursor => rfl
      case invalid => rfl
      all_goals simp [microOps] at hmem
  case delayListInsert =>
    refine recognized_of_transaction (m := fun impossible => recoverAndRollForwardOfDelaylistInsert cfg impossible)
      (fun impossible => ?_) clears_delaylistInsert fun impossible => ?_
    · simp only [recoverListTransaction, gets_bind_apply, hop]
    · simp only [recoverAndRollForwardOfDelaylistInsert, run_getMicroOp hm hlt, run_getOldLen hm hlt]
      cases op
      case remove => rfl
      case insertSortedDelayList => rfl
      case invalid => rfl
      all_goals simp [microOps] at hmem
  case readyListInsert =>
    obtain ⟨t, hptr⟩ := Option.ne_none_iff_exists'.mp hp
    refine recognized_of_transaction (m := fun impossible => recoverAndRollForwardOfReadylistInsert impossible)
      (fun impossible => ?_) clears_readylistInsert fun impossible => ?_
    · simp only [recoverListTransaction, gets_bind_apply, hop]
    · simp only [recoverAndRollForwardOfReadylistInsert, run_getMicroOp hm hlt, run_getOldLen hm hlt,
        run_getTask hptr]
      cases op
      case insertBeforeCursor => rfl
      case invalid => rfl
      all_goals simp [microOps] at hmem
  all_goals simp [microOps] at hmem

/-- A program that still stores before it stops. -/
def stir : Prog Kernel α := store id >>= fun _ => fail

theorem stir_bind_apply (f : α → Prog Kernel β) : (stir >>= f) k = ⟨[k], none⟩ := rfl

/-- A log that recovery is not to tolerate leads it to one of these places. -/
theorem Logged.tolerable (h : Logged c) (hr : Recognized cfg c) : Tolerable c := by
  obtain ⟨⟨op, hmem, oldLen, hlt, hm⟩, hp⟩ := h
  have hmicro := Lists.getMicroOp_eq hlt hm
  have hsame := hr stir
  unfold Tolerable
  unfold Pointed at hp
  rw [recoverListTransaction, recoverListTransaction, gets_bind_apply, gets_bind_apply] at hsame
  cases hop : c.op <;> simp only [hop] at hp hsame ⊢
  case waitListPopRemoval =>
    intro hnone
    simp [recoverAndRollForwardOfWaitlistPopRemove, assoc, run_getMicroOp hm hlt, run_getOldLen hm hlt, getBlockNode,
      hnone, stir_bind_apply] at hsame
  case delayListRemoval =>
    cases hptr : c.blockNodePtr with
    | none =>
        simp [recoverAndRollForwardOfDelaylistRemoval, assoc, run_getMicroOp hm hlt, run_getOldLen hm hlt,
          getBlockNode, hptr, stir_bind_apply] at hsame
    | some n =>
        refine ⟨n, rfl, fun hremove hnone => ?_⟩
        cases hmicro.symm.trans hremove
        simp [recoverAndRollForwardOfDelaylistRemoval, assoc, run_getMicroOp hm hlt, run_getOldLen hm hlt,
          run_getBlockNode hptr, hnone, stir_bind_apply] at hsame
  case unsortedWaitListInsert =>
    intro hinsert
    cases hmicro.symm.trans hinsert
    obtain ⟨w, hptr⟩ := Option.ne_none_iff_exists'.mp hp.1
    obtain ⟨t, hcur⟩ := Option.ne_none_iff_exists'.mp hp.2
    simp [recoverAndRollForwardOfUnsortedWaitlistInsert, assoc, run_getMicroOp hm hlt, run_getOldLen hm hlt,
      run_getWaitList hptr, run_getCurrent hcur, stir_bind_apply] at hsame
  case invalid =>
    intro hnext t htask
    cases hmicro.symm.trans hnext
    simp only [recoverAndRollForwardContextSwitch, run_getMicroOp hm hlt, run_getTask htask,
        gets_bind_apply] at hsame
    cases hcursor : c.lists.cursor (.ready (c.priority t)) with
    | none => simp [hcursor, stir_bind_apply] at hsame
    | some n =>
        refine ⟨n, rfl, fun hn hnone => ?_⟩
        simp [hcursor, hn, setStatus, onLists, zoom_bind_apply, nextItem, setCursor, hnone, gets,
          stir_bind_apply] at hsame

/-- In every run with power failures, also during recovery, recovery recognizes the logs that it is to tolerate, and
no others. -/
theorem recovery_recognizes_iff (h : Runs cfg .down c) : Recognized cfg c ↔ Tolerable c :=
  ⟨Logged.tolerable h.log, Logged.recognized h.log⟩

/-! ## Two failures -/

/-- The lengths of the lists, before and after the first task gets ready. -/
def readyLens (n m : Nat) : List (ListRef → Nat) :=
  List.replicate n (fun _ => 0) ++ List.replicate m (Function.update (fun _ => 0) (.ready 0) 1)

theorem fitsLog_of_lens {p : Prog Kernel Unit} (n m : Nat)
    (h : (crashes p k).map (fun c => c.lists.len) = readyLens n m) : ∀ c ∈ crashes p k, FitsLog c := by
  intro c hc l
  have hmem : c.lists.len ∈ readyLens n m := h ▸ List.mem_map_of_mem hc
  rcases List.mem_append.mp hmem with hlen | hlen
  · rw [List.eq_of_mem_replicate hlen]
    exact Nat.two_pow_pos _
  · rw [List.eq_of_mem_replicate hlen, Function.update_apply]
    split
    · exact Nat.one_lt_two_pow (by decide)
    · exact Nat.two_pow_pos _

theorem fitsLog_createTask : ∀ c ∈ crashes ((Op.createTask 0).prog qemuDebug) (new qemuDebug), FitsLog c :=
  fitsLog_of_lens 23 4 rfl

def oneTask : Kernel := (Op.createTask 0).exec qemuDebug (new qemuDebug)

theorem runs_oneTask : Runs qemuDebug .up oneTask := .completed .boot fitsLog_createTask rfl

/-- Power fails while the first task is created. -/
theorem recovery_recognizes_iff_createTask :
    ∃ c, Runs qemuDebug .down c ∧ c.op = .readyListInsert ∧ Recognized qemuDebug c := by
  have hmem : (crashes ((Op.createTask 0).prog qemuDebug) (new qemuDebug))[20]? = some _ := rfl
  have hdown := Runs.failed .boot fitsLog_createTask (List.mem_of_getElem? hmem)
  exact ⟨_, hdown, rfl, (recovery_recognizes_iff hdown).mpr trivial⟩

/-- Power fails while the task gives a semaphore that no task waits for: recovery unwraps a pointer that is `None`. -/
theorem empty_wakeup_not_recognized : ∃ c, Runs qemuDebug .down c ∧ c.op = .waitListPopRemoval ∧
    c.blockNodePtr = none ∧ ((recoverListTransaction qemuDebug) c).out = none ∧ ¬ Recognized qemuDebug c := by
  have hfits : ∀ c ∈ crashes ((Op.wake 0).prog qemuDebug) oneTask, FitsLog c := fitsLog_of_lens 0 6 rfl
  have hmem : (crashes ((Op.wake 0).prog qemuDebug) oneTask)[2]? = some _ := rfl
  refine ⟨_, Runs.failed runs_oneTask hfits (List.mem_of_getElem? hmem), rfl, rfl, rfl, fun h => ?_⟩
  have hlen : 1 = 0 := congrArg (fun r : Run Kernel Unit => r.trace.length) (h stir)
  cases hlen

end Kernel

end IntOS
