import IntOS.List.Lemmas.Log
import IntOS.Sched.Recover
import IntOS.Sched.Runs

/-!
# What the list transactions log

The operation code, the micro-operation and the pointers of the log in every state that a power failure leaves,
whatever the lists look like.
-/

namespace IntOS

open Persist Persist.Prog IntOS.Lists

namespace Kernel

variable {α β : Type} {cfg : Config} {k c : Kernel} {t w : Nat} {ops : ListOpCode → Prop} {x : ListTxOpCode}

/-- The length of every list fits the log. -/
def FitsLog (k : Kernel) : Prop := k.lists.Fits

/-- The log names the micro-operation `op`. -/
def Names (k : Kernel) (op : ListOpCode) : Prop :=
  ∃ oldLen, oldLen < 2 ^ opCodeShift ∧ k.lists.microOpOldLen = microOpOldLenOf op oldLen

theorem Names.getMicroOp {op : ListOpCode} (h : Names k op) : k.lists.getMicroOp = some op := by
  obtain ⟨_, hlt, hm⟩ := h
  exact Lists.getMicroOp_eq hlt hm

/-- The micro-operations of a transaction and of its recovery. No operation code at all stands for a context
switch. -/
def microOps : ListTxOpCode → List ListOpCode
  | .invalid => [.invalid, .readyListNext]
  | .waitListPopRemoval => [.invalid, .popFront, .remove, .insertBeforeCursor]
  | .waitListInsert => [.invalid, .remove, .insertSortedWaitList, .insertSortedDelayList]
  | .waitListRemoval => [.invalid, .remove, .insertBeforeCursor]
  | .unsortedWaitListInsert => [.invalid, .remove, .insertFront, .insertSortedWaitList, .insertSortedDelayList]
  | .delayListRemoval => [.invalid, .popFront, .remove, .insertBeforeCursor]
  | .delayListInsert => [.invalid, .remove, .insertSortedDelayList]
  | .readyListInsert => [.invalid, .insertBeforeCursor]
  | _ => []

/-- The pointers that the transactions set first, and the task that an unsorted insertion is for. -/
def Pointed (k : Kernel) : Prop :=
  match k.op with
  | .invalid => Names k .invalid ∨ k.taskPtr ≠ none
  | .waitListInsert => k.waitListPtr ≠ none
  | .unsortedWaitListInsert => k.waitListPtr ≠ none ∧ k.current ≠ none
  | .waitListRemoval => k.blockNodePtr ≠ none
  | .readyListInsert => k.taskPtr ≠ none
  | _ => True

/-- What the log says at every power failure. -/
structure Logged (k : Kernel) : Prop where
  micro : ∃ op ∈ microOps k.op, Names k op
  pointed : Pointed k

/-- No list transaction runs. -/
structure Idle (k : Kernel) : Prop where
  op : k.op = .invalid
  micro : Names k .invalid

theorem Idle.logged (h : Idle k) : Logged k := by
  refine ⟨⟨.invalid, ?_, h.micro⟩, ?_⟩
  · rw [h.op]
    exact List.mem_cons_self
  · unfold Pointed
    rw [h.op]
    exact Or.inl h.micro

theorem names_invalid (h : k.lists.microOpOldLen = 0) : Names k .invalid := ⟨0, by decide, h⟩

/-! ## Parts of transactions -/

/-- Nothing of the log changes but the micro-operation. -/
structure LogStep (ops : ListOpCode → Prop) (k c : Kernel) : Prop where
  op : c.op = k.op
  blockNodePtr : c.blockNodePtr = k.blockNodePtr
  taskPtr : c.taskPtr = k.taskPtr
  waitListPtr : c.waitListPtr = k.waitListPtr
  current : k.current ≠ none → c.current ≠ none
  lists : Logs ops k.lists c.lists

theorem LogStep.refl (k : Kernel) : LogStep ops k k := ⟨rfl, rfl, rfl, rfl, id, .refl _⟩

theorem LogStep.trans {k' : Kernel} (h : LogStep ops k k') (h' : LogStep ops k' c) : LogStep ops k c :=
  ⟨h'.op.trans h.op, h'.blockNodePtr.trans h.blockNodePtr, h'.taskPtr.trans h.taskPtr,
    h'.waitListPtr.trans h.waitListPtr, fun hcur => h'.current (h.current hcur), h.lists.trans h'.lists⟩

theorem LogStep.names {op : ListOpCode} (h : LogStep ops k c) (hk : Names k op) :
    Names c op ∨ ∃ op, ops op ∧ Names c op := by
  rcases h.lists with hsame | ⟨op, oldLen, hop, hlt, hm⟩
  · obtain ⟨oldLen, hlt, hm⟩ := hk
    exact Or.inl ⟨oldLen, hlt, hsame.trans hm⟩
  · exact Or.inr ⟨op, hop, oldLen, hlt, hm⟩

/-- A transaction keeps its pointers. -/
theorem Logged.step (h : Logged k) (hs : LogStep (· ∈ microOps k.op) k c) (hp : k.op = .invalid → k.taskPtr ≠ none) :
    Logged c := by
  obtain ⟨⟨op, hop, hn⟩, hpointed⟩ := h
  constructor
  · rw [hs.op]
    rcases hs.names hn with hn | hn
    · exact ⟨op, hop, hn⟩
    · exact hn
  · unfold Pointed at hpointed ⊢
    rw [hs.op, hs.blockNodePtr, hs.taskPtr, hs.waitListPtr]
    cases hk : k.op <;> rw [hk] at hpointed
    case invalid => exact Or.inr (hp hk)
    case unsortedWaitListInsert => exact hpointed.imp_right hs.current
    all_goals exact hpointed

/-- The program logs these micro-operations only. -/
def LogsOnly (ops : ListOpCode → Prop) (m : Prog Kernel α) : Prop := Evolves FitsLog (LogStep ops) m

theorem logsOnly_pure (a : α) : LogsOnly ops (pure a) := evolves_pure .refl a

theorem logsOnly_gets (g : Kernel → α) : LogsOnly ops (gets g) := evolves_gets .refl g

theorem logsOnly_fail : LogsOnly ops (fail : Prog Kernel α) := evolves_fail .refl

theorem LogsOnly.bind {m : Prog Kernel α} {f : α → Prog Kernel β} (hm : LogsOnly ops m)
    (hf : ∀ a, LogsOnly ops (f a)) : LogsOnly ops (m >>= f) := Evolves.bind hm hf .trans

/-- A store outside the log. -/
theorem logsOnly_store {g : Kernel → Kernel} (h : ∀ k, LogStep ops k (g k)) : LogsOnly ops (store g) :=
  evolves_store .refl fun k _ => h k

theorem logsOnly_onLists {m : Prog (Lists NodeRef ListRef) α} (hm : Logging ops m) : LogsOnly ops (onLists m) := by
  intro k
  apply wpcOn_zoom rfl
  refine wpcOn_mono (hm k.lists) ?_ ?_
  · exact fun _ _ hs => ⟨rfl, rfl, rfl, rfl, id, hs⟩
  · exact fun _ hs => ⟨rfl, rfl, rfl, rfl, id, hs⟩

theorem logsOnly_setStatus (v : TaskState) : LogsOnly ops (setStatus t v) :=
  logsOnly_store fun _ => ⟨rfl, rfl, rfl, rfl, id, .refl _⟩

theorem logsOnly_setCurrent : LogsOnly ops (setCurrent t) :=
  logsOnly_store fun _ => ⟨rfl, rfl, rfl, rfl, fun _ => nofun, .refl _⟩

theorem logsOnly_getCurrent : LogsOnly ops getCurrent := by
  refine (logsOnly_gets _).bind fun t => ?_
  cases t with
  | none => exact logsOnly_fail
  | some t => exact logsOnly_pure t

theorem logsOnly_getMicroOp : LogsOnly ops getMicroOp := by
  refine (logsOnly_gets _).bind fun op => ?_
  cases op with
  | none => exact logsOnly_fail
  | some op => exact logsOnly_pure op

theorem logsOnly_getBlockNode : LogsOnly ops getBlockNode := by
  refine (logsOnly_gets _).bind fun n => ?_
  cases n with
  | none => exact logsOnly_fail
  | some n => exact logsOnly_pure n

theorem logsOnly_getWaitList : LogsOnly ops getWaitList := by
  refine (logsOnly_gets _).bind fun w => ?_
  cases w with
  | none => exact logsOnly_fail
  | some w => exact logsOnly_pure w

theorem logsOnly_getTask : LogsOnly ops getTask := by
  refine (logsOnly_gets _).bind fun t => ?_
  cases t with
  | none => exact logsOnly_fail
  | some t => exact logsOnly_pure t

theorem logsOnly_insertDelayed (hop : ops .insertSortedDelayList) : LogsOnly ops (insertDelayed cfg t) :=
  (logsOnly_gets _).bind fun _ => (logsOnly_gets _).bind fun _ => logsOnly_onLists (logging_insertSorted _ _ _ hop)

theorem logsOnly_insertWaiting (hop : ops .insertSortedWaitList) : LogsOnly ops (insertWaiting cfg w t) :=
  (logsOnly_gets _).bind fun _ => (logsOnly_gets _).bind fun _ => logsOnly_onLists (logging_insertSorted _ _ _ hop)

theorem logsOnly_addToDelayedList (hop : ops .insertSortedDelayList) : LogsOnly ops (addToDelayedList cfg t) := by
  refine (logsOnly_setStatus _).bind fun _ => (logsOnly_insertDelayed hop).bind fun _ => ?_
  refine (logsOnly_gets _).bind fun unblockTime => (logsOnly_gets _).bind fun nextUnblockTime => ?_
  split
  · exact logsOnly_store fun _ => ⟨rfl, rfl, rfl, rfl, id, .refl _⟩
  · exact logsOnly_pure ()

theorem logsOnly_removeFromDelayedList (hop : ops .remove) : LogsOnly ops (removeFromDelayedList cfg t) :=
  logsOnly_onLists (logging_optimizedRemove _ hop)

theorem logsOnly_addToReadyList (hop : ops .insertBeforeCursor) : LogsOnly ops (addToReadyList t) :=
  (logsOnly_gets _).bind fun _ => (logsOnly_onLists (logging_optimizedInsertBeforeCursor hop)).bind fun _ =>
    logsOnly_setStatus _

theorem logsOnly_removeFromReadyList (hop : ops .remove) : LogsOnly ops (removeFromReadyList cfg t) :=
  (logsOnly_gets _).bind fun _ => logsOnly_onLists (logging_optimizedRemove _ hop)

theorem logsOnly_removeFromOwnWaitlist (hop : ops .remove) : LogsOnly ops (removeFromOwnWaitlist cfg t) := by
  refine (logsOnly_gets _).bind fun l => ?_
  cases l with
  | none => exact logsOnly_pure ()
  | some l => exact logsOnly_onLists (logging_optimizedRemove _ hop)

theorem logsOnly_recoverPopFront (n : NodeRef) (oldLen : Nat) (hop : ops .popFront) :
    LogsOnly ops (recoverPopFront n oldLen) := by
  refine (logsOnly_gets _).bind fun l => ?_
  cases l with
  | none => exact logsOnly_pure ()
  | some l => exact logsOnly_onLists (logging_recoverFromFailedPopFront oldLen hop)

theorem logsOnly_recoverRemoveFromReadyList (oldLen : Nat) : LogsOnly ops (recoverRemoveFromReadyList t oldLen) :=
  (logsOnly_gets _).bind fun _ => logsOnly_onLists (logging_recoverFromFailedRemove oldLen)

theorem logsOnly_recoverInsertIntoReadyList (oldLen : Nat) : LogsOnly ops (recoverInsertIntoReadyList t oldLen) :=
  (logsOnly_gets _).bind fun _ => (logsOnly_onLists (logging_recoverFromFailedInsertBeforeCursor oldLen)).bind
    fun _ => logsOnly_setStatus _

theorem logsOnly_recoverInsertIntoDelayedList (oldLen : Nat) :
    LogsOnly ops (recoverInsertIntoDelayedList cfg t oldLen) :=
  (logsOnly_gets _).bind fun _ => (logsOnly_gets _).bind fun _ =>
    (logsOnly_onLists (logging_recoverFromFailedInsertSorted _ _ _ oldLen)).bind fun _ => logsOnly_setStatus _

/-! ## The ends of transactions -/

/-- From its pointers on, a transaction `x` is logged until it is done. -/
def Finishes (x : ListTxOpCode) (m : Prog Kernel Unit) : Prop :=
  ∀ k, Logged k → k.op = x → (x = .invalid → k.taskPtr ≠ none) → wpcOn FitsLog m (fun _ => Idle) Logged k

theorem finishes_fail : Finishes x fail := fun _ hk _ _ => wpcOn_fail hk

theorem LogsOnly.finishes {m : Prog Kernel α} {f : α → Prog Kernel Unit} (hm : LogsOnly (· ∈ microOps x) m)
    (hf : ∀ a, Finishes x (f a)) : Finishes x (m >>= f) := by
  intro k hk hx hp
  subst hx
  have hstep : ∀ {c}, LogStep (· ∈ microOps k.op) k c → Logged c := fun hs => hk.step hs hp
  apply wpcOn_bind
  refine wpcOn_mono (hm k) ?_ fun _ hs => hstep hs
  intro a c hs
  refine hf a c (hstep hs) hs.op fun hop => ?_
  rw [hs.taskPtr]
  exact hp hop

theorem Logged.invalid_mem (h : Logged k) : .invalid ∈ microOps k.op := by
  obtain ⟨op, hop, _⟩ := h.micro
  cases hk : k.op <;> rw [hk] at hop
  case activeListRemove => cases hop
  case activeListRemoveReInsert => cases hop
  case activeListPopReInsert => cases hop
  case activeListPop => cases hop
  case activeListTxCommitted => cases hop
  case readyListNext => cases hop
  all_goals exact List.mem_cons_self

theorem wpcOn_setMicroOp {A C : Kernel → Prop} {Q : Unit → Kernel → Prop} {op : ListOpCode} {oldLen : Nat} (hC : C k)
    (h : C { k with lists := { k.lists with microOpOldLen := microOpOldLenOf op oldLen } } ∧
      Q () { k with lists := { k.lists with microOpOldLen := microOpOldLenOf op oldLen } }) :
    wpcOn A (setMicroOp op oldLen) Q C k := wpcOn_zoom rfl (wpcOn_store hC fun _ => h)

/-- The log is cleared, but for the operation code. -/
theorem Logged.clear (h : Logged k) (hp : k.op = .invalid → k.taskPtr ≠ none) :
    Logged { k with lists := { k.lists with microOpOldLen := microOpOldLenOf .invalid 0 } } := by
  have hlt : 0 < 2 ^ opCodeShift := by decide
  exact h.step ⟨rfl, rfl, rfl, rfl, id, Or.inr ⟨.invalid, 0, h.invalid_mem, hlt, rfl⟩⟩ hp

theorem wpcOn_setTxOp_invalid (h : Logged k) (hn : Names k .invalid) :
    wpcOn FitsLog (setTxOp .invalid) (fun _ => Idle) Logged k := by
  have hidle : Idle { k with op := .invalid } := ⟨rfl, hn⟩
  exact wpcOn_store h fun _ => ⟨hidle.logged, hidle⟩

theorem finishes_invalidate : Finishes x invalidate := by
  rintro k hk rfl hp
  apply wpcOn_bind
  apply wpcOn_setMicroOp hk
  exact ⟨hk.clear hp, wpcOn_setTxOp_invalid (hk.clear hp) (names_invalid rfl)⟩

theorem LogStep.cleared (hs : LogStep (fun _ => False) k c) (hk : Logged k) (hn : Names k .invalid)
    (hp : k.op = .invalid → k.taskPtr ≠ none) : Logged c ∧ Names c .invalid := by
  constructor
  · refine hk.step ⟨hs.op, hs.blockNodePtr, hs.taskPtr, hs.waitListPtr, hs.current, ?_⟩ hp
    rcases hs.lists with hsame | ⟨_, _, hno, _⟩
    · exact Or.inl hsame
    · exact hno.elim
  · rcases hs.names hn with hn | ⟨_, hno, _⟩
    · exact hn
    · exact hno.elim

theorem LogsOnly.thenInvalid {m : Prog Kernel α} (hm : LogsOnly (fun _ => False) m) (hk : Logged k)
    (hn : Names k .invalid) (hp : k.op = .invalid → k.taskPtr ≠ none) :
    wpcOn FitsLog (m >>= fun _ => setTxOp .invalid) (fun _ => Idle) Logged k := by
  apply wpcOn_bind
  refine wpcOn_mono (hm k) ?_ fun _ hs => (LogStep.cleared hs hk hn hp).1
  intro _ c hs
  obtain ⟨hc, hcn⟩ := LogStep.cleared hs hk hn hp
  exact wpcOn_setTxOp_invalid hc hcn

theorem finishes_commit : Finishes x commit := by
  have hmark : LogsOnly (fun _ => False) (getCurrent >>= fun t =>
      store fun k => { k with listTxDone := Function.update k.listTxDone t true }) :=
    logsOnly_getCurrent.bind fun _ => logsOnly_store fun _ => ⟨rfl, rfl, rfl, rfl, id, .refl _⟩
  rintro k hk rfl hp
  apply wpcOn_bind
  apply wpcOn_setMicroOp hk
  refine ⟨hk.clear hp, ?_⟩
  rw [← assoc]
  exact hmark.thenInvalid (hk.clear hp) (names_invalid rfl) hp

/-- A context switch has no operation code. -/
theorem finishes_switch : Finishes .invalid (setMicroOp .invalid 0) := by
  intro k hk hx hp
  have hidle : Idle { k with lists := { k.lists with microOpOldLen := microOpOldLenOf .invalid 0 } } :=
    ⟨hx, names_invalid rfl⟩
  exact wpcOn_setMicroOp hk ⟨hidle.logged, hidle⟩

end Kernel

end IntOS
