import IntOS.Sched.Lemmas.CrashBlock

/-!
# `next_unblock_time` and power failures

A task that goes to sleep enters the delayed list first and lowers `next_unblock_time` after that. Recovery of an
interrupted insertion into the delayed list does the former only.
-/

namespace IntOS

open Persist Persist.Prog IntOS.Lists

namespace Kernel

variable {cfg : Config} {k c r : Kernel} {t w : Nat} {p q p' q' : Option NodeRef} {Q : Unit → Kernel → Prop} {E : Prop}
  {s : Lists NodeRef ListRef}

/-! ## The transactions -/

/-- The list transactions that block the current task. -/
inductive BlockTx
  | waitlist (w : Nat)
  | unsorted (w : Nat)
  | delay

def BlockTx.prog (cfg : Config) (t : Nat) : BlockTx → Prog Kernel Unit
  | waitlist w => rollForwardInsertIntoWaitlist cfg w t
  | unsorted w => rollForwardInsertIntoUnsortedWaitlist cfg w t
  | delay => rollForwardInsertIntoDelaylist cfg

/-- No task of the delayed list is due before `process_tick` looks at the list. -/
def Timely (k : Kernel) : Prop :=
  ∀ x, InList k x .delayed → k.nextUnblockTime ≤ k.wakeupTime x.task

/-- Power fails between the insertion into the delayed list and the store that lowers `next_unblock_time`, or where
the assertion of a sorted insertion does not hold. -/
def Oversleeping (cfg : Config) (t : Nat) (c : Kernel) : Prop :=
  c.lists.getMicroOp = some .insertSortedDelayList ∧ (c.wakeupTime t < c.nextUnblockTime ∨
      cfg.debugAssertions = true ∧ MarkedOnly c.lists .delayed (.sched t)) ∨
    c.lists.getMicroOp = some .insertSortedWaitList ∧ cfg.debugAssertions = true ∧
      ∃ w, c.waitListPtr = some w ∧ MarkedOnly c.lists (.waiting w) (.event t)

/-! ## Their parts -/

namespace BlockTx

def op : BlockTx → ListTxOpCode
  | waitlist _ => .waitListInsert
  | unsorted _ => .unsortedWaitListInsert
  | delay => .delayListInsert

/-- The wait list that the log names. -/
def ptr (k : Kernel) : BlockTx → Option Nat
  | waitlist w => some w
  | unsorted w => some w
  | delay => k.waitListPtr

/-- The transaction is logged. -/
def logged (k : Kernel) (tx : BlockTx) : Kernel := { k with waitListPtr := tx.ptr k, op := tx.op }

/-- What puts the event node into the wait list. -/
def insert (cfg : Config) (t : Nat) : BlockTx → Prog Kernel Unit
  | waitlist w => insertWaiting cfg w t
  | unsorted w => onLists (optimizedInsertFront cfg.debugAssertions (.waiting w) (.event t))
  | delay => pure ()

def finish : BlockTx → Prog Kernel Unit
  | waitlist _ => invalidate
  | unsorted _ => invalidate
  | delay => commit

/-- The lists before the task enters the delayed list, with its event node between `p` and `q`. -/
def inserted (k : Kernel) (t : Nat) (p q : Option NodeRef) : BlockTx → Lists NodeRef ListRef
  | waitlist w => Lists.inserted
      (marked (Lists.logged (leftReady k t) .insertSortedWaitList (.waiting w)) (.waiting w) (.event t))
      (.waiting w) (.event t) p q
  | unsorted w => fronted (Lists.logged (leftReady k t) .insertFront (.waiting w)) (.waiting w) (.event t)
  | delay => leftReady k t

/-- Some stores of the insertion into the wait list are done. -/
def Inserting (k : Kernel) (t : Nat) (p q : Option NodeRef) (s : Lists NodeRef ListRef) : BlockTx → Prop
  | waitlist w =>
      Sorting (Lists.logged (leftReady k t) .insertSortedWaitList (.waiting w)) (.waiting w) (.event t) p q s
  | unsorted w => Fronting (Lists.logged (leftReady k t) .insertFront (.waiting w)) (.waiting w) (.event t) s
  | delay => False

/-- The place of the event node in a sorted wait list. -/
def WaitPlace (k : Kernel) (t : Nat) (p q : Option NodeRef) : BlockTx → Prop
  | waitlist w => Place (nodeBound k) (moreImportant k.priority t)
      (marked (Lists.logged (leftReady k t) .insertSortedWaitList (.waiting w)) (.waiting w) (.event t))
      (.waiting w) (.event t) p q
  | _ => True

/-- All moves are made. -/
def moved (k : Kernel) (t : Nat) (p q p' q' : Option NodeRef) (tx : BlockTx) : Kernel :=
  slept { tx.logged k with lists := tx.inserted k t p q } t p' q'

end BlockTx

/-- How far the transaction is. -/
inductive FallingAsleep (k : Kernel) (t : Nat) (tx : BlockTx) (p q p' q' : Option NodeRef) : Kernel → Prop
  | idle {v : Option Nat} : FallingAsleep k t tx p q p' q' { k with waitListPtr := v }
  | logged : FallingAsleep k t tx p q p' q' (tx.logged k)
  | leaving {s : Lists NodeRef ListRef} {status : Nat → TaskState} : LeavingReady k t s →
      status = k.status ∨ status = Function.update k.status t .blocked →
      FallingAsleep k t tx p q p' q' { tx.logged k with lists := s, status := status }
  | inserting {s : Lists NodeRef ListRef} {status : Nat → TaskState} : tx.Inserting k t p q s →
      status = k.status ∨ status = Function.update k.status t .blocked →
      FallingAsleep k t tx p q p' q' { tx.logged k with lists := s, status := status }
  | delaying {s : Lists NodeRef ListRef} {v : Nat} : Delaying (tx.inserted k t p q) t p' q' s →
      v = k.nextUnblockTime ∨ v = min (k.wakeupTime t) k.nextUnblockTime →
      FallingAsleep k t tx p q p' q' { tx.logged k with
        lists := s, status := Function.update k.status t .blocked, nextUnblockTime := v }
  | finishing {op : ListTxOpCode} {done : Nat → Bool} : op = tx.op ∨ op = .invalid →
      FallingAsleep k t tx p q p' q' { tx.moved k t p q p' q' with
        lists := { (tx.moved k t p q p' q').lists with microOpOldLen := 0 }, listTxDone := done, op := op }

/-! ## The stores of the transactions -/

section
variable {tx : BlockTx}

theorem leftReady_none (h : WellOrdered k.wakeupTime k.lists)
    (hn : k.lists.list (.sched t) = some (.ready (k.priority t))) (hevent : k.lists.list (.event t) = none) :
    (leftReady k t).list (.sched t) = none ∧ (leftReady k t).list (.event t) = none := by
  rw [(leftReady_wellOrdered h hn).2]
  refine ⟨Function.update_self _ _ _, ?_⟩
  rw [Function.update_of_ne (event_ne_sched _ _)]
  exact hevent

/-- The event node enters the wait list. -/
theorem wpc_insert (hnone : (leftReady k t).list (.event t) = none) (hwait : tx.WaitPlace k t p q) :
    wpc (tx.insert cfg t) (fun _ r => r = { tx.logged k with lists := tx.inserted k t p q }) E
      (FallingAsleep k t tx p q p' q') { tx.logged k with lists := leftReady k t } := by
  have hstart : FallingAsleep k t tx p q p' q' { tx.logged k with lists := leftReady k t } :=
    .leaving .finish (Or.inl rfl)
  cases tx with
  | waitlist w =>
      refine wpc_bind (wpc_gets hstart (wpc_bind (wpc_gets hstart (wpc_onLists ?_))))
      apply wpc_insertSorted hnone hwait hstart
      · exact fun s hs => .inserting hs (Or.inl rfl)
      · rfl
  | unsorted w =>
      apply wpc_onLists
      apply wpc_optimizedInsertFront hnone hstart
      · exact fun s hs => .inserting hs (Or.inl rfl)
      · rfl
  | delay => exact wpc_pure hstart rfl

theorem inserted_falling {status : Nat → TaskState} (hwait : tx.WaitPlace k t p q)
    (hstatus : status = k.status ∨ status = Function.update k.status t .blocked) :
    FallingAsleep k t tx p q p' q' { tx.logged k with lists := tx.inserted k t p q, status := status } := by
  cases tx with
  | waitlist w => exact .inserting (.linking (.finish hwait)) hstatus
  | unsorted w => exact .inserting (.linked (Or.inr rfl) (Or.inr rfl)) hstatus
  | delay => exact .leaving .finish hstatus

theorem inserted_sched (hnone : (leftReady k t).list (.sched t) = none) :
    (tx.inserted k t p q).list (.sched t) = none := by
  have hother : ∀ v, Function.update (leftReady k t).list (.event t) v (.sched t) = none := by
    intro v
    rw [Function.update_of_ne (sched_ne_event _ _)]
    exact hnone
  cases tx with
  | waitlist w => exact hother (some (.waiting w))
  | unsorted w => exact hother (some (.waiting w))
  | delay => exact hnone

/-- What the transactions have in common. -/
theorem wpc_block (cfg : Config) (h : Inv k) (hcur : k.current = some t)
    (hn : k.lists.list (.sched t) = some (.ready (k.priority t)))
    (hevent : k.lists.list (.event t) = none) (hwait : tx.WaitPlace k t p q)
    (hp : DelayPlace k t (tx.inserted k t p q) p' q') :
    wpc (do
      removeFromReadyList cfg t
      tx.insert cfg t
      addToDelayedList cfg t
      tx.finish) (fun _ _ => True) E (FallingAsleep k t tx p q p' q') (tx.logged k) := by
  obtain ⟨hsched, hnone⟩ := leftReady_none h.linked hn hevent
  apply wpc_bind
  apply wpc_removeFromReadyList (k := tx.logged k) h.linked hn .logged
  · exact fun s hs => .leaving hs (Or.inl rfl)
  apply wpc_bind
  refine wpc_mono (wpc_insert hnone hwait) ?_ fun _ hc => hc
  rintro _ _ rfl
  apply wpc_bind
  apply wpc_addToDelayedList (k := { tx.logged k with lists := tx.inserted k t p q }) (inserted_sched hsched) hp
  · exact inserted_falling hwait (Or.inl rfl)
  · exact inserted_falling hwait (Or.inr rfl)
  · exact fun s v hs hv => .delaying hs hv
  have hdone : FallingAsleep k t tx p q p' q' (tx.moved k t p q p' q') :=
    .delaying (.linking (.finish hp)) (Or.inr rfl)
  have hcommit : wpc commit (fun _ _ => True) E (FallingAsleep k t tx p q p' q') (tx.moved k t p q p' q') := by
    apply wpc_commit (t := t)
    · exact hcur
    · exact hdone
    · rintro _ (_ | _)
      · exact .finishing (Or.inl rfl)
      · exact .finishing (Or.inr rfl)
    · trivial
  have hinvalidate : wpc invalidate (fun _ _ => True) E (FallingAsleep k t tx p q p' q') (tx.moved k t p q p' q') := by
    apply wpc_invalidate hdone
    · exact .finishing (Or.inl rfl)
    · exact .finishing (Or.inr rfl)
    · trivial
  cases tx with
  | waitlist w => exact hinvalidate
  | unsorted w => exact hinvalidate
  | delay => exact hcommit

theorem wpc_blockTx (h : Inv k) (hcur : k.current = some t)
    (hn : k.lists.list (.sched t) = some (.ready (k.priority t)))
    (hevent : k.lists.list (.event t) = none) (hwait : tx.WaitPlace k t p q)
    (hp : DelayPlace k t (tx.inserted k t p q) p' q') :
    wpc (tx.prog cfg t) (fun _ _ => True) True (FallingAsleep k t tx p q p' q') k := by
  have hidle : FallingAsleep k t tx p q p' q' k := .idle
  have hlogged : FallingAsleep k t tx p q p' q' (tx.logged k) := .logged
  have hblock := wpc_block cfg (E := True) h hcur hn hevent hwait hp
  cases tx with
  | waitlist w =>
      exact wpc_bind (wpc_store hidle .idle (wpc_bind (wpc_store .idle hlogged hblock)))
  | unsorted w =>
      exact wpc_bind (wpc_store hidle .idle (wpc_bind (wpc_store .idle hlogged hblock)))
  | delay =>
      refine wpc_bind (wpc_bypass_any hidle fun b => ?_)
      cases b with
      | true => exact wpc_pure hidle trivial
      | false =>
          refine wpc_bind (wpc_store hidle hlogged (wpc_bind ?_))
          apply wpc_getCurrent (t := t)
          · exact hcur
          · exact hlogged
          · exact hblock

/-! ## Keeping `next_unblock_time` right -/

/-- The lists are well linked, and the delayed list is looked at in time. -/
structure OnTime (k : Kernel) : Prop where
  linked : WellOrdered k.wakeupTime k.lists
  free : ∀ n, k.taskCnt ≤ n.task → k.lists.list n = none
  due : ∀ x, k.lists.list x = some .delayed → k.nextUnblockTime ≤ k.wakeupTime x.task

theorem OnTime.timely (h : OnTime k) : Timely k := fun x hx => h.due x (h.linked.inList_iff.mp hx)

theorem Inv.onTime (h : Inv k) : OnTime k := ⟨h.linked, h.free, h.timely⟩

/-- A ready list aside is not looked at. -/
theorem timely_listAside {l : ListRef} {v v' : Option NodeRef} (hl : ListRef.delayed ≠ l) (h : Timely k) :
    Timely (listAside l v v' k) := by
  intro x hx
  refine h x ?_
  have hhead : (listAside l v v' k).lists.head .delayed = k.lists.head .delayed := Function.update_of_ne hl _ _
  obtain ⟨y, hy, hr⟩ := hx
  exact ⟨y, hhead.symm.trans hy, hr⟩

theorem OnTime.finish (h : OnTime k) (hcur : k.current = some t) :
    Ends tx.finish (fun _ r => r.lists.microOpOldLen = 0 ∧ OnTime r) k := by
  have hr := h.linked.setMicroOpOldLen 0
  cases tx with
  | waitlist w => exact ends_invalidate.mpr ⟨rfl, hr, h.free, h.due⟩
  | unsorted w => exact ends_invalidate.mpr ⟨rfl, hr, h.free, h.due⟩
  | delay => exact (ends_commit hcur).mpr ⟨rfl, hr, h.free, h.due⟩

/-- A task that sleeps lowers `next_unblock_time`. -/
theorem OnTime.slept (h : OnTime k) (ht : t < k.taskCnt) (hn : k.lists.list (.sched t) = none)
    (hp : DelayPlace k t k.lists p q) : OnTime (slept k t p q) ∧
      (Kernel.slept k t p q).lists.list = Function.update k.lists.list (.sched t) (some .delayed) := by
  have hends : Ends (addToDelayedList ⟨false, 0, 0⟩ t) (fun _ r => OnTime r ∧
      r.lists.list = Function.update k.lists.list (.sched t) (some .delayed)) k := by
    apply ends_addToDelayedList h.linked h.free hn
    intro s hs hlist
    refine ⟨⟨hs, ?_, fun x hx => ?_⟩, hlist⟩
    · rw [hlist]
      exact free_update h.free ht
    · by_cases hxt : x = .sched t
      · rw [hxt]
        exact Nat.min_le_left _ _
      · rw [hlist, Function.update_of_ne hxt] at hx
        exact Nat.le_trans (Nat.min_le_right _ _) (h.due x hx)
  exact (ends_addToDelayedList_iff hn hp).mp hends

theorem OnTime.sleep (tx : BlockTx) (h : OnTime k) (ht : t < k.taskCnt) (hcur : k.current = some t)
    (hn : k.lists.list (.sched t) = none) :
    Ends (do
      addToDelayedList cfg t
      tx.finish) (fun _ r => r.lists.microOpOldLen = 0 ∧ OnTime r) k := by
  obtain ⟨p, q, hp⟩ := exists_delayPlace h.linked h.free hn
  rw [ends_bind, ends_addToDelayedList_iff hn hp]
  exact (h.slept ht hn hp).1.finish hcur

/-- What recovery does after the task has left its ready list. -/
def BlockTx.reinsert (cfg : Config) (t : Nat) : BlockTx → Prog Kernel Unit
  | waitlist w => insertWaiting cfg w t
  | unsorted w => insertWaiting cfg w t
  | delay => pure ()

theorem OnTime.reinsert (h : OnTime k) (ht : t < k.taskCnt) (hcur : k.current = some t)
    (hsched : k.lists.list (.sched t) = none) (hevent : k.lists.list (.event t) = none) :
    Ends (do
      tx.reinsert cfg t
      addToDelayedList cfg t
      tx.finish) (fun _ r => r.lists.microOpOldLen = 0 ∧ OnTime r) k := by
  have hwaiting : ∀ w, Ends (do
      insertWaiting cfg w t
      addToDelayedList cfg t
      tx.finish) (fun _ r => r.lists.microOpOldLen = 0 ∧ OnTime r) k := by
    intro w
    rw [ends_bind]
    apply ends_insertWaiting h.linked h.free hevent
    intro s hs hlist
    apply OnTime.sleep
    · refine ⟨hs, ?_, fun x hx => h.due x ?_⟩
      · rw [hlist]
        exact free_update h.free ht
      · by_cases hxt : x = .event t
        · rw [hlist, hxt, Function.update_self] at hx
          cases hx
        · rwa [hlist, Function.update_of_ne hxt] at hx
    · exact ht
    · exact hcur
    · dsimp only
      rw [hlist, Function.update_of_ne (sched_ne_event _ _)]
      exact hsched
  cases tx with
  | waitlist w => exact hwaiting w
  | unsorted w => exact hwaiting w
  | delay => exact h.sleep .delay ht hcur hsched

/-! ## Recovery -/

def BlockTx.recovery (cfg : Config) : BlockTx → Prog Kernel Unit
  | waitlist _ => recoverAndRollForwardOfWaitlistInsert cfg
  | unsorted _ => recoverAndRollForwardOfUnsortedWaitlistInsert cfg
  | delay => recoverAndRollForwardOfDelaylistInsert cfg

theorem ends_recover_iff (tx : BlockTx) (hop : c.op = tx.op) : Ends (recoverListTransaction cfg) Q c ↔
    Ends (tx.recovery cfg) (fun _ => Ends recoverAndRollForwardContextSwitch Q) c := by
  cases tx <;>
  · simp only [recoverListTransaction, ends_bind, ends_gets, hop, BlockTx.op]
    exact Iff.rfl

theorem recover_of_blockTx (tx : BlockTx) (hop : c.op = tx.op)
    (h : Ends (tx.recovery cfg) (fun _ r => r.lists.microOpOldLen = 0 ∧ Q () r) c) :
    Ends (recoverListTransaction cfg) Q c :=
  (ends_recover_iff tx hop).mpr (ends_then_contextSwitch h)

/-- What completes the transaction leaves the lists alone. -/
theorem ends_finish_timely_iff (hcur : k.current = some t) :
    Ends tx.finish (fun _ => Ends recoverAndRollForwardContextSwitch fun _ => Timely) k ↔ Timely k := by
  cases tx with
  | waitlist w =>
      refine ends_invalidate.trans ((ends_recoverContextSwitch ?_).trans ?_)
      · rfl
      · exact Iff.rfl
  | unsorted w =>
      refine ends_invalidate.trans ((ends_recoverContextSwitch ?_).trans ?_)
      · rfl
      · exact Iff.rfl
  | delay =>
      refine (ends_commit hcur).trans ((ends_recoverContextSwitch ?_).trans ?_)
      · rfl
      · exact Iff.rfl

section
variable {m : Nat} {op : ListOpCode}

theorem ends_waitHeader {f : ListOpCode → Nat → Nat → Nat → Prog Kernel Unit}
    (hm : c.lists.microOpOldLen = microOpOldLenOf op m) (hlt : m < 2 ^ opCodeShift) (hptr : c.waitListPtr = some w)
    (hcur : c.current = some t) :
    Ends (do
      let op ← getMicroOp
      let oldLen ← getOldLen
      let w ← getWaitList
      let t ← getCurrent
      f op oldLen w t) Q c ↔ Ends (f op m w t) Q c := by
  rw [ends_bind, ends_getMicroOp hm hlt, ends_bind, ends_getOldLen hm hlt, ends_bind, ends_getWaitList hptr,
    ends_bind, ends_getCurrent hcur]

theorem ends_delayHeader {f : ListOpCode → Nat → Nat → Prog Kernel Unit}
    (hm : c.lists.microOpOldLen = microOpOldLenOf op m) (hlt : m < 2 ^ opCodeShift) (hcur : c.current = some t) :
    Ends (do
      let op ← getMicroOp
      let oldLen ← getOldLen
      let t ← getCurrent
      f op oldLen t) Q c ↔ Ends (f op m t) Q c := by
  rw [ends_bind, ends_getMicroOp hm hlt, ends_bind, ends_getOldLen hm hlt, ends_bind, ends_getCurrent hcur]

theorem ends_recovery_remove (hm : c.lists.microOpOldLen = microOpOldLenOf .remove m) (hlt : m < 2 ^ opCodeShift)
    (hptr : c.waitListPtr = tx.ptr k) (hcur : c.current = some t) :
    Ends (tx.recovery cfg) Q c ↔ Ends (do
      recoverRemoveFromReadyList t m
      tx.reinsert cfg t
      addToDelayedList cfg t
      tx.finish) Q c := by
  cases tx with
  | waitlist w => exact ends_waitHeader hm hlt hptr hcur
  | unsorted w => exact ends_waitHeader hm hlt hptr hcur
  | delay => exact ends_delayHeader hm hlt hcur

theorem ends_recovery_delaying (hm : c.lists.microOpOldLen = microOpOldLenOf .insertSortedDelayList m)
    (hlt : m < 2 ^ opCodeShift) (hptr : c.waitListPtr = tx.ptr k) (hcur : c.current = some t) :
    Ends (tx.recovery cfg) Q c ↔ Ends (do
      recoverInsertIntoDelayedList cfg t m
      tx.finish) Q c := by
  cases tx with
  | waitlist w => exact ends_waitHeader hm hlt hptr hcur
  | unsorted w => exact ends_waitHeader hm hlt hptr hcur
  | delay => exact ends_delayHeader hm hlt hcur

theorem ends_recovery_invalid (hm : c.lists.microOpOldLen = microOpOldLenOf .invalid 0)
    (hptr : c.waitListPtr = tx.ptr k) (hcur : c.current = some t) :
    Ends (tx.recovery cfg) Q c ↔ Ends tx.finish Q c := by
  have hlt : 0 < 2 ^ opCodeShift := by decide
  cases tx with
  | waitlist w => exact ends_waitHeader hm hlt hptr hcur
  | unsorted w => exact ends_waitHeader hm hlt hptr hcur
  | delay => exact ends_delayHeader hm hlt hcur

theorem ends_recovery_inserting (hm : c.lists.microOpOldLen = microOpOldLenOf .insertSortedWaitList m)
    (hlt : m < 2 ^ opCodeShift) (hptr : c.waitListPtr = some w) (hcur : c.current = some t) :
    Ends ((BlockTx.waitlist w).recovery cfg) Q c ↔ Ends (do
      let fuel ← gets nodeBound
      let priority ← gets (·.priority)
      onLists (recoverFromFailedInsertSorted cfg.debugAssertions fuel (moreImportant priority t) (.waiting w)
        (.event t) m)
      addToDelayedList cfg t
      invalidate) Q c := ends_waitHeader hm hlt hptr hcur

theorem ends_recovery_fronting (hm : c.lists.microOpOldLen = microOpOldLenOf .insertFront m)
    (hlt : m < 2 ^ opCodeShift) (hptr : c.waitListPtr = some w) (hcur : c.current = some t) :
    Ends ((BlockTx.unsorted w).recovery cfg) Q c ↔ Ends (do
      onLists (recoverFromFailedInsertFront (.waiting w) (.event t) m)
      addToDelayedList cfg t
      invalidate) Q c := ends_waitHeader hm hlt hptr hcur

end

theorem commutes_reinsert {prio : Nat} {v v' : Option NodeRef} :
    Commutes (listAside (.ready prio) v v') (tx.reinsert cfg t) := by
  have hwaiting : ∀ w, Commutes (listAside (.ready prio) v v') (insertWaiting cfg w t) := by
    intro w
    have hne : ListRef.waiting w ≠ .ready prio := nofun
    exact commutes_insertWaiting hne t
  cases tx with
  | waitlist w => exact hwaiting w
  | unsorted w => exact hwaiting w
  | delay => exact commutes_pure ()

theorem commutes_finish {l : ListRef} {v v' : Option NodeRef} : Commutes (listAside l v v') tx.finish := by
  cases tx with
  | waitlist w => exact commutes_invalidate
  | unsorted w => exact commutes_invalidate
  | delay => exact commutes_commit

/-- The lists with the event node in the wait list. -/
theorem inserted_onTime (tx : BlockTx) {status : Nat → TaskState} (h : Inv k) (ht : t < k.taskCnt)
    (hn : k.lists.list (.sched t) = some (.ready (k.priority t))) (hevent : k.lists.list (.event t) = none)
    (hwait : tx.WaitPlace k t p q) :
    OnTime { tx.logged k with lists := tx.inserted k t p q, status := status } := by
  obtain ⟨hleft, hlist⟩ := leftReady_wellOrdered h.linked hn
  obtain ⟨hsched, hnone⟩ := leftReady_none h.linked hn hevent
  have hfree : ∀ n, k.taskCnt ≤ n.task → (leftReady k t).list n = none := by
    rw [hlist]
    exact free_update h.free ht
  have hdue : ∀ x, (leftReady k t).list x = some .delayed → k.nextUnblockTime ≤ k.wakeupTime x.task := by
    intro x hx
    by_cases hxt : x = .sched t
    · rw [hlist, hxt, Function.update_self] at hx
      cases hx
    · rw [hlist, Function.update_of_ne hxt] at hx
      exact h.timely x hx
  have hwpc : wpc (tx.insert ⟨false, 0, 0⟩ t) (fun _ r => r = { tx.logged k with lists := tx.inserted k t p q }) True
    (FallingAsleep k t tx p q none none) { tx.logged k with lists := leftReady k t } := wpc_insert hnone hwait
  have hwaiting : ∀ {w : Nat} {s : Lists NodeRef ListRef}, WellOrdered k.wakeupTime s →
      s.list = Function.update (leftReady k t).list (.event t) (some (.waiting w)) →
      OnTime { tx.logged k with lists := s, status := status } := by
    intro w s hs hlist'
    refine ⟨hs, ?_, fun x hx => hdue x ?_⟩
    · rw [hlist']
      exact free_update hfree ht
    · by_cases hxt : x = .event t
      · rw [hlist', hxt, Function.update_self] at hx
        cases hx
      · rwa [hlist', Function.update_of_ne hxt] at hx
  cases tx with
  | waitlist w =>
      have hends : Ends (insertWaiting ⟨false, 0, 0⟩ w t) (fun _ r => WellOrdered k.wakeupTime r.lists ∧
          r.lists.list = Function.update (leftReady k t).list (.event t) (some (.waiting w)))
          { (BlockTx.waitlist w).logged k with lists := leftReady k t } :=
        ends_insertWaiting hleft hfree hnone fun s hs hlist' => ⟨hs, hlist'⟩
      obtain ⟨hs, hlist'⟩ := hends.of_wpc hwpc
      exact hwaiting hs hlist'
  | unsorted w =>
      have hends : Ends (onLists (optimizedInsertFront false (.waiting w) (.event t))) (fun _ r =>
          WellOrdered k.wakeupTime r.lists ∧
          r.lists.list = Function.update (leftReady k t).list (.event t) (some (.waiting w)))
          { (BlockTx.unsorted w).logged k with lists := leftReady k t } :=
        ends_insertFrontWaiting ⟨false, 0, 0⟩ hleft hfree hnone fun s hs hlist' => ⟨hs, hlist'⟩
      obtain ⟨hs, hlist'⟩ := hends.of_wpc hwpc
      exact hwaiting hs hlist'
  | delay => exact ⟨hleft, hfree, hdue⟩

/-- The task is in the delayed list, and `next_unblock_time` is as given. -/
theorem timely_delayed_iff {v : Nat} {status : Nat → TaskState} (h : OnTime k) (ht : t < k.taskCnt)
    (hn : k.lists.list (.sched t) = none) (hp : DelayPlace k t k.lists p q) (hv : v ≤ k.nextUnblockTime) :
    Timely { k with lists := delayedLists k.lists t p q, status := status, nextUnblockTime := v } ↔
      v ≤ k.wakeupTime t := by
  obtain ⟨hslept, hlist⟩ := h.slept ht hn hp
  have hin : ∀ x, InList { k with lists := delayedLists k.lists t p q, status := status, nextUnblockTime := v } x
      .delayed ↔ (slept k t p q).lists.list x = some .delayed := fun x =>
      hslept.linked.inList_iff (n := x) (l := .delayed)
  constructor
  · intro htimely
    refine htimely (.sched t) ((hin _).mpr ?_)
    rw [hlist, Function.update_self]
  · intro hle x hx
    have hx' := (hin x).mp hx
    by_cases hxt : x = .sched t
    · rw [hxt]
      exact hle
    · rw [hlist, Function.update_of_ne hxt] at hx'
      exact Nat.le_trans hv (h.due x hx')

section
variable {cfg : Target}

/-- The task leaves its ready list. -/
theorem recover_leaving_timely (h : Inv k) (hcnt : k.taskCnt ≤ cfg.taskNumLimit) (hcur : k.current = some t)
    (hn : k.lists.list (.sched t) = some (.ready (k.priority t))) (hevent : k.lists.list (.event t) = none)
    {status : Nat → TaskState} (hs : LeavingReady k t s) :
    Ends (recoverListTransaction cfg.toConfig) (fun _ => Timely)
      { tx.logged k with lists := s, status := status } := by
  have hlt : k.lists.len (.ready (k.priority t)) < 2 ^ opCodeShift := len_lt h.linked h.free hcnt
  have ht := h.current t hcur
  obtain ⟨hsched, hnone⟩ := leftReady_none h.linked hn hevent
  have hleft : OnTime { BlockTx.logged k .delay with lists := leftReady k t, status := status } :=
    inserted_onTime .delay (p := none) (q := none) h ht hn hevent trivial
  have hdelayed : ListRef.delayed ≠ .ready (k.priority t) := nofun
  have hrest : Ends (do
      tx.reinsert cfg.toConfig t
      addToDelayedList cfg.toConfig t
      tx.finish) (fun _ r => r.lists.microOpOldLen = 0 ∧ OnTime r)
      { tx.logged k with lists := leftReady k t, status := status } :=
    OnTime.reinsert ⟨hleft.linked, hleft.free, hleft.due⟩ ht hcur hsched hnone
  apply recover_of_blockTx tx rfl
  refine (ends_recovery_remove (k := k) (t := t) hs.log hlt ?_ ?_).mpr ?_
  · rfl
  · exact hcur
  rw [ends_bind]
  apply ends_recoverRemoveFromReadyList (k := tx.logged k) h.linked hn hs
  · exact fun _ => hrest.mono fun _ _ hr => ⟨hr.1, hr.2.timely⟩
  · intro v _ _ _
    have hcomm : Commutes (listAside (.ready (k.priority t)) v (some (.sched t))) (do
        tx.reinsert cfg.toConfig t
        addToDelayedList cfg.toConfig t
        tx.finish) :=
      commutes_reinsert.bind fun _ => (commutes_addToDelayedList hdelayed t).bind fun _ => commutes_finish
    refine (hcomm.ends (s := { tx.logged k with lists := leftReady k t, status := status })).mpr ?_
    exact hrest.mono fun _ _ hr => ⟨hr.1, timely_listAside hdelayed hr.2.timely⟩

/-- Where the log names no micro-operation, recovery leaves the lists alone. -/
theorem recover_invalid_timely (tx : BlockTx) (hc : OnTime c) (hop : c.op = tx.op)
    (hm : c.lists.microOpOldLen = microOpOldLenOf .invalid 0) (hptr : c.waitListPtr = tx.ptr k)
    (hcur : c.current = some t) : Ends (recoverListTransaction cfg.toConfig) (fun _ => Timely) c := by
  apply recover_of_blockTx tx hop
  apply (ends_recovery_invalid hm hptr hcur).mpr
  exact (hc.finish hcur).mono fun _ _ hr => ⟨hr.1, hr.2.timely⟩

/-- The task enters a sorted wait list. -/
theorem recover_inserting_timely_iff {status : Nat → TaskState} (h : Inv k) (hcnt : k.taskCnt ≤ cfg.taskNumLimit)
    (hcur : k.current = some t) (hn : k.lists.list (.sched t) = some (.ready (k.priority t)))
    (hevent : k.lists.list (.event t) = none) (hwait : (BlockTx.waitlist w).WaitPlace k t p q)
    (hs : (BlockTx.waitlist w).Inserting k t p q s) :
    Ends (recoverListTransaction cfg.toConfig) (fun _ => Timely)
        { (BlockTx.waitlist w).logged k with lists := s, status := status } ↔
      ¬ (cfg.debugAssertions = true ∧ MarkedOnly s (.waiting w) (.event t)) := by
  have ht := h.current t hcur
  obtain ⟨hsched, hnone⟩ := leftReady_none h.linked hn hevent
  obtain ⟨hleft, hlist⟩ := leftReady_wellOrdered h.linked hn
  have hfree : ∀ n, k.taskCnt ≤ n.task → (leftReady k t).list n = none := by
    rw [hlist]
    exact free_update h.free ht
  have hlt : (leftReady k t).len (.waiting w) < 2 ^ opCodeShift := len_lt hleft hfree hcnt
  have hm : s.microOpOldLen = microOpOldLenOf .insertSortedWaitList ((leftReady k t).len (.waiting w)) := hs.log
  have hready : OnTime { (BlockTx.waitlist w).logged k with
    lists := (BlockTx.waitlist w).inserted k t p q, status := status } := inserted_onTime _ h ht hn hevent hwait
  by_cases hmarked : cfg.debugAssertions = true ∧ MarkedOnly s (.waiting w) (.event t)
  · refine iff_of_false (fun hrec => ?_) (not_not_intro hmarked)
    obtain ⟨hdebug, honly⟩ := hmarked
    rw [Sorting.markedOnly_iff hs hnone hwait] at honly
    subst honly
    rw [ends_recover_iff (.waitlist w)] at hrec
    · rw [ends_recovery_inserting (w := w) (t := t) hm hlt] at hrec
      · simp only [onLists, ends_bind, ends_gets, ends_zoom, hdebug] at hrec
        exact not_recover_marked hwait hrec
      · rfl
      · exact hcur
    · rfl
  · refine iff_of_true ?_ hmarked
    apply recover_of_blockTx (.waitlist w) rfl
    refine (ends_recovery_inserting (w := w) (t := t) hm hlt ?_ ?_).mpr ?_
    · rfl
    · exact hcur
    have hrec : Ends (recoverFromFailedInsertSorted cfg.debugAssertions (nodeBound k) (moreImportant k.priority t)
        (.waiting w) (.event t) ((leftReady k t).len (.waiting w)))
        (fun _ r => r = (BlockTx.waitlist w).inserted k t p q) s := hs.recover hnone hwait hmarked
    have hnode : ((BlockTx.waitlist w).inserted k t p q).list (.sched t) = none := inserted_sched hsched
    rw [ends_bind, ends_gets, ends_bind, ends_gets, ends_bind]
    refine (ends_onLists_iff hrec).mpr ?_
    exact (hready.sleep (.waitlist w) ht hcur hnode).mono fun _ _ hr => ⟨hr.1, hr.2.timely⟩

/-- The task enters the wait list of an event group. -/
theorem recover_fronting_timely {status : Nat → TaskState} (h : Inv k) (hcnt : k.taskCnt ≤ cfg.taskNumLimit)
    (hcur : k.current = some t) (hn : k.lists.list (.sched t) = some (.ready (k.priority t)))
    (hevent : k.lists.list (.event t) = none) (hs : (BlockTx.unsorted w).Inserting k t p q s) :
    Ends (recoverListTransaction cfg.toConfig) (fun _ => Timely)
      { (BlockTx.unsorted w).logged k with lists := s, status := status } := by
  have ht := h.current t hcur
  obtain ⟨hsched, hnone⟩ := leftReady_none h.linked hn hevent
  obtain ⟨hleft, hlist⟩ := leftReady_wellOrdered h.linked hn
  have hfree : ∀ n, k.taskCnt ≤ n.task → (leftReady k t).list n = none := by
    rw [hlist]
    exact free_update h.free ht
  have hlt : (leftReady k t).len (.waiting w) < 2 ^ opCodeShift := len_lt hleft hfree hcnt
  have hm : s.microOpOldLen = microOpOldLenOf .insertFront ((leftReady k t).len (.waiting w)) := by
    cases hs <;> rfl
  have hhead : (leftReady k t).head (.waiting w) ≠ some (.event t) := by
    intro he
    have hin := (hleft.popped (l := .waiting w) id he).1
    rw [hnone] at hin
    cases hin
  have hready : OnTime { (BlockTx.unsorted w).logged k with
    lists := (BlockTx.unsorted w).inserted k t p q, status := status } := inserted_onTime _ h ht hn hevent trivial
  apply recover_of_blockTx (.unsorted w) rfl
  refine (ends_recovery_fronting (w := w) (t := t) hm hlt ?_ ?_).mpr ?_
  · rfl
  · exact hcur
  have hrec : Ends (recoverFromFailedInsertFront (.waiting w) (.event t) ((leftReady k t).len (.waiting w)))
      (fun _ r => r = (BlockTx.unsorted w).inserted k t p q) s := hs.recover hhead
  have hnode : ((BlockTx.unsorted w).inserted k t p q).list (.sched t) = none := inserted_sched hsched
  rw [ends_bind, ends_onLists_iff hrec]
  exact (hready.sleep (.unsorted w) ht hcur hnode).mono fun _ _ hr => ⟨hr.1, hr.2.timely⟩

/-- The task enters the delayed list. Recovery does not look at `next_unblock_time`. -/
theorem recover_delaying_timely_iff {v : Nat} (h : Inv k) (hcnt : k.taskCnt ≤ cfg.taskNumLimit)
    (hcur : k.current = some t) (hn : k.lists.list (.sched t) = some (.ready (k.priority t)))
    (hevent : k.lists.list (.event t) = none) (hwait : tx.WaitPlace k t p q)
    (hp : DelayPlace k t (tx.inserted k t p q) p' q') (hs : Delaying (tx.inserted k t p q) t p' q' s)
    (hv : v ≤ k.nextUnblockTime) :
    Ends (recoverListTransaction cfg.toConfig) (fun _ => Timely) { tx.logged k with
        lists := s, status := Function.update k.status t .blocked, nextUnblockTime := v } ↔
      ¬ (k.wakeupTime t < v ∨ cfg.debugAssertions = true ∧ MarkedOnly s .delayed (.sched t)) := by
  have ht := h.current t hcur
  have hready : OnTime { tx.logged k with lists := tx.inserted k t p q, status := k.status } :=
    inserted_onTime _ h ht hn hevent hwait
  have hnode : (tx.inserted k t p q).list (.sched t) = none := inserted_sched (leftReady_none h.linked hn hevent).1
  have hlt : (tx.inserted k t p q).len .delayed < 2 ^ opCodeShift := len_lt hready.linked hready.free hcnt
  rw [ends_recover_iff tx]
  · rw [ends_recovery_delaying (k := k) (t := t) hs.log hlt]
    · rw [ends_bind]
      by_cases hmarked : cfg.debugAssertions = true ∧ MarkedOnly s .delayed (.sched t)
      · refine iff_of_false ?_ (not_not_intro (Or.inr hmarked))
        exact not_ends_recoverInsertIntoDelayedList (k := tx.logged k) hnode hp hs hmarked.1 hmarked.2
      · refine (ends_recoverInsertIntoDelayedList (k := tx.logged k) hnode hp hs hmarked).trans ?_
        refine (ends_finish_timely_iff (t := t) ?_).trans ?_
        · exact hcur
        · refine (timely_delayed_iff hready ht hnode hp hv).trans ?_
          rw [or_iff_left hmarked, Nat.not_lt]
          exact Iff.rfl
    · rfl
    · exact hcur
  · rfl

theorem not_oversleeping {cfg : Config} {op : ListOpCode} {m : Nat} (hm : c.lists.microOpOldLen = microOpOldLenOf op m)
    (hlt : m < 2 ^ opCodeShift) (hdelayed : op ≠ .insertSortedDelayList) (hwaiting : op ≠ .insertSortedWaitList) :
    ¬ Oversleeping cfg t c := by
  unfold Oversleeping
  rw [Lists.getMicroOp_eq hlt hm]
  rintro (⟨hop, _⟩ | ⟨hop, _⟩)
  · exact hdelayed (Option.some.inj hop)
  · exact hwaiting (Option.some.inj hop)

/-- Power fails somewhere in a transaction. -/
theorem fallingAsleep_timely_iff (h : Inv k) (hcnt : k.taskCnt ≤ cfg.taskNumLimit) (hcur : k.current = some t)
    (hn : k.lists.list (.sched t) = some (.ready (k.priority t))) (hevent : k.lists.list (.event t) = none)
    (hwait : tx.WaitPlace k t p q) (hp : DelayPlace k t (tx.inserted k t p q) p' q')
    (hc : FallingAsleep k t tx p q p' q' c) :
    Ends (recoverListTransaction cfg.toConfig) (fun _ => Timely) c ↔ ¬ Oversleeping cfg.toConfig t c := by
  have ht := h.current t hcur
  have hzero : 0 < 2 ^ opCodeShift := by decide
  have hready : OnTime { tx.logged k with lists := tx.inserted k t p q, status := k.status } :=
    inserted_onTime _ h ht hn hevent hwait
  have hnode : (tx.inserted k t p q).list (.sched t) = none := inserted_sched (leftReady_none h.linked hn hevent).1
  have hidle : k.lists.microOpOldLen = microOpOldLenOf .invalid 0 := h.microOp
  cases hc with
  | idle =>
      refine iff_of_true ((ends_recover_idle ?_ ?_).mpr ?_) (not_oversleeping hidle hzero nofun nofun)
      · exact h.op
      · exact h.microOp
      · exact h.onTime.timely
  | logged =>
      refine iff_of_true (recover_invalid_timely tx (k := k) (t := t) ?_ ?_ ?_ ?_ ?_)
        (not_oversleeping hidle hzero nofun nofun)
      · exact ⟨h.linked, h.free, h.timely⟩
      · rfl
      · exact hidle
      · rfl
      · exact hcur
  | leaving hs =>
      have hlt : k.lists.len (.ready (k.priority t)) < 2 ^ opCodeShift := len_lt h.linked h.free hcnt
      exact iff_of_true (recover_leaving_timely h hcnt hcur hn hevent hs) (not_oversleeping hs.log hlt nofun nofun)
  | @inserting s status hs =>
      obtain ⟨hleft, hlist⟩ := leftReady_wellOrdered h.linked hn
      have hfree : ∀ n, k.taskCnt ≤ n.task → (leftReady k t).list n = none := by
        rw [hlist]
        exact free_update h.free ht
      have hlt : ∀ w, (leftReady k t).len (.waiting w) < 2 ^ opCodeShift := fun w => len_lt hleft hfree hcnt
      cases tx with
      | waitlist w =>
          have hm : s.microOpOldLen = microOpOldLenOf .insertSortedWaitList ((leftReady k t).len (.waiting w)) := hs.log
          refine (recover_inserting_timely_iff h hcnt hcur hn hevent hwait hs).trans (not_congr ?_)
          unfold Oversleeping
          rw [Lists.getMicroOp_eq (hlt w) hm]
          constructor
          · rintro ⟨hdebug, hmarked⟩
            exact Or.inr ⟨rfl, hdebug, w, rfl, hmarked⟩
          · rintro (⟨hop, _⟩ | ⟨_, hdebug, v, hv, hmarked⟩)
            · cases hop
            · cases hv
              exact ⟨hdebug, hmarked⟩
      | unsorted w =>
          have hm : s.microOpOldLen = microOpOldLenOf .insertFront ((leftReady k t).len (.waiting w)) := by
            cases hs <;> rfl
          exact iff_of_true (recover_fronting_timely (p := p) (q := q) h hcnt hcur hn hevent hs)
            (not_oversleeping hm (hlt w) nofun nofun)
      | delay => exact hs.elim
  | @delaying s v hs hv =>
      have hlt : (tx.inserted k t p q).len .delayed < 2 ^ opCodeShift := len_lt hready.linked hready.free hcnt
      have hle : v ≤ k.nextUnblockTime := by
        rcases hv with rfl | rfl
        · exact Nat.le_refl _
        · exact Nat.min_le_right _ _
      refine (recover_delaying_timely_iff h hcnt hcur hn hevent hwait hp hs hle).trans (not_congr ?_)
      unfold Oversleeping
      rw [Lists.getMicroOp_eq hlt hs.log]
      constructor
      · exact fun hlate => Or.inl ⟨rfl, hlate⟩
      · rintro (⟨_, hlate⟩ | ⟨hop, _⟩)
        · exact hlate
        · cases hop
  | @finishing op done hop =>
      obtain ⟨hslept, _⟩ := hready.slept ht hnode hp
      have hdone : OnTime { tx.moved k t p q p' q' with
          lists := { (tx.moved k t p q p' q').lists with microOpOldLen := 0 }, listTxDone := done, op := op } :=
        ⟨hslept.linked.setMicroOpOldLen 0, hslept.free, hslept.due⟩
      refine iff_of_true ?_ (not_oversleeping (rfl : _ = microOpOldLenOf .invalid 0) hzero nofun nofun)
      rcases hop with rfl | rfl
      · refine recover_invalid_timely tx (k := k) (t := t) hdone ?_ ?_ ?_ ?_
        · rfl
        · rfl
        · rfl
        · exact hcur
      · refine (ends_recover_idle ?_ ?_).mpr hdone.timely
        · rfl
        · rfl

theorem exists_waitPlace (tx : BlockTx) (h : Inv k) (ht : t < k.taskCnt)
    (hn : k.lists.list (.sched t) = some (.ready (k.priority t))) (hevent : k.lists.list (.event t) = none) :
    ∃ p q, tx.WaitPlace k t p q := by
  obtain ⟨hleft, hlist⟩ := leftReady_wellOrdered h.linked hn
  have hfree : ∀ n, k.taskCnt ≤ n.task → (leftReady k t).list n = none := by
    rw [hlist]
    exact free_update h.free ht
  cases tx with
  | waitlist w =>
      have hlinear : ¬ ListRef.IsReady (.waiting w) := id
      have hlog : WellOrdered k.wakeupTime (Lists.logged (leftReady k t) .insertSortedWaitList (.waiting w)) :=
        hleft.setMicroOpOldLen _
      exact hlog.place hlinear (leftReady_none h.linked hn hevent).2 (moreImportant k.priority t) fun _ =>
        length_le hfree
  | unsorted w => exact ⟨none, none, trivial⟩
  | delay => exact ⟨none, none, trivial⟩

/-- No task oversleeps after a failure in a transaction that blocks the current task, but for the window between the
insertion into the delayed list and the store to `next_unblock_time`. -/
theorem timely_after_recovery_iff (h : Inv k) (hcnt : k.taskCnt ≤ cfg.taskNumLimit) (hcur : k.current = some t)
    (hb : k.status t ≠ .blocked) (hc : c ∈ crashes (tx.prog cfg.toConfig t) k) :
    Ends (recoverListTransaction cfg.toConfig) (fun _ => Timely) c ↔ ¬ Oversleeping cfg.toConfig t c := by
  have ht := h.current t hcur
  obtain ⟨hn, hevent⟩ := h.unblocked ht hb
  obtain ⟨p, q, hwait⟩ := exists_waitPlace tx h ht hn hevent
  have hready : OnTime { tx.logged k with lists := tx.inserted k t p q, status := k.status } :=
    inserted_onTime _ h ht hn hevent hwait
  have hnode : (tx.inserted k t p q).list (.sched t) = none := inserted_sched (leftReady_none h.linked hn hevent).1
  obtain ⟨p', q', hp⟩ := exists_delayPlace hready.linked hready.free hnode
  exact fallingAsleep_timely_iff h hcnt hcur hn hevent hwait hp ((wpc_blockTx h hcur hn hevent hwait hp).crash hc)

end

end

/-! ## A run -/

/-- Two tasks, the first of them runs. -/
def twoTasks : Kernel :=
  Op.startKernel.exec qemuDebug ((Op.createTask 1).exec qemuDebug ((Op.createTask 0).exec qemuDebug (new qemuDebug)))

theorem reachable_twoTasks : Reachable qemuDebug twoTasks := by
  have hinit : Reachable qemuDebug (new qemuDebug) := .init
  exact ((hinit.exec (.createTask 0) trivial rfl).exec (.createTask 1) trivial rfl).exec .startKernel trivial rfl

/-- Power fails when the first task has left its ready list: recovery puts it to sleep in time. -/
theorem timely_after_recovery_iff_twoTasks :
    ∃ c ∈ crashes ((BlockTx.waitlist 0).prog qemuTarget.toConfig 0) twoTasks, c.lists.list (.sched 0) = none ∧
      Ends (recoverListTransaction qemuTarget.toConfig) (fun _ => Timely) c := by
  have hcnt : twoTasks.taskCnt ≤ qemuTarget.taskNumLimit := by decide
  have hiff : ∀ c ∈ crashes ((BlockTx.waitlist 0).prog qemuTarget.toConfig 0) twoTasks, _ := fun _ hc =>
    timely_after_recovery_iff reachable_twoTasks.inv hcnt rfl nofun hc
  refine ⟨_, List.mem_of_getElem? (i := 7) rfl, rfl, (hiff _ (List.mem_of_getElem? (i := 7) rfl)).mpr ?_⟩
  rintro (⟨hmicro, _⟩ | ⟨hmicro, _⟩)
  · cases hmicro
  · cases hmicro

/-- `next_unblock_time`, the head of the delayed list and its wakeup time, after a failure at store `i` and recovery. -/
def sleepAfterFailure (i : Nat) : Option (Nat × Option NodeRef × Nat) := do
  let c ← ((Op.taskDelay 5).prog qemuDebug twoTasks).trace[i]?
  let (_, r) ← ((recoverListTransaction qemuDebug) c).out
  pure (r.nextUnblockTime, r.lists.head .delayed, r.wakeupTime 0)

/-- The task is to wake up at tick 5, and the delayed list is not looked at before the last tick. -/
theorem oversleeps :
    Reachable qemuDebug twoTasks ∧ (Op.taskDelay 5).Enabled twoTasks ∧
    ∃ c, ((Op.taskDelay 5).prog qemuDebug twoTasks).trace[13]? = some c ∧
      ¬ Ends (recoverListTransaction qemuDebug) (fun _ => Timely) c := by
  have hrun : sleepAfterFailure 13 = some (4294967295, some (.sched 0), 5) := by decide +kernel
  unfold sleepAfterFailure at hrun
  obtain ⟨c, hc, hrec⟩ := Option.bind_eq_some_iff.mp hrun
  refine ⟨reachable_twoTasks, fun t ht => ?_, c, hc, fun h => ?_⟩
  · cases ht
    exact nofun
  · obtain ⟨_, r, hout, hr⟩ := h.returns
    rw [hout] at hrec
    obtain ⟨hnext, hrest⟩ := Prod.mk.inj (Option.some.inj hrec)
    obtain ⟨hhead, hwake⟩ := Prod.mk.inj hrest
    have hle := hr (.sched 0) ⟨_, hhead, .refl⟩
    rw [hnext, show NodeRef.task (.sched 0) = 0 from rfl, hwake] at hle
    omega

end Kernel

end IntOS
