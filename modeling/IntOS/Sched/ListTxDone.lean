import IntOS.Sched.Lemmas.CrashBlock

/-!
# The bit `list_tx_done` and power failures

A task that starts its syscall again skips a list transaction whose bit is set. Recovery sets the bit of every
transaction that it finds in the log. It does not tell one that has not moved a node from one that is done.
-/

namespace IntOS

open Persist Persist.Prog IntOS.Lists

namespace Kernel

variable {cfg : Config} {k c f r : Kernel} {t u w : Nat} {p q : Option NodeRef} {Q : Unit → Kernel → Prop} {E : Prop}
  {s : Lists NodeRef ListRef}

/-! ## The transactions -/

/-- The list transactions that set the bit. -/
inductive DoneTx
  | popRemove (w : Nat)
  | delayInsert

def DoneTx.prog (cfg : Config) : DoneTx → Prog Kernel Unit
  | popRemove w => rollForwardPopRemoveFromWaitlist cfg w
  | delayInsert => rollForwardInsertIntoDelaylist cfg

/-- A task delays itself while it executes. -/
def DoneTx.Enabled (k : Kernel) : DoneTx → Prop
  | popRemove _ => True
  | delayInsert => Executing k

/-- After `k`, with the current task `t`, the bit is set if and only if the moves are made: the first waiter, if
there is one, is woken; the current task is delayed. -/
def DoneTx.MarkedRight (k : Kernel) (t : Nat) (r : Kernel) : DoneTx → Prop
  | popRemove w => ∀ u, k.lists.head (.waiting w) = some (.event u) →
      (r.listTxDone t = true ↔ (∀ l, ¬ InList r (.event u) l) ∧ ¬ InList r (.sched u) .delayed ∧
        InList r (.sched u) (.ready (k.priority u)))
  | delayInsert => r.listTxDone t = true ↔
      ¬ InList r (.sched t) (.ready (k.priority t)) ∧ InList r (.sched t) .delayed

/-- Power fails where recovery cannot tell how far the transaction is: it is logged and no node has moved; the
current task leaves a ring whose cursor stays at it; or the assertion of the sorted insertion does not hold. -/
def DoneTx.Hasty (cfg : Config) (k : Kernel) (t : Nat) (c : Kernel) : DoneTx → Prop
  | popRemove w => c.op = .waitListPopRemoval ∧ c.lists.getMicroOp = some .invalid ∧
      c.lists.head (.waiting w) = c.blockNodePtr
  | delayInsert => c.op = .delayListInsert ∧
      (c.lists.getMicroOp = some .invalid ∧ c.lists.list (.sched t) = some (.ready (k.priority t)) ∨
        c.lists.getMicroOp = some .remove ∧ c.lists.getOldLen = 1 ∧
          c.lists.cursor (.ready (k.priority t)) = some (.sched t) ∨
        cfg.debugAssertions = true ∧ c.lists.getMicroOp = some .insertSortedDelayList ∧
          MarkedOnly c.lists .delayed (.sched t))

theorem bypass_trace : (bypass cfg k).trace = [] := by
  unfold bypass getCurrent
  cases hcur : k.current with
  | none => simp [hcur, bind_apply, fail, gets]
  | some t =>
      rw [assoc, gets_bind_apply, hcur]
      dsimp only
      rw [pure_bind_apply, gets_bind_apply, gets_bind_apply, check_bind_apply]
      split
      · rfl
      · rfl

/-- A transaction that is done before makes no store. -/
theorem DoneTx.not_done {tx : DoneTx} (hcur : k.current = some t) (hc : c ∈ (tx.prog cfg k).trace) :
    k.listTxDone t = false := by
  have hby : After (bypass cfg) (fun b _ => b = k.listTxDone t) k := by
    rw [after_bypass]
    rintro u hu _
    rw [hcur] at hu
    cases hu
    rfl
  by_contra hdone
  rw [Bool.not_eq_false] at hdone
  cases tx <;>
  · rcases mem_trace_bind hc with hc | ⟨b, k', ho, hc⟩
    · rw [bypass_trace] at hc
      cases hc
    · have hb := hby.post ho
      rw [hdone] at hb
      subst hb
      cases hc

/-! ## Waking the first waiter -/

/-- The transaction is logged. -/
def popLogged (k : Kernel) (u : Nat) : Kernel := { k with blockNodePtr := some (.event u), op := .waitListPopRemoval }

/-- The waiter has left the wait list. -/
def popLeft (k : Kernel) (w u : Nat) : Kernel :=
  { popLogged k u with lists := popped (logged k.lists .popFront (.waiting w)) (.waiting w) (.event u) }

/-- All moves are made. -/
def popMoved (k : Kernel) (w u : Nat) : Kernel := woken (popLeft k w u) u

/-- How far the transaction is. -/
inductive PopRemoving (k : Kernel) (t w u : Nat) : Kernel → Prop
  | idle {p : Option NodeRef} : PopRemoving k t w u { k with blockNodePtr := p }
  | logged : PopRemoving k t w u (popLogged k u)
  | popping {s : Lists NodeRef ListRef} :
      Popping (Lists.logged k.lists .popFront (.waiting w)) (.waiting w) (.event u) s →
      s.list = k.lists.list → PopRemoving k t w u { popLogged k u with lists := s }
  | waking {c : Kernel} : Waking (popLeft k w u) u c → PopRemoving k t w u c
  | committing {c : Kernel} : Committing (popMoved k w u) t c → PopRemoving k t w u c

theorem popLeft_wellOrdered (h : Inv k) (hhead : k.lists.head (.waiting w) = some (.event u)) :
    WellOrdered k.wakeupTime (popLeft k w u).lists := (h.linked.popped id hhead).2.2.2.2

/-- The head of the wait list is a waiter. -/
theorem Inv.first (h : Inv k) (hhead : k.lists.head (.waiting w) = some (.event u)) :
    u < k.taskCnt ∧ k.lists.list (.event u) = some (.waiting w) ∧ k.lists.list (.sched u) = some .delayed := by
  have hn := (h.linked.popped id hhead).1
  obtain ⟨ht, _, hsched⟩ := h.waiting hn
  exact ⟨ht, hn, hsched⟩

theorem popLeft_delayed (h : Inv k) (hhead : k.lists.head (.waiting w) = some (.event u)) :
    (popLeft k w u).lists.list (.sched u) = some .delayed := by
  have hlist : (popLeft k w u).lists.list = Function.update k.lists.list (.event u) none := rfl
  rw [hlist, Function.update_of_ne (sched_ne_event _ _)]
  exact (h.first hhead).2.2

theorem wpc_rollForwardPopRemoveFromWaitlist (h : Inv k) (hcur : k.current = some t) (hdone : k.listTxDone t = false)
    (hhead : k.lists.head (.waiting w) = some (.event u)) :
    wpc (rollForwardPopRemoveFromWaitlist cfg w) (fun _ r => r = committed (popMoved k w u) t) E
      (PopRemoving k t w u) k := by
  obtain ⟨_, hcursor, hlen, _, _⟩ := h.linked.popped (l := .waiting w) id hhead
  have hleft := popLeft_wellOrdered h hhead
  have hdelayed := popLeft_delayed h hhead
  unfold rollForwardPopRemoveFromWaitlist
  refine wpc_bind (wpc_bypass hcur hdone .idle ?_)
  refine wpc_bind (wpc_gets .idle (wpc_bind (wpc_store .idle .idle ?_)))
  rw [hhead]
  refine wpc_bind (wpc_store .idle .logged (wpc_bind (wpc_onLists ?_)))
  apply wpc_optimizedPopFront (s := k.lists) hhead hcursor hlen .logged
  · intro s hs
    rcases hs.list with hlist | rfl
    · exact .popping hs hlist
    · exact .waking .start
  apply wpc_makeReady (k := popLeft k w u) hleft hdelayed
  · exact fun _ => .waking
  · apply wpc_commit (k := popMoved k w u)
    · exact hcur
    · exact .waking (waking_woken hleft hdelayed)
    · exact fun _ => .committing
    · rfl

/-- The transaction wakes the waiter. -/
theorem popMoved_woke (h : Inv k) (hcur : k.current = some t) (hdone : k.listTxDone t = false)
    (hhead : k.lists.head (.waiting w) = some (.event u)) :
    Inv (committed (popMoved k w u) t) ∧ Woke k u (committed (popMoved k w u) t) := by
  have hw : wpc (rollForwardPopRemoveFromWaitlist qemuDebug w) (fun _ r => r = committed (popMoved k w u) t) True
    (PopRemoving k t w u) k := wpc_rollForwardPopRemoveFromWaitlist h hcur hdone hhead
  obtain ⟨hinv, _, hmoves⟩ := (h.popRemoveFromWaitlist w hcur hdone).of_wpc hw
  refine ⟨hinv, ?_⟩
  rcases hmoves with ⟨hnone, _⟩ | ⟨v, hv, _, _, hwoke⟩
  · cases hhead.symm.trans hnone
  · cases hhead.symm.trans hv
    exact hwoke

/-! ## Recovery -/

theorem recover_of_popRemove (hop : c.op = .waitListPopRemoval)
    (h : Ends (recoverAndRollForwardOfWaitlistPopRemove cfg) (fun _ r => r.lists.microOpOldLen = 0 ∧ Q () r) c) :
    Ends (recoverListTransaction cfg) Q c := by
  simp only [recoverListTransaction, ends_bind, ends_gets, hop]
  exact ends_then_contextSwitch h

/-- Where the log names no micro-operation, the transaction counts as done. -/
theorem recover_pop_invalid (hop : c.op = .waitListPopRemoval) (hptr : c.blockNodePtr = some (.event u))
    (hm : c.lists.microOpOldLen = microOpOldLenOf .invalid 0) (hcur : c.current = some t) :
    Ends (recoverListTransaction cfg) (fun _ r => r = committed c t) c := by
  apply recover_of_popRemove hop
  unfold recoverAndRollForwardOfWaitlistPopRemove
  rw [ends_bind, ends_getMicroOp hm (by decide), ends_bind, ends_getOldLen hm (by decide), ends_bind,
    ends_getBlockNode hptr]
  dsimp only
  refine (ends_commit (t := t) ?_).mpr ?_
  · exact hcur
  · exact ⟨rfl, rfl⟩

/-- The list had no first node. -/
theorem not_recover_pop_none (hop : c.op = .waitListPopRemoval) (hptr : c.blockNodePtr = none)
    (hm : c.lists.microOpOldLen = microOpOldLenOf .invalid 0) : ¬ Ends (recoverListTransaction cfg) Q c := by
  simp only [recoverListTransaction, ends_bind, ends_gets, hop]
  unfold recoverAndRollForwardOfWaitlistPopRemove
  rw [ends_bind, ends_getMicroOp hm (by decide), ends_bind, ends_getOldLen hm (by decide), ends_bind]
  simp only [getBlockNode, ends_bind, ends_gets, hptr, ends_fail, not_false_eq_true]

section
variable {cfg : Target}

/-- The head of the wait list moves. -/
theorem recover_pop_popping (h : Inv k) (hcnt : k.taskCnt ≤ cfg.taskNumLimit) (hcur : k.current = some t)
    (hhead : k.lists.head (.waiting w) = some (.event u))
    (hs : Popping (Lists.logged k.lists .popFront (.waiting w)) (.waiting w) (.event u) s)
    (hlist : s.list = k.lists.list) :
    Ends (recoverListTransaction cfg.toConfig) (fun _ r => r = committed (popMoved k w u) t)
      { popLogged k u with lists := s } := by
  obtain ⟨hn, hcursor, hlen, hnext, _⟩ := h.linked.popped (l := .waiting w) id hhead
  have hlt : k.lists.len (.waiting w) < 2 ^ opCodeShift := len_lt h.linked h.free hcnt
  have hm : s.microOpOldLen = microOpOldLenOf .popFront (k.lists.len (.waiting w)) := by cases hs <;> rfl
  have hsome : s.list (.event u) ≠ none := by
    rw [hlist, hn]
    exact nofun
  apply recover_of_popRemove rfl
  unfold recoverAndRollForwardOfWaitlistPopRemove
  rw [ends_bind, ends_getMicroOp hm hlt, ends_bind, ends_getOldLen hm hlt, ends_bind, ends_getBlockNode rfl]
  dsimp only
  rw [ends_bind, recoverPopFront, ends_bind, ends_gets]
  dsimp only
  rw [hlist, hn]
  have hrec : Ends (recoverFromFailedPopFront (.waiting w) (.event u) (k.lists.len (.waiting w)))
      (fun _ r => r = (popLeft k w u).lists) s := hs.recover hhead hcursor hnext hlen rfl hsome
  rw [ends_onLists_iff hrec]
  apply (ends_makeReady_iff (k := popLeft k w u) (popLeft_wellOrdered h hhead) (popLeft_delayed h hhead)).mpr
  refine (ends_commit (t := t) ?_).mpr ?_
  · exact hcur
  · exact ⟨rfl, rfl⟩

/-- The waiter is out of the wait list. -/
theorem recover_pop_left (h : Inv k) (hcnt : k.taskCnt ≤ cfg.taskNumLimit) (hcur : k.current = some t)
    (hhead : k.lists.head (.waiting w) = some (.event u)) :
    Ends (recoverListTransaction cfg.toConfig) (fun _ r => r = committed (popMoved k w u) t) (popLeft k w u) := by
  have hlt : k.lists.len (.waiting w) < 2 ^ opCodeShift := len_lt h.linked h.free hcnt
  have hm : (popLeft k w u).lists.microOpOldLen = microOpOldLenOf .popFront (k.lists.len (.waiting w)) := rfl
  have hnone : (popLeft k w u).lists.list (.event u) = none := Function.update_self _ _ _
  apply recover_of_popRemove rfl
  unfold recoverAndRollForwardOfWaitlistPopRemove
  rw [ends_bind, ends_getMicroOp hm hlt, ends_bind, ends_getOldLen hm hlt, ends_bind, ends_getBlockNode rfl]
  dsimp only
  rw [ends_bind, recoverPopFront, ends_bind, ends_gets, hnone]
  apply (ends_makeReady_iff (popLeft_wellOrdered h hhead) (popLeft_delayed h hhead)).mpr
  refine (ends_commit (t := t) ?_).mpr ?_
  · exact hcur
  · exact ⟨rfl, rfl⟩

/-- The waiter leaves the delayed list. -/
theorem recover_pop_removing (h : Inv k) (hcnt : k.taskCnt ≤ cfg.taskNumLimit) (hcur : k.current = some t)
    (hhead : k.lists.head (.waiting w) = some (.event u))
    (hs : Removing (Lists.logged (popLeft k w u).lists .remove .delayed) .delayed (.sched u) s) :
    Ends (recoverListTransaction cfg.toConfig) (fun _ r => r = committed (popMoved k w u) t)
      { popLeft k w u with lists := s } := by
  have hleft := popLeft_wellOrdered h hhead
  have hlt : (popLeft k w u).lists.len .delayed < 2 ^ opCodeShift :=
    len_lt hleft (free_update h.free (h.first hhead).1) hcnt
  apply recover_of_popRemove rfl
  unfold recoverAndRollForwardOfWaitlistPopRemove
  rw [ends_bind, ends_getMicroOp hs.microOpOldLen hlt, ends_bind, ends_getOldLen hs.microOpOldLen hlt, ends_bind,
    ends_getBlockNode rfl]
  dsimp only
  rw [← assoc, ends_bind]
  apply (ends_recoverMakeReady hleft (popLeft_delayed h hhead) hs).mpr
  refine (ends_commit (t := t) ?_).mpr ?_
  · exact hcur
  · exact ⟨rfl, rfl⟩

/-- The waiter is on its way into its ready list. -/
theorem recover_pop_readying (h : Inv k) (hcnt : k.taskCnt ≤ cfg.taskNumLimit) (hcur : k.current = some t)
    (hhead : k.lists.head (.waiting w) = some (.event u)) {status : Nat → TaskState}
    (hs : Readying (Lists.logged (unlisted (popLeft k w u).lists .delayed (.sched u)) .insertBeforeCursor
      (.ready (k.priority u))) (.ready (k.priority u)) (.sched u) s)
    (hstatus : status = k.status ∨ status = Function.update k.status u .ready) :
    Ends (recoverListTransaction cfg.toConfig) (fun _ r => r = withList (committed (popMoved k w u) t) s.list)
      { popLeft k w u with lists := s, status := status } := by
  have hleft := popLeft_wellOrdered h hhead
  have ht := (h.first hhead).1
  have hu := unlisted_wellOrdered hleft id (popLeft_delayed h hhead)
  have hlt : (unlisted (popLeft k w u).lists .delayed (.sched u)).len (.ready (k.priority u)) < 2 ^ opCodeShift :=
    len_lt hu (free_update (free_update h.free ht) ht) hcnt
  have hnone : (unlisted (popLeft k w u).lists .delayed (.sched u)).list (.sched u) = none :=
    Function.update_self _ _ _
  apply recover_of_popRemove rfl
  unfold recoverAndRollForwardOfWaitlistPopRemove
  rw [ends_bind, ends_getMicroOp hs.log hlt, ends_bind, ends_getOldLen hs.log hlt, ends_bind, ends_getBlockNode rfl]
  dsimp only
  rw [ends_bind]
  apply (ends_recoverInsertIntoReadyList (k := { popLeft k w u with
    lists := unlisted (popLeft k w u).lists .delayed (.sched u) }) hu hnone hs hstatus).mpr
  refine (ends_commit (t := t) ?_).mpr ?_
  · exact hcur
  · exact ⟨rfl, rfl⟩

end

/-! ## What recovery leaves of the wake-up -/

/-- The links decide, not the fields `list`. -/
theorem markedRight_woke {list : NodeRef → Option ListRef} (hf : Inv f) (hw : Woke k u f)
    (hdone : f.listTxDone t = true) (hhead : k.lists.head (.waiting w) = some (.event u)) :
    DoneTx.MarkedRight k t (withList f list) (.popRemove w) := by
  have hin : ∀ n l, InList (withList f list) n l ↔ f.lists.list n = some l := fun n l => hf.inList_iff
  intro v hv
  cases hhead.symm.trans hv
  refine iff_of_true hdone ⟨fun l => ?_, ?_, ?_⟩
  · rw [hin, hw.event]
    exact nofun
  · rw [hin, hw.sched]
    exact nofun
  · rw [hin, hw.sched]

/-- No node has moved. -/
theorem markedRight_unmoved (hlists : r.lists.head = k.lists.head)
    (hhead : k.lists.head (.waiting w) = some (.event u)) :
    DoneTx.MarkedRight k t r (.popRemove w) ↔ r.listTxDone t ≠ true := by
  have hin : InList r (.event u) (.waiting w) := by
    refine ⟨.event u, ?_, .refl⟩
    have hentry : entry r (.waiting w) = r.lists.head (.waiting w) := rfl
    rw [hentry, hlists, hhead]
  constructor
  · intro h hdone
    exact ((h u hhead).mp hdone).1 _ hin
  · intro hdone v hv
    cases hhead.symm.trans hv
    exact iff_of_false hdone fun hmoved => hmoved.1 _ hin

theorem not_hasty_pop {op : ListOpCode} {m : Nat} (hm : c.lists.microOpOldLen = microOpOldLenOf op m)
    (hlt : m < 2 ^ opCodeShift) (hop : op ≠ .invalid) : ¬ DoneTx.Hasty cfg k t c (.popRemove w) := by
  rintro ⟨_, hmicro, _⟩
  rw [Lists.getMicroOp_eq hlt hm] at hmicro
  exact hop (Option.some.inj hmicro)

/-- Power fails while a waiter is woken. -/
theorem popRemove_marked_iff {cfg : Target} (h : Inv k) (hcnt : k.taskCnt ≤ cfg.taskNumLimit)
    (hcur : k.current = some t) (hhead : k.lists.head (.waiting w) = some (.event u))
    (hdone : k.listTxDone t = false) (hc : PopRemoving k t w u c) :
    Ends (recoverListTransaction cfg.toConfig) (fun _ r => DoneTx.MarkedRight k t r (.popRemove w)) c ↔
      ¬ DoneTx.Hasty cfg.toConfig k t c (.popRemove w) := by
  obtain ⟨hf, hw⟩ := popMoved_woke h hcur hdone hhead
  have hset : (committed (popMoved k w u) t).listTxDone t = true := Function.update_self _ _ _
  have hidle : k.lists.microOpOldLen = microOpOldLenOf .invalid 0 := h.microOp
  have hzero : 0 < 2 ^ opCodeShift := by decide
  have hmarked : ∀ {list}, DoneTx.MarkedRight k t (withList (committed (popMoved k w u) t) list) (.popRemove w) :=
    markedRight_woke hf hw hset hhead
  obtain ⟨hn, hcursor, hlen, hnext, _⟩ := h.linked.popped (l := .waiting w) id hhead
  have hwaitLen : k.lists.len (.waiting w) < 2 ^ opCodeShift := len_lt h.linked h.free hcnt
  have hleft := popLeft_wellOrdered h hhead
  have hdelayed := popLeft_delayed h hhead
  have ht := (h.first hhead).1
  cases hc with
  | idle =>
      refine iff_of_true ((ends_recover_idle ?_ ?_).mpr ?_) ?_
      · exact h.op
      · exact h.microOp
      · refine (markedRight_unmoved ?_ hhead).mpr ?_
        · rfl
        · exact fun hd => Bool.false_ne_true (hdone.symm.trans hd)
      · rintro ⟨hop, _⟩
        cases h.op.symm.trans hop
  | logged =>
      refine iff_of_false (fun hmark => ?_) (not_not_intro ⟨rfl, ?_, hhead⟩)
      · have hrun : Ends (recoverListTransaction cfg.toConfig) (fun _ r => r = committed (popLogged k u) t)
          (popLogged k u) := recover_pop_invalid rfl rfl hidle hcur
        have hmarked : DoneTx.MarkedRight k t (committed (popLogged k u) t) (.popRemove w) := hrun.iff.mp hmark
        refine (markedRight_unmoved ?_ hhead).mp hmarked ?_
        · rfl
        · exact Function.update_self _ _ _
      · exact Lists.getMicroOp_eq hzero hidle
  | popping hs hlist =>
      refine iff_of_true ((recover_pop_popping h hcnt hcur hhead hs hlist).iff.mpr hmarked) ?_
      have hm : ∀ {s}, Popping (Lists.logged k.lists .popFront (.waiting w)) (.waiting w) (.event u) s →
          s.microOpOldLen = microOpOldLenOf .popFront (k.lists.len (.waiting w)) := by
        intro s hs
        cases hs <;> rfl
      exact not_hasty_pop (hm hs) hwaitLen nofun
  | waking hwk =>
      cases hwk with
      | start =>
          refine iff_of_true ((recover_pop_left h hcnt hcur hhead).iff.mpr hmarked) ?_
          exact not_hasty_pop (rfl : _ = microOpOldLenOf .popFront _) hwaitLen nofun
      | removing hs =>
          refine iff_of_true ((recover_pop_removing h hcnt hcur hhead hs).iff.mpr hmarked) ?_
          exact not_hasty_pop hs.microOpOldLen (len_lt hleft (free_update h.free ht) hcnt) nofun
      | readying hs hstatus =>
          refine iff_of_true ((recover_pop_readying h hcnt hcur hhead hs hstatus).iff.mpr hmarked) ?_
          exact not_hasty_pop hs.log (len_lt (unlisted_wellOrdered hleft id hdelayed)
            (free_update (free_update h.free ht) ht) hcnt) nofun
  | committing hcm =>
      have hnot : (committed (popMoved k w u) t).lists.head (.waiting w) ≠ some (.event u) := fun he =>
        Option.some_ne_none _ ((hf.first he).2.1.symm.trans hw.event)
      cases hcm with
      | @cleared done hd =>
          have hrun : Ends (recoverListTransaction cfg.toConfig) (fun _ r => r = committed (popMoved k w u) t)
              { popMoved k w u with
                lists := { (popMoved k w u).lists with microOpOldLen := 0 }
                listTxDone := done } := by
            refine (recover_pop_invalid (u := u) (t := t) ?_ ?_ ?_ ?_).mono ?_
            · rfl
            · rfl
            · rfl
            · exact hcur
            rintro _ _ rfl
            rcases hd with rfl | rfl
            · rfl
            · simp only [committed, Function.update_idem]
          refine iff_of_true (hrun.iff.mpr hmarked) ?_
          rintro ⟨_, _, he⟩
          exact hnot he
      | done =>
          refine iff_of_true ((ends_recover_idle ?_ ?_).mpr ?_) ?_
          · rfl
          · rfl
          · exact hmarked
          · rintro ⟨hop, _⟩
            cases hop

/-- Power fails while no task waits. -/
structure PopEmpty (w : Nat) (c : Kernel) : Prop where
  blockNodePtr : c.op = .invalid ∨ c.op = .waitListPopRemoval ∧ c.blockNodePtr = none
  microOp : c.lists.microOpOldLen = 0
  head : c.lists.head (.waiting w) = none

theorem wpc_popNothing {E : Prop} (h : Inv k) (hcur : k.current = some t) (hdone : k.listTxDone t = false)
    (hhead : k.lists.head (.waiting w) = none) :
    wpc (rollForwardPopRemoveFromWaitlist cfg w) (fun _ _ => True) E (PopEmpty w) k := by
  have hidle : ∀ p, PopEmpty w { k with blockNodePtr := p } := fun _ => ⟨Or.inl h.op, h.microOp, hhead⟩
  have hlogged : PopEmpty w { k with blockNodePtr := none, op := .waitListPopRemoval } :=
    ⟨Or.inr ⟨rfl, rfl⟩, h.microOp, hhead⟩
  have hstart := hidle k.blockNodePtr
  unfold rollForwardPopRemoveFromWaitlist
  refine wpc_bind (wpc_bypass hcur hdone hstart ?_)
  refine wpc_bind (wpc_gets hstart (wpc_bind (wpc_store hstart (hidle _) ?_)))
  rw [hhead]
  refine wpc_bind (wpc_store (hidle none) hlogged (wpc_bind (wpc_onLists ?_)))
  unfold optimizedPopFront
  refine wpc_bind (wpc_gets hlogged ?_)
  rw [hhead]
  refine wpc_pure hlogged ?_
  apply wpc_commit (t := t)
  · exact hcur
  · exact hlogged
  · rintro _ (_ | _)
    · exact ⟨Or.inr ⟨rfl, rfl⟩, rfl, hhead⟩
    · exact ⟨Or.inl rfl, rfl, hhead⟩
  · trivial

theorem popNothing_marked_iff (hhead : k.lists.head (.waiting w) = none) (hc : PopEmpty w c) :
    Ends (recoverListTransaction cfg) (fun _ r => DoneTx.MarkedRight k t r (.popRemove w)) c ↔
      ¬ DoneTx.Hasty cfg k t c (.popRemove w) := by
  have hzero : 0 < 2 ^ opCodeShift := by decide
  rcases hc.blockNodePtr with hop | ⟨hop, hptr⟩
  · refine iff_of_true ((ends_recover_idle hop hc.microOp).mpr ?_) ?_
    · exact fun u hu => absurd (hhead.symm.trans hu) nofun
    · exact fun hh => ListTxOpCode.noConfusion (hop.symm.trans hh.1)
  · refine iff_of_false (not_recover_pop_none hop hptr hc.microOp) (not_not_intro ⟨hop, ?_, ?_⟩)
    · exact Lists.getMicroOp_zero hc.microOp
    · rw [hc.head, hptr]

/-! ## Delaying the current task -/

/-- The transaction is logged. -/
def delayLogged (k : Kernel) : Kernel := { k with op := .delayListInsert }

/-- The task has left its ready list. -/
def delayLeft (k : Kernel) (t : Nat) : Kernel := { delayLogged k with lists := leftReady k t }

/-- How far the transaction is. -/
inductive DelayInserting (k : Kernel) (t : Nat) (p q : Option NodeRef) : Kernel → Prop
  | logged : DelayInserting k t p q (delayLogged k)
  | leaving {s : Lists NodeRef ListRef} {status : Nat → TaskState} : LeavingReady k t s →
      status = k.status ∨ status = Function.update k.status t .blocked →
      DelayInserting k t p q { delayLogged k with lists := s, status := status }
  | delaying {s : Lists NodeRef ListRef} {v : Nat} : Delaying (leftReady k t) t p q s →
      v = k.nextUnblockTime ∨ v = min (k.wakeupTime t) k.nextUnblockTime →
      DelayInserting k t p q { delayLogged k with
        lists := s, status := Function.update k.status t .blocked, nextUnblockTime := v }
  | committing {c : Kernel} : Committing (slept (delayLeft k t) t p q) t c → DelayInserting k t p q c

theorem leftReady_sched (h : Inv k) (hn : k.lists.list (.sched t) = some (.ready (k.priority t))) :
    (leftReady k t).list (.sched t) = none := by
  rw [(leftReady_wellOrdered h.linked hn).2, Function.update_self]

theorem wpc_rollForwardInsertIntoDelaylist (h : Inv k) (hcur : k.current = some t) (hdone : k.listTxDone t = false)
    (hn : k.lists.list (.sched t) = some (.ready (k.priority t))) (hp : DelayPlace k t (leftReady k t) p q) :
    wpc (rollForwardInsertIntoDelaylist cfg) (fun _ r => r = committed (slept (delayLeft k t) t p q) t) E
      (fun c => c = k ∨ DelayInserting k t p q c) k := by
  have hleft : ∀ {status}, status = k.status ∨ status = Function.update k.status t .blocked →
      DelayInserting k t p q { delayLeft k t with status := status } := fun hstatus => .leaving .finish hstatus
  unfold rollForwardInsertIntoDelaylist
  refine wpc_bind (wpc_bypass hcur hdone (Or.inl rfl) ?_)
  refine wpc_bind (wpc_store (Or.inl rfl) (Or.inr .logged) (wpc_bind ?_))
  apply wpc_getCurrent (t := t)
  · exact hcur
  · exact Or.inr .logged
  apply wpc_bind
  apply wpc_removeFromReadyList (k := delayLogged k) h.linked hn (Or.inr .logged)
  · exact fun s hs => Or.inr (.leaving hs (Or.inl rfl))
  apply wpc_bind
  apply wpc_addToDelayedList (k := delayLeft k t) (leftReady_sched h hn) hp
  · exact Or.inr (hleft (Or.inl rfl))
  · exact Or.inr (hleft (Or.inr rfl))
  · exact fun s v hs hv => Or.inr (.delaying hs hv)
  apply wpc_commit (t := t)
  · exact hcur
  · exact Or.inr (.delaying (.linking (.finish hp)) (Or.inr rfl))
  · exact fun c hc => Or.inr (.committing hc)
  · rfl

/-- The transaction delays the task. -/
theorem delayLeft_slept (h : Inv k) (hcur : k.current = some t) (hdone : k.listTxDone t = false)
    (hb : k.status t ≠ .blocked) (hp : DelayPlace k t (leftReady k t) p q) :
    Inv (committed (slept (delayLeft k t) t p q) t) ∧ Slept k t none (committed (slept (delayLeft k t) t p q) t) := by
  have hn := (h.unblocked (h.current t hcur) hb).1
  have hw : wpc (rollForwardInsertIntoDelaylist qemuDebug) (fun _ r => r = committed (slept (delayLeft k t) t p q) t)
    True (fun c => c = k ∨ DelayInserting k t p q c) k := wpc_rollForwardInsertIntoDelaylist h hcur hdone hn hp
  have hpost := (h.insertIntoDelaylist hcur hdone hb).of_wpc hw
  exact ⟨hpost.1, hpost.2.2⟩

theorem recover_of_delayInsert (hop : c.op = .delayListInsert)
    (h : Ends (recoverAndRollForwardOfDelaylistInsert cfg) (fun _ r => r.lists.microOpOldLen = 0 ∧ Q () r) c) :
    Ends (recoverListTransaction cfg) Q c := by
  simp only [recoverListTransaction, ends_bind, ends_gets, hop]
  exact ends_then_contextSwitch h

theorem recover_delay_invalid (hop : c.op = .delayListInsert)
    (hm : c.lists.microOpOldLen = microOpOldLenOf .invalid 0) (hcur : c.current = some t) :
    Ends (recoverListTransaction cfg) (fun _ r => r = committed c t) c := by
  apply recover_of_delayInsert hop
  unfold recoverAndRollForwardOfDelaylistInsert
  rw [ends_bind, ends_getMicroOp hm (by decide), ends_bind, ends_getOldLen hm (by decide), ends_bind,
    ends_getCurrent hcur]
  dsimp only
  exact (ends_commit hcur).mpr ⟨rfl, rfl⟩

section
variable {cfg : Target}

/-- The task leaves its ready list. -/
theorem recover_delay_leaving (h : Inv k) (hcnt : k.taskCnt ≤ cfg.taskNumLimit) (hcur : k.current = some t)
    (hn : k.lists.list (.sched t) = some (.ready (k.priority t))) (hp : DelayPlace k t (leftReady k t) p q)
    {status : Nat → TaskState} (hs : LeavingReady k t s)
    (hstatus : status = k.status ∨ status = Function.update k.status t .blocked) :
    Ends (recoverListTransaction cfg.toConfig) (fun _ r =>
      r = committed (slept (delayLeft k t) t p q) t ∧
          ¬ (k.lists.len (.ready (k.priority t)) = 1 ∧ s.cursor (.ready (k.priority t)) = some (.sched t)) ∨
      ∃ v, (v = some (.sched t) ∨ v = none) ∧ k.lists.len (.ready (k.priority t)) = 1 ∧
        s.cursor = Function.update k.lists.cursor (.ready (k.priority t)) v ∧
        r = listAside (.ready (k.priority t)) v (some (.sched t)) (committed (slept (delayLeft k t) t p q) t))
      { delayLogged k with lists := s, status := status } := by
  have hlt : k.lists.len (.ready (k.priority t)) < 2 ^ opCodeShift := len_lt h.linked h.free hcnt
  have hnone := leftReady_sched h hn
  have hne : ListRef.delayed ≠ .ready (k.priority t) := nofun
  have hlater : ∀ {Q}, Q () (committed (slept (delayLeft k t) t p q) t) →
      Ends (do
        addToDelayedList cfg.toConfig t
        commit) Q { delayLeft k t with status := status } := by
    intro Q hQ
    rw [ends_bind, ends_addToDelayedList_iff (k := { delayLeft k t with status := status }) hnone hp]
    have hslept : slept { delayLeft k t with status := status } t p q = slept (delayLeft k t) t p q :=
      slept_status hstatus
    rw [hslept]
    refine (ends_commit (t := t) ?_).mpr hQ
    exact hcur
  apply recover_of_delayInsert rfl
  unfold recoverAndRollForwardOfDelaylistInsert
  rw [ends_bind, ends_getMicroOp hs.log hlt, ends_bind, ends_getOldLen hs.log hlt, ends_bind]
  refine (ends_getCurrent (t := t) ?_).mpr ?_
  · exact hcur
  dsimp only
  rw [ends_bind]
  apply ends_recoverRemoveFromReadyList (k := delayLogged k) h.linked hn hs
  · intro hnot
    exact hlater ⟨rfl, Or.inl ⟨rfl, hnot⟩⟩
  · intro v hv hone hcursor
    have hcomm : Commutes (listAside (.ready (k.priority t)) v (some (.sched t))) (do
        addToDelayedList cfg.toConfig t
        commit) := (commutes_addToDelayedList hne t).bind fun _ => commutes_commit
    refine (hcomm.ends (s := { delayLeft k t with status := status })).mpr ?_
    exact hlater ⟨rfl, Or.inr ⟨v, hv, hone, hcursor, rfl⟩⟩

/-- The task enters the delayed list. -/
theorem recover_delay_delaying {v : Nat} (h : Inv k) (hcnt : k.taskCnt ≤ cfg.taskNumLimit)
    (hcur : k.current = some t) (hn : k.lists.list (.sched t) = some (.ready (k.priority t)))
    (hp : DelayPlace k t (leftReady k t) p q) (hs : Delaying (leftReady k t) t p q s)
    (hdebug : ¬ (cfg.debugAssertions = true ∧ MarkedOnly s .delayed (.sched t))) :
    Ends (recoverListTransaction cfg.toConfig) (fun _ r =>
      r = { committed (slept (delayLeft k t) t p q) t with nextUnblockTime := v })
      { delayLogged k with
        lists := s, status := Function.update k.status t .blocked, nextUnblockTime := v } := by
  have hfree : ∀ n, k.taskCnt ≤ n.task → (leftReady k t).list n = none := by
    rw [(leftReady_wellOrdered h.linked hn).2]
    exact free_update h.free (h.current t hcur)
  have hlt : (leftReady k t).len .delayed < 2 ^ opCodeShift :=
    len_lt (leftReady_wellOrdered h.linked hn).1 hfree hcnt
  apply recover_of_delayInsert rfl
  unfold recoverAndRollForwardOfDelaylistInsert
  rw [ends_bind, ends_getMicroOp hs.log hlt, ends_bind, ends_getOldLen hs.log hlt, ends_bind]
  refine (ends_getCurrent (t := t) ?_).mpr ?_
  · exact hcur
  dsimp only
  rw [ends_bind]
  apply (ends_recoverInsertIntoDelayedList (k := delayLogged k) (leftReady_sched h hn) hp hs hdebug).mpr
  refine (ends_commit (t := t) ?_).mpr ⟨rfl, ?_⟩
  · exact hcur
  · simp only [committed, slept, delayLeft, delayLogged, Function.update_idem]

end

/-! ## What recovery leaves of the delay -/

/-- The task sleeps, and the ring that it leaves is as it should be, or empty. -/
theorem markedRight_slept (hf : Inv f) (hs : Slept k t none f) (hdone : f.listTxDone t = true)
    (hready : entry r (.ready (k.priority t)) = entry f (.ready (k.priority t)) ∨
      entry r (.ready (k.priority t)) = none)
    (hentry : entry r .delayed = entry f .delayed) (hnext : r.lists.next = f.lists.next)
    (hbit : r.listTxDone = f.listTxDone) : DoneTx.MarkedRight k t r .delayInsert := by
  refine iff_of_true (hbit ▸ hdone) ⟨fun hin => ?_, ?_⟩
  · rcases hready with he | he
    · have hf' : InList f (.sched t) (.ready (k.priority t)) := by
        unfold InList at hin ⊢
        rwa [← he, ← hnext]
      rw [hf.inList_iff, hs.sched] at hf'
      cases hf'
    · obtain ⟨x, hx, _⟩ := hin
      cases he.symm.trans hx
  · unfold InList
    rw [hentry, hnext]
    exact hf.inList_iff.mpr hs.sched

theorem not_hasty_delay {op : ListOpCode} {m : Nat} (hm : c.lists.microOpOldLen = microOpOldLenOf op m)
    (hlt : m < 2 ^ opCodeShift)
    (hinvalid : op = .invalid → c.lists.list (.sched t) ≠ some (.ready (k.priority t)))
    (hremove : op = .remove → ¬ (m = 1 ∧ c.lists.cursor (.ready (k.priority t)) = some (.sched t)))
    (hinsert : op = .insertSortedDelayList → ¬ (cfg.debugAssertions = true ∧ MarkedOnly c.lists .delayed (.sched t))) :
    ¬ DoneTx.Hasty cfg k t c .delayInsert := by
  unfold DoneTx.Hasty
  rw [Lists.getMicroOp_eq hlt hm, Lists.getOldLen_eq hlt hm]
  simp only [Option.some.injEq]
  rintro ⟨_, ⟨hop, hlist⟩ | ⟨hop, hone, hcursor⟩ | ⟨hdebug, hop, hmarked⟩⟩
  · exact hinvalid hop hlist
  · exact hremove hop ⟨hone, hcursor⟩
  · exact hinsert hop ⟨hdebug, hmarked⟩

/-- The assertion of the sorted insertion stops recovery. -/
theorem not_recover_delay_marked {cfg : Target} {k : Kernel} {v : Nat} {status : Nat → TaskState} (h : Inv k)
    (hcnt : k.taskCnt ≤ cfg.taskNumLimit) (hcur : k.current = some t)
    (hn : k.lists.list (.sched t) = some (.ready (k.priority t))) (hp : DelayPlace k t (leftReady k t) p q)
    (hs : Delaying (leftReady k t) t p q s)
    (hmarked : cfg.debugAssertions = true ∧ MarkedOnly s .delayed (.sched t)) :
    ¬ Ends (recoverListTransaction cfg.toConfig) Q
      { delayLogged k with lists := s, status := status, nextUnblockTime := v } := by
  have hfree : ∀ n, k.taskCnt ≤ n.task → (leftReady k t).list n = none := by
    rw [(leftReady_wellOrdered h.linked hn).2]
    exact free_update h.free (h.current t hcur)
  have hlt : (leftReady k t).len .delayed < 2 ^ opCodeShift :=
    len_lt (leftReady_wellOrdered h.linked hn).1 hfree hcnt
  intro hrun
  simp only [recoverListTransaction, ends_bind, ends_gets, delayLogged] at hrun
  unfold recoverAndRollForwardOfDelaylistInsert at hrun
  rw [ends_bind, ends_getMicroOp hs.log hlt, ends_bind, ends_getOldLen hs.log hlt, ends_bind,
    ends_getCurrent (t := t)] at hrun
  · dsimp only at hrun
    rw [ends_bind] at hrun
    exact not_ends_recoverInsertIntoDelayedList (k := delayLogged k) (leftReady_sched h hn) hp hs
      hmarked.1 hmarked.2 hrun
  · exact hcur

/-- The task is still found in its ready list. -/
theorem markedRight_ready (hin : InList r (.sched t) (.ready (k.priority t))) :
    DoneTx.MarkedRight k t r .delayInsert ↔ r.listTxDone t ≠ true := by
  constructor
  · intro h hdone
    exact (h.mp hdone).1 hin
  · intro hdone
    exact iff_of_false hdone fun hmoved => hmoved.1 hin

/-- Power fails while the current task is delayed. -/
theorem delayInsert_marked_iff {cfg : Target} (h : Inv k) (hcnt : k.taskCnt ≤ cfg.taskNumLimit)
    (hcur : k.current = some t) (hb : k.status t ≠ .blocked) (hdone : k.listTxDone t = false)
    (hp : DelayPlace k t (leftReady k t) p q) (hc : DelayInserting k t p q c) :
    Ends (recoverListTransaction cfg.toConfig) (fun _ r => DoneTx.MarkedRight k t r .delayInsert) c ↔
      ¬ DoneTx.Hasty cfg.toConfig k t c .delayInsert := by
  obtain ⟨hf, hslept⟩ := delayLeft_slept h hcur hdone hb hp
  have hn := (h.unblocked (h.current t hcur) hb).1
  have hset : (committed (slept (delayLeft k t) t p q) t).listTxDone t = true := Function.update_self _ _ _
  have hzero : 0 < 2 ^ opCodeShift := by decide
  have hlt : k.lists.len (.ready (k.priority t)) < 2 ^ opCodeShift := len_lt h.linked h.free hcnt
  have hleft := leftReady_wellOrdered h.linked hn
  have hfree : ∀ n, k.taskCnt ≤ n.task → (leftReady k t).list n = none := by
    rw [hleft.2]
    exact free_update h.free (h.current t hcur)
  have hlt' : (leftReady k t).len .delayed < 2 ^ opCodeShift := len_lt hleft.1 hfree hcnt
  have hne : ListRef.delayed ≠ .ready (k.priority t) := nofun
  cases hc with
  | logged =>
      have hrun : Ends (recoverListTransaction cfg.toConfig) (fun _ r => r = committed (delayLogged k) t)
        (delayLogged k) := recover_delay_invalid rfl h.microOp hcur
      have hin : InList (committed (delayLogged k) t) (.sched t) (.ready (k.priority t)) := h.inList_iff.mpr hn
      refine iff_of_false (fun hmark => ?_) (not_not_intro ⟨rfl, Or.inl ⟨?_, hn⟩⟩)
      · exact (markedRight_ready hin).mp (hrun.iff.mp hmark) (Function.update_self _ _ _)
      · exact Lists.getMicroOp_zero h.microOp
  | @leaving s status hs hstatus =>
      have hrun := recover_delay_leaving h hcnt hcur hn hp hs hstatus
      by_cases hstay : k.lists.len (.ready (k.priority t)) = 1 ∧ s.cursor (.ready (k.priority t)) = some (.sched t)
      · refine iff_of_false (fun hmark => ?_) (not_not_intro ⟨rfl, Or.inr (Or.inl ⟨?_, ?_, hstay.2⟩)⟩)
        · obtain ⟨_, r, ho, hr⟩ := hrun.returns
          have hmarked := hmark.post ho
          rcases hr with ⟨_, hnot⟩ | ⟨v, _, _, hcursor, rfl⟩
          · exact hnot hstay
          · have hv : v = some (.sched t) := by
              rw [← hstay.2, hcursor, Function.update_self]
            subst hv
            have hin : InList (listAside (.ready (k.priority t)) (some (.sched t)) (some (.sched t))
                (committed (slept (delayLeft k t) t p q) t)) (.sched t) (.ready (k.priority t)) := by
              refine ⟨.sched t, ?_, .refl⟩
              exact Function.update_self _ _ _
            exact (markedRight_ready hin).mp hmarked hset
        · exact Lists.getMicroOp_eq hlt hs.log
        · exact (Lists.getOldLen_eq hlt hs.log).trans hstay.1
      · refine iff_of_true (hrun.mono ?_) ?_
        · rintro _ r (⟨rfl, _⟩ | ⟨v, hv, hone, hcursor, rfl⟩)
          · exact markedRight_slept hf hslept hset (Or.inl rfl) rfl rfl rfl
          · have hnone : v = none := by
              refine hv.resolve_left fun hsome => hstay ⟨hone, ?_⟩
              rw [hcursor, Function.update_self, hsome]
            subst hnone
            refine markedRight_slept hf hslept hset (Or.inr ?_) ?_ rfl rfl
            · exact Function.update_self _ _ _
            · have hhead : Function.update (committed (slept (delayLeft k t) t p q) t).lists.head
                  (.ready (k.priority t)) (some (.sched t)) .delayed =
                  (committed (slept (delayLeft k t) t p q) t).lists.head .delayed := Function.update_of_ne hne _ _
              exact hhead
        · exact not_hasty_delay hs.log hlt nofun (fun _ => hstay) nofun
  | @delaying s v hs hv =>
      by_cases hmarked : cfg.debugAssertions = true ∧ MarkedOnly s .delayed (.sched t)
      · refine iff_of_false ?_ (not_not_intro ⟨rfl, Or.inr (Or.inr ⟨hmarked.1, ?_, hmarked.2⟩)⟩)
        · exact not_recover_delay_marked h hcnt hcur hn hp hs hmarked
        · exact Lists.getMicroOp_eq hlt' hs.log
      · refine iff_of_true ((recover_delay_delaying h hcnt hcur hn hp hs hmarked).iff.mpr ?_) ?_
        · exact markedRight_slept hf hslept hset (Or.inl rfl) rfl rfl rfl
        · exact not_hasty_delay hs.log hlt' nofun nofun fun _ => hmarked
  | committing hcm =>
      cases hcm with
      | @cleared done hd =>
          have hrun : Ends (recoverListTransaction cfg.toConfig)
              (fun _ r => r = committed (slept (delayLeft k t) t p q) t)
              { slept (delayLeft k t) t p q with
                lists := { (slept (delayLeft k t) t p q).lists with microOpOldLen := 0 }
                listTxDone := done } := by
            refine (recover_delay_invalid (t := t) ?_ ?_ ?_).mono ?_
            · rfl
            · rfl
            · exact hcur
            rintro _ _ rfl
            rcases hd with rfl | rfl
            · rfl
            · simp only [committed, Function.update_idem]
          refine iff_of_true (hrun.iff.mpr ?_) ?_
          · exact markedRight_slept hf hslept hset (Or.inl rfl) rfl rfl rfl
          · refine not_hasty_delay (rfl : _ = microOpOldLenOf .invalid 0) hzero (fun _ he => ?_) nofun nofun
            cases hslept.sched.symm.trans he
      | done =>
          refine iff_of_true ((ends_recover_idle ?_ ?_).mpr ?_) ?_
          · rfl
          · rfl
          · exact markedRight_slept hf hslept hset (Or.inl rfl) rfl rfl rfl
          · exact fun hh => ListTxOpCode.noConfusion hh.1

/-- A transaction is marked done only when its moves are made, after every failure but the hasty ones. -/
theorem marked_right_iff {cfg : Target} {tx : DoneTx} (h : Inv k) (hcnt : k.taskCnt ≤ cfg.taskNumLimit)
    (hcur : k.current = some t) (hen : tx.Enabled k) (hc : c ∈ (tx.prog cfg.toConfig k).trace) :
    Ends (recoverListTransaction cfg.toConfig) (fun _ r => tx.MarkedRight k t r) c ↔
      ¬ tx.Hasty cfg.toConfig k t c := by
  have hdone := DoneTx.not_done hcur hc
  cases tx with
  | popRemove w =>
      rcases Option.eq_none_or_eq_some (k.lists.head (.waiting w)) with hhead | ⟨n, hhead⟩
      · have hw : wpc (rollForwardPopRemoveFromWaitlist cfg.toConfig w) (fun _ _ => True) True (PopEmpty w) k :=
          wpc_popNothing h hcur hdone hhead
        exact popNothing_marked_iff hhead (hw.trace hc)
      · have hn := (h.linked.popped id hhead).1
        rw [(h.waiting hn).2.1] at hhead
        have hw : wpc (rollForwardPopRemoveFromWaitlist cfg.toConfig w)
          (fun _ r => r = committed (popMoved k w n.task) t) True (PopRemoving k t w n.task) k :=
          wpc_rollForwardPopRemoveFromWaitlist h hcur hdone hhead
        exact popRemove_marked_iff h hcnt hcur hhead hdone (hw.trace hc)
  | delayInsert =>
      have hb := hen t hcur
      have hn := (h.unblocked (h.current t hcur) hb).1
      have hleft := leftReady_wellOrdered h.linked hn
      have hfree : ∀ n, k.taskCnt ≤ n.task → (leftReady k t).list n = none := by
        rw [hleft.2]
        exact free_update h.free (h.current t hcur)
      obtain ⟨p, q, hp⟩ := exists_delayPlace hleft.1 hfree (leftReady_sched h hn)
      have hw : wpc (rollForwardInsertIntoDelaylist cfg.toConfig)
        (fun _ r => r = committed (slept (delayLeft k t) t p q) t) True (fun c => c = k ∨ DelayInserting k t p q c) k :=
        wpc_rollForwardInsertIntoDelaylist h hcur hdone hn hp
      rcases hw.trace hc with rfl | hc
      · refine iff_of_true ((ends_recover_idle h.op h.microOp).mpr ?_) ?_
        · refine (markedRight_ready (h.inList_iff.mpr hn)).mpr fun hd => ?_
          exact Bool.false_ne_true (hdone.symm.trans hd)
        · exact fun hh => ListTxOpCode.noConfusion (h.op.symm.trans hh.1)
      · exact delayInsert_marked_iff h hcnt hcur hb hdone hp hc

/-! ## A run -/

/-- The first task waits, and the second one runs. -/
def waiter : Kernel :=
  Op.taskSwitch.exec qemuDebug ((Op.block 0 10).exec qemuDebug (Op.startKernel.exec qemuDebug
    ((Op.createTask 1).exec qemuDebug ((Op.createTask 0).exec qemuDebug (new qemuDebug)))))

theorem reachable_waiter : Reachable qemuDebug waiter := by
  have hinit : Reachable qemuDebug (new qemuDebug) := .init
  have hstart := ((hinit.exec (.createTask 0) trivial rfl).exec (.createTask 1) trivial rfl).exec .startKernel
    trivial rfl
  exact (hstart.exec (.block 0 10) (fun t ht => by cases ht; exact nofun) rfl).exec .taskSwitch rfl rfl

/-- Power fails when the removal from the delayed list is logged, and before the first move. -/
theorem marked_right_iff_waiter :
    (∃ c ∈ ((DoneTx.popRemove 0).prog qemuTarget.toConfig waiter).trace, c.lists.getMicroOp = some .remove ∧
      Ends (recoverListTransaction qemuTarget.toConfig) (fun _ r => (DoneTx.popRemove 0).MarkedRight waiter 1 r) c) ∧
    ∃ c ∈ ((DoneTx.popRemove 0).prog qemuTarget.toConfig waiter).trace, c.lists.getMicroOp = some .invalid ∧
      ¬ Ends (recoverListTransaction qemuTarget.toConfig)
        (fun _ r => (DoneTx.popRemove 0).MarkedRight waiter 1 r) c := by
  have hcnt : waiter.taskCnt ≤ qemuTarget.taskNumLimit := by decide
  have hen : (DoneTx.popRemove 0).Enabled waiter := trivial
  have hiff : ∀ c ∈ ((DoneTx.popRemove 0).prog qemuTarget.toConfig waiter).trace, _ := fun _ hc =>
    marked_right_iff (t := 1) reachable_waiter.inv hcnt rfl hen hc
  refine ⟨⟨_, List.mem_of_getElem? (i := 6) rfl, rfl, (hiff _ (List.mem_of_getElem? (i := 6) rfl)).mpr ?_⟩,
    ⟨_, List.mem_of_getElem? (i := 1) rfl, rfl, fun h => (hiff _ (List.mem_of_getElem? (i := 1) rfl)).mp h ?_⟩⟩
  · rintro ⟨_, hmicro, _⟩
    cases hmicro
  · exact ⟨rfl, rfl, rfl⟩

/-- The bit of the running task and the wait list of the waiter, after a failure at store `i` and recovery. -/
def markAfterFailure (i : Nat) : Option (Bool × Option NodeRef) := do
  let c ← ((DoneTx.popRemove 0).prog qemuDebug waiter).trace[i]?
  let (_, r) ← ((recoverListTransaction qemuDebug) c).out
  pure (r.listTxDone 1, r.lists.head (.waiting 0))

/-- The wake-up counts as done, and the waiter waits. -/
theorem marked_without_wakeup :
    Reachable qemuDebug waiter ∧ waiter.current = some 1 ∧
    ∃ c, ((DoneTx.popRemove 0).prog qemuDebug waiter).trace[1]? = some c ∧
      ¬ Ends (recoverListTransaction qemuDebug) (fun _ r => (DoneTx.popRemove 0).MarkedRight waiter 1 r) c := by
  have hrun : markAfterFailure 1 = some (true, some (.event 0)) := by decide +kernel
  unfold markAfterFailure at hrun
  obtain ⟨c, hc, hrec⟩ := Option.bind_eq_some_iff.mp hrun
  refine ⟨reachable_waiter, rfl, c, hc, fun h => ?_⟩
  obtain ⟨_, r, hout, hr⟩ := h.returns
  rw [hout] at hrec
  obtain ⟨hbit, hhead⟩ := Prod.mk.inj (Option.some.inj hrec)
  have hin : InList r (.event 0) (.waiting 0) := ⟨_, hhead, .refl⟩
  exact ((hr 0 rfl).mp hbit).1 _ hin

end Kernel

end IntOS
