import IntOS.Sched.DelayRemoval
import IntOS.Sched.Lemmas.Crash

/-!
# Waking a waiter of an event group and power failures

The transaction removes the waiter from two lists, one after the other, with the same micro-operation code.
From the last store of the first removal on, recovery takes the logged length for that of the second list.
-/

namespace IntOS

open Persist Persist.Prog IntOS.Lists

namespace Kernel

variable {cfg : Target} {k c f : Kernel} {u w : Nat}

/-! ## The states of the transaction -/

/-- The transaction is logged. -/
def unblockLogged (k : Kernel) (u : Nat) : Kernel :=
  { k with blockNodePtr := some (.event u), op := .waitListRemoval }

/-- The waiter has left the wait list. -/
def unblockLeft (k : Kernel) (w u : Nat) : Kernel :=
  { unblockLogged k u with lists := unlisted k.lists (.waiting w) (.event u) }

def unblockDone (k : Kernel) (w u : Nat) : Kernel :=
  { woken (unblockLeft k w u) u with
    lists := { (woken (unblockLeft k w u) u).lists with microOpOldLen := 0 }
    op := .invalid }

/-- How far the transaction is. -/
inductive Unblocking (k : Kernel) (w u : Nat) : Kernel → Prop
  | idle {p : Option NodeRef} : Unblocking k w u { k with blockNodePtr := p }
  | logged : Unblocking k w u (unblockLogged k u)
  | leaving {s : Lists NodeRef ListRef} :
      Removing (Lists.logged k.lists .remove (.waiting w)) (.waiting w) (.event u) s →
      s.list = k.lists.list → Unblocking k w u { unblockLogged k u with lists := s }
  | waking {c : Kernel} : Waking (unblockLeft k w u) u c → Unblocking k w u c
  | done {op : ListTxOpCode} : op = .waitListRemoval ∨ op = .invalid →
      Unblocking k w u { unblockDone k w u with op := op }

theorem unblockLeft_wellOrdered (h : Inv k) (hn : k.lists.list (.event u) = some (.waiting w)) :
    WellOrdered k.wakeupTime (unblockLeft k w u).lists :=
  WellLinked.removed (h.linked.setMicroOpOldLen _) id hn

theorem unblockLeft_delayed (h : Inv k) (hn : k.lists.list (.event u) = some (.waiting w)) :
    (unblockLeft k w u).lists.list (.sched u) = some .delayed := by
  obtain ⟨_, _, hsched⟩ := h.waiting hn
  have hlist : (unblockLeft k w u).lists.list = Function.update k.lists.list (.event u) none := rfl
  rw [hlist, Function.update_of_ne (sched_ne_event _ _)]
  exact hsched

theorem wpc_rollForwardRemoveFromUnsortedWaitlist {E : Prop} {cfg : Config} (h : Inv k)
    (hn : k.lists.list (.event u) = some (.waiting w)) :
    wpc (rollForwardRemoveFromUnsortedWaitlist cfg w (.event u)) (fun _ r => r = unblockDone k w u) E
      (Unblocking k w u) k := by
  have hsome : k.lists.list (.event u) ≠ none := fun he => Option.some_ne_none _ (hn.symm.trans he)
  obtain ⟨hlen, hone, _⟩ := (h.linked.setMicroOpOldLen
    (microOpOldLenOf .remove (k.lists.len (.waiting w)))).linear (l := .waiting w) id hn
  have hstart : Removing (Lists.logged k.lists .remove (.waiting w)) (.waiting w) (.event u)
    (Lists.logged k.lists .remove (.waiting w)) := .start _ _ _
  unfold rollForwardRemoveFromUnsortedWaitlist
  refine wpc_bind (wpc_store .idle .idle (wpc_bind (wpc_store .idle .logged (wpc_bind (wpc_onLists
    (wpc_bind (wpc_startOpLog .logged (.leaving hstart rfl) ?_)))))))
  refine wpc_mono (wpc_optimizedRemoveImpl hsome hlen hone) ?_ ?_
  · rintro _ _ rfl
    apply wpc_makeReady (k := unblockLeft k w u)
    · exact unblockLeft_wellOrdered h hn
    · exact unblockLeft_delayed h hn
    · exact fun _ => .waking
    · have hready : Unblocking k w u (woken (unblockLeft k w u) u) :=
        .waking (waking_woken (unblockLeft_wellOrdered h hn) (unblockLeft_delayed h hn))
      exact wpc_bind (wpc_onLists (wpc_store hready (.done (Or.inl rfl))
        (wpc_store (.done (Or.inl rfl)) (.done (Or.inr rfl)) rfl)))
  · intro s hs
    rcases hs.list with hlist | rfl
    · exact .leaving hs hlist
    · exact .waking .start

/-- The transaction wakes the waiter. -/
theorem unblockDone_woke (h : Inv k) (hn : k.lists.list (.event u) = some (.waiting w)) :
    Inv (unblockDone k w u) ∧ Woke k u (unblockDone k w u) := by
  have hw : wpc (rollForwardRemoveFromUnsortedWaitlist qemuDebug w (.event u)) (fun _ r => r = unblockDone k w u)
    True (Unblocking k w u) k := wpc_rollForwardRemoveFromUnsortedWaitlist h hn
  have hdone := (h.removeFromUnsortedWaitlist hn).of_wpc hw
  exact ⟨hdone.1, hdone.2.2⟩

/-! ## Recovery -/

theorem recover_of_unblocking {Q : Unit → Kernel → Prop} {cfg : Config} (hop : c.op = .waitListRemoval)
    (h : Ends (recoverAndRollForwardOfUnsortedWaitlistRemove cfg) (fun _ r => r.lists.microOpOldLen = 0 ∧ Q () r) c) :
    Ends (recoverListTransaction cfg) Q c := by
  simp only [recoverListTransaction, ends_bind, ends_gets, hop]
  refine h.mono ?_
  rintro _ r ⟨hm, hr⟩
  exact (ends_recoverContextSwitch hm).mpr hr

/-- Nothing is left to do. -/
theorem recover_unblock_invalid {cfg : Config} (hop : c.op = .waitListRemoval)
    (hptr : c.blockNodePtr = some (.event u)) (hm : c.lists.microOpOldLen = microOpOldLenOf .invalid 0) :
    Ends (recoverListTransaction cfg) (fun _ r => r = { c with op := .invalid }) c := by
  have hlists : { c.lists with microOpOldLen := 0 } = c.lists := by rw [← show c.lists.microOpOldLen = 0 from hm]
  apply recover_of_unblocking hop
  unfold recoverAndRollForwardOfUnsortedWaitlistRemove
  rw [ends_bind, ends_getMicroOp hm (by decide), ends_bind, ends_getOldLen hm (by decide), ends_bind,
    ends_getBlockNode hptr]
  refine ends_invalidate.mpr ⟨rfl, ?_⟩
  rw [hlists]

/-- The waiter is still in the wait list. -/
theorem recover_unblock_leaving (h : Inv k) (hcnt : k.taskCnt ≤ cfg.taskNumLimit)
    (hn : k.lists.list (.event u) = some (.waiting w)) {s : Lists NodeRef ListRef}
    (hs : Removing (Lists.logged k.lists .remove (.waiting w)) (.waiting w) (.event u) s)
    (hlist : s.list = k.lists.list) :
    Ends (recoverListTransaction cfg.toConfig) (fun _ r => r = unblockDone k w u)
      { unblockLogged k u with lists := s } := by
  obtain ⟨hlen, _, hnext⟩ := h.linked.linear (l := .waiting w) id hn
  have hlt : k.lists.len (.waiting w) < 2 ^ opCodeShift := len_lt h.linked h.free hcnt
  apply recover_of_unblocking rfl
  unfold recoverAndRollForwardOfUnsortedWaitlistRemove
  rw [ends_bind, ends_getMicroOp hs.microOpOldLen hlt, ends_bind, ends_getOldLen hs.microOpOldLen hlt, ends_bind,
    ends_getBlockNode rfl]
  rw [ends_bind, ends_gets]
  dsimp only
  rw [hlist, hn]
  dsimp only
  have hrec : Ends (recoverFromFailedRemove (.waiting w) (.event u) (k.lists.len (.waiting w)))
      (fun _ r => r = unlisted k.lists (.waiting w) (.event u)) s := (hs.recover hnext hlen).mono fun _ _ he => he
  rw [ends_bind, ends_onLists_iff hrec]
  apply (ends_makeReady_iff (unblockLeft_wellOrdered h hn) (unblockLeft_delayed h hn)).mpr
  exact ⟨rfl, rfl⟩

/-- The waiter is out of the wait list. Recovery takes the logged length for that of the delayed list. -/
theorem recover_unblock_left {m : Nat} (h : Inv k) (hn : k.lists.list (.event u) = some (.waiting w))
    {s : Lists NodeRef ListRef} (hm : 0 < m) (hlt : m < 2 ^ opCodeShift)
    (hs : Removing { (unblockLeft k w u).lists with microOpOldLen := microOpOldLenOf .remove m } .delayed
      (.sched u) s) :
    Ends (recoverListTransaction cfg.toConfig) (fun _ r => r = { unblockDone k w u with
      lists := { (unblockDone k w u).lists with
        len := Function.update (unblockDone k w u).lists.len .delayed (m - 1) } })
      { unblockLeft k w u with lists := s } := by
  have hnone : s.list (.event u) = none := by
    rw [hs.list_of_ne (event_ne_sched _ _)]
    exact Function.update_self (NodeRef.event u) none k.lists.list
  apply recover_of_unblocking rfl
  unfold recoverAndRollForwardOfUnsortedWaitlistRemove
  rw [ends_bind, ends_getMicroOp hs.microOpOldLen hlt, ends_bind, ends_getOldLen hs.microOpOldLen hlt, ends_bind,
    ends_getBlockNode rfl]
  dsimp only
  rw [ends_bind, ends_gets]
  dsimp only
  rw [hnone]
  dsimp only
  rw [← assoc, ends_bind]
  apply (ends_recoverRemoveFromDelayed (unblockLeft_wellOrdered h hn) (unblockLeft_delayed h hn) hs hm).mpr
  exact ⟨rfl, rfl⟩

theorem unblock_ready_len_lt (h : Inv k) (hcnt : k.taskCnt ≤ cfg.taskNumLimit)
    (hn : k.lists.list (.event u) = some (.waiting w)) (prio : Nat) :
    (unlisted (unblockLeft k w u).lists .delayed (.sched u)).len (.ready prio) < 2 ^ opCodeShift := by
  obtain ⟨ht, _, _⟩ := h.waiting hn
  have hu := unlisted_wellOrdered (unblockLeft_wellOrdered h hn) id (unblockLeft_delayed h hn)
  exact len_lt hu (free_update (free_update h.free ht) ht) hcnt

/-- The waiter is on its way into its ready list. -/
theorem recover_unblock_readying (h : Inv k) (hcnt : k.taskCnt ≤ cfg.taskNumLimit)
    (hn : k.lists.list (.event u) = some (.waiting w)) {s : Lists NodeRef ListRef} {status : Nat → TaskState}
    (hs : Readying (Lists.logged (unlisted (unblockLeft k w u).lists .delayed (.sched u)) .insertBeforeCursor
      (.ready (k.priority u))) (.ready (k.priority u)) (.sched u) s)
    (hstatus : status = k.status ∨ status = Function.update k.status u .ready) :
    Ends (recoverListTransaction cfg.toConfig) (fun _ r => r = withList (unblockDone k w u) s.list)
      { unblockLeft k w u with lists := s, status := status } := by
  have hu := unlisted_wellOrdered (unblockLeft_wellOrdered h hn) id (unblockLeft_delayed h hn)
  have hlt := unblock_ready_len_lt h hcnt hn (k.priority u)
  have hnone : (unlisted (unblockLeft k w u).lists .delayed (.sched u)).list (.sched u) = none :=
    Function.update_self _ _ _
  apply recover_of_unblocking rfl
  unfold recoverAndRollForwardOfUnsortedWaitlistRemove
  rw [ends_bind, ends_getMicroOp hs.log hlt, ends_bind, ends_getOldLen hs.log hlt, ends_bind, ends_getBlockNode rfl]
  dsimp only
  rw [ends_bind]
  apply (ends_recoverInsertIntoReadyList (k := { unblockLeft k w u with
    lists := unlisted (unblockLeft k w u).lists .delayed (.sched u) }) hu hnone hs hstatus).mpr
  exact ⟨rfl, rfl⟩

/-! ## What recovery leaves -/

/-- The waiter `u` of `k` is woken, or the lists are as they were because no store to them was made in `c`; and
every list has as many nodes as its `len` says. -/
structure UnblockedOrNot (k : Kernel) (u : Nat) (c k' : Kernel) : Prop where
  moved : WokenOrNot k u k'
  untouched : (∀ l, InList k' (.event u) l ↔ InList k (.event u) l) → c.lists = k.lists
  counted : ∀ l, ∃ xs : List NodeRef, xs.Nodup ∧ k'.lists.len l = xs.length ∧ ∀ n, n ∈ xs ↔ InList k' n l

theorem Inv.counted (h : Inv k) (l : ListRef) :
    ∃ xs : List NodeRef, xs.Nodup ∧ k.lists.len l = xs.length ∧ ∀ n, n ∈ xs ↔ InList k n l := by
  obtain ⟨xs, hnd, hlen, hxs⟩ := h.enum l
  exact ⟨xs, hnd, hlen, fun n => (hxs n).1⟩

/-- The links decide, not the fields `list`. -/
theorem UnblockedOrNot.of_woke {list : NodeRef → Option ListRef} (h : Inv k)
    (hn : k.lists.list (.event u) = some (.waiting w)) (hf : Inv f) (hw : Woke k u f) :
    UnblockedOrNot k u c (withList f list) := by
  have hin : ∀ n l, InList (withList f list) n l ↔ f.lists.list n = some l := fun n l => hf.inList_iff
  refine ⟨⟨Or.inr ⟨fun l => ?_, fun l => ?_, ?_⟩, fun n hne l => ?_, fun v hv => ?_⟩, fun hsame => ?_, hf.counted⟩
  · rw [hin, hw.sched, Option.some.injEq]
    exact eq_comm
  · rw [hin, hw.event]
    exact nofun
  · exact (congrFun hw.status u).trans (Function.update_self _ _ _)
  · rw [hin, hw.others hne, h.inList_iff]
  · exact (congrFun hw.status v).trans (Function.update_of_ne hv _ _)
  · have hwait := (hsame (.waiting w)).mpr (h.inList_iff.mpr hn)
    rw [hin, hw.event] at hwait
    cases hwait

theorem UnblockedOrNot.of_untouched (h : Inv k) (hlists : c.lists = k.lists) {k' : Kernel}
    (hk : k'.lists = k.lists) (hstatus : k'.status = k.status) : UnblockedOrNot k u c k' := by
  have hin : ∀ n l, InList k' n l ↔ InList k n l := by
    intro n l
    have hentry : entry k' l = entry k l := by
      cases l <;> simp only [entry, hk]
    rw [InList, InList, hentry, hk]
  refine ⟨⟨Or.inl hin, fun n _ => hin n, fun v _ => congrFun hstatus v⟩, fun _ => hlists, fun l => ?_⟩
  obtain ⟨xs, hnd, hlen, hxs⟩ := h.counted l
  refine ⟨xs, hnd, ?_, fun n => ?_⟩
  · rw [hk]
    exact hlen
  · rw [hin, hxs]

/-- Recovery takes the length of the wait list for that of the delayed list. -/
def Confused (k : Kernel) (u : Nat) (c : Kernel) : Prop :=
  c.lists.getMicroOp = some .remove ∧ c.lists.list (.event u) = none ∧ c.lists.getOldLen ≠ k.lists.len .delayed

/-- A wrong length stays wrong. -/
theorem not_counted {m : Nat} (hf : Inv f) (hm : m ≠ f.lists.len .delayed) :
    ¬ UnblockedOrNot k u c { f with lists := { f.lists with len := Function.update f.lists.len .delayed m } } := by
  intro h
  obtain ⟨xs, hnd, hlen, hxs⟩ := h.counted .delayed
  obtain ⟨ys, hnd', hlen', hys⟩ := hf.counted .delayed
  have hperm : xs.Perm ys := by
    rw [List.perm_ext_iff_of_nodup hnd hnd']
    exact fun n => (hxs n).trans (hys n).symm
  dsimp only at hlen
  rw [Function.update_self, hperm.length_eq, ← hlen'] at hlen
  exact hm hlen

theorem not_confused {op : ListOpCode} {m : Nat} (hm : c.lists.microOpOldLen = microOpOldLenOf op m)
    (hlt : m < 2 ^ opCodeShift) (hop : op ≠ .remove) : ¬ Confused k u c := by
  rintro ⟨hremove, _⟩
  rw [Lists.getMicroOp_eq hlt hm] at hremove
  exact hop (Option.some.inj hremove)

theorem unblockDone_len (k : Kernel) (w u : Nat) :
    (unblockDone k w u).lists.len .delayed = k.lists.len .delayed - 1 := by
  have hwait : ListRef.delayed ≠ .waiting w := nofun
  have hlen : (unblockDone k w u).lists.len = (woken (unblockLeft k w u) u).lists.len := rfl
  rw [hlen, woken_len]
  simp only [unblockLeft, unlisted, removed, logged, Function.update_of_ne hwait]

/-- The window of the defect, and the stores after it. -/
theorem unblock_left_survives_iff {m : Nat} {s : Lists NodeRef ListRef} (h : Inv k)
    (hn : k.lists.list (.event u) = some (.waiting w)) (hm : 0 < m) (hlt : m < 2 ^ opCodeShift)
    (hs : Removing { (unblockLeft k w u).lists with microOpOldLen := microOpOldLenOf .remove m } .delayed
      (.sched u) s) :
    Ends (recoverListTransaction cfg.toConfig) (fun _ => UnblockedOrNot k u c) { unblockLeft k w u with lists := s } ↔
      ¬ Confused k u { unblockLeft k w u with lists := s } := by
  obtain ⟨hf, hw⟩ := unblockDone_woke h hn
  obtain ⟨hpos, _, _⟩ := (unblockLeft_wellOrdered h hn).linear id (unblockLeft_delayed h hn)
  have hwait : ListRef.delayed ≠ .waiting w := nofun
  have hdelayed : 0 < k.lists.len .delayed := by
    simpa only [unblockLeft, unblockLogged, unlisted, removed, logged, Function.update_of_ne hwait] using hpos
  have hnone : s.list (.event u) = none := by
    rw [hs.list_of_ne (event_ne_sched _ _)]
    exact Function.update_self (NodeRef.event u) none k.lists.list
  have hconfused : Confused k u { unblockLeft k w u with lists := s } ↔ m ≠ k.lists.len .delayed := by
    unfold Confused
    rw [Lists.getMicroOp_eq hlt hs.microOpOldLen, Lists.getOldLen_eq hlt hs.microOpOldLen, hnone]
    simp
  have hlen := unblockDone_len k w u
  rw [(recover_unblock_left h hn hm hlt hs).iff, hconfused, not_not]
  constructor
  · intro hu
    by_contra hne
    refine not_counted hf ?_ hu
    omega
  · rintro rfl
    rw [← hlen, Function.update_eq_self]
    exact .of_woke h hn hf hw

/-- Waking a waiter of an event group survives every failure but those where the logged length is that of
the other list. -/
theorem unblock_survives_iff (h : Inv k) (hcnt : k.taskCnt ≤ cfg.taskNumLimit) (hn : InList k (.event u) (.waiting w))
    (hc : c ∈ crashes (rollForwardRemoveFromUnsortedWaitlist cfg.toConfig w (.event u)) k) :
    Ends (recoverListTransaction cfg.toConfig) (fun _ => UnblockedOrNot k u c) c ↔ ¬ Confused k u c := by
  rw [h.inList_iff] at hn
  obtain ⟨hf, hw⟩ := unblockDone_woke h hn
  have hidle : k.lists.microOpOldLen = microOpOldLenOf .invalid 0 := h.microOp
  have hzero : 0 < 2 ^ opCodeShift := by decide
  have hwpc : wpc (rollForwardRemoveFromUnsortedWaitlist cfg.toConfig w (.event u)) (fun _ r => r = unblockDone k w u)
    False (Unblocking k w u) k := wpc_rollForwardRemoveFromUnsortedWaitlist h hn
  cases hwpc.crash hc with
  | idle =>
      refine iff_of_true ((ends_recover_idle ?_ ?_).mpr ?_) (not_confused hidle hzero nofun)
      · exact h.op
      · exact h.microOp
      · apply UnblockedOrNot.of_untouched h
        · rfl
        · rfl
        · rfl
  | logged =>
      refine iff_of_true ((recover_unblock_invalid (u := u) ?_ ?_ ?_).iff.mpr ?_) (not_confused hidle hzero nofun)
      · rfl
      · rfl
      · exact hidle
      · apply UnblockedOrNot.of_untouched h
        · rfl
        · rfl
        · rfl
  | @leaving s hs hlist =>
      refine iff_of_true ((recover_unblock_leaving h hcnt hn hs hlist).iff.mpr ?_) fun hconf => ?_
      · exact .of_woke h hn hf hw
      · have hnone : s.list (.event u) = none := hconf.2.1
        rw [hlist, hn] at hnone
        cases hnone
  | waking hwk =>
      obtain ⟨hpos, _, _⟩ := h.linked.linear (l := .waiting w) id hn
      cases hwk with
      | start => exact unblock_left_survives_iff h hn hpos (len_lt h.linked h.free hcnt) (.start _ _ _)
      | removing hs =>
          have hleft := unblockLeft_wellOrdered h hn
          have hdelayed := unblockLeft_delayed h hn
          obtain ⟨ht, _, _⟩ := h.waiting hn
          refine unblock_left_survives_iff h hn (hleft.linear id hdelayed).1 ?_ hs
          exact len_lt hleft (free_update h.free ht) hcnt
      | readying hs hstatus =>
          refine iff_of_true ((recover_unblock_readying h hcnt hn hs hstatus).iff.mpr ?_) ?_
          · exact .of_woke h hn hf hw
          · exact not_confused hs.log (unblock_ready_len_lt h hcnt hn _) nofun
  | done hop =>
      have hm : (unblockDone k w u).lists.microOpOldLen = microOpOldLenOf .invalid 0 := rfl
      rcases hop with rfl | rfl
      · refine iff_of_true ((recover_unblock_invalid (u := u) ?_ ?_ ?_).iff.mpr ?_) (not_confused hm hzero nofun)
        · rfl
        · rfl
        · exact hm
        · exact .of_woke h hn hf hw
      · refine iff_of_true ((ends_recover_idle ?_ ?_).mpr ?_) (not_confused hm hzero nofun)
        · rfl
        · exact hm
        · exact .of_woke h hn hf hw

/-! ## A run -/

/-- The first task waits for an event group, the second one is delayed, and the third one runs. -/
def waiterAndSleeper : Kernel :=
  Op.taskSwitch.exec qemuDebug ((Op.taskDelay 20).exec qemuDebug (Op.taskSwitch.exec qemuDebug
    ((Op.blockUnsorted 0 10).exec qemuDebug (Op.startKernel.exec qemuDebug ((Op.createTask 2).exec qemuDebug
      ((Op.createTask 1).exec qemuDebug ((Op.createTask 0).exec qemuDebug (new qemuDebug))))))))

theorem reachable_waiterAndSleeper : Reachable qemuDebug waiterAndSleeper := by
  have hinit : Reachable qemuDebug (new qemuDebug) := .init
  have hstart := (((hinit.exec (.createTask 0) trivial rfl).exec (.createTask 1) trivial rfl).exec
    (.createTask 2) trivial rfl).exec .startKernel trivial rfl
  have hwaits := (hstart.exec (.blockUnsorted 0 10) (fun t ht => by cases ht; exact nofun) rfl).exec .taskSwitch
    rfl rfl
  exact (hwaits.exec (.taskDelay 20) (fun t ht => by cases ht; exact nofun) rfl).exec .taskSwitch rfl rfl

theorem inList_waiterAndSleeper : InList waiterAndSleeper (.event 0) (.waiting 0) := ⟨_, rfl, .refl⟩

/-- Power fails when the removal from the delayed list, of length 2, is logged, and right before, when the log still
has the length 1 of the wait list. -/
theorem unblock_survives_iff_waiterAndSleeper :
    (∃ c ∈ crashes (rollForwardRemoveFromUnsortedWaitlist qemuTarget.toConfig 0 (.event 0)) waiterAndSleeper,
      c.lists.list (.event 0) = none ∧
        Ends (recoverListTransaction qemuTarget.toConfig) (fun _ => UnblockedOrNot waiterAndSleeper 0 c) c) ∧
    ∃ c ∈ crashes (rollForwardRemoveFromUnsortedWaitlist qemuTarget.toConfig 0 (.event 0)) waiterAndSleeper,
      c.lists.list (.event 0) = none ∧
        ¬ Ends (recoverListTransaction qemuTarget.toConfig) (fun _ => UnblockedOrNot waiterAndSleeper 0 c) c := by
  have hcnt : waiterAndSleeper.taskCnt ≤ qemuTarget.taskNumLimit := by decide
  have hiff : ∀ c ∈ crashes _ _, _ := fun _ hc =>
    unblock_survives_iff reachable_waiterAndSleeper.inv hcnt inList_waiterAndSleeper hc
  refine ⟨⟨_, List.mem_of_getElem? (i := 9) rfl, rfl, (hiff _ (List.mem_of_getElem? (i := 9) rfl)).mpr ?_⟩,
    ⟨_, List.mem_of_getElem? (i := 7) rfl, rfl, fun h => (hiff _ (List.mem_of_getElem? (i := 7) rfl)).mp h ?_⟩⟩
  · exact fun hconf => hconf.2.2 rfl
  · exact ⟨rfl, rfl, by decide⟩

/-- The length of the delayed list and its head after a failure at store `i` and recovery. -/
def delayedAfterFailure (i : Nat) : Option (Nat × Option NodeRef) := do
  let c ← (rollForwardRemoveFromUnsortedWaitlist qemuDebug 0 (.event 0) waiterAndSleeper).trace[i]?
  let (_, r) ← ((recoverListTransaction qemuDebug) c).out
  pure (r.lists.len .delayed, r.lists.head .delayed)

/-- The delayed list has a node and the length 0. -/
theorem unblock_loses_count :
    Reachable qemuDebug waiterAndSleeper ∧ InList waiterAndSleeper (.event 0) (.waiting 0) ∧
    ∃ c, (rollForwardRemoveFromUnsortedWaitlist qemuDebug 0 (.event 0) waiterAndSleeper).trace[6]? = some c ∧
      ¬ Ends (recoverListTransaction qemuDebug) (fun _ => UnblockedOrNot waiterAndSleeper 0 c) c := by
  have hrun : delayedAfterFailure 6 = some (0, some (.sched 1)) := by decide +kernel
  unfold delayedAfterFailure at hrun
  obtain ⟨c, hc, hrec⟩ := Option.bind_eq_some_iff.mp hrun
  refine ⟨reachable_waiterAndSleeper, inList_waiterAndSleeper, c, hc, fun h => ?_⟩
  obtain ⟨_, r, hout, hr⟩ := h.returns
  rw [hout] at hrec
  obtain ⟨hlen, hhead⟩ := Prod.mk.inj (Option.some.inj hrec)
  have hin : InList r (.sched 1) .delayed := ⟨_, hhead, .refl⟩
  obtain ⟨xs, _, hxs, hmem⟩ := hr.counted .delayed
  rw [hlen] at hxs
  rw [← hmem, List.length_eq_zero_iff.mp hxs.symm] at hin
  cases hin

end Kernel

end IntOS
