import IntOS.Sched.Lemmas.Resume

/-!
# The debug assertions of the list code

`optimized_insert_sorted_impl`, `optimized_insert_front_impl` and `optimized_insert_before_cursor_impl` assert that the
node is in no list, `optimized_remove_impl` that the list is not empty. An assertion fails where a sorted insertion
that has marked its node is recovered.
-/

namespace IntOS

open Persist Persist.Prog IntOS.Lists

/-- The build without debug assertions. -/
def Config.release (cfg : Config) : Config := { cfg with debugAssertions := false }

namespace Kernel

variable {cfg : Target} {k k' c : Kernel} {t w : Nat}

/-- If the program stops, it stops before its list transaction begins, or the build without assertions stops there as
well. -/
def NoAssertionFails (m : Config → Prog Kernel Unit) (cfg : Config) (k : Kernel) : Prop :=
  (m cfg k).out = none → (∀ c ∈ crashes (m cfg) k, c.op = .invalid) ∨ m cfg.release k = m cfg k

/-- The task that the logged transaction puts into its ready list. -/
def readiedTask (c : Kernel) : Option Nat :=
  if c.op = .readyListInsert then c.taskPtr else c.blockNodePtr.map NodeRef.task

/-- A removal from the delayed list moves the task `t`, which is not marked ready yet, and it was in no wait list or has
begun to leave it. -/
structure Departing (c : Kernel) (t : Nat) : Prop where
  status : c.status t = .blocked
  sched : c.lists.list (.sched t) ≠ some .delayed
  event : c.lists.getMicroOp = some .popFront → c.lists.list (.event t) = none

/-- No assertion looks at a node that is marked only, and recovery completes the move that was interrupted, or stops
at once. -/
structure Spared (cfg : Config) (c : Kernel) : Prop where
  delayed : c.lists.getMicroOp = some .insertSortedDelayList → ∀ t, c.current = some t →
    ¬ (cfg.debugAssertions = true ∧ MarkedOnly c.lists .delayed (.sched t))
  waiting : c.op = .waitListInsert → c.lists.getMicroOp = some .insertSortedWaitList → ∀ t w, c.current = some t →
    c.waitListPtr = some w → ¬ (cfg.debugAssertions = true ∧ MarkedOnly c.lists (.waiting w) (.event t))
  /-- The removal from the delayed list logs no node, and recovery takes that of an earlier transaction. -/
  due : c.op = .delayListRemoval → c.lists.getMicroOp ≠ some .invalid → ∀ n, c.blockNodePtr = some n →
    ∃ t, n = .event t ∧ Departing c t
  /-- The node has left the wait list, whose length is still logged when that of the delayed list is restored. -/
  removed : c.op = .waitListRemoval → c.lists.getMicroOp = some .remove → ∀ n, c.blockNodePtr = some n →
    c.lists.list n = none → InList c (.sched n.task) .delayed → c.lists.getOldLen = c.lists.len .delayed
  /-- The last node leaves a ready list whose head still has to be cleared. -/
  emptied : c.op = .waitListInsert ∨ c.op = .unsortedWaitListInsert ∨ c.op = .delayListInsert →
    c.lists.getMicroOp = some .remove → ∀ t, c.current = some t → c.lists.getOldLen = 1 →
    c.lists.head (.ready (c.priority t)) ≠ some (.sched t)
  /-- Recovery of the insertion into a ready list does not store `list` of the node. -/
  entered : c.lists.getMicroOp = some .insertBeforeCursor → ∀ t, readiedTask c = some t → c.lists.list (.sched t) ≠ none

/-! ## Recovery -/

/-- The first part of `recover_list_transaction`. -/
def recoverTx (cfg : Config) : ListTxOpCode → Prog Kernel Unit
  | .invalid => pure ()
  | .waitListPopRemoval => recoverAndRollForwardOfWaitlistPopRemove cfg
  | .waitListInsert => recoverAndRollForwardOfWaitlistInsert cfg
  | .waitListRemoval => recoverAndRollForwardOfUnsortedWaitlistRemove cfg
  | .unsortedWaitListInsert => recoverAndRollForwardOfUnsortedWaitlistInsert cfg
  | .delayListRemoval => recoverAndRollForwardOfDelaylistRemoval cfg
  | .delayListInsert => recoverAndRollForwardOfDelaylistInsert cfg
  | .readyListInsert => recoverAndRollForwardOfReadylistInsert
  | _ => fail

theorem run_recoverListTransaction (cfg : Config) (c : Kernel) : (recoverListTransaction cfg) c =
    (recoverTx cfg c.op >>= fun _ => recoverAndRollForwardContextSwitch) c := by
  rw [recoverListTransaction, gets_bind_apply]
  cases c.op <;> rfl

/-- Recovery does the same without assertions. -/
def Unasserted (cfg : Config) (c : Kernel) : Prop :=
  (recoverListTransaction cfg.release) c = (recoverListTransaction cfg) c

theorem unasserted_of_recoverTx {cfg : Config} (h : recoverTx cfg.release c.op c = recoverTx cfg c.op c) :
    Unasserted cfg c := by
  rw [Unasserted, run_recoverListTransaction, run_recoverListTransaction, bind_apply, bind_apply, h]

theorem Rested.wpc_recoverContextSwitch {E : Prop} (h : Rested cfg k) :
    wpc recoverAndRollForwardContextSwitch (fun _ => Rested cfg) E (Pending cfg) k := by
  have hmicro : k.lists.microOpOldLen = microOpOldLenOf .invalid 0 := h.micro
  unfold recoverAndRollForwardContextSwitch
  rw [wpc_congr (run_getMicroOp hmicro (by decide))]
  exact wpc_pure h.pending h

theorem wpc_recoverTx {E : Prop} {x : ListTxOpCode} (hop : c.op = x)
    (h : wpc (recoverTx cfg.toConfig x) (fun _ => Rested cfg) E (Pending cfg) c) :
    wpc (recoverListTransaction cfg.toConfig) (fun _ => Rested cfg) E (Pending cfg) c := by
  rw [wpc_congr (run_recoverListTransaction _ c), hop]
  exact wpc_bind (wpc_mono h (fun _ _ hr => hr.wpc_recoverContextSwitch) fun _ hc => hc)

/-! ### Nothing to complete -/

/-- Recovery stops before it stores anything, with or without assertions. -/
theorem wpc_of_stuck {Q : Unit → Kernel → Prop} {C : Kernel → Prop} (hc : C c)
    (h : ∀ cfg, recoverTx cfg c.op c = ⟨[], none⟩) (cfg : Config) :
    wpc (recoverListTransaction cfg) Q (Unasserted cfg c) C c := by
  have hstop : (recoverListTransaction cfg) c = ⟨[], none⟩ := by
    rw [run_recoverListTransaction, bind_apply, h]
  have hsame : Unasserted cfg c := unasserted_of_recoverTx ((h _).trans (h _).symm)
  rw [wpc, crashes, hstop]
  exact ⟨fun d hd => List.mem_singleton.mp hd ▸ hc, hsame⟩

/-- The program reads a pointer of the log, or stops. -/
def Peeks {α : Type} (m : Prog Kernel α) : Prop :=
  ∀ ⦃Q : α → Kernel → Prop⦄ ⦃E : Prop⦄ ⦃C : Kernel → Prop⦄ ⦃k : Kernel⦄, C k → E → (∀ x, Q x k) → wpc m Q E C k

theorem peeks_pointers : Peeks getBlockNode ∧ Peeks getWaitList ∧ Peeks getTask ∧ Peeks getCurrent := by
  refine ⟨?_, ?_, ?_, ?_⟩
  all_goals
    intro Q E C k hC hE hQ
    refine wpc_bind (wpc_gets hC ?_)
    split
    · exact wpc_fail hC hE
    · exact wpc_pure hC (hQ _)

/-- What recovery does where no move was interrupted. -/
def restTx : ListTxOpCode → Prog Kernel Unit
  | .invalid => pure ()
  | .waitListPopRemoval => do
      let _ ← getBlockNode
      commit
  | .waitListInsert | .unsortedWaitListInsert => do
      let _ ← getWaitList
      let _ ← getCurrent
      invalidate
  | .waitListRemoval | .delayListRemoval => do
      let _ ← getBlockNode
      invalidate
  | .delayListInsert => do
      let _ ← getCurrent
      commit
  | .readyListInsert => do
      let _ ← getTask
      commit
  | _ => fail

theorem run_restTx (hmicro : c.lists.microOpOldLen = 0) (cfg : Config) (x : ListTxOpCode) :
    recoverTx cfg x c = restTx x c := by
  have hinvalid : c.lists.microOpOldLen = microOpOldLenOf .invalid 0 := hmicro
  have hzero : 0 < 2 ^ opCodeShift := by decide
  cases x
  case waitListPopRemoval => exact (run_getMicroOp hinvalid hzero).trans (run_getOldLen hinvalid hzero)
  case waitListInsert => exact (run_getMicroOp hinvalid hzero).trans (run_getOldLen hinvalid hzero)
  case waitListRemoval => exact (run_getMicroOp hinvalid hzero).trans (run_getOldLen hinvalid hzero)
  case unsortedWaitListInsert => exact (run_getMicroOp hinvalid hzero).trans (run_getOldLen hinvalid hzero)
  case delayListRemoval => exact (run_getMicroOp hinvalid hzero).trans (run_getOldLen hinvalid hzero)
  case delayListInsert => exact (run_getMicroOp hinvalid hzero).trans (run_getOldLen hinvalid hzero)
  case readyListInsert => exact (run_getMicroOp hinvalid hzero).trans (run_getOldLen hinvalid hzero)
  all_goals rfl

theorem unasserted_resting (hmicro : c.lists.microOpOldLen = 0) (cfg : Config) : Unasserted cfg c :=
  unasserted_of_recoverTx ((run_restTx hmicro _ _).trans (run_restTx hmicro _ _).symm)

theorem recover_resting {E : Prop} (h : Sound cfg none c) (hmicro : c.lists.microOpOldLen = 0) (hE : E) :
    wpc (recoverListTransaction cfg.toConfig) (fun _ => Rested cfg) E (Pending cfg) c := by
  have hc : Pending cfg c := .resting h hmicro
  have hcommit : wpc commit (fun _ => Rested cfg) E (Pending cfg) c := concludes_commit (fun _ => hE) rfl h hc
  have hinvalidate : wpc invalidate (fun _ => Rested cfg) E (Pending cfg) c := concludes_invalidate rfl h hc
  obtain ⟨hnode, hwait, htask, hcur⟩ := peeks_pointers
  apply wpc_recoverTx rfl
  rw [wpc_congr (run_restTx hmicro _ _)]
  cases hop : c.op
  case invalid => exact wpc_pure hc ⟨h, hop, hmicro⟩
  case waitListPopRemoval => exact wpc_bind (hnode hc hE fun _ => hcommit)
  case waitListInsert => exact wpc_bind (hwait hc hE fun _ => wpc_bind (hcur hc hE fun _ => hinvalidate))
  case waitListRemoval => exact wpc_bind (hnode hc hE fun _ => hinvalidate)
  case unsortedWaitListInsert => exact wpc_bind (hwait hc hE fun _ => wpc_bind (hcur hc hE fun _ => hinvalidate))
  case delayListRemoval => exact wpc_bind (hnode hc hE fun _ => hinvalidate)
  case delayListInsert => exact wpc_bind (hcur hc hE fun _ => hcommit)
  case readyListInsert => exact wpc_bind (htask hc hE fun _ => hcommit)
  all_goals exact wpc_fail hc hE

/-- The cursor of a ready list is at a task that is not blocked. -/
theorem Sound.cursor (h : Sound cfg none k) {prio : Nat} {n : NodeRef} (hn : k.lists.cursor (.ready prio) = some n) :
    k.status n.task ≠ .blocked ∧ n.task < k.taskCnt := by
  have hlist : k.lists.list n = some (.ready prio) := by
    obtain ⟨seq, hs, _⟩ := h.linked
    rw [hs.owner]
    exact List.mem_of_head? ((hs.rings (.ready prio) trivial).cursor.symm.trans hn)
  obtain ⟨hlt, _, _, _, hb⟩ := h.of_list hlist
  exact ⟨hb, hlt⟩

/-- The last stores of the recovery of a context switch. -/
theorem Switching.wpc_runs {E : Prop} (h : Switching cfg k) (hb : k.status t ≠ .blocked) (ht : t < k.taskCnt) :
    wpc (do
      setStatus t .running
      Kernel.setCurrent t
      setMicroOp .invalid 0) (fun _ => Rested cfg) E (Pending cfg) k := by
  have hrun := h.turn (v := .running) hb nofun
  have hcur := hrun.setCurrent ht
  exact wpc_bind (wpc_store h.pending hrun.pending (wpc_bind (wpc_store hrun.pending hcur.pending hcur.wpc_done)))

theorem Switching.recover (h : Switching cfg c) :
    wpc (recoverListTransaction cfg.toConfig) (fun _ => Rested cfg) (Unasserted cfg.toConfig c) (Pending cfg) c := by
  have hsame : Unasserted cfg.toConfig c := by
    apply unasserted_of_recoverTx
    rw [h.op]
    rfl
  obtain ⟨_, _, htask, _⟩ := peeks_pointers
  rw [wpc_congr (run_recoverListTransaction _ c), h.op]
  refine wpc_bind (wpc_pure h.pending ?_)
  unfold recoverAndRollForwardContextSwitch
  rw [wpc_congr (run_getMicroOp h.micro (by decide))]
  refine wpc_bind (htask h.pending hsame fun prevTask =>
    wpc_bind (wpc_gets h.pending (wpc_bind (wpc_gets h.pending ?_))))
  rcases hc : c.lists.cursor (.ready (c.priority prevTask)) with _ | n
  · exact wpc_bind (wpc_fail h.pending hsame)
  obtain ⟨hb, hlt⟩ := h.sound.cursor hc
  dsimp only
  split
  case isTrue he =>
    rw [he] at hb
    have hready := h.turn (v := .ready) hb nofun
    refine wpc_bind (wpc_store h.pending hready.pending (wpc_bind ?_))
    apply hready.wpc_nextItem
    intro r s hs hr
    cases r with
    | none => exact wpc_bind (wpc_fail hs.pending hsame)
    | some item =>
        obtain ⟨hitem, hlt⟩ := hr item rfl
        exact hs.wpc_runs hitem hlt
  case isFalse => exact h.wpc_runs hb hlt

theorem recover_due (hop : c.op = .delayListRemoval) (hnone : c.blockNodePtr = none) (cfg : Config) :
    recoverTx cfg c.op c = ⟨[], none⟩ := by
  rw [hop]
  unfold recoverTx recoverAndRollForwardOfDelaylistRemoval getMicroOp getOldLen getBlockNode
  cases hm : c.lists.getMicroOp with
  | none => simp only [assoc, gets_bind_apply, hm, fail_bind_apply]
  | some x => simp only [assoc, gets_bind_apply, hm, pure_bind_apply, hnone, fail_bind_apply]

/-! ### An interrupted move -/

section
variable {α : Type} {op : ListOpCode} {oldLen : Nat} {f : ListOpCode → Nat → NodeRef → Prog Kernel α}
  {g : ListOpCode → Nat → Nat → Prog Kernel α} {g' : ListOpCode → Nat → Nat → Nat → Prog Kernel α}

theorem run_node {n : NodeRef} (hmicro : k.lists.microOpOldLen = microOpOldLenOf op oldLen)
    (hlt : oldLen < 2 ^ opCodeShift) (hn : k.blockNodePtr = some n) : (do
      let op ← getMicroOp
      let oldLen ← getOldLen
      let node ← getBlockNode
      f op oldLen node) k = f op oldLen n k :=
  (run_getMicroOp hmicro hlt).trans ((run_getOldLen hmicro hlt).trans (run_getBlockNode hn))

theorem run_wait (hmicro : k.lists.microOpOldLen = microOpOldLenOf op oldLen) (hlt : oldLen < 2 ^ opCodeShift)
    (hw : k.waitListPtr = some w) (hcur : k.current = some t) : (do
      let op ← getMicroOp
      let oldLen ← getOldLen
      let w ← getWaitList
      let t ← getCurrent
      g' op oldLen w t) k = g' op oldLen w t k :=
  (run_getMicroOp hmicro hlt).trans ((run_getOldLen hmicro hlt).trans
    ((run_getWaitList hw).trans (run_getCurrent hcur)))

theorem run_delay (hmicro : k.lists.microOpOldLen = microOpOldLenOf op oldLen) (hlt : oldLen < 2 ^ opCodeShift)
    (hcur : k.current = some t) : (do
      let op ← getMicroOp
      let oldLen ← getOldLen
      let t ← getCurrent
      g op oldLen t) k = g op oldLen t k :=
  (run_getMicroOp hmicro hlt).trans ((run_getOldLen hmicro hlt).trans (run_getCurrent hcur))

theorem run_task (hmicro : k.lists.microOpOldLen = microOpOldLenOf op oldLen) (hlt : oldLen < 2 ^ opCodeShift)
    (ht : k.taskPtr = some t) : (do
      let op ← getMicroOp
      let oldLen ← getOldLen
      let t ← getTask
      g op oldLen t) k = g op oldLen t k :=
  (run_getMicroOp hmicro hlt).trans ((run_getOldLen hmicro hlt).trans (run_getTask ht))

end

variable {s : Lists NodeRef ListRef} {b : Option ListRef} {p q : Option NodeRef} {E : Prop}

theorem Rouses.concludes (hw : Rouses k t) (hop : k.op = .waitListPopRemoval) : Concludes cfg k.current E commit := by
  cases hw with
  | waitlist _ _ hcur => exact concludes_commit fun he => absurd he hcur
  | unsorted hop' => cases hop.symm.trans hop'

theorem Blocks.concludes (hr : Blocks k t) : Concludes cfg k.current E commit :=
  concludes_commit fun he => by cases hr.current.symm.trans he

theorem recover_popping (h : Moving cfg t (some .delayed) (some (.waiting w)) k) (hop : k.op = .waitListPopRemoval)
    (hw : Rouses k t) (hhead : k.lists.head (.waiting w) = some (.event t))
    (hs : Popping (logged k.lists .popFront (.waiting w)) (.waiting w) (.event t) s) (hl : s.list = k.lists.list) :
    wpc (recoverListTransaction cfg.toConfig) (fun _ => Rested cfg) E (Pending cfg) { k with lists := s } := by
  have hmicro : s.microOpOldLen = microOpOldLenOf .popFront (k.lists.len (.waiting w)) := by cases hs <;> rfl
  obtain ⟨_, hnone, hlen, hnext, _⟩ := h.sound.linked.popped id hhead
  have hwp : wpc (recoverFromFailedPopFront (.waiting w) (.event t) (k.lists.len (.waiting w)))
      (fun _ r => r = popped (logged k.lists .popFront (.waiting w)) (.waiting w) (.event t)) E
      (Popping (logged k.lists .popFront (.waiting w)) (.waiting w) (.event t)) s :=
    hs.wpc_recover hhead hnone hnext hlen rfl
  refine wpc_recoverTx hop ?_
  refine (wpc_congr (run_node (k := { k with lists := s }) hmicro (h.sound.len_lt _) hw.blockNodePtr)).mpr ?_
  refine wpc_bind (wpc_bind (wpc_gets (h.pending_popping hop hw hhead hs) ?_))
  dsimp only
  rw [hl, h.event]
  refine wpc_onLists (wpc_mono hwp ?_ fun c hc => h.pending_popping hop hw hhead hc)
  rintro _ _ rfl
  exact (h.pop hhead).wpc_wake (hw.congr rfl rfl rfl) (h.pending_popping hop hw hhead .done) (hw.concludes hop)

theorem recover_popped {oldLen : Nat} (h : Moving cfg t (some .delayed) none k) (hop : k.op = .waitListPopRemoval)
    (hw : Rouses k t) (hlt : oldLen < 2 ^ opCodeShift)
    (hmicro : k.lists.microOpOldLen = microOpOldLenOf .popFront oldLen) :
    wpc (recoverListTransaction cfg.toConfig) (fun _ => Rested cfg) E (Pending cfg) k := by
  have hk : Pending cfg k := .popped h hop hw hlt hmicro
  refine wpc_recoverTx hop ?_
  refine (wpc_congr (run_node hmicro hlt hw.blockNodePtr)).mpr (wpc_bind (wpc_bind (wpc_gets hk ?_)))
  dsimp only
  rw [h.event]
  exact wpc_pure hk (h.wpc_wake hw hk (hw.concludes hop))

theorem recover_leavingWait (h : Moving cfg t (some .delayed) (some (.waiting w)) k) (hop : k.op = .waitListRemoval)
    (hw : Rouses k t) (hs : Removing (logged k.lists .remove (.waiting w)) (.waiting w) (.event t) s)
    (hl : s.list = k.lists.list) :
    wpc (recoverListTransaction cfg.toConfig) (fun _ => Rested cfg) E (Pending cfg) { k with lists := s } := by
  have hlog := h.sound.linked.setMicroOpOldLen (microOpOldLenOf .remove (k.lists.len (.waiting w)))
  obtain ⟨hpos, _, hnext⟩ := hlog.linear id h.event
  have hwp : wpc (recoverFromFailedRemove (.waiting w) (.event t) (k.lists.len (.waiting w)))
      (fun _ r => r = unlisted k.lists (.waiting w) (.event t)) E
      (Removing (logged k.lists .remove (.waiting w)) (.waiting w) (.event t)) s := hs.wpc_recover hnext hpos
  refine wpc_recoverTx hop ?_
  refine (wpc_congr (run_node (k := { k with lists := s }) hs.microOpOldLen (h.sound.len_lt _) hw.blockNodePtr)).mpr ?_
  refine wpc_bind (wpc_gets (h.pending_leavingWait hop hw hs) ?_)
  dsimp only
  rw [hl, h.event]
  refine wpc_bind (wpc_onLists (wpc_mono hwp ?_ fun c hc => h.pending_leavingWait hop hw hc))
  rintro _ _ rfl
  have hleft := h.pending_leavingWait hop hw (.finish _ _ _)
  exact h.leaveWait.wpc_wake (hw.congr rfl rfl rfl) hleft concludes_invalidate

/-- The event node is out of the wait list, and the logged length is that of the delayed list as well. -/
theorem recover_leftWait {oldLen : Nat} (h : Moving cfg t (some .delayed) none k) (hop : k.op = .waitListRemoval)
    (hw : Rouses k t) (hlt : oldLen < 2 ^ opCodeShift) (hmicro : k.lists.microOpOldLen = microOpOldLenOf .remove oldLen)
    (hlen : oldLen = k.lists.len .delayed) :
    wpc (recoverListTransaction cfg.toConfig) (fun _ => Rested cfg) E (Pending cfg) k := by
  have hk : Pending cfg k := .leftWait h hop hw hlt hmicro
  have hsame : logged k.lists .remove .delayed = k.lists := by
    rw [logged, ← hlen, ← hmicro]
  have hs : Removing (logged k.lists .remove .delayed) .delayed (.sched t) k.lists := by
    rw [hsame]
    exact .start _ _ _
  refine wpc_recoverTx hop ?_
  refine (wpc_congr (run_node hmicro hlt hw.blockNodePtr)).mpr (wpc_bind (wpc_gets hk ?_))
  dsimp only
  rw [h.event, hlen]
  exact h.wpc_recoverWake hw hs concludes_invalidate

theorem recover_waking (h : Moving cfg t (some .delayed) none k) (hw : Rouses k t)
    (hs : Removing (logged k.lists .remove .delayed) .delayed (.sched t) s) :
    wpc (recoverListTransaction cfg.toConfig) (fun _ => Rested cfg) E (Pending cfg) { k with lists := s } := by
  have hk : Pending cfg { k with lists := s } := .waking h hw hs
  have hlt := h.sound.len_lt .delayed
  have hptr := hw.blockNodePtr
  cases hw with
  | waitlist hop hn hcur =>
      refine wpc_recoverTx hop ?_
      refine (wpc_congr (run_node (k := { k with lists := s }) hs.microOpOldLen hlt hptr)).mpr ?_
      exact h.wpc_recoverWake (.waitlist hop hn hcur) hs (concludes_commit fun he => absurd he hcur)
  | unsorted hop hn =>
      refine wpc_recoverTx hop ?_
      refine (wpc_congr (run_node (k := { k with lists := s }) hs.microOpOldLen hlt hptr)).mpr
        (wpc_bind (wpc_gets hk ?_))
      have hevent : s.list (.event t) = none := (hs.list_of_ne (event_ne_sched _ _)).trans h.event
      dsimp only
      rw [hevent]
      exact h.wpc_recoverWake (.unsorted hop hn) hs concludes_invalidate

theorem recover_readying (h : Moving cfg t none none k) (hr : Readies k t)
    (hs : Readying (logged k.lists .insertBeforeCursor (.ready (k.priority t))) (.ready (k.priority t)) (.sched t) s)
    (hl : s.list = Function.update k.lists.list (.sched t) (some (.ready (k.priority t))))
    (hown : k.op = .delayListRemoval → k.blockNodePtr = some (.event t)) (hE : k.op = .readyListInsert → E) :
    wpc (recoverListTransaction cfg.toConfig) (fun _ => Rested cfg) E (Pending cfg) { k with lists := s } := by
  have hmicro : s.microOpOldLen = microOpOldLenOf .insertBeforeCursor (k.lists.len (.ready (k.priority t))) := hs.log
  have hlt := h.sound.len_lt (.ready (k.priority t))
  cases hr with
  | woken hw =>
      have hptr := hw.blockNodePtr
      cases hw with
      | waitlist hop hn hcur =>
          refine wpc_recoverTx hop ?_
          refine (wpc_congr (run_node (k := { k with lists := s }) hmicro hlt hptr)).mpr ?_
          exact h.wpc_recoverReady (.woken (.waitlist hop hn hcur)) hs hl (concludes_commit fun he => absurd he hcur)
      | unsorted hop hn =>
          refine wpc_recoverTx hop ?_
          refine (wpc_congr (run_node (k := { k with lists := s }) hmicro hlt hptr)).mpr ?_
          exact h.wpc_recoverReady (.woken (.unsorted hop hn)) hs hl concludes_invalidate
  | created hop ht =>
      refine wpc_recoverTx hop ?_
      refine (wpc_congr (run_task (k := { k with lists := s }) hmicro hlt ht)).mpr ?_
      exact h.wpc_recoverReady (.created hop ht) hs hl (concludes_commit fun _ => hE hop)
  | due hop =>
      refine wpc_recoverTx hop ?_
      refine (wpc_congr (run_node (k := { k with lists := s }) hmicro hlt (hown hop))).mpr ?_
      exact h.wpc_recoverReady (.due hop) hs hl concludes_invalidate

/-- The task is popped off the delayed list, and waits in no other. -/
theorem recover_duePopped (h : Moving cfg t none none k) (hop : k.op = .delayListRemoval)
    (hlt : oldLen < 2 ^ opCodeShift) (hmicro : k.lists.microOpOldLen = microOpOldLenOf .popFront oldLen)
    (hn : k.blockNodePtr = some (.event t)) :
    wpc (recoverListTransaction cfg.toConfig) (fun _ => Rested cfg) E (Pending cfg) k := by
  have hk : Pending cfg k := .duePopped h hop hlt hmicro
  refine wpc_recoverTx hop ?_
  refine (wpc_congr (run_node hmicro hlt hn)).mpr (wpc_bind (wpc_bind (wpc_gets hk ?_)))
  dsimp only
  rw [h.event]
  refine wpc_pure hk (wpc_bind (wpc_bind (wpc_gets hk ?_)))
  dsimp only [NodeRef.task]
  rw [h.event]
  exact wpc_pure hk (h.wpc_ready (.due hop) hk concludes_invalidate)

/-- It leaves the wait list in which it waited. -/
theorem recover_dueLeaving (h : Moving cfg t none (some (.waiting w)) k) (hop : k.op = .delayListRemoval)
    (hs : Removing (logged k.lists .remove (.waiting w)) (.waiting w) (.event t) s) (hl : s.list = k.lists.list)
    (hn : k.blockNodePtr = some (.event t)) :
    wpc (recoverListTransaction cfg.toConfig) (fun _ => Rested cfg) E (Pending cfg) { k with lists := s } := by
  have hlog := h.sound.linked.setMicroOpOldLen (microOpOldLenOf .remove (k.lists.len (.waiting w)))
  obtain ⟨hpos, _, hnext⟩ := hlog.linear id h.event
  have hwp : wpc (recoverFromFailedRemove (.waiting w) (.event t) (k.lists.len (.waiting w)))
      (fun _ r => r = unlisted k.lists (.waiting w) (.event t)) E
      (Removing (logged k.lists .remove (.waiting w)) (.waiting w) (.event t)) s := hs.wpc_recover hnext hpos
  refine wpc_recoverTx hop ?_
  refine (wpc_congr (run_node (k := { k with lists := s }) hs.microOpOldLen (h.sound.len_lt _) hn)).mpr ?_
  refine wpc_bind (wpc_gets (h.pending_dueLeaving hop hs) ?_)
  dsimp only [NodeRef.task]
  rw [hl, h.event]
  refine wpc_bind (wpc_onLists (wpc_mono hwp ?_ fun c hc => h.pending_dueLeaving hop hc))
  rintro _ _ rfl
  exact h.leaveWait.wpc_ready (.due hop) (h.pending_dueLeaving hop (.finish _ _ _)) concludes_invalidate

/-- It has left the wait list, from which recovery would have it go on: `unwrap` of `None`. -/
theorem recover_dueLeft (h : Moving cfg t none none k) (hop : k.op = .delayListRemoval) (hlt : oldLen < 2 ^ opCodeShift)
    (hmicro : k.lists.microOpOldLen = microOpOldLenOf .remove oldLen) (hn : k.blockNodePtr = some (.event t))
    (cfg : Config) : recoverTx cfg k.op k = ⟨[], none⟩ := by
  rw [hop]
  refine (run_node hmicro hlt hn).trans ?_
  dsimp only [NodeRef.task]
  rw [gets_bind_apply, h.event]
  rfl

/-- A blocking transaction, whatever wait list it logged. -/
theorem recover_leavingReady (h : Moving cfg t (some (.ready (k.priority t))) none k) (hr : Blocks k t)
    (hs : LeavingReady k t s)
    (hclear : Cleared (logged k.lists .remove (.ready (k.priority t))) (.ready (k.priority t)) (.sched t) s) :
    wpc (recoverListTransaction cfg.toConfig) (fun _ => Rested cfg) E (Pending cfg) { k with lists := s } := by
  have hlt := h.sound.len_lt (.ready (k.priority t))
  rcases hr.op with hop | hop | hop
  · refine wpc_recoverTx hop ?_
    refine (wpc_congr (run_delay (k := { k with lists := s }) hs.log hlt hr.current)).mpr ?_
    refine h.wpc_recoverLeaveReady hr hs hclear fun hleft hpend => ?_
    exact hleft.wpc_delay nofun ⟨hr.current, hr.op, hr.wait⟩ (hpend _ (Or.inl rfl)) (hpend _ (Or.inr rfl)) hr.concludes
  · have hne : k.op ≠ .delayListInsert := fun he => by cases hop.symm.trans he
    obtain ⟨w, hw⟩ := hr.wait.resolve_left hne
    refine wpc_recoverTx hop ?_
    refine (wpc_congr (run_wait (k := { k with lists := s }) hs.log hlt hw hr.current)).mpr ?_
    refine h.wpc_recoverLeaveReady hr hs hclear fun hleft hpend => ?_
    exact hleft.wpc_wait ⟨hr.current, hr.op, hr.wait⟩ hne hw (hpend _ (Or.inl rfl)) concludes_invalidate
  · have hne : k.op ≠ .delayListInsert := fun he => by cases hop.symm.trans he
    obtain ⟨w, hw⟩ := hr.wait.resolve_left hne
    refine wpc_recoverTx hop ?_
    refine (wpc_congr (run_wait (k := { k with lists := s }) hs.log hlt hw hr.current)).mpr ?_
    refine h.wpc_recoverLeaveReady hr hs hclear fun hleft hpend => ?_
    exact hleft.wpc_wait ⟨hr.current, hr.op, hr.wait⟩ hne hw (hpend _ (Or.inl rfl)) concludes_invalidate

/-- The log names a sorted insertion that recovery of the transaction does not expect. -/
theorem recover_impossible {oldLen : Nat} (hop : c.op = .unsortedWaitListInsert)
    (hmicro : c.lists.microOpOldLen = microOpOldLenOf .insertSortedWaitList oldLen) (hlt : oldLen < 2 ^ opCodeShift)
    (hw : c.waitListPtr = some w) (hcur : c.current = some t) (cfg : Config) : recoverTx cfg c.op c = ⟨[], none⟩ := by
  rw [hop]
  exact run_wait hmicro hlt hw hcur

theorem recover_sorting (h : Moving cfg t none none k) (hr : Blocks k t) (hop : k.op = .waitListInsert)
    (hw : k.waitListPtr = some w) (hp : WaitPlace k t w k.lists p q)
    (hs : Sorting (logged k.lists .insertSortedWaitList (.waiting w)) (.waiting w) (.event t) p q s)
    (hdebug : ¬ (cfg.debugAssertions = true ∧ MarkedOnly s (.waiting w) (.event t))) :
    wpc (recoverListTransaction cfg.toConfig) (fun _ => Rested cfg) E (Pending cfg) { k with lists := s } := by
  have hlt := h.sound.len_lt (.waiting w)
  have hne : k.op ≠ .delayListInsert := fun he => by cases hop.symm.trans he
  have hk : Pending cfg { k with lists := s } := .sorting h hr hne hw hp hs
  refine wpc_recoverTx hop ?_
  refine (wpc_congr (run_wait (k := { k with lists := s }) hs.log hlt hw hr.current)).mpr ?_
  refine wpc_bind (wpc_gets hk (wpc_bind (wpc_gets hk ?_)))
  exact h.wpc_recoverWait hr hne hw hp hs hdebug concludes_invalidate

theorem recover_fronting (h : Moving cfg t none none k) (hr : Blocks k t) (hop : k.op = .unsortedWaitListInsert)
    (hw : k.waitListPtr = some w)
    (hs : Fronting (logged k.lists .insertFront (.waiting w)) (.waiting w) (.event t) s) :
    wpc (recoverListTransaction cfg.toConfig) (fun _ => Rested cfg) E (Pending cfg) { k with lists := s } := by
  have hlt := h.sound.len_lt (.waiting w)
  have hmicro : s.microOpOldLen = microOpOldLenOf .insertFront (k.lists.len (.waiting w)) := by cases hs <;> rfl
  refine wpc_recoverTx hop ?_
  refine (wpc_congr (run_wait (k := { k with lists := s }) hmicro hlt hw hr.current)).mpr ?_
  exact h.wpc_recoverFront hr hop hw hs concludes_invalidate

theorem recover_delaying (h : Moving cfg t none b k) (hb : ∀ l, b = some l → ∃ w, l = .waiting w) (hr : Blocks k t)
    (hp : DelayPlace k t k.lists p q) (hs : Delaying k.lists t p q s)
    (hdebug : ¬ (cfg.debugAssertions = true ∧ MarkedOnly s .delayed (.sched t))) :
    wpc (recoverListTransaction cfg.toConfig) (fun _ => Rested cfg) E (Pending cfg) { k with lists := s } := by
  have hlt := h.sound.len_lt .delayed
  rcases hr.op with hop | hop | hop
  · refine wpc_recoverTx hop ?_
    refine (wpc_congr (run_delay (k := { k with lists := s }) hs.log hlt hr.current)).mpr ?_
    exact h.wpc_recoverDelay hb hr hp hs hdebug hr.concludes
  · obtain ⟨w, hw⟩ := hr.wait.resolve_left fun he => by cases hop.symm.trans he
    refine wpc_recoverTx hop ?_
    refine (wpc_congr (run_wait (k := { k with lists := s }) hs.log hlt hw hr.current)).mpr ?_
    exact h.wpc_recoverDelay hb hr hp hs hdebug concludes_invalidate
  · obtain ⟨w, hw⟩ := hr.wait.resolve_left fun he => by cases hop.symm.trans he
    refine wpc_recoverTx hop ?_
    refine (wpc_congr (run_wait (k := { k with lists := s }) hs.log hlt hw hr.current)).mpr ?_
    exact h.wpc_recoverDelay hb hr hp hs hdebug concludes_invalidate

theorem Readies.task (hr : Readies k t) (hown : k.op = .delayListRemoval → k.blockNodePtr = some (.event t)) :
    readiedTask k = some t := by
  unfold readiedTask
  cases hr with
  | woken hw =>
      have hne : k.op ≠ .readyListInsert := by
        intro he
        cases hw with
        | waitlist hop => cases he.symm.trans hop
        | unsorted hop => cases he.symm.trans hop
      rw [if_neg hne, hw.blockNodePtr]
      rfl
  | created hop ht => rw [if_pos hop, ht]
  | due hop =>
      have hne : k.op ≠ .readyListInsert := fun he => by cases he.symm.trans hop
      rw [if_neg hne, hown hop]
      rfl

/-- The task that departs is the one that moves. -/
theorem Departing.unique {a : Option ListRef} (hd : Departing { k with lists := s } w) (h : Moving cfg t a b k)
    (hl : ∀ n, n.task ≠ t → s.list n = k.lists.list n) : w = t := by
  by_contra hwt
  refine hwt (h.unique hd.status ?_)
  rw [← hl (.sched w) hwt]
  exact hd.sched

/-- A removal from the delayed list, of the logged node. -/
def Owned (c : Kernel) : Prop :=
  c.op = .delayListRemoval → c.lists.getMicroOp ≠ some .invalid → ∃ t, c.blockNodePtr = some (.event t) ∧ Departing c t

theorem Owned.blockNodePtr {a : Option ListRef} {op : ListOpCode} {oldLen : Nat} (ho : Owned { k with lists := s })
    (h : Moving cfg t a b k) (hl : ∀ n, n.task ≠ t → s.list n = k.lists.list n) (hlt : oldLen < 2 ^ opCodeShift)
    (hmicro : s.microOpOldLen = microOpOldLenOf op oldLen) (hne : op ≠ .invalid) (hop : k.op = .delayListRemoval) :
    k.blockNodePtr = some (.event t) ∧ Departing { k with lists := s } t := by
  obtain ⟨u, hn, hd⟩ := ho hop fun he => hne (Option.some.inj ((Lists.getMicroOp_eq hlt hmicro).symm.trans he))
  obtain rfl := hd.unique h hl
  exact ⟨hn, hd⟩

/-- Recovery from whatever a failure leaves, unless it comes to one of the defects. -/
theorem Pending.recover (h : Pending cfg c) (hs : Spared cfg.toConfig c) :
    wpc (recoverListTransaction cfg.toConfig) (fun _ => Rested cfg) (Unasserted cfg.toConfig c) (Pending cfg) c := by
  by_cases hnone : c.op = .delayListRemoval ∧ c.blockNodePtr = none
  · exact wpc_of_stuck h (recover_due hnone.1 hnone.2) _
  have hown : Owned c := by
    intro hop hm
    obtain ⟨n, hn⟩ := Option.ne_none_iff_exists'.mp fun he => hnone ⟨hop, he⟩
    obtain ⟨t, rfl, hd⟩ := hs.due hop hm n hn
    exact ⟨t, hn, hd⟩
  cases h with
  | resting h hm => exact recover_resting h hm (unasserted_resting hm _)
  | switching h => exact h.recover
  | @duePopping k t oldLen b s h hop hlt hm hl =>
      -- the task is in the delayed list still
      obtain ⟨_, hd⟩ := hown.blockNodePtr h (fun n _ => by rw [hl]) hlt hm nofun hop
      refine absurd ?_ hd.sched
      dsimp only
      rw [hl]
      exact h.sched
  | duePopped h hop hlt hm =>
      obtain ⟨hn, hd⟩ := hown.blockNodePtr h (fun _ _ => rfl) hlt hm nofun hop
      obtain rfl := h.event.symm.trans (hd.event (Lists.getMicroOp_eq hlt hm))
      exact recover_duePopped h hop hlt hm hn
  | @dueLeaving k t w s h hop hr hl =>
      obtain ⟨hn, _⟩ := hown.blockNodePtr h (fun n _ => by rw [hl]) (h.sound.len_lt (.waiting w)) hr.microOpOldLen
        nofun hop
      exact recover_dueLeaving h hop hr hl hn
  | dueLeft h hop hlt hm =>
      obtain ⟨hn, _⟩ := hown.blockNodePtr h (fun _ _ => rfl) hlt hm nofun hop
      exact wpc_of_stuck (.dueLeft h hop hlt hm) (recover_dueLeft h hop hlt hm hn) _
  | popping h hop hw hhead hpop hl => exact recover_popping h hop hw hhead hpop hl
  | popped h hop hw hlt hm => exact recover_popped h hop hw hlt hm
  | leavingWait h hop hw hr hl => exact recover_leavingWait h hop hw hr hl
  | leftWait h hop hw hlt hm =>
      have hin := h.sound.linked.inList_iff.mpr h.sched
      have hlen := hs.removed hop (Lists.getMicroOp_eq hlt hm) _ hw.blockNodePtr h.event hin
      rw [Lists.getOldLen_eq hlt hm] at hlen
      exact recover_leftWait h hop hw hlt hm hlen
  | waking h hw hr => exact recover_waking h hw hr
  | @entering k t h hr =>
      have hlt := h.sound.len_lt (.ready (k.priority t))
      have htask := hr.task fun hop => (hown.blockNodePtr h (fun _ _ => rfl) hlt rfl nofun hop).1
      exact absurd h.sched (hs.entered (Lists.getMicroOp_eq hlt rfl) t htask)
  | @readying k t s h hr hready hl =>
      have hother : ∀ n, n.task ≠ t → s.list n = k.lists.list n := fun n hn => by
        rw [hl]
        exact update_of_task_ne hn
      refine recover_readying h hr hready hl (fun hop => ?_) fun hop => unasserted_of_recoverTx ?_
      · exact (hown.blockNodePtr h hother (h.sound.len_lt (.ready (k.priority t))) hready.log nofun hop).1
      dsimp only
      rw [hop]
      rfl
  | @leavingReady k t s h hr hleft =>
      refine recover_leavingReady h hr hleft fun hone => ?_
      have hlt := h.sound.len_lt (.ready (k.priority t))
      have hop : k.op = .waitListInsert ∨ k.op = .unsortedWaitListInsert ∨ k.op = .delayListInsert := by
        rcases hr.op with hop | hop | hop
        · exact Or.inr (Or.inr hop)
        · exact Or.inl hop
        · exact Or.inr (Or.inl hop)
      refine hs.emptied hop (Lists.getMicroOp_eq hlt hleft.log) t hr.current ?_ hone.2
      exact (Lists.getOldLen_eq hlt hleft.log).trans hone.1
  | @sorting k t w p q s h hr hne hw hp hsort =>
      have hlt := h.sound.len_lt (.waiting w)
      rcases hr.op with hop | hop | hop
      · exact absurd hop hne
      · refine recover_sorting h hr hop hw hp hsort ?_
        exact hs.waiting hop (Lists.getMicroOp_eq hlt hsort.log) t w hr.current hw
      · have hstuck := recover_impossible (c := { k with lists := s }) hop hsort.log hlt hw hr.current
        exact wpc_of_stuck (Pending.sorting h hr hne hw hp hsort) hstuck _
  | fronting h hr hop hw hf => exact recover_fronting h hr hop hw hf
  | @delaying k t b p q s h hb hr hp hd =>
      refine recover_delaying h hb hr hp hd ?_
      exact hs.delayed (Lists.getMicroOp_eq (h.sound.len_lt .delayed) hd.log) t hr.current

/-! ## Operations -/

/-- The current task runs, and is in its ready list. -/
def Dispatched (k : Kernel) : Prop := ∀ t, k.current = some t → InList k (.sched t) (.ready (k.priority t))

/-- Only a task that runs blocks itself, and an event group wakes tasks that wait. -/
def Op.Allowed (k : Kernel) : Op → Prop
  | taskDelay _ => Dispatched k
  | block _ _ => Dispatched k
  | blockUnsorted _ _ => Dispatched k
  | wakeNode w n => InList k n (.waiting w)
  | _ => True

/-- An operation that stops stops before its list transaction begins. -/
def Early {α : Type} (cfg : Target) (m : Prog Kernel α) (k : Kernel) : Prop :=
  wpcEarly (fun c => c.op = .invalid) m (fun _ => Rested cfg) (Pending cfg) k

/-- Before the list transaction. -/
theorem Rested.before {α β : Type} {m : Prog Kernel α} {f : α → Prog Kernel β}
    (h : wpc m (fun a k' => Early cfg (f a) k') True (Rested cfg) k) : Early cfg (m >>= f) k :=
  wpcEarly_bind (wpc_mono h (fun _ _ hq => hq) fun _ hc => ⟨hc.pending, hc.op⟩)

theorem Rested.done {α : Type} (h : Rested cfg k) (a : α) : Early cfg (pure a) k := by
  have hw : wpc (pure a) (fun _ => Rested cfg) False (Pending cfg) k := wpc_pure h.pending h
  exact hw.early

theorem Rested.stop (h : Rested cfg k) : Early cfg (fail : Prog Kernel Unit) k := by
  refine ⟨wpc_fail h.pending trivial, fun _ c hc => ?_⟩
  rw [List.mem_singleton.mp hc]
  exact h.op

theorem Rested.getCurrent {f : Nat → Prog Kernel Unit} (h : Rested cfg k)
    (hf : ∀ t, k.current = some t → Early cfg (f t) k) : Early cfg (Kernel.getCurrent >>= f) k := by
  apply Rested.before
  rcases hcur : k.current with _ | t
  · exact wpc_noCurrent hcur h trivial
  · exact wpc_getCurrent hcur h (hf t hcur)

theorem Rested.setWakeupTime (h : Rested cfg k) (hn : k.lists.list (.sched t) = some (.ready (k.priority t)))
    (v : Nat) :
    Rested cfg { k with wakeupTime := Function.update k.wakeupTime t v } := by
  obtain ⟨_, _, _, _, hb⟩ := h.sound.of_list hn
  have hmoving := (h.sound.executing hn).setWakeupTime nofun nofun v
  exact ⟨hmoving.arrive (Or.inr (Or.inl ⟨rfl, rfl, hb⟩)), h.op, h.micro⟩

theorem Rested.taskDelay (h : Rested cfg k) (ho : Dispatched k) (nticks : Nat) :
    Early cfg (Kernel.taskDelay cfg.toConfig nticks) k := by
  refine h.getCurrent fun t hcur => Rested.before (wpc_gets h (Rested.before ?_))
  have hn := h.sound.linked.inList_iff.mp (ho t hcur)
  refine wpc_bind (wpc_check h (fun _ => trivial) fun _ => wpc_pure h (Rested.before ?_))
  have hset := h.setWakeupTime hn (k.tickCounter + nticks)
  refine wpc_store h hset (Rested.before (wpc_bypass_any hset fun b => ?_))
  cases b with
  | true => exact hset.done ()
  | false => exact (hset.wpc_delayInsert hcur hn).early

theorem Rested.blockOnWaitlist (h : Rested cfg k) (ho : Dispatched k) (w wakeupTime : Nat) :
    Early cfg (Kernel.blockOnWaitlist cfg.toConfig w wakeupTime) k := by
  refine h.getCurrent fun t hcur => Rested.before ?_
  have hn := h.sound.linked.inList_iff.mp (ho t hcur)
  have hset := h.setWakeupTime hn wakeupTime
  exact wpc_store h hset (hset.wpc_waitInsert hcur hn).early

theorem Rested.blockOnUnsortedWaitlist (h : Rested cfg k) (ho : Dispatched k) (w wakeupTime : Nat) :
    Early cfg (Kernel.blockOnUnsortedWaitlist cfg.toConfig w wakeupTime) k := by
  refine h.getCurrent fun t hcur => Rested.before ?_
  have hn := h.sound.linked.inList_iff.mp (ho t hcur)
  have hset := h.setWakeupTime hn wakeupTime
  exact wpc_store h hset (hset.wpc_unsortedInsert hcur hn).early

theorem Rested.wake (h : Rested cfg k) (w : Nat) : Early cfg (rollForwardPopRemoveFromWaitlist cfg.toConfig w) k := by
  apply Rested.before
  rcases hcur : k.current with _ | t
  · exact wpc_bind (wpc_noCurrent hcur h trivial)
  refine wpc_bypass_any h fun b => ?_
  cases b with
  | true => exact h.done ()
  | false => exact (h.wpc_popRemove hcur).early

theorem Rested.taskSwitch (h : Rested cfg k) : Early cfg (Kernel.taskSwitch cfg.toConfig) k := by
  refine h.getCurrent fun prevTask hcur => Rested.before (wpc_gets h ?_)
  rcases hnext : nextTask k with _ | ⟨i, t⟩
  · exact h.stop
  dsimp only
  split
  · refine Rested.before (wpc_gets h (Rested.before (wpc_check h (fun _ => trivial) fun _ => ?_)))
    exact (h.wpc_contextSwitch hnext).early
  · refine Rested.before (wpc_gets h ?_)
    unfold check
    split
    · exact h.done ()
    · exact h.stop

/-- The loop of `process_tick` has rounds enough. -/
theorem Rested.wpc_wakeDue {E : Prop} (h : Rested cfg k) (curTicks : Nat) {fuel : Nat}
    (hfuel : k.lists.len .delayed < fuel) :
    wpc (wakeDue cfg.toConfig curTicks fuel) (fun _ => Rested cfg) E (Pending cfg) k := by
  induction fuel generalizing k with
  | zero => exact absurd hfuel (Nat.not_lt_zero _)
  | succ fuel ih =>
      refine wpc_bind (wpc_gets h.pending ?_)
      rcases hhead : k.lists.head .delayed with _ | n
      · exact wpc_pure h.pending h
      refine wpc_bind (wpc_gets h.pending ?_)
      split
      · exact wpc_pure h.pending h
      · obtain ⟨_, _, hpos, _⟩ := h.sound.linked.popped id hhead
        refine wpc_bind (wpc_mono (h.wpc_delayRemoval hhead) ?_ fun _ hc => hc)
        rintro _ r ⟨hr, hlen⟩
        exact ih hr (by omega)

theorem Sound.len_le (h : Sound cfg none k) (l : ListRef) : k.lists.len l ≤ nodeBound k := by
  obtain ⟨seq, hs, _⟩ := h.linked
  rw [hs.len]
  exact length_le h.free (hs.nodup l) fun x hx => (hs.owner l x).mpr hx

theorem Rested.processTick (h : Rested cfg k) : Early cfg (Kernel.processTick cfg.toConfig) k := by
  apply Rested.before
  refine wpc_bind (wpc_gets h (wpc_bind (wpc_check h (fun _ => trivial) fun _ => ?_)))
  generalize (k.tickCounter + 1) % 2 ^ cfg.timeBits = v
  have hticked : Rested cfg { k with tickCounter := v } := h.alike ⟨rfl, rfl, rfl, rfl, rfl, rfl⟩ rfl
  refine wpc_bind (wpc_store h hticked (wpc_pure hticked (Rested.before (wpc_gets hticked ?_))))
  split
  · apply wpc.early
    refine wpc_bind (wpc_gets hticked.pending (wpc_bind ?_))
    refine wpc_mono (hticked.wpc_wakeDue v (Nat.lt_succ_of_le (h.sound.len_le .delayed))) ?_ fun _ hc => hc
    intro _ r hr
    refine wpc_bind (wpc_gets hr.pending (wpc_bind (wpc_gets hr.pending ?_)))
    have hnext : Rested cfg { r with nextUnblockTime :=
      ((r.lists.head .delayed).map fun n => r.wakeupTime n.task).getD cfg.maxDelayTime } :=
        hr.alike ⟨rfl, rfl, rfl, rfl, rfl, rfl⟩ rfl
    exact wpc_store hr.pending hnext.pending hnext
  · exact hticked.done ()

/-- A task that is not in its ready list yet. -/
structure Fresh (cfg : Target) (t : Nat) (c : Kernel) : Prop where
  moving : Moving cfg t none none c
  op : c.op = .invalid
  micro : c.lists.microOpOldLen = 0
  status : c.status t ≠ .blocked

theorem Fresh.rested (h : Fresh cfg t k) : Rested cfg k :=
  ⟨h.moving.arrive (Or.inl ⟨rfl, rfl, h.status⟩), h.op, h.micro⟩

theorem Fresh.alike (h : Fresh cfg t k) (ha : Alike k c) (hop : c.op = k.op) : Fresh cfg t c := by
  refine ⟨h.moving.alike ha, hop.trans h.op, ?_, ?_⟩
  · rw [ha.lists]
    exact h.micro
  · rw [ha.status]
    exact h.status

theorem Fresh.setPriority (h : Fresh cfg t k) (prio : Nat) :
    Fresh cfg t { k with priority := Function.update k.priority t prio } := by
  obtain ⟨⟨hs, hlt, hsched, hevent⟩, hop, hmicro, hstatus⟩ := h
  refine ⟨⟨⟨hs.linked, fun u hu => ?_, hs.free, hs.current, hs.limit⟩, hlt, hsched, hevent⟩, hop, hmicro, hstatus⟩
  have hut : u ≠ t := fun he => hu (congrArg some he.symm)
  unfold Housed Placed
  dsimp only
  rw [Function.update_of_ne hut]
  exact hs.housed u hu

theorem Fresh.stays_resetNode {n : NodeRef} (hn : n.task = t) :
    Stays (Fresh cfg t) (onLists (resetNode n)) fun _ => True := by
  intro c h
  have hnone : c.lists.list n = none := by
    cases n with
    | sched u =>
        cases hn
        exact h.moving.sched
    | event u =>
        cases hn
        exact h.moving.event
  obtain ⟨seq, hs, hsorted⟩ := h.moving.sound.linked
  have hout : ∀ l, n ∉ seq l := fun l hl => by cases hnone.symm.trans ((hs.owner l n).mpr hl)
  -- the same sequences, so the same fields `list`
  have hin : ∀ r, Holds ListRef.IsReady r seq ∧ r.microOpOldLen = 0 → Fresh cfg t { c with lists := r } := by
    rintro r ⟨hr, hmicro⟩
    have hlist : r.list = c.lists.list := funext fun x => Option.ext fun l => (hr.owner l x).trans (hs.owner l x).symm
    refine ⟨⟨⟨⟨seq, hr, hsorted⟩, fun u hu => ?_, fun x hx => ?_, h.moving.sound.current, h.moving.sound.limit⟩,
      h.moving.lt, ?_, ?_⟩, h.op, hmicro, h.status⟩
    · unfold Housed Placed
      dsimp only
      rw [hlist]
      exact h.moving.sound.housed u hu
    · dsimp only
      rw [hlist]
      exact h.moving.sound.free x hx
    · dsimp only
      rw [hlist]
      exact h.moving.sched
    · dsimp only
      rw [hlist]
      exact h.moving.event
  apply wpc_onLists
  refine wpc_mono (holds_resetNode hout c.lists ⟨hs, h.micro⟩) ?_ hin
  exact fun _ r hr => ⟨hin r hr.1, trivial⟩

theorem Fresh.stays_initializeTask (prio : Nat) : Stays (Fresh cfg t) (initializeTask t prio) fun _ => True := by
  have hsched : Stays (Fresh cfg t) (onLists (resetNode (.sched t))) fun _ => True := Fresh.stays_resetNode rfl
  have hevent : Stays (Fresh cfg t) (onLists (resetNode (.event t))) fun _ => True := Fresh.stays_resetNode rfl
  have hwake : Stays (Fresh cfg t) (setWakeupTime t 0) fun _ => True :=
    stays_store fun c h => ⟨h.moving.setWakeupTime nofun nofun 0, h.op, h.micro, h.status⟩
  have hset : Stays (Fresh cfg t) (setStatus t .ready) fun _ => True :=
    stays_store fun c h => ⟨h.moving.setStatus .ready, h.op, h.micro, by simp⟩
  refine hsched.bind fun _ _ => hevent.bind fun _ _ => hwake.bind fun _ _ => ?_
  refine Stays.bind (stays_store fun c h => h.alike ⟨rfl, rfl, rfl, rfl, rfl, rfl⟩ rfl) fun _ _ => ?_
  refine Stays.bind (stays_store fun c h => h.setPriority prio) fun _ _ => hset.bind fun _ _ => ?_
  exact stays_store fun c h => h.alike ⟨rfl, rfl, rfl, rfl, rfl, rfl⟩ rfl

/-- The next task id is taken. -/
theorem Rested.fresh (h : Rested cfg k) (hlt : k.taskCnt < cfg.taskNumLimit) :
    Fresh cfg k.taskCnt { k with taskCnt := k.taskCnt + 1 } := by
  have hs := h.sound.but k.taskCnt
  refine ⟨⟨⟨hs.linked, hs.housed, fun n hn => ?_, fun t ht => ?_, hlt⟩, Nat.lt_succ_self _, ?_, ?_⟩, h.op, h.micro, ?_⟩
  · exact hs.free n (Nat.le_of_succ_le hn)
  · exact Nat.lt_succ_of_lt (hs.current t ht)
  · exact hs.free (.sched k.taskCnt) (Nat.le_refl _)
  · exact hs.free (.event k.taskCnt) (Nat.le_refl _)
  · have hfree := h.sound.free (.sched k.taskCnt) (Nat.le_refl _)
    rcases h.sound.housed k.taskCnt nofun with ⟨_, _, hb⟩ | ⟨hready, _⟩ | ⟨hdelayed, _⟩
    · exact hb
    · cases hfree.symm.trans hready
    · cases hfree.symm.trans hdelayed

theorem Fresh.setCurrent (h : Fresh cfg t k) : Fresh cfg t { k with current := some t } :=
  ⟨⟨h.moving.sound.setCurrent h.moving.lt, h.moving.lt, h.moving.sched, h.moving.event⟩, h.op, h.micro, h.status⟩

theorem Fresh.wpc_insert {E : Prop} (h : Fresh cfg t k) : wpc (do
      rollForwardInsertIntoReadylist t
      pure (.ok t : Except ErrorCode Nat)) (fun _ => Rested cfg) E (Pending cfg) k := by
  apply wpc_bind
  refine wpc_mono (h.rested.wpc_readyInsert h.moving.lt h.moving.sched h.moving.event) ?_ fun _ hc => hc
  exact fun _ r hr => wpc_pure hr.pending hr

theorem Rested.createTaskStatic (h : Rested cfg k) (prio : Nat) :
    Early cfg (Kernel.createTaskStatic cfg.toConfig prio) k := by
  refine Rested.before (wpc_gets h ?_)
  split
  · exact h.done _
  case isFalse hlt =>
  split
  · exact h.done _
  have hfresh := h.fresh (Nat.lt_of_not_le hlt)
  refine Rested.before (wpc_store h hfresh.rested (Rested.before ?_))
  refine wpc_mono (Fresh.stays_initializeTask prio _ hfresh) ?_ fun _ hc => hc.rested
  rintro _ c ⟨hc, _⟩
  refine Rested.before (wpc_gets hc.rested (Rested.before (wpc_gets hc.rested ?_)))
  split
  · have hcur := hc.setCurrent
    have hmax : Fresh cfg k.taskCnt { c with current := some k.taskCnt, curMaxPriority := prio } :=
      hcur.alike ⟨rfl, rfl, rfl, rfl, rfl, rfl⟩ rfl
    refine Rested.before (wpc_store hc.rested hcur.rested (Rested.before (wpc_store hcur.rested hmax.rested ?_)))
    exact hmax.wpc_insert.early
  · exact hc.wpc_insert.early

/-- No operation comes to an assertion. -/
theorem Rested.exec (h : Rested cfg k) {op : Op} (ho : op.Allowed k) : Early cfg (op.prog cfg.toConfig) k := by
  cases op with
  | createTask prio =>
      obtain ⟨hw, hearly⟩ := h.createTaskStatic prio
      exact wpcEarly_then ⟨wpc_mono hw (fun _ _ hr => wpc_pure hr.pending hr) fun _ hc => hc, hearly⟩
  | startKernel =>
      have hstarted : Rested cfg { k with schedulerStarted := true } := h.alike ⟨rfl, rfl, rfl, rfl, rfl, rfl⟩ rfl
      exact (wpc_store h.pending hstarted.pending hstarted).early
  | taskDelay nticks => exact h.taskDelay ho nticks
  | block w wakeupTime => exact h.blockOnWaitlist ho w wakeupTime
  | blockUnsorted w wakeupTime => exact h.blockOnUnsortedWaitlist ho w wakeupTime
  | wake w => exact h.wake w
  | wakeNode w n => exact (h.wpc_unsortedRemove (h.sound.linked.inList_iff.mp ho)).early
  | processTick => exact h.processTick
  | taskSwitch => exact h.taskSwitch
  | syscallEnd =>
      refine h.getCurrent fun t _ => ?_
      have hreset : Rested cfg { k with listTxDone := Function.update k.listTxDone t false } :=
        h.alike ⟨rfl, rfl, rfl, rfl, rfl, rfl⟩ rfl
      exact (wpc_store h.pending hreset.pending hreset).early

/-! ## Runs with power failures -/

/-- The states in which operations and recoveries start, over all schedules of power failures that leave a state of
`ok`. -/
inductive Outages (cfg : Target) (ok : Kernel → Prop) : Phase → Kernel → Prop
  | boot : Outages cfg ok .up (new cfg.toConfig)
  | other {k k' : Kernel} : Outages cfg ok .up k → Alike k k' → k'.op = k.op → Outages cfg ok .up k'
  | completed {k k' : Kernel} {op : Op} : Outages cfg ok .up k → op.Allowed k →
      (op.prog cfg.toConfig k).out = some ((), k') → Outages cfg ok .up k'
  | failed {k c : Kernel} {op : Op} : Outages cfg ok .up k → op.Allowed k → c ∈ crashes (op.prog cfg.toConfig) k →
      ok c → Outages cfg ok .down c
  | failedAgain {c c' : Kernel} : Outages cfg ok .down c → c' ∈ ((recoverListTransaction cfg.toConfig) c).trace →
      ok c' → Outages cfg ok .down c'
  | recovered {c k : Kernel} : Outages cfg ok .down c → ((recoverListTransaction cfg.toConfig) c).out = some ((), k) →
      Outages cfg ok .up k

/-- No assertion of the list code fails in what starts in the state. -/
def NoneFails (cfg : Config) : Phase → Kernel → Prop
  | .up, k => ∀ op : Op, op.Allowed k → NoAssertionFails (fun cfg => op.prog cfg) cfg k
  | .down, c => NoAssertionFails (fun cfg => recoverListTransaction cfg) cfg c

theorem Outages.inv {phase : Phase} (h : Outages cfg (Spared cfg.toConfig) phase k) :
    match phase with
    | .up => Rested cfg k
    | .down => Pending cfg k ∧ Spared cfg.toConfig k := by
  induction h with
  | boot => exact ⟨sound_new cfg, rfl, rfl⟩
  | other _ ha hop ih => exact ih.alike ha hop
  | completed _ ho hout ih => exact (ih.exec ho).1.post hout
  | failed _ ho hc hok ih => exact ⟨(ih.exec ho).1.crash hc, hok⟩
  | failedAgain _ hc hok ih => exact ⟨(ih.1.recover ih.2).trace hc, hok⟩
  | recovered _ hout ih => exact (ih.1.recover ih.2).post hout

/-- In a run whose failures leave spared states, no assertion of the list code fails. -/
theorem outages_noneFails {phase : Phase} (h : Outages cfg (Spared cfg.toConfig) phase k) :
    NoneFails cfg.toConfig phase k := by
  cases phase with
  | up => exact fun op ho hout => Or.inl ((h.inv.exec ho).2 hout)
  | down =>
      obtain ⟨hpending, hspared⟩ := h.inv
      intro hout
      have hw := (hpending.recover hspared).2
      rw [hout] at hw
      exact Or.inr hw

/-- A kernel with one task, which runs. -/
def loneTask : Kernel := (Op.createTask 0).exec qemuTarget.toConfig (new qemuTarget.toConfig)

theorem outages_loneTask (ok : Kernel → Prop) : Outages qemuTarget ok .up loneTask :=
  .completed .boot (show (Op.createTask 0).Allowed _ from trivial) rfl

theorem dispatched_loneTask : (Op.taskDelay 5).Allowed loneTask := by
  intro t ht
  cases ht
  exact ⟨.sched 0, rfl, .refl⟩

/-- Power fails when the task is the head of the delayed list. -/
theorem outages_noneFails_delay : ∃ c, Outages qemuTarget (Spared qemuTarget.toConfig) .down c ∧
    c.lists.head .delayed = some (.sched 0) ∧ NoneFails qemuTarget.toConfig .down c := by
  have hmem : (crashes ((Op.taskDelay 5).prog qemuTarget.toConfig) loneTask)[13]? = some _ := rfl
  have hdown := Outages.failed (outages_loneTask (Spared qemuTarget.toConfig)) dispatched_loneTask
    (List.mem_of_getElem? hmem) ⟨fun _ t ht => ?_, nofun, nofun, nofun, nofun, nofun⟩
  · exact ⟨_, hdown, rfl, outages_noneFails hdown⟩
  · cases ht
    exact fun h => h.2.head rfl

/-- The logged transaction, and whether recovery completes it with and without assertions, after a failure at store
`i`. -/
def completesAfterFailure (i : Nat) : Option (ListTxOpCode × Bool × Bool) := do
  let c ← (crashes ((Op.taskDelay 5).prog qemuTarget.toConfig) loneTask)[i]?
  pure (c.op, ((recoverListTransaction qemuTarget.toConfig) c).out.isSome,
    ((recoverListTransaction qemuTarget.toConfig.release) c).out.isSome)

/-- Power fails when the task is marked only: the assertion that it is in no list stops recovery. -/
theorem assertion_fails_marked : ∃ c, Outages qemuTarget (fun _ => True) .down c ∧
    ¬ NoneFails qemuTarget.toConfig .down c := by
  have hrun : completesAfterFailure 12 = some (.delayListInsert, false, true) := by decide +kernel
  unfold completesAfterFailure at hrun
  obtain ⟨c, hc, hrec⟩ := Option.bind_eq_some_iff.mp hrun
  obtain ⟨hop, hrest⟩ := Prod.mk.inj (Option.some.inj hrec)
  obtain ⟨hdebug, hrelease⟩ := Prod.mk.inj hrest
  have hdown := Outages.failed (outages_loneTask fun _ => True) dispatched_loneTask
    (List.mem_of_getElem? hc) trivial
  refine ⟨c, hdown, fun h => ?_⟩
  rcases h (Option.isNone_iff_eq_none.mp (by rwa [Option.isSome_eq_false_iff] at hdebug)) with hall | hsame
  · cases hop.symm.trans (hall c (mem_crashes_self _ _))
  · have houts := congrArg (fun r : Run Kernel Unit => r.out.isSome) hsame
    cases hrelease.symm.trans (houts.trans hdebug)

end Kernel

end IntOS
