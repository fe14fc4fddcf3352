import IntOS.List.Lemmas.CrashAgain
import IntOS.Sched.Lemmas.Pending

/-!
# Recovery of an interrupted move

Recovery of a move completes it, and wherever it fails again it leaves a state in which the move itself could have
failed. What is left of the transaction then runs as it would have run.
-/

namespace IntOS

open Persist Persist.Prog IntOS.Lists

namespace Kernel

variable {α : Type} {cfg : Target} {k c : Kernel} {t w oldLen : Nat} {a b : Option ListRef} {p q : Option NodeRef}
  {s : Lists NodeRef ListRef} {m : Prog Kernel Unit} {E : Prop} {op : ListOpCode}
  {impossible : {α : Type} → Prog Kernel α}

/-! ## Reading the log -/

theorem run_getMicroOp {f : ListOpCode → Prog Kernel α} (h : k.lists.microOpOldLen = microOpOldLenOf op oldLen)
    (hlt : oldLen < 2 ^ opCodeShift) : (getMicroOp impossible >>= f) k = f op k := by
  simp only [getMicroOp, assoc, gets_bind_apply, Lists.getMicroOp_eq hlt h, pure_bind_apply]

theorem run_getOldLen {f : Nat → Prog Kernel α} (h : k.lists.microOpOldLen = microOpOldLenOf op oldLen)
    (hlt : oldLen < 2 ^ opCodeShift) : (getOldLen >>= f) k = f oldLen k := by
  simp only [getOldLen, gets_bind_apply, Lists.getOldLen_eq hlt h]

theorem run_getBlockNode {n : NodeRef} {f : NodeRef → Prog Kernel α} (h : k.blockNodePtr = some n) :
    (getBlockNode impossible >>= f) k = f n k := by
  simp only [getBlockNode, assoc, gets_bind_apply, h, pure_bind_apply]

theorem run_getWaitList {f : Nat → Prog Kernel α} (h : k.waitListPtr = some w) :
    (getWaitList impossible >>= f) k = f w k := by
  simp only [getWaitList, assoc, gets_bind_apply, h, pure_bind_apply]

theorem run_getTask {f : Nat → Prog Kernel α} (h : k.taskPtr = some t) : (getTask impossible >>= f) k = f t k := by
  simp only [getTask, assoc, gets_bind_apply, h, pure_bind_apply]

theorem run_getCurrent {f : Nat → Prog Kernel α} (h : k.current = some t) : (getCurrent >>= f) k = f t k := by
  simp only [getCurrent, assoc, gets_bind_apply, h, pure_bind_apply]

/-! ## Waking -/

/-- Recovery of the removal from the delayed list. -/
theorem Moving.wpc_recoverWake (h : Moving cfg t (some .delayed) none k) (hw : Rouses k t)
    (hs : Removing (logged k.lists .remove .delayed) .delayed (.sched t) s) (hm : Concludes cfg k.current E m) :
    wpc (do
      onLists (recoverFromFailedRemove .delayed (.sched t) (k.lists.len .delayed))
      addToReadyList t
      m) (fun _ => Rested cfg) E (Pending cfg) { k with lists := s } := by
  have hlog := h.sound.linked.setMicroOpOldLen (microOpOldLenOf .remove (k.lists.len .delayed))
  obtain ⟨hpos, _, hnext⟩ := hlog.linear id h.sched
  have hin : ∀ c, Removing (logged k.lists .remove .delayed) .delayed (.sched t) c →
      Pending cfg { k with lists := c } := fun c hc => .waking h hw hc
  refine wpc_bind (wpc_onLists (wpc_mono (hs.wpc_recover hnext hpos) ?_ hin))
  rintro _ _ rfl
  exact h.wake.wpc_ready (.woken (hw.congr rfl rfl rfl)) (hin _ (.finish _ _ _)) hm

/-- Recovery of the insertion into the ready list, of a node whose `list` is stored. -/
theorem Moving.wpc_recoverReady (h : Moving cfg t none none k) (hr : Readies k t)
    (hs : Readying (logged k.lists .insertBeforeCursor (.ready (k.priority t))) (.ready (k.priority t)) (.sched t) s)
    (hl : s.list = Function.update k.lists.list (.sched t) (some (.ready (k.priority t))))
    (hm : Concludes cfg k.current E m) :
    wpc (do
      recoverInsertIntoReadyList t (k.lists.len (.ready (k.priority t)))
      m) (fun _ => Rested cfg) E (Pending cfg) { k with lists := s } := by
  have henter : Enterable (logged k.lists .insertBeforeCursor (.ready (k.priority t))) (.ready (k.priority t))
      (.sched t) :=
    (enterable_ready h.sound.linked h.sched _).congr rfl rfl rfl
  have hlist : (relisted k.lists (.ready (k.priority t)) (.sched t)).list =
      Function.update k.lists.list (.sched t) (some (.ready (k.priority t))) := readied_list _ _ _
  have hsame : { relisted k.lists (.ready (k.priority t)) (.sched t) with list := s.list } =
      relisted k.lists (.ready (k.priority t)) (.sched t) := by rw [hl, ← hlist]
  have hin : ∀ c, Readying (logged k.lists .insertBeforeCursor (.ready (k.priority t))) (.ready (k.priority t))
      (.sched t) c → c.list = s.list → Pending cfg { k with lists := c } :=
    fun c hc hcl => .readying h hr hc (hcl.trans hl)
  have hset : Pending cfg { k with
      lists := relisted k.lists (.ready (k.priority t)) (.sched t), status := Function.update k.status t .ready } :=
    .readying (h.setStatus .ready) (hr.congr rfl rfl rfl rfl) (.finish henter) hlist
  have hready : Sound cfg none { k with
      lists := relisted k.lists (.ready (k.priority t)) (.sched t), status := Function.update k.status t .ready } := by
    refine (h.ready.setStatus .ready).arrive (Or.inr (Or.inl ⟨rfl, rfl, ?_⟩))
    simp
  refine wpc_bind (wpc_bind (wpc_gets (hin s hs rfl) (wpc_bind (wpc_onLists ?_))))
  refine wpc_mono (hs.wpc_recover henter) ?_ fun c hc => hin c hc.1 hc.2
  rintro _ r hr
  replace hr : r = relisted k.lists (.ready (k.priority t)) (.sched t) := hr.trans hsame
  subst hr
  exact wpc_store (hin _ (.finish henter) (hlist.trans hl.symm)) hset (hm rfl hready hset)

/-! ## Going to sleep -/

/-- Recovery of the removal from the ready list, unless the head of a ring that it empties is still to be cleared. -/
theorem Moving.wpc_recoverLeaveReady (h : Moving cfg t (some (.ready (k.priority t))) none k) (hr : Blocks k t)
    (hs : LeavingReady k t s)
    (hclear : Cleared (logged k.lists .remove (.ready (k.priority t))) (.ready (k.priority t)) (.sched t) s)
    (hrest : Moving cfg t none none { k with lists := leftReady k t } →
      (∀ status, status = k.status ∨ status = Function.update k.status t .blocked →
        Pending cfg { k with lists := leftReady k t, status := status }) →
      wpc m (fun _ => Rested cfg) E (Pending cfg) { k with lists := leftReady k t }) :
    wpc (do
      recoverRemoveFromReadyList t (k.lists.len (.ready (k.priority t)))
      m) (fun _ => Rested cfg) E (Pending cfg) { k with lists := s } := by
  have hin : ∀ c, LeavingReady k t c → Pending cfg { k with lists := c } := fun c hc => .leavingReady h hr hc
  have hw := LeavingRing.wpc_recover (E := E) hs (inRing_ready h.sound.linked h.sched) hclear
  refine wpc_bind (wpc_bind (wpc_gets (hin s hs) (wpc_onLists (wpc_mono hw ?_ fun c hc => hin c hc.1))))
  rintro _ _ rfl
  refine hrest h.leaveReady ?_
  rintro _ (rfl | rfl)
  · exact hin _ .finish
  · have hset := h.setStatus .blocked
    generalize Function.update k.status t .blocked = status at hset ⊢
    exact Pending.leavingReady (k := { k with status := status }) hset ⟨hr.current, hr.op, hr.wait⟩ LeavingRing.finish

/-- Recovery of the insertion into a sorted wait list, unless an assertion looks at a node that is marked only. -/
theorem Moving.wpc_recoverWait (h : Moving cfg t none none k) (hr : Blocks k t) (hop : k.op ≠ .delayListInsert)
    (hw : k.waitListPtr = some w) (hp : WaitPlace k t w k.lists p q)
    (hs : Sorting (logged k.lists .insertSortedWaitList (.waiting w)) (.waiting w) (.event t) p q s)
    (hdebug : ¬ (cfg.debugAssertions = true ∧ MarkedOnly s (.waiting w) (.event t)))
    (hm : Concludes cfg k.current E m) :
    wpc (do
      onLists (recoverFromFailedInsertSorted cfg.debugAssertions (nodeBound k) (moreImportant k.priority t) (.waiting w)
        (.event t) (k.lists.len (.waiting w)))
      addToDelayedList cfg.toConfig t
      m) (fun _ => Rested cfg) E (Pending cfg) { k with lists := s } := by
  have hin : ∀ c, Sorting (logged k.lists .insertSortedWaitList (.waiting w)) (.waiting w) (.event t) p q c →
    Pending cfg { k with lists := c } := fun c hc => .sorting h hr hop hw hp hc
  have hfin : Sorting (logged k.lists .insertSortedWaitList (.waiting w)) (.waiting w) (.event t) p q
    (waitingLists k.lists t w p q) := .linking (.finish hp)
  refine wpc_bind (wpc_onLists (wpc_mono (hs.wpc_recover h.event hp hdebug) ?_ hin))
  rintro _ _ rfl
  refine (h.wait hp).wpc_delay ?_ ⟨hr.current, hr.op, hr.wait⟩ (hin _ hfin) ?_ hm
  · rintro _ ⟨⟩
    exact ⟨w, rfl⟩
  · exact .sorting (h.setStatus .blocked) ⟨hr.current, hr.op, hr.wait⟩ hop hw hp hfin

/-- Recovery of the insertion into an unsorted wait list. -/
theorem Moving.wpc_recoverFront (h : Moving cfg t none none k) (hr : Blocks k t) (hop : k.op = .unsortedWaitListInsert)
    (hw : k.waitListPtr = some w)
    (hs : Fronting (logged k.lists .insertFront (.waiting w)) (.waiting w) (.event t) s)
    (hm : Concludes cfg k.current E m) :
    wpc (do
      onLists (recoverFromFailedInsertFront (.waiting w) (.event t) (k.lists.len (.waiting w)))
      addToDelayedList cfg.toConfig t
      m) (fun _ => Rested cfg) E (Pending cfg) { k with lists := s } := by
  have hin : ∀ c, Fronting (logged k.lists .insertFront (.waiting w)) (.waiting w) (.event t) c →
    Pending cfg { k with lists := c } := fun c hc => .fronting h hr hop hw hc
  have hfin : Fronting (logged k.lists .insertFront (.waiting w)) (.waiting w) (.event t)
    (fronted (logged k.lists .insertFront (.waiting w)) (.waiting w) (.event t)) := .linked (Or.inr rfl) (Or.inr rfl)
  have hhead : k.lists.head (.waiting w) ≠ some (.event t) := by
    intro he
    cases h.event.symm.trans (h.sound.linked.popped id he).1
  refine wpc_bind (wpc_onLists (wpc_mono (hs.wpc_recover hhead) ?_ hin))
  rintro _ _ rfl
  refine (h.front w).wpc_delay ?_ ⟨hr.current, hr.op, hr.wait⟩ (hin _ hfin) ?_ hm
  · rintro _ ⟨⟩
    exact ⟨w, rfl⟩
  · exact .fronting (h.setStatus .blocked) ⟨hr.current, hr.op, hr.wait⟩ hop hw hfin

/-- Recovery of the insertion into the delayed list, unless an assertion looks at a node that is marked only. -/
theorem Moving.wpc_recoverDelay (h : Moving cfg t none b k) (hb : ∀ l, b = some l → ∃ w, l = .waiting w)
    (hr : Blocks k t) (hp : DelayPlace k t k.lists p q) (hs : Delaying k.lists t p q s)
    (hdebug : ¬ (cfg.debugAssertions = true ∧ MarkedOnly s .delayed (.sched t))) (hm : Concludes cfg k.current E m) :
    wpc (do
      recoverInsertIntoDelayedList cfg.toConfig t (k.lists.len .delayed)
      m) (fun _ => Rested cfg) E (Pending cfg) { k with lists := s } := by
  have hin : ∀ c, Delaying k.lists t p q c → Pending cfg { k with lists := c } := fun c hc => .delaying h hb hr hp hc
  have hfin : Delaying k.lists t p q (delayedLists k.lists t p q) := .linking (.finish hp)
  have hset : Pending cfg { k with
      lists := delayedLists k.lists t p q, status := Function.update k.status t .blocked } :=
    .delaying (h.setStatus .blocked) hb ⟨hr.current, hr.op, hr.wait⟩ hp hfin
  have hdone : Sound cfg none { k with
      lists := delayedLists k.lists t p q, status := Function.update k.status t .blocked } := by
    refine ((h.setStatus .blocked).delay hp).arrive (Or.inr (Or.inr ⟨rfl, hb, ?_⟩))
    simp
  have hw : wpc (recoverFromFailedInsertSorted cfg.debugAssertions (nodeBound k) (wakesLater k.wakeupTime t) .delayed
      (.sched t) (k.lists.len .delayed)) (fun _ r => r = delayedLists k.lists t p q) E (Delaying k.lists t p q) s :=
    Sorting.wpc_recover hs h.sched hp hdebug
  refine wpc_bind (wpc_bind (wpc_gets (hin s hs) (wpc_bind (wpc_gets (hin s hs) (wpc_bind (wpc_onLists ?_))))))
  refine wpc_mono hw ?_ hin
  rintro _ _ rfl
  exact wpc_store (hin _ hfin) hset (hm rfl hdone hset)

end Kernel

end IntOS
