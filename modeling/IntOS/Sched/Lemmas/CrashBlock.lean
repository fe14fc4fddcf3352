import IntOS.List.Lemmas.CrashRing
import IntOS.List.Lemmas.CrashSorted
import IntOS.Sched.Lemmas.Crash

/-!
# Power failures while a task goes to sleep

A blocked task leaves its ready list, may enter a wait list, and enters the delayed list.
-/

namespace IntOS

open Persist Persist.Prog IntOS.Lists

namespace Kernel

variable {cfg : Config} {k c : Kernel} {t : Nat} {p q : Option NodeRef} {Q : Unit → Kernel → Prop} {E : Prop}
  {C : Kernel → Prop} {wk : Nat → Nat} {s : Lists NodeRef ListRef}

/-! ## Leaving the ready list -/

/-- The lists without the task in its ready list. -/
def leftReady (k : Kernel) (t : Nat) : Lists NodeRef ListRef :=
  leftRing (logged k.lists .remove (.ready (k.priority t))) (.ready (k.priority t)) (.sched t)

/-- Some stores of the removal from the ready list are done. -/
def LeavingReady (k : Kernel) (t : Nat) (s : Lists NodeRef ListRef) : Prop :=
  LeavingRing (logged k.lists .remove (.ready (k.priority t))) (.ready (k.priority t)) (.sched t) s

theorem inRing_ready (h : WellOrdered wk k.lists)
    (hn : k.lists.list (.sched t) = some (.ready (k.priority t))) :
    InRing (logged k.lists .remove (.ready (k.priority t))) (.ready (k.priority t)) (.sched t) := by
  have hring : ListRef.IsReady (.ready (k.priority t)) := trivial
  exact (h.setMicroOpOldLen _).inRing hring hn

theorem wpc_removeFromReadyList (h : WellOrdered wk k.lists)
    (hn : k.lists.list (.sched t) = some (.ready (k.priority t))) (hk : C k)
    (hC : ∀ s, LeavingReady k t s → C { k with lists := s }) (hQ : Q () { k with lists := leftReady k t }) :
    wpc (removeFromReadyList cfg t) Q E C k := by
  have hin := inRing_ready h hn
  have hw : wpc (optimizedRemoveImpl cfg.debugAssertions (.ready (k.priority t)) (.sched t))
      (fun _ s => Q () { k with lists := s }) E (fun s => C { k with lists := s })
      (logged k.lists .remove (.ready (k.priority t))) := wpc_removeFromRing hin hC hQ
  exact wpc_bind (wpc_gets hk (wpc_onLists (wpc_bind (wpc_startOpLog hk hw.start hw))))

/-- The rest of the lists stays well linked. -/
theorem leftReady_wellOrdered (h : WellOrdered wk k.lists)
    (hn : k.lists.list (.sched t) = some (.ready (k.priority t))) :
    WellOrdered wk (leftReady k t) ∧ (leftReady k t).list = Function.update k.lists.list (.sched t) none := by
  have hends : Ends (removeFromReadyList ⟨false, 0, 0⟩ t) (fun _ k' => WellOrdered wk k'.lists ∧
      k'.lists.list = Function.update k.lists.list (.sched t) none) k :=
    ends_removeFromReadyList h hn fun s hs hlist => ⟨hs, hlist⟩
  have hw : wpc (removeFromReadyList ⟨false, 0, 0⟩ t) (fun _ r => r = { k with lists := leftReady k t }) True
    (fun _ => True) k := wpc_removeFromReadyList h hn trivial (fun _ _ => trivial) rfl
  exact hends.of_wpc hw

theorem LeavingReady.log (hs : LeavingReady k t s) :
    s.microOpOldLen = microOpOldLenOf .remove (k.lists.len (.ready (k.priority t))) := by
  cases hs with
  | many _ hs => exact hs.microOpOldLen
  | first => rfl
  | last _ hs => exact hs.microOpOldLen

/-- Recovery of the removal. Where the ring had one node, its pointers may stay at the node. -/
theorem ends_recoverRemoveFromReadyList {status : Nat → TaskState} (h : WellOrdered wk k.lists)
    (hn : k.lists.list (.sched t) = some (.ready (k.priority t))) (hs : LeavingReady k t s)
    (hQ : ¬ (k.lists.len (.ready (k.priority t)) = 1 ∧ s.cursor (.ready (k.priority t)) = some (.sched t)) →
      Q () { k with lists := leftReady k t, status := status })
    (hQ' : ∀ v, v = some (.sched t) ∨ v = none → k.lists.len (.ready (k.priority t)) = 1 →
      s.cursor = Function.update k.lists.cursor (.ready (k.priority t)) v →
      Q () { k with
        lists := aside (.ready (k.priority t)) v (some (.sched t)) (leftReady k t), status := status }) :
    Ends (recoverRemoveFromReadyList t (k.lists.len (.ready (k.priority t)))) Q
      { k with lists := s, status := status } := by
  simp only [recoverRemoveFromReadyList, ends_bind, ends_gets]
  refine ends_onLists (hs.recover (inRing_ready h hn)) ?_
  rintro _ _ (⟨rfl, hnot⟩ | ⟨v, hv, hone, rfl, rfl⟩)
  · exact hQ hnot
  · exact hQ' v hv hone rfl

/-! ## Entering the delayed list -/

/-- The lists with the task in the delayed list, between `p` and `q`. -/
def delayedLists (s : Lists NodeRef ListRef) (t : Nat) (p q : Option NodeRef) : Lists NodeRef ListRef :=
  inserted (marked (logged s .insertSortedDelayList .delayed) .delayed (.sched t)) .delayed (.sched t) p q

/-- Some stores of the insertion into the delayed list are done. -/
def Delaying (s : Lists NodeRef ListRef) (t : Nat) (p q : Option NodeRef) (s' : Lists NodeRef ListRef) : Prop :=
  Sorting (logged s .insertSortedDelayList .delayed) .delayed (.sched t) p q s'

/-- The place of the task in the delayed list. -/
def DelayPlace (k : Kernel) (t : Nat) (s : Lists NodeRef ListRef) (p q : Option NodeRef) : Prop :=
  Place (nodeBound k) (wakesLater k.wakeupTime t)
    (marked (logged s .insertSortedDelayList .delayed) .delayed (.sched t)) .delayed (.sched t) p q

theorem exists_delayPlace (h : WellOrdered wk s) (hfree : ∀ n, k.taskCnt ≤ n.task → s.list n = none)
    (hn : s.list (.sched t) = none) : ∃ p q, DelayPlace k t s p q := by
  have hlinear : ¬ ListRef.IsReady .delayed := id
  have hlog : WellOrdered wk (logged s .insertSortedDelayList .delayed) := h.setMicroOpOldLen _
  exact hlog.place hlinear hn (wakesLater k.wakeupTime t) fun _ => length_le hfree

/-- What `add_to_delayed_list` leaves. -/
def slept (k : Kernel) (t : Nat) (p q : Option NodeRef) : Kernel :=
  { k with
    lists := delayedLists k.lists t p q
    status := Function.update k.status t .blocked
    nextUnblockTime := min (k.wakeupTime t) k.nextUnblockTime }

theorem wpc_addToDelayedList (hn : k.lists.list (.sched t) = none) (hp : DelayPlace k t k.lists p q) (hk : C k)
    (hstop : C { k with status := Function.update k.status t .blocked })
    (hC : ∀ s u, Delaying k.lists t p q s → u = k.nextUnblockTime ∨ u = min (k.wakeupTime t) k.nextUnblockTime →
      C { k with lists := s, status := Function.update k.status t .blocked, nextUnblockTime := u })
    (hQ : Q () (slept k t p q)) : wpc (addToDelayedList cfg t) Q E C k := by
  have hs : ∀ s, Delaying k.lists t p q s → C { k with lists := s, status := Function.update k.status t .blocked } :=
    fun s hs => hC s _ hs (Or.inl rfl)
  have hfin : Delaying k.lists t p q (delayedLists k.lists t p q) := .linking (.finish hp)
  refine wpc_bind (wpc_store hk hstop (wpc_bind (wpc_bind (wpc_gets hstop (wpc_bind (wpc_gets hstop ?_))))))
  refine wpc_onLists (wpc_insertSorted hn hp hstop hs ?_)
  refine wpc_bind (wpc_gets (hs _ hfin) (wpc_bind (wpc_gets (hs _ hfin) ?_)))
  have hnext := hC _ _ hfin (Or.inr rfl)
  unfold slept at hQ
  split
  case isTrue hlt =>
    rw [Nat.min_eq_left (Nat.le_of_lt hlt)] at hQ hnext
    exact wpc_store (hs _ hfin) hnext hQ
  case isFalse hge =>
    rw [Nat.min_eq_right (Nat.le_of_not_lt hge)] at hQ
    exact wpc_pure (hs _ hfin) hQ

theorem ends_addToDelayedList_iff (hn : k.lists.list (.sched t) = none) (hp : DelayPlace k t k.lists p q) :
    Ends (addToDelayedList cfg t) Q k ↔ Q () (slept k t p q) :=
  Ends.iff (wpc_addToDelayedList (C := fun _ => True) hn hp trivial trivial (fun _ _ _ _ => trivial) rfl).ends

theorem slept_status {status : Nat → TaskState}
    (h : status = k.status ∨ status = Function.update k.status t .blocked) :
    slept { k with status := status } t p q = slept k t p q := by
  rcases h with rfl | rfl
  · rfl
  · simp only [slept, Function.update_idem]

theorem Delaying.log {s' : Lists NodeRef ListRef} (hs : Delaying s t p q s') :
    s'.microOpOldLen = microOpOldLenOf .insertSortedDelayList (s.len .delayed) := Sorting.log hs

/-- Recovery of the insertion, unless it stops at an assertion. -/
theorem ends_recoverInsertIntoDelayedList {status : Nat → TaskState} {u : Nat} {s' : Lists NodeRef ListRef}
    (hn : s.list (.sched t) = none) (hp : DelayPlace k t s p q) (hs : Delaying s t p q s')
    (hdebug : ¬ (cfg.debugAssertions = true ∧ MarkedOnly s' .delayed (.sched t))) :
    Ends (recoverInsertIntoDelayedList cfg t (s.len .delayed)) Q
        { k with lists := s', status := status, nextUnblockTime := u } ↔
      Q () { k with
        lists := delayedLists s t p q, status := Function.update status t .blocked, nextUnblockTime := u } := by
  have hrec : Ends (recoverFromFailedInsertSorted cfg.debugAssertions (nodeBound k) (wakesLater k.wakeupTime t)
    .delayed (.sched t) (s.len .delayed)) (fun _ r => r = delayedLists s t p q) s' := Sorting.recover hs hn hp hdebug
  simp only [recoverInsertIntoDelayedList, ends_bind, ends_gets]
  rw [ends_onLists_iff hrec]
  exact Iff.rfl

/-- The assertion stops it. -/
theorem not_ends_recoverInsertIntoDelayedList {status : Nat → TaskState} {u : Nat} {s' : Lists NodeRef ListRef}
    (hn : s.list (.sched t) = none) (hp : DelayPlace k t s p q) (hs : Delaying s t p q s')
    (hdebug : cfg.debugAssertions = true) (hmarked : MarkedOnly s' .delayed (.sched t)) :
    ¬ Ends (recoverInsertIntoDelayedList cfg t (s.len .delayed)) Q
        { k with lists := s', status := status, nextUnblockTime := u } := by
  rw [Sorting.markedOnly_iff hs hn hp] at hmarked
  subst hmarked
  intro h
  simp only [recoverInsertIntoDelayedList, onLists, ends_bind, ends_gets, ends_zoom, hdebug] at h
  exact not_recover_marked hp h

/-! ## A ready list aside -/

/-- The cursor and the head of the list `l` are as given. -/
def listAside (l : ListRef) (v w : Option NodeRef) (k : Kernel) : Kernel := { k with lists := aside l v w k.lists }

section
variable {l : ListRef} {v w : Option NodeRef}

theorem commutes_onLists {α : Type} {m : Prog (Lists NodeRef ListRef) α} (hm : Commutes (aside l v w) m) :
    Commutes (listAside l v w) (onLists m) := hm.zoom (fun _ _ => rfl) fun _ _ _ => rfl

theorem commutes_setMicroOp (op : ListOpCode) (oldLen : Nat) : Commutes (listAside l v w) (setMicroOp op oldLen) := by
  apply commutes_onLists
  exact commutes_store fun _ => rfl

theorem commutes_invalidate : Commutes (listAside l v w) invalidate := by
  apply (commutes_setMicroOp _ _).bind
  exact fun _ => commutes_store fun _ => rfl

theorem commutes_getCurrent : Commutes (listAside l v w) getCurrent := by
  apply Commutes.bind
  · exact commutes_gets fun _ => rfl
  intro t
  cases t with
  | none => exact commutes_fail
  | some t => exact commutes_pure t

theorem commutes_commit : Commutes (listAside l v w) commit := by
  apply (commutes_setMicroOp _ _).bind
  intro _
  apply commutes_getCurrent.bind
  intro t
  apply Commutes.bind
  · exact commutes_store fun _ => rfl
  · exact fun _ => commutes_store fun _ => rfl

theorem commutes_insertDelayed (hl : ListRef.delayed ≠ l) (t : Nat) :
    Commutes (listAside l v w) (insertDelayed cfg t) := by
  apply Commutes.bind
  · exact commutes_gets fun _ => rfl
  intro fuel
  apply Commutes.bind
  · exact commutes_gets fun _ => rfl
  intro wakeupTime
  exact commutes_onLists (commutes_insertSorted hl _ _ _ _)

theorem commutes_insertWaiting {u : Nat} (hl : ListRef.waiting u ≠ l) (t : Nat) :
    Commutes (listAside l v w) (insertWaiting cfg u t) := by
  apply Commutes.bind
  · exact commutes_gets fun _ => rfl
  intro fuel
  apply Commutes.bind
  · exact commutes_gets fun _ => rfl
  intro priority
  exact commutes_onLists (commutes_insertSorted hl _ _ _ _)

theorem commutes_addToDelayedList (hl : ListRef.delayed ≠ l) (t : Nat) :
    Commutes (listAside l v w) (addToDelayedList cfg t) := by
  apply Commutes.bind
  · exact commutes_store fun _ => rfl
  intro _
  apply (commutes_insertDelayed hl t).bind
  intro _
  apply Commutes.bind
  · exact commutes_gets fun _ => rfl
  intro unblockTime
  apply Commutes.bind
  · exact commutes_gets fun _ => rfl
  intro nextUnblockTime
  split
  · exact commutes_store fun _ => rfl
  · exact commutes_pure ()

end

end Kernel

end IntOS
