import IntOS.Sched.Lemmas.Invariant

/-!
# What the list transactions do, without failures
-/

namespace IntOS

open Persist Persist.Prog IntOS.Lists

namespace Kernel

variable {α : Type} {cfg : Config} {k : Kernel} {t : Nat} {Q : Unit → Kernel → Prop}

/-! ## Parts of transactions -/

theorem ends_onLists {m : Prog (Lists NodeRef ListRef) α} {P : α → Lists NodeRef ListRef → Prop}
    {Q : α → Kernel → Prop} (h : Ends m P k.lists) (hQ : ∀ a s, P a s → Q a { k with lists := s }) :
    Ends (onLists m) Q k :=
  ends_zoom.mpr (h.mono hQ)

@[simp] theorem ends_setStatus {v : TaskState} :
    Ends (setStatus t v) Q k ↔ Q () { k with status := Function.update k.status t v } := Iff.rfl

@[simp] theorem ends_setWakeupTime {v : Nat} :
    Ends (setWakeupTime t v) Q k ↔ Q () { k with wakeupTime := Function.update k.wakeupTime t v } := Iff.rfl

@[simp] theorem ends_setTxOp {op : ListTxOpCode} :
    Ends (setTxOp op) Q k ↔ Q () { k with op := op } := Iff.rfl

@[simp] theorem ends_setMicroOp {op : ListOpCode} {oldLen : Nat} :
    Ends (setMicroOp op oldLen) Q k ↔
      Q () { k with lists := { k.lists with microOpOldLen := microOpOldLenOf op oldLen } } := Iff.rfl

@[simp] theorem after_setWakeupTime {v : Nat} :
    After (setWakeupTime t v) Q k ↔ Q () { k with wakeupTime := Function.update k.wakeupTime t v } := Iff.rfl

theorem after_getCurrent {Q : Nat → Kernel → Prop} :
    After getCurrent Q k ↔ ∀ t, k.current = some t → Q t k := by
  simp only [getCurrent, after_bind, after_gets]
  cases k.current with
  | none => simp
  | some t => simp

theorem ends_getCurrent {Q : Nat → Kernel → Prop} (hcur : k.current = some t) :
    Ends getCurrent Q k ↔ Q t k := by
  simp only [getCurrent, ends_bind, ends_gets, hcur, ends_pure]

theorem ends_invalidate :
    Ends invalidate Q k ↔ Q () { k with lists := { k.lists with microOpOldLen := 0 }, op := .invalid } :=
  Iff.rfl

theorem ends_commit (hcur : k.current = some t) : Ends commit Q k ↔ Q () { k with
    lists := { k.lists with microOpOldLen := 0 }, listTxDone := Function.update k.listTxDone t true
    op := .invalid } := by
  simp only [commit, ends_bind, ends_setMicroOp]
  rw [ends_getCurrent (t := t)]
  · exact Iff.rfl
  · exact hcur

/-- A transaction that was not done before starts. -/
theorem ends_bypass {Q : Bool → Kernel → Prop} (hcur : k.current = some t) (hdone : k.listTxDone t = false) :
    Ends (bypass cfg) Q k ↔ Q false k := by
  simp only [bypass, ends_bind, ends_getCurrent hcur, ends_gets, hdone, ends_check, ends_pure]
  simp

/-- A transaction that was done before is bypassed. -/
theorem after_bypass {Q : Bool → Kernel → Prop} :
    After (bypass cfg) Q k ↔ ∀ t, k.current = some t →
      (cfg.debugAssertions → k.listTxDone t → k.recoveryMode t) → Q (k.listTxDone t) k := by
  simp only [bypass, after_bind, after_getCurrent, after_gets, after_check, after_pure]

variable {wk : Nat → Nat}

theorem ends_addToReadyList (h : WellOrdered wk k.lists) (hn : k.lists.list (.sched t) = none)
    (hQ : ∀ s, WellOrdered wk s →
      s.list = Function.update k.lists.list (.sched t) (some (.ready (k.priority t))) →
      Q () { k with lists := s, status := Function.update k.status t .ready }) :
    Ends (addToReadyList t) Q k := by
  simp only [addToReadyList, ends_bind, ends_gets]
  refine ends_onLists (h.insertBeforeCursor trivial id hn) ?_
  rintro _ s ⟨hs, hlist⟩
  exact hQ s hs hlist

theorem ends_removeFromReadyList (h : WellOrdered wk k.lists)
    (hn : k.lists.list (.sched t) = some (.ready (k.priority t)))
    (hQ : ∀ s, WellOrdered wk s → s.list = Function.update k.lists.list (.sched t) none →
      Q () { k with lists := s }) :
    Ends (removeFromReadyList cfg t) Q k := by
  simp only [removeFromReadyList, ends_bind, ends_gets]
  refine ends_onLists (h.remove hn) ?_
  rintro _ s ⟨hs, hlist⟩
  exact hQ s hs hlist

theorem ends_removeFromDelayedList (h : WellOrdered wk k.lists)
    (hn : k.lists.list (.sched t) = some .delayed)
    (hQ : ∀ s, WellOrdered wk s → s.list = Function.update k.lists.list (.sched t) none →
      Q () { k with lists := s }) :
    Ends (removeFromDelayedList cfg t) Q k := by
  refine ends_onLists (h.remove hn) ?_
  rintro _ s ⟨hs, hlist⟩
  exact hQ s hs hlist

theorem ends_addToDelayedList (h : WellOrdered k.wakeupTime k.lists)
    (hfree : ∀ n, k.taskCnt ≤ n.task → k.lists.list n = none) (hn : k.lists.list (.sched t) = none)
    (hQ : ∀ s, WellOrdered k.wakeupTime s →
      s.list = Function.update k.lists.list (.sched t) (some .delayed) →
      Q () { k with
        lists := s
        status := Function.update k.status t .blocked
        nextUnblockTime := min (k.wakeupTime t) k.nextUnblockTime }) :
    Ends (addToDelayedList cfg t) Q k := by
  have hle : ∀ x y z : NodeRef, k.wakeupTime x.task ≤ k.wakeupTime y.task →
      k.wakeupTime y.task ≤ k.wakeupTime z.task → k.wakeupTime x.task ≤ k.wakeupTime z.task :=
    fun _ _ _ => Nat.le_trans
  simp only [addToDelayedList, insertDelayed, ends_bind, ends_setStatus, ends_gets]
  refine ends_onLists (h.insertSorted id hn (fun _ => ⟨hle, fun x hx => ?_, fun y hy => ?_⟩)
    fun xs => length_le hfree) ?_
  · exact Nat.le_of_lt (of_decide_eq_true hx)
  · exact Nat.le_of_not_lt (of_decide_eq_false hy)
  rintro _ s ⟨hs, hlist⟩
  have hQ' := hQ s hs hlist
  simp only [ends_bind, ends_gets]
  split
  case isTrue hlt =>
    rw [Nat.min_eq_left (Nat.le_of_lt hlt)] at hQ'
    exact hQ'
  case isFalse hge =>
    rw [Nat.min_eq_right (Nat.le_of_not_lt hge)] at hQ'
    exact hQ'

theorem ends_insertWaiting {w : Nat} (h : WellOrdered wk k.lists)
    (hfree : ∀ n, k.taskCnt ≤ n.task → k.lists.list n = none) (hn : k.lists.list (.event t) = none)
    (hQ : ∀ s, WellOrdered wk s →
      s.list = Function.update k.lists.list (.event t) (some (.waiting w)) → Q () { k with lists := s }) :
    Ends (insertWaiting cfg w t) Q k := by
  simp only [insertWaiting, ends_bind, ends_gets]
  refine ends_onLists (h.insertSorted id hn (by simp) fun xs => length_le hfree) ?_
  rintro _ s ⟨hs, hlist⟩
  exact hQ s hs hlist

theorem ends_insertFrontWaiting (cfg : Config) {w : Nat} (h : WellOrdered wk k.lists)
    (_ : ∀ n, k.taskCnt ≤ n.task → k.lists.list n = none) (hn : k.lists.list (.event t) = none)
    (hQ : ∀ s, WellOrdered wk s →
      s.list = Function.update k.lists.list (.event t) (some (.waiting w)) → Q () { k with lists := s }) :
    Ends (onLists (optimizedInsertFront cfg.debugAssertions (.waiting w) (.event t))) Q k := by
  apply ends_onLists
  · exact h.insertFront id nofun hn
  rintro _ s ⟨hs, hlist⟩
  exact hQ s hs hlist

/-! ## Transactions -/

theorem free_update {cnt : Nat} {f : NodeRef → Option ListRef} {m : NodeRef} {v : Option ListRef}
    (hfree : ∀ n, cnt ≤ n.task → f n = none) (hm : m.task < cnt) :
    ∀ n, cnt ≤ n.task → Function.update f m v n = none := by
  intro n hn
  rw [update_of_task_ne (by omega)]
  exact hfree n hn

/-- The task of an event node that waits is in the delayed list. -/
theorem Inv.waiting (h : Inv k) {w : Nat} {n : NodeRef} (hn : k.lists.list n = some (.waiting w)) :
    n.task < k.taskCnt ∧ n = .event n.task ∧ k.lists.list (.sched n.task) = some .delayed :=
  h.of_list hn

theorem Inv.unblocked (h : Inv k) (ht : t < k.taskCnt) (hb : k.status t ≠ .blocked) :
    k.lists.list (.sched t) = some (.ready (k.priority t)) ∧ k.lists.list (.event t) = none := by
  rcases h.placed t ht with ⟨hs, he, _⟩ | ⟨_, _, hblocked⟩
  · exact ⟨hs, he⟩
  · exact absurd hblocked hb

/-- What taking the waiter `t` out of the delayed list and making it ready leaves. -/
theorem ends_makeReady {rest : Prog Kernel Unit} {s : Lists NodeRef ListRef} {p : Option NodeRef}
    {op : ListTxOpCode} (hsched : k.lists.list (.sched t) = some .delayed)
    (hs : WellOrdered k.wakeupTime s) (hlist : s.list = Function.update k.lists.list (.event t) none)
    (hrest : ∀ s', WellOrdered k.wakeupTime s' →
      s'.list = Function.update (Function.update (Function.update k.lists.list (.event t) none)
        (.sched t) none) (.sched t) (some (.ready (k.priority t))) →
      Ends rest Q { k with
        lists := s', blockNodePtr := p, op := op, status := Function.update k.status t .ready }) :
    Ends (do
      removeFromDelayedList cfg t
      addToReadyList t
      rest) Q { k with lists := s, blockNodePtr := p, op := op } := by
  rw [ends_bind]
  apply ends_removeFromDelayedList
  · exact hs
  · rw [hlist, Function.update_of_ne (sched_ne_event _ _)]
    exact hsched
  intro s₁ hs₁ hlist₁
  rw [ends_bind]
  apply ends_addToReadyList
  · exact hs₁
  · rw [hlist₁, Function.update_self]
  intro s₂ hs₂ hlist₂
  apply hrest s₂ hs₂
  rw [hlist₂, hlist₁, hlist]

/-- The first waiter is woken, if there is one. -/
theorem Inv.popRemoveFromWaitlist (h : Inv k) (w : Nat) (hcur : k.current = some t)
    (hdone : k.listTxDone t = false) :
    Ends (rollForwardPopRemoveFromWaitlist cfg w) (fun _ k' => Inv k' ∧
      k'.listTxDone = Function.update k.listTxDone t true ∧
      ((k.lists.head (.waiting w) = none ∧ Kept k k') ∨ ∃ u, k.lists.head (.waiting w) = some (.event u) ∧
        u < k.taskCnt ∧ k.lists.list (.event u) = some (.waiting w) ∧ Woke k u k')) k := by
  simp only [rollForwardPopRemoveFromWaitlist, ends_bind, ends_bypass hcur hdone, Bool.false_eq_true, if_false,
    ends_gets, ends_store, ends_setTxOp]
  apply ends_onLists
  · exact h.linked.popFront id
  rintro r s (⟨rfl, rfl, hhead, _⟩ | ⟨n, rfl, hhead, hn, hs, hlist⟩)
  · refine (ends_commit (t := t) ?_).mpr ?_
    · exact hcur
    have hk : Kept k { k with
        lists := { k.lists with microOpOldLen := 0 }
        blockNodePtr := k.lists.head (.waiting w)
        listTxDone := Function.update k.listTxDone t true
        op := .invalid } := ⟨⟨rfl, rfl, rfl, rfl, rfl⟩, rfl, rfl, rfl⟩
    exact ⟨h.keep hk rfl, rfl, Or.inl ⟨hhead, hk⟩⟩
  · obtain ⟨hu, hevent, hsched⟩ := h.waiting hn
    generalize n.task = u at hu hevent hsched
    subst hevent
    apply ends_makeReady hsched hs hlist
    intro s' hs' hlist'
    refine (ends_commit (t := t) ?_).mpr ?_
    · exact hcur
    have hw : Woke k u { k with
        lists := { s' with microOpOldLen := 0 }
        blockNodePtr := k.lists.head (.waiting w)
        listTxDone := Function.update k.listTxDone t true
        op := .invalid
        status := Function.update k.status u .ready } := ⟨⟨rfl, rfl, rfl, rfl, rfl⟩, hlist', rfl, rfl⟩
    exact ⟨h.wake hu hw (hs'.setMicroOpOldLen 0) rfl rfl, rfl, Or.inr ⟨u, hhead, hu, hn, hw⟩⟩

/-- The waiter is woken. -/
theorem Inv.removeFromUnsortedWaitlist (h : Inv k) {w u : Nat} (hn : k.lists.list (.event u) = some (.waiting w)) :
    Ends (rollForwardRemoveFromUnsortedWaitlist cfg w (.event u)) (fun _ k' => Inv k' ∧
      k'.listTxDone = k.listTxDone ∧ Woke k u k') k := by
  obtain ⟨hu, _, hsched⟩ := h.waiting hn
  simp only [rollForwardRemoveFromUnsortedWaitlist, ends_bind, ends_store, ends_setTxOp]
  apply ends_onLists
  · exact h.linked.remove hn
  rintro _ s ⟨hs, hlist⟩
  apply ends_makeReady hsched hs hlist
  intro s' hs' hlist'
  rw [ends_invalidate]
  have hw : Woke k u { k with
      lists := { s' with microOpOldLen := 0 }
      blockNodePtr := some (.event u)
      op := .invalid
      status := Function.update k.status u .ready } := ⟨⟨rfl, rfl, rfl, rfl, rfl⟩, hlist', rfl, rfl⟩
  exact ⟨h.wake hu hw (hs'.setMicroOpOldLen 0) rfl rfl, rfl, hw⟩

/-- The moves of a task that blocks, with `hinsert` for what puts its event node into the wait list. -/
theorem Inv.blockInto {m : Prog Kernel Unit} {w : Nat} {op : ListTxOpCode} (h : Inv k) (ht : t < k.taskCnt)
    (hb : k.status t ≠ .blocked)
    (hinsert : ∀ {k' : Kernel} {Q : Unit → Kernel → Prop}, WellOrdered k'.wakeupTime k'.lists →
      (∀ n, k'.taskCnt ≤ n.task → k'.lists.list n = none) → k'.lists.list (.event t) = none →
      (∀ s, WellOrdered k'.wakeupTime s →
        s.list = Function.update k'.lists.list (.event t) (some (.waiting w)) →
        Q () { k' with lists := s }) → Ends m Q k') :
    Ends (do
      store fun k => { k with waitListPtr := some w }
      setTxOp op
      removeFromReadyList cfg t
      m
      addToDelayedList cfg t
      invalidate) (fun _ k' => Inv k' ∧ k'.listTxDone = k.listTxDone ∧ Slept k t (some (.waiting w)) k') k := by
  obtain ⟨hsched, hevent⟩ := h.unblocked ht hb
  simp only [ends_bind, ends_store, ends_setTxOp]
  apply ends_removeFromReadyList
  · exact h.linked
  · exact hsched
  intro s hs hlist
  have hfree : ∀ n, k.taskCnt ≤ n.task → s.list n = none := by
    rw [hlist]
    exact free_update h.free ht
  rw [ends_bind]
  apply hinsert
  · exact hs
  · exact hfree
  · rw [hlist, Function.update_of_ne (event_ne_sched _ _)]
    exact hevent
  intro s₁ hs₁ hlist₁
  rw [ends_bind]
  apply ends_addToDelayedList
  · exact hs₁
  · rw [hlist₁]
    exact free_update hfree ht
  · rw [hlist₁, Function.update_of_ne (sched_ne_event _ _), hlist, Function.update_self]
  intro s₂ hs₂ hlist₂
  rw [ends_invalidate]
  have hsl : Slept k t (some (.waiting w)) { k with
      lists := { s₂ with microOpOldLen := 0 }
      waitListPtr := some w
      op := .invalid
      status := Function.update k.status t .blocked
      nextUnblockTime := min (k.wakeupTime t) k.nextUnblockTime } := by
    refine ⟨⟨rfl, rfl, rfl, rfl, rfl⟩, ?_, rfl, rfl⟩
    rw [hlist₂, hlist₁, hlist]
  refine ⟨h.block ht hsl ?_ (hs₂.setMicroOpOldLen 0) rfl rfl, rfl, hsl⟩
  intro l hl
  exact ⟨w, (Option.some.inj hl).symm⟩

theorem Inv.insertIntoWaitlist (h : Inv k) (w : Nat) (ht : t < k.taskCnt) (hb : k.status t ≠ .blocked) :
    Ends (rollForwardInsertIntoWaitlist cfg w t) (fun _ k' => Inv k' ∧ k'.listTxDone = k.listTxDone ∧
      Slept k t (some (.waiting w)) k') k :=
  h.blockInto ht hb ends_insertWaiting

theorem Inv.insertIntoUnsortedWaitlist (h : Inv k) (w : Nat) (ht : t < k.taskCnt)
    (hb : k.status t ≠ .blocked) :
    Ends (rollForwardInsertIntoUnsortedWaitlist cfg w t) (fun _ k' => Inv k' ∧ k'.listTxDone = k.listTxDone ∧
      Slept k t (some (.waiting w)) k') k :=
  h.blockInto ht hb (ends_insertFrontWaiting _)

theorem Inv.insertIntoDelaylist (h : Inv k) (hcur : k.current = some t) (hdone : k.listTxDone t = false)
    (hb : k.status t ≠ .blocked) :
    Ends (rollForwardInsertIntoDelaylist cfg) (fun _ k' => Inv k' ∧
      k'.listTxDone = Function.update k.listTxDone t true ∧ Slept k t none k') k := by
  have ht := h.current t hcur
  obtain ⟨hsched, hevent⟩ := h.unblocked ht hb
  simp only [rollForwardInsertIntoDelaylist, ends_bind, ends_bypass hcur hdone, Bool.false_eq_true, if_false,
    ends_setTxOp]
  refine (ends_getCurrent (t := t) ?_).mpr ?_
  · exact hcur
  rw [ends_bind]
  apply ends_removeFromReadyList
  · exact h.linked
  · exact hsched
  intro s hs hlist
  rw [ends_bind]
  apply ends_addToDelayedList
  · exact hs
  · rw [hlist]
    exact free_update h.free ht
  · rw [hlist, Function.update_self]
  intro s₁ hs₁ hlist₁
  refine (ends_commit (t := t) ?_).mpr ?_
  · exact hcur
  have hsl : Slept k t none { k with
      lists := { s₁ with microOpOldLen := 0 }
      listTxDone := Function.update k.listTxDone t true
      op := .invalid
      status := Function.update k.status t .blocked
      nextUnblockTime := min (k.wakeupTime t) k.nextUnblockTime } := by
    have heq : Function.update (Function.update k.lists.list (.sched t) none) (.event t) none =
        Function.update k.lists.list (.sched t) none := by
      rw [Function.update_eq_self_iff, Function.update_of_ne (event_ne_sched _ _), hevent]
    refine ⟨⟨rfl, rfl, rfl, rfl, rfl⟩, ?_, rfl, rfl⟩
    rw [hlist₁, hlist, heq]
  exact ⟨h.block ht hsl (fun _ hl => by cases hl) (hs₁.setMicroOpOldLen 0) rfl rfl, rfl, hsl⟩

/-- The front task of the delayed list is woken. -/
theorem Inv.removeFromDelaylist_ends (h : Inv k) (hsome : k.lists.head .delayed ≠ none) :
    Ends (rollForwardRemoveFromDelaylist cfg) (fun _ k' => Inv k' ∧ k'.listTxDone = k.listTxDone ∧
      ∃ u, k.lists.head .delayed = some (.sched u) ∧ Woke k u k') k := by
  simp only [rollForwardRemoveFromDelaylist, ends_bind, setTxOp, ends_store]
  apply ends_onLists
  · exact h.linked.popFront id
  rintro r s (⟨_, _, hhead, _⟩ | ⟨n, rfl, hhead, hn, hs, hlist⟩)
  · exact absurd hhead hsome
  · obtain ⟨hu, hsched, hblocked⟩ := h.of_list hn
    generalize n.task = u at hu hsched hblocked
    subst hsched
    simp only [removeFromOwnWaitlist, NodeRef.task, ends_bind, ends_gets]
    have hevent : s.list (.event u) = k.lists.list (.event u) := by
      rw [hlist, Function.update_of_ne (event_ne_sched _ _)]
    cases hl : k.lists.list (.event u) with
    | none =>
        rw [hl] at hevent
        rw [hevent]
        simp only [ends_pure]
        rw [ends_bind]
        apply ends_addToReadyList
        · exact hs
        · rw [hlist, Function.update_self]
        intro s₁ hs₁ hlist₁
        rw [ends_invalidate]
        have hw : Woke k u { k with
            lists := { s₁ with microOpOldLen := 0 }
            op := .invalid
            status := Function.update k.status u .ready } := by
          refine ⟨⟨rfl, rfl, rfl, rfl, rfl⟩, ?_, rfl, rfl⟩
          rw [hlist₁, hlist, ← hl, Function.update_eq_self]
        exact ⟨h.wake hu hw (hs₁.setMicroOpOldLen 0) rfl rfl, rfl, u, hhead, hw⟩
    | some l =>
        rw [hl] at hevent
        rw [hevent]
        apply ends_onLists
        · exact hs.remove hevent
        rintro _ s₁ ⟨hs₁, hlist₁⟩
        rw [ends_bind]
        apply ends_addToReadyList
        · exact hs₁
        · rw [hlist₁, Function.update_of_ne (sched_ne_event _ _), hlist, Function.update_self]
        intro s₂ hs₂ hlist₂
        rw [ends_invalidate]
        have hw : Woke k u { k with
            lists := { s₂ with microOpOldLen := 0 }
            op := .invalid
            status := Function.update k.status u .ready } := by
          refine ⟨⟨rfl, rfl, rfl, rfl, rfl⟩, ?_, rfl, rfl⟩
          rw [hlist₂, hlist₁, hlist, Function.update_comm (sched_ne_event _ _)]
        exact ⟨h.wake hu hw (hs₂.setMicroOpOldLen 0) rfl rfl, rfl, u, hhead, hw⟩

/-- The front task of the delayed list is woken, if there is one. -/
theorem Inv.removeFromDelaylist (h : Inv k) :
    After (rollForwardRemoveFromDelaylist cfg) (fun _ k' => Inv k' ∧ k'.listTxDone = k.listTxDone ∧
      ∃ u, k.lists.head .delayed = some (.sched u) ∧ Woke k u k') k := by
  by_cases hsome : k.lists.head .delayed = none
  · simp only [rollForwardRemoveFromDelaylist, after_bind, setTxOp, after_store]
    refine after_zoom.mpr ((h.linked.popFront id).after.mono ?_)
    rintro r s (⟨rfl, rfl, _⟩ | ⟨n, _, hhead, _⟩)
    · trivial
    · rw [hsome] at hhead
      cases hhead
  · exact (h.removeFromDelaylist_ends hsome).after

/-! ## Operations -/

/-- No current task, or one that may go on. -/
def Executing (k : Kernel) : Prop := ∀ t, k.current = some t → k.status t ≠ .blocked

/-- The wakeup time of a task outside the delayed list is free. -/
theorem Inv.setWakeupTime (h : Inv k) (ht : k.lists.list (.sched t) ≠ some .delayed) (v : Nat) :
    Inv { k with wakeupTime := Function.update k.wakeupTime t v } := by
  have hne : ∀ x, k.lists.list x = some .delayed → x.task ≠ t := by
    rintro x hx rfl
    obtain ⟨_, hsched, _⟩ := h.of_list hx
    rw [hsched] at hx
    exact ht hx
  refine ⟨h.linked.reorder fun x y hx hy hle => ?_, fun x hx => ?_, h.placed, h.free, h.current, h.running,
    h.stopped, h.op, h.microOp⟩
  · dsimp only
    rw [Function.update_of_ne (hne x hx), Function.update_of_ne (hne y hy)]
    exact hle
  · dsimp only
    rw [Function.update_of_ne (hne x hx)]
    exact h.timely x hx

theorem Inv.executing (h : Inv k) (hcur : k.current = some t) (hb : Executing k) :
    t < k.taskCnt ∧ k.lists.list (.sched t) ≠ some .delayed := by
  have ht := h.current t hcur
  obtain ⟨hsched, _⟩ := h.unblocked ht (hb t hcur)
  rw [hsched]
  exact ⟨ht, nofun⟩

theorem Inv.taskDelay (h : Inv k) (hb : Executing k) (nticks : Nat) :
    After (taskDelay cfg nticks) (fun _ k' => Inv k' ∧ k'.taskCnt = k.taskCnt ∧
      (∀ u, k'.lists.list (.event u) = k.lists.list (.event u)) ∧
      ∀ u, k'.listTxDone u = true → k.listTxDone u = true ∨ k.current = some u) k := by
  simp only [Kernel.taskDelay, addTime, after_bind, after_getCurrent, after_gets, after_check, after_pure,
    after_setWakeupTime]
  intro t hcur _
  obtain ⟨ht, hsched⟩ := h.executing hcur hb
  have h' := h.setWakeupTime hsched (k.tickCounter + nticks)
  by_cases hdone : k.listTxDone t = true
  · have hbypass : After (rollForwardInsertIntoDelaylist cfg)
        (fun _ k' => k' = { k with wakeupTime := Function.update k.wakeupTime t (k.tickCounter + nticks) })
        { k with wakeupTime := Function.update k.wakeupTime t (k.tickCounter + nticks) } := by
      simp only [rollForwardInsertIntoDelaylist, after_bind, after_bypass]
      intro u hu _
      rw [hcur] at hu
      cases hu
      rw [hdone]
      exact rfl
    refine hbypass.mono ?_
    rintro _ _ rfl
    exact ⟨h', rfl, fun _ => rfl, fun _ => Or.inl⟩
  · refine (h'.insertIntoDelaylist hcur (Bool.eq_false_iff.mpr hdone) (hb t hcur)).after.mono ?_
    rintro _ k' ⟨hinv, hd, hs⟩
    refine ⟨hinv, hs.frame.taskCnt, fun u => ?_, fun u hu => ?_⟩
    · by_cases hut : u = t
      · rw [hut, hs.event, (h.unblocked ht (hb t hcur)).2]
      · exact hs.others hut
    · by_cases hut : u = t
      · exact Or.inr (hut ▸ hcur)
      · rw [hd, Function.update_of_ne hut] at hu
        exact Or.inl hu

/-- The first waiter is woken, if there is one and the wake-up was not done before. -/
theorem Inv.wakeFirst (h : Inv k) (w : Nat) :
    After (rollForwardPopRemoveFromWaitlist cfg w) (fun _ k' => Inv k' ∧ k'.taskCnt = k.taskCnt ∧
      (∀ u, k'.lists.list (.event u) = k.lists.list (.event u) ∨
        k.lists.list (.event u) = some (.waiting w) ∧ k'.lists.list (.event u) = none) ∧
      ∀ u, k'.listTxDone u = true → k.listTxDone u = true ∨ k.current = some u) k := by
  cases hcur : k.current with
  | none =>
      simp only [rollForwardPopRemoveFromWaitlist, after_bind, after_bypass, hcur]
      exact fun _ h => by cases h
  | some t =>
      by_cases hdone : k.listTxDone t = true
      · simp only [rollForwardPopRemoveFromWaitlist, after_bind, after_bypass]
        intro u hu _
        rw [hcur] at hu
        cases hu
        rw [hdone]
        exact ⟨h, rfl, fun _ => Or.inl rfl, fun _ => Or.inl⟩
      · refine (h.popRemoveFromWaitlist w hcur (Bool.eq_false_iff.mpr hdone)).after.mono ?_
        rintro _ k' ⟨hinv, hd, hcase⟩
        refine ⟨hinv, ?_, fun v => ?_, fun v hv => ?_⟩
        · rcases hcase with ⟨_, hk⟩ | ⟨u, _, _, _, hw⟩
          · exact hk.frame.taskCnt
          · exact hw.frame.taskCnt
        · rcases hcase with ⟨_, hk⟩ | ⟨u, _, _, hu, hw⟩
          · rw [hk.lists]
            exact Or.inl rfl
          · by_cases hvu : v = u
            · rw [hvu]
              exact Or.inr ⟨hu, hw.event⟩
            · exact Or.inl (hw.others hvu)
        · by_cases hvt : v = t
          · exact Or.inr (hvt ▸ rfl)
          · rw [hd, Function.update_of_ne hvt] at hv
            exact Or.inl hv

theorem Inv.blockOnWaitlist (h : Inv k) (hb : Executing k) (w wakeupTime : Nat) :
    After (blockOnWaitlist cfg w wakeupTime) (fun _ k' => Inv k' ∧ k'.listTxDone = k.listTxDone ∧
      ∃ t, k.current = some t ∧
        Slept { k with wakeupTime := Function.update k.wakeupTime t wakeupTime } t (some (.waiting w)) k') k := by
  simp only [Kernel.blockOnWaitlist, after_bind, after_getCurrent, after_setWakeupTime]
  intro t hcur
  obtain ⟨ht, hsched⟩ := h.executing hcur hb
  refine ((h.setWakeupTime hsched wakeupTime).insertIntoWaitlist w ht (hb t hcur)).after.mono ?_
  rintro _ k' ⟨hinv, hd, hs⟩
  exact ⟨hinv, hd, t, hcur, hs⟩

theorem Inv.blockOnUnsortedWaitlist (h : Inv k) (hb : Executing k) (w wakeupTime : Nat) :
    After (blockOnUnsortedWaitlist cfg w wakeupTime) (fun _ k' => Inv k' ∧ k'.listTxDone = k.listTxDone ∧
      ∃ t, k.current = some t ∧
        Slept { k with wakeupTime := Function.update k.wakeupTime t wakeupTime } t (some (.waiting w)) k') k := by
  simp only [Kernel.blockOnUnsortedWaitlist, after_bind, after_getCurrent, after_setWakeupTime]
  intro t hcur
  obtain ⟨ht, hsched⟩ := h.executing hcur hb
  refine ((h.setWakeupTime hsched wakeupTime).insertIntoUnsortedWaitlist w ht (hb t hcur)).after.mono ?_
  rintro _ k' ⟨hinv, hd, hs⟩
  exact ⟨hinv, hd, t, hcur, hs⟩

/-- What a tick does to the wait lists: tasks leave them. -/
structure Elapsed (k k' : Kernel) : Prop where
  taskCnt : k'.taskCnt = k.taskCnt
  listTxDone : k'.listTxDone = k.listTxDone
  events : ∀ u, k'.lists.list (.event u) = k.lists.list (.event u) ∨ k'.lists.list (.event u) = none

theorem Elapsed.refl (k : Kernel) : Elapsed k k := ⟨rfl, rfl, fun _ => Or.inl rfl⟩

theorem Elapsed.trans {k' k'' : Kernel} (h : Elapsed k k') (h' : Elapsed k' k'') : Elapsed k k'' := by
  refine ⟨h'.taskCnt.trans h.taskCnt, h'.listTxDone.trans h.listTxDone, fun u => ?_⟩
  rcases h'.events u with he | he
  · rw [he]
    exact h.events u
  · exact Or.inr he

theorem Woke.events {k' : Kernel} (h : Woke k t k') (u : Nat) :
    k'.lists.list (.event u) = k.lists.list (.event u) ∨ k'.lists.list (.event u) = none := by
  by_cases hut : u = t
  · rw [hut]
    exact Or.inr h.event
  · exact Or.inl (h.others hut)

theorem Woke.elapsed {k' : Kernel} (h : Woke k t k') (hd : k'.listTxDone = k.listTxDone) : Elapsed k k' :=
  ⟨h.frame.taskCnt, hd, h.events⟩

theorem Inv.wakeDue (h : Inv k) (curTicks fuel : Nat) :
    After (wakeDue cfg curTicks fuel) (fun _ k' => Inv k' ∧ Elapsed k k') k := by
  induction fuel generalizing k with
  | zero => trivial
  | succ fuel ih =>
      simp only [Kernel.wakeDue, after_bind, after_gets]
      cases k.lists.head .delayed with
      | none => exact ⟨h, .refl k⟩
      | some item =>
          simp only [after_bind, after_gets]
          split
          · exact ⟨h, .refl k⟩
          · rw [after_bind]
            refine h.removeFromDelaylist.mono ?_
            rintro _ k' ⟨h', hd, u, _, hw⟩
            refine (ih h').mono ?_
            rintro _ k'' ⟨h'', he⟩
            exact ⟨h'', (hw.elapsed hd).trans he⟩

theorem Inv.processTick (h : Inv k) : After (processTick cfg) (fun _ k' => Inv k' ∧ Elapsed k k') k := by
  simp only [Kernel.processTick, incTick, after_bind, after_gets, after_check, after_store, after_pure]
  intro _
  have hinv : Inv { k with tickCounter := (k.tickCounter + 1) % 2 ^ cfg.timeBits } :=
    ⟨h.linked, h.timely, h.placed, h.free, h.current, h.running, h.stopped, h.op, h.microOp⟩
  split
  · simp only [after_bind, after_gets]
    refine (hinv.wakeDue _ _).mono ?_
    rintro _ k' ⟨h', he⟩
    refine ⟨⟨h'.linked, fun x hx => ?_, h'.placed, h'.free, h'.current, h'.running, h'.stopped, h'.op,
      h'.microOp⟩, he.taskCnt, he.listTxDone, he.events⟩
    -- the list is sorted, so its head has the least wakeup time
    cases hhead : k'.lists.head .delayed with
    | none => exact absurd hx (h'.linked.head_none id hhead)
    | some m =>
        simp only [hhead, Option.map_some, Option.getD_some]
        exact h'.linked.head_le id (fun _ => Nat.le_refl _) hx hhead
  · exact ⟨hinv, rfl, rfl, fun _ => Or.inl rfl⟩

/-- The task that `task_switch` chooses is the next one of its ring, and ready. -/
theorem Inv.nextTask (h : Inv k) {i : Nat} (hk : nextTask k = some (i, t)) :
    i < numPriorityLevels ∧ t < k.taskCnt ∧ i = k.priority t ∧ k.status t ≠ .blocked ∧
      ∃ c, k.lists.cursor (.ready i) = some c ∧ k.lists.next c = some (.sched t) := by
  obtain ⟨j, hj, hn⟩ := List.exists_of_findSome?_eq_some hk
  rw [Option.map_eq_some_iff] at hn
  obtain ⟨n, hn, hit⟩ := hn
  cases hit
  obtain ⟨c, hc, hnext, hlist⟩ := h.linked.list_of_peekNext (by trivial) hn
  obtain ⟨hlt, hsched, hprio, hb⟩ := h.of_list hlist
  rw [hsched] at hnext
  exact ⟨List.mem_range.mp hj, hlt, hprio, hb, c, hc, hnext⟩

/-- The chosen task runs, and the previous one keeps its lists. -/
theorem Inv.switched {k' : Kernel} {prevTask : Nat} {v : TaskState} (h : Inv k)
    (hcur : k.current = some prevTask) (hst : k.schedulerStarted = true) (ht : t < k.taskCnt)
    (hb : k.status t ≠ .blocked) (hv : v ≠ .running) (hvb : v = .blocked ↔ k.status prevTask = .blocked)
    (hlinked : WellOrdered k'.wakeupTime k'.lists) (hlist : k'.lists.list = k.lists.list)
    (hstatus : k'.status = Function.update (Function.update k.status t .running) prevTask v)
    (hcur' : k'.current = some t) (hcnt : k'.taskCnt = k.taskCnt) (hprio : k'.priority = k.priority)
    (hwake : k'.wakeupTime = k.wakeupTime) (hnext : k'.nextUnblockTime = k.nextUnblockTime)
    (hst' : k'.schedulerStarted = k.schedulerStarted) (hop : k'.op = .invalid)
    (hmicro : k'.lists.microOpOldLen = 0) : Inv k' := by
  have hblocked : ∀ u, k'.status u = .blocked ↔ k.status u = .blocked := by
    intro u
    rw [hstatus]
    by_cases hup : u = prevTask
    · rw [hup, Function.update_self]
      exact hvb
    · rw [Function.update_of_ne hup]
      by_cases hut : u = t
      · rw [hut, Function.update_self]
        simp [hb]
      · rw [Function.update_of_ne hut]
  refine ⟨hlinked, ?_, ?_, ?_, ?_, ?_, ?_, hop, hmicro⟩
  · rw [hlist, hnext, hwake]
    exact h.timely
  · intro u hu
    unfold Placed
    rw [hlist, hprio, hblocked, Ne, hblocked]
    exact h.placed u (hcnt ▸ hu)
  · rw [hlist, hcnt]
    exact h.free
  · intro u hu
    rw [hcur'] at hu
    cases hu
    rwa [hcnt]
  · intro u hu
    rw [hcur']
    rw [hstatus] at hu
    by_cases hup : u = prevTask
    · rw [hup, Function.update_self] at hu
      exact absurd hu hv
    · rw [Function.update_of_ne hup] at hu
      by_cases hut : u = t
      · rw [hut]
      · rw [Function.update_of_ne hut] at hu
        have hup' := h.running u hu
        rw [hcur] at hup'
        cases hup'
        exact absurd rfl hup
  · rw [hst', hst]
    exact nofun

/-- What a switch leaves alone. -/
structure Switched (k k' : Kernel) : Prop where
  taskCnt : k'.taskCnt = k.taskCnt
  list : k'.lists.list = k.lists.list
  listTxDone : k'.listTxDone = k.listTxDone

theorem Inv.contextSwitch (h : Inv k) {i prevTask : Nat} {c : NodeRef} (hne : t ≠ prevTask)
    (hcur : k.current = some prevTask) (hst : k.schedulerStarted = true) (ht : t < k.taskCnt)
    (hb : k.status t ≠ .blocked) (hc : k.lists.cursor (.ready i) = some c) :
    Ends (atomicRollFowardContextSwitch t prevTask i) (fun _ k' => Inv k' ∧ Switched k k') k := by
  have hring : ListRef.IsReady (.ready i) := trivial
  simp only [atomicRollFowardContextSwitch, setCurrent, ends_bind, ends_store, ends_setMicroOp, ends_setStatus,
    ends_gets, Function.update_of_ne hne.symm]
  split
  case isTrue hready =>
    rw [ends_bind, ends_setStatus, ends_bind]
    apply ends_onLists
    · exact (h.linked.setMicroOpOldLen _).nextItem hring id hc
    rintro _ s ⟨_, hs, hlist, _⟩
    rw [ends_bind, ends_store, ends_setMicroOp]
    refine ⟨?_, rfl, hlist, rfl⟩
    apply h.switched hcur hst ht hb (v := .ready) (by simp)
    · simpa using hready
    · exact hs.setMicroOpOldLen _
    · exact hlist
    all_goals first | rfl | exact h.op
  case isFalse hblocked =>
    rw [not_not] at hblocked
    rw [ends_bind]
    apply ends_onLists
    · exact (h.linked.setMicroOpOldLen _).nextItem hring id hc
    rintro _ s ⟨_, hs, hlist, _⟩
    rw [ends_bind, ends_store, ends_setMicroOp]
    refine ⟨?_, rfl, hlist, rfl⟩
    apply h.switched hcur hst ht hb (v := .blocked) (by simp)
    · simpa using hblocked
    · exact hs.setMicroOpOldLen _
    · exact hlist
    · dsimp only
      rw [← hblocked, Function.update_comm hne, Function.update_eq_self]
    all_goals first | rfl | exact h.op

theorem Inv.taskSwitch (h : Inv k) (hst : k.schedulerStarted = true) :
    After (taskSwitch cfg) (fun _ k' => Inv k' ∧ Switched k k') k := by
  simp only [Kernel.taskSwitch, after_bind, after_getCurrent, after_gets]
  intro prevTask hcur
  cases hk : Kernel.nextTask k with
  | none => trivial
  | some p =>
      obtain ⟨i, task⟩ := p
      obtain ⟨_, ht, _, hb, c, hc, _⟩ := h.nextTask hk
      by_cases hne : task = prevTask
      · simp only [hne, ne_eq, not_true_eq_false, if_false, after_bind, after_gets, after_check]
        exact fun _ => ⟨h, rfl, rfl, rfl⟩
      · simp only [ne_eq, hne, not_false_eq_true, if_true, after_bind, after_gets, after_check]
        intro _
        exact (h.contextSwitch hne hcur hst ht hb hc).after

/-- The next task, in the ready list of its priority. -/
theorem Inv.created {k' : Kernel} {prio : Nat} (h : Inv k) (hlinked : WellOrdered k'.wakeupTime k'.lists)
    (hlist : k'.lists.list =
      Function.update k.lists.list (.sched k.taskCnt) (some (.ready (k'.priority k.taskCnt))))
    (hstatus : k'.status = Function.update k.status k.taskCnt .ready)
    (hprio : k'.priority = Function.update k.priority k.taskCnt prio) (hcnt : k'.taskCnt = k.taskCnt + 1)
    (hwake : ∀ u, u < k.taskCnt → k'.wakeupTime u = k.wakeupTime u)
    (hnext : k'.nextUnblockTime = k.nextUnblockTime)
    (hcur : k'.current = k.current ∨ k.schedulerStarted = false ∧ k'.current = some k.taskCnt)
    (hst : k'.schedulerStarted = k.schedulerStarted) (hop : k'.op = .invalid)
    (hmicro : k'.lists.microOpOldLen = 0) : Inv k' := by
  have hrun : ∀ u, k'.status u = .running → k.status u = .running := by
    intro u hu
    rw [hstatus] at hu
    by_cases hut : u = k.taskCnt
    · rw [hut, Function.update_self] at hu
      cases hu
    · rwa [Function.update_of_ne hut] at hu
  refine ⟨hlinked, ?_, ?_, ?_, ?_, ?_, ?_, hop, hmicro⟩
  · intro x hx
    have hold : k.lists.list x = some .delayed := by
      by_cases hne : x = .sched k.taskCnt
      · rw [hlist, hne, Function.update_self] at hx
        cases hx
      · rwa [hlist, Function.update_of_ne hne] at hx
    rw [hnext, hwake _ (h.of_list hold).1]
    exact h.timely x hold
  · intro u hu
    by_cases hut : u = k.taskCnt
    · subst hut
      refine Or.inl ⟨?_, ?_, ?_⟩
      · rw [hlist, Function.update_self]
      · rw [hlist, Function.update_of_ne (event_ne_sched _ _)]
        exact h.free _ (Nat.le_refl _)
      · rw [hstatus, Function.update_self]
        exact nofun
    · have hother : ∀ n, n.task = u → k'.lists.list n = k.lists.list n := by
        rintro n rfl
        rw [hlist]
        exact update_of_task_ne hut
      unfold Placed
      rw [hother _ rfl, hother _ rfl, hstatus, Function.update_of_ne hut, hprio, Function.update_of_ne hut]
      exact h.placed u (by omega)
  · intro n hn
    have hne : n.task ≠ k.taskCnt := by omega
    rw [hlist, update_of_task_ne hne]
    exact h.free n (by omega)
  · intro u hu
    rcases hcur with hc | ⟨_, hc⟩
    · rw [hc] at hu
      have hlt := h.current u hu
      omega
    · rw [hc] at hu
      cases hu
      omega
  · intro u hu
    rcases hcur with hc | ⟨hstopped, _⟩
    · rw [hc]
      exact h.running u (hrun u hu)
    · exact absurd (hrun u hu) (h.stopped hstopped u)
  · intro hstopped u hu
    rw [hst] at hstopped
    exact h.stopped hstopped u (hrun u hu)

/-- What the creation of a task does to those that exist. -/
structure Created (k k' : Kernel) : Prop where
  taskCnt : k.taskCnt ≤ k'.taskCnt
  events : ∀ u, k'.lists.list (.event u) = k.lists.list (.event u)
  listTxDone : ∀ u, k'.listTxDone u = true → k.listTxDone u = true

/-- The stores of `create_task_static` after those that make the new task current. -/
theorem Inv.insertCreated {k' : Kernel} {tid prio : Nat} (h : Inv k) (htid : k.taskCnt = tid)
    (hlinked : WellOrdered k'.wakeupTime k'.lists) (hlist : k'.lists.list = k.lists.list)
    (hstatus : k'.status = Function.update k.status tid .ready)
    (hprio : k'.priority = Function.update k.priority tid prio) (hcnt : k'.taskCnt = tid + 1)
    (hwake : ∀ u, u < tid → k'.wakeupTime u = k.wakeupTime u) (hnext : k'.nextUnblockTime = k.nextUnblockTime)
    (hdone : ∀ u, k'.listTxDone u = true → k.listTxDone u = true)
    (hcur : k'.current = k.current ∨ k.schedulerStarted = false ∧ k'.current = some tid)
    (hst : k'.schedulerStarted = k.schedulerStarted) :
    Ends (do
      rollForwardInsertIntoReadylist tid
      pure (Except.ok tid : Except ErrorCode Nat)) (fun _ k'' => Inv k'' ∧ Created k k'') k' := by
  subst htid
  simp only [rollForwardInsertIntoReadylist, ends_bind, ends_store, ends_setTxOp]
  apply ends_addToReadyList
  · exact hlinked
  · dsimp only
    rw [hlist]
    exact h.free _ (Nat.le_refl _)
  intro s hs hslist
  rw [ends_invalidate, ends_pure]
  dsimp only at hslist
  refine ⟨?_, ?_, fun u => ?_, hdone⟩
  · apply h.created
    · exact hs.setMicroOpOldLen 0
    · dsimp only
      rw [hslist, hlist]
    · dsimp only
      rw [hstatus, Function.update_idem]
    · exact hprio
    · exact hcnt
    · exact hwake
    · exact hnext
    · exact hcur
    · exact hst
    all_goals rfl
  · rw [hcnt]
    exact Nat.le_succ _
  · dsimp only
    rw [hslist, Function.update_of_ne (event_ne_sched _ _), hlist]

theorem Inv.createTaskStatic (h : Inv k) (prio : Nat) :
    Ends (createTaskStatic cfg prio) (fun _ k' => Inv k' ∧ Created k k') k := by
  have hsame : Created k k := ⟨Nat.le_refl _, fun _ => rfl, fun _ => id⟩
  simp only [Kernel.createTaskStatic, ends_bind, ends_gets]
  split
  · exact ⟨h, hsame⟩
  split
  · exact ⟨h, hsame⟩
  simp only [initializeTask, ends_bind, ends_store]
  have hnone : ∀ n : NodeRef, n.task = k.taskCnt → k.lists.list n = none := fun n hn =>
    h.free n (Nat.le_of_eq hn.symm)
  apply ends_onLists
  · exact h.linked.resetNode (hnone _ rfl)
  rintro _ s ⟨hs, hlist, _⟩
  rw [ends_bind]
  apply ends_onLists
  · exact hs.resetNode (by rw [hlist]; exact hnone _ rfl)
  rintro _ s₁ ⟨hs₁, hlist₁, _⟩
  have hlists : s₁.list = k.lists.list := hlist₁.trans hlist
  have hwake : ∀ u, u < k.taskCnt → Function.update k.wakeupTime k.taskCnt 0 u = k.wakeupTime u :=
    fun u hu => Function.update_of_ne (Nat.ne_of_lt hu) _ _
  have hlt : ∀ x, s₁.list x = some .delayed → x.task < k.taskCnt := by
    intro x hx
    rw [hlists] at hx
    exact (h.of_list hx).1
  have hordered : WellOrdered (Function.update k.wakeupTime k.taskCnt 0) s₁ := by
    refine hs₁.reorder fun x y hx hy hle => ?_
    rw [hwake _ (hlt x hx), hwake _ (hlt y hy)]
    exact hle
  have hdone : ∀ u, Function.update k.listTxDone k.taskCnt false u = true → k.listTxDone u = true := by
    intro u hu
    by_cases hut : u = k.taskCnt
    · rw [hut, Function.update_self] at hu
      cases hu
    · rwa [Function.update_of_ne hut] at hu
  simp only [ends_bind, ends_setWakeupTime, ends_store, ends_setStatus, ends_gets, setCurrent]
  split
  case isTrue hfirst =>
    rw [ends_bind, ends_store, ends_bind, ends_store]
    apply h.insertCreated rfl hordered hlists
    · rfl
    · rfl
    · rfl
    · exact hwake
    · rfl
    · exact hdone
    · exact Or.inr ⟨Bool.eq_false_iff.mpr hfirst.1, rfl⟩
    · rfl
  case isFalse =>
    apply h.insertCreated rfl hordered hlists
    · rfl
    · rfl
    · rfl
    · exact hwake
    · rfl
    · exact hdone
    · exact Or.inl rfl
    · rfl

end Kernel

end IntOS
