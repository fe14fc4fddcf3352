import IntOS.Boot.Lemmas.Recovery
import IntOS.Tx.Lemmas.Transaction

/-!
# Registrations

A boot gets the results of the committed registrations from the cache, and runs the transaction of the next one.
Until this is committed its stores concern a task that is in no list, but for `TASK_CNT`, which is logged, and the
choice of the first task to run, which comes out the same when it is made again.
-/

namespace IntOS

open Persist Persist.Prog

namespace Kernel

variable {prio : Nat → Nat} {n p : Nat} {k c : Kernel}

/-- Only fields of the task `n`, which is in no list, are stored. -/
structure Preparing (prio : Nat → Nat) (n : Nat) (k c : Kernel) : Prop where
  taskCnt : c.taskCnt = k.taskCnt
  fields : ∀ i, i < n → c.taskFields i = k.taskFields i
  current : c.current = k.current
  curMaxPriority : c.curMaxPriority = k.curMaxPriority
  schedulerStarted : c.schedulerStarted = k.schedulerStarted
  idle : Resting prio n c

theorem Preparing.refl (h : Resting prio n k) : Preparing prio n k k :=
  ⟨rfl, fun _ _ => rfl, rfl, rfl, rfl, h⟩

theorem stays_prepareNode {x : NodeRef} (hx : x.task = n) :
    Stays (Preparing prio n k) (onLists (Lists.resetNode x)) fun _ => True := by
  have hn : ∀ l, x ∉ Contents.placed prio n l := by
    intro l hl
    obtain ⟨i, hi, rfl, _⟩ := Contents.mem_placed.mp hl
    have hin : i = n := hx
    omega
  have hreset : Stays (fun c => Lists.Holds ListRef.IsReady c (Contents.placed prio n) ∧ c.microOpOldLen = 0)
      (Lists.resetNode x) fun _ => True := Lists.holds_resetNode hn
  refine stays_zoom hreset (fun _ => rfl) ?_ ?_
  · exact fun c hc => ⟨hc.idle.shows, hc.idle.microOp⟩
  · exact fun s c hc hs => { hc with idle := ⟨hs.1, hc.idle.op, hs.2⟩ }

/-- A store to fields of the task `n`. -/
theorem Preparing.stores {priority : Nat → Nat} {status : Nat → TaskState} {wakeupTime : Nat → Nat}
    {listTxDone recoveryMode : Nat → Bool} (h : Preparing prio n k c)
    (hf : ∀ i, i < n → (priority i, status i, wakeupTime i, listTxDone i, recoveryMode i) = c.taskFields i) :
    Preparing prio n k { c with
      priority := priority, status := status, wakeupTime := wakeupTime, listTxDone := listTxDone
      recoveryMode := recoveryMode } :=
  { h with
    fields := fun i hi => (hf i hi).trans (h.fields i hi)
    idle := ⟨h.idle.shows, h.idle.op, h.idle.microOp⟩ }

theorem stays_initializeTask : Stays (Preparing prio n k) (initializeTask n p) fun _ => True := by
  have hne : ∀ {α : Type} (f : Nat → α) (v : α) (i : Nat), i < n → Function.update f n v i = f i :=
    fun f v i hi => Function.update_of_ne (Nat.ne_of_lt hi) _ _
  have hsched : Stays (Preparing prio n k) (onLists (Lists.resetNode (.sched n))) fun _ => True := stays_prepareNode rfl
  have hevent : Stays (Preparing prio n k) (onLists (Lists.resetNode (.event n))) fun _ => True := stays_prepareNode rfl
  refine hsched.bind fun _ _ => hevent.bind fun _ _ => ?_
  refine Stays.bind (stays_store fun c hc => hc.stores fun i hi => ?_) fun _ _ => ?_
  · rw [hne _ _ i hi]
    rfl
  refine Stays.bind (stays_store fun c hc => hc.stores fun i hi => ?_) fun _ _ => ?_
  · rw [hne _ _ i hi]
    rfl
  refine Stays.bind (stays_store fun c hc => hc.stores fun i hi => ?_) fun _ _ => ?_
  · rw [hne _ _ i hi]
    rfl
  refine Stays.bind (stays_store fun c hc => hc.stores fun i hi => ?_) fun _ _ =>
    stays_store fun c hc => hc.stores fun i hi => ?_
  · rw [hne _ _ i hi]
    rfl
  · rw [hne _ _ i hi]
    rfl

end Kernel

namespace Boot

variable {α : Type} {t : BootTarget} {regs : List Registration} {i old n m : Nat} {r : Registration} {s c : Boot}
  {k : Kernel} {E : Prop} {C : Boot → Prop}

/-! ## Stores of the transaction -/

/-- The transaction of the task `n` has logged `TASK_CNT`. -/
structure Opened (t : BootTarget) (regs : List Registration) (old n : Nat) (s : Boot) : Prop where
  halted : Halted t regs n s
  stacked : Stacked t regs old n s
  old_le : old ≤ n
  flag : ¬ s.bootTxCache.isCommitted t.board.width
  ptr : s.bootTxCache.ptr = position t.board.width (results t n)
  journal : s.bootJournal = [n]
  idle : Kernel.Resting (prioAt regs) n s.kernel

theorem Opened.kernel {k : Kernel} (h : Opened t regs old n s) (hk : Kernel.Preparing (prioAt regs) n s.kernel k) :
    Opened t regs old n { s with kernel := k } where
  halted :=
    { h.halted with
      counted := by
        have hc := h.halted.counted
        rw [Counted, ← hk.taskCnt] at hc
        exact hc
      registered := fun i r hi hr => (h.halted.registered i r hi hr).frame rfl rfl (hk.fields i hi)
      led := by
        have hl := h.halted.led
        rw [Led, ← hk.current, ← hk.curMaxPriority] at hl
        exact hl
      listed := hk.idle.listed (Nat.le_succ n) (Nat.le_refl n)
      stopped := hk.schedulerStarted.trans h.halted.stopped }
  stacked := h.stacked.congr rfl rfl rfl
  old_le := h.old_le
  flag := h.flag
  ptr := h.ptr
  journal := h.journal
  idle := hk.idle

/-- A store to the entries of the task `n`, or to its stack. -/
theorem Opened.entries {allocated : Nat → Bool} {tasks : Nat → Tcb} {frames : Nat → Option Frame}
    (h : Opened t regs old n s) (ha : ∀ i, i < n → allocated i = s.allocated i)
    (htasks : ∀ i, i < n → tasks i = s.tasks i) (hframes : ∀ i, i < n → frames i = s.frames i) :
    Opened t regs old n { s with allocated := allocated, tasks := tasks, frames := frames } where
  halted :=
    { h.halted with
      registered := fun i r hi hr => (h.halted.registered i r hi hr).frame (ha i hi) (htasks i hi) rfl }
  stacked := h.stacked.frame h.old_le htasks hframes rfl
  old_le := h.old_le
  flag := h.flag
  ptr := h.ptr
  journal := h.journal
  idle := h.idle

/-- The choice of the first task. -/
theorem Opened.led {cur : Option Nat} {max : Nat} (h : Opened t regs old n s)
    (hl : Led regs n { s.kernel with current := cur, curMaxPriority := max }) :
    Opened t regs old n { s with kernel := { s.kernel with current := cur, curMaxPriority := max } } where
  halted :=
    { h.halted with
      registered := fun i r hi hr => (h.halted.registered i r hi hr).frame rfl rfl rfl
      led := hl
      listed := h.halted.listed.frame rfl rfl rfl }
  stacked := h.stacked.congr rfl rfl rfl
  old_le := h.old_le
  flag := h.flag
  ptr := h.ptr
  journal := h.journal
  idle := ⟨h.idle.shows, h.idle.op, h.idle.microOp⟩

theorem stays_setTask (f : Tcb → Tcb) : Stays (Opened t regs old n) (setTask n f) fun _ => True :=
  stays_store fun _ hc => hc.entries (fun _ _ => rfl) (fun _ hi => Function.update_of_ne (Nat.ne_of_lt hi) _ _)
    fun _ _ => rfl

theorem stays_buildStack (top : Tcb → Nat) : Stays (Opened t regs old n) (buildStack t n top) fun _ => True := by
  refine (stays_gets (Q := fun _ => True) fun _ _ => trivial).bind fun x _ => ?_
  refine Stays.bind (stays_store fun c hc => ?_) fun _ _ => stays_setTask _
  exact hc.entries (fun _ _ => rfl) (fun _ _ => rfl) fun _ hi => Function.update_of_ne (Nat.ne_of_lt hi) _ _

theorem stays_onKernel {p : Prog Kernel α}
    (hp : ∀ k, Kernel.Resting (prioAt regs) n k → Stays (Kernel.Preparing (prioAt regs) n k) p fun _ => True) :
    Stays (Opened t regs old n) (onKernel p) fun _ => True := by
  intro s hs
  apply wpc_onKernel
  refine wpc_mono (hp s.kernel hs.idle s.kernel (.refl hs.idle)) ?_ ?_
  · exact fun _ k hk => ⟨hs.kernel hk.1, trivial⟩
  · exact fun k hk => hs.kernel hk

theorem stays_initialized (r : Registration) : Stays (Opened t regs old n) (initializeTask t n r) fun _ => True := by
  refine (stays_setTask _).bind fun _ _ => (stays_setTask _).bind fun _ _ => (stays_setTask _).bind fun _ _ => ?_
  refine (stays_setTask _).bind fun _ _ => (stays_onKernel ?_).bind fun _ _ => ?_
  · exact fun _ _ => Kernel.stays_initializeTask
  · refine (stays_setTask _).bind fun _ _ => (stays_setTask _).bind fun _ _ => ?_
    refine (stays_gets (Q := fun _ => True) fun _ _ => trivial).bind fun _ _ => ?_
    exact (stays_setTask _).bind fun _ _ => stays_buildStack _

/-! ## The first task to run -/

theorem Led.current (h : Led regs n k) (hlt : prioAt regs n < k.curMaxPriority) :
    Led regs n { k with current := some n } ∧
      Led regs n { k with current := some n, curMaxPriority := prioAt regs n } := by
  obtain ⟨cur, max, hlead, ⟨_, rfl⟩ | ⟨hmax, _, hcm⟩⟩ := h
  · exact ⟨⟨cur, _, hlead, Or.inr ⟨hlt, rfl, Or.inl rfl⟩⟩, cur, _, hlead, Or.inr ⟨hlt, rfl, Or.inr rfl⟩⟩
  · exact ⟨⟨cur, max, hlead, Or.inr ⟨hmax, rfl, hcm⟩⟩, cur, max, hlead, Or.inr ⟨hmax, rfl, Or.inr rfl⟩⟩

/-- A task leads from where it has a higher priority than all before. -/
theorem Leads.first {cur : Option Nat} {max : Nat} (h : Leads regs n cur max) (hlt : prioAt regs n < max) :
    Leads regs (n + 1) (some n) (prioAt regs n) := by
  refine ⟨Nat.lt_succ_self n, rfl, fun j hj => ?_⟩
  rcases Nat.lt_succ_iff_lt_or_eq.mp hj with hj | rfl
  · cases cur with
    | none =>
        obtain ⟨rfl, _⟩ := h
        exact absurd hj (Nat.not_lt_zero j)
    | some i =>
        obtain ⟨_, rfl, hmin⟩ := h
        have hle := (hmin j hj).1
        exact ⟨by omega, fun _ => by omega⟩
  · exact ⟨Nat.le_refl _, fun h => absurd h (Nat.lt_irrefl _)⟩

theorem Leads.stays {cur : Option Nat} {max : Nat} (h : Leads regs n cur max) (hp : prioAt regs n < numPriorityLevels)
    (hge : ¬ prioAt regs n < max) : Leads regs (n + 1) cur max := by
  cases cur with
  | none => exact absurd (h.2 ▸ hp) hge
  | some i =>
      obtain ⟨hi, rfl, hmin⟩ := h
      refine ⟨Nat.lt_succ_of_lt hi, rfl, fun j hj => ?_⟩
      rcases Nat.lt_succ_iff_lt_or_eq.mp hj with hj | rfl
      · exact hmin j hj
      · exact ⟨Nat.le_of_not_lt hge, fun hji => absurd hi (Nat.lt_asymm hji)⟩

/-- The choice, made again after a failure between or behind its stores. -/
theorem Led.next (h : Led regs n k) (hp : prioAt regs n < numPriorityLevels) :
    (prioAt regs n < k.curMaxPriority → Leads regs (n + 1) (some n) (prioAt regs n)) ∧
      (¬ prioAt regs n < k.curMaxPriority → Leads regs (n + 1) k.current k.curMaxPriority) := by
  obtain ⟨cur, max, hlead, ⟨rfl, rfl⟩ | ⟨hmax, hcur, hcm⟩⟩ := h
  · exact ⟨hlead.first, hlead.stays hp⟩
  · refine ⟨fun _ => hlead.first hmax, fun hge => ?_⟩
    rcases hcm with hcm | hcm
    · exact absurd (hcm ▸ hmax) hge
    · rw [hcur, hcm]
      exact hlead.first hmax

/-! ## The transaction -/

theorem ends_initialized (r : Registration) (s : Boot) :
    Ends (initializeTask t n r) (fun _ s' => s'.allocated = s.allocated ∧
      s'.tasks n = tcbOf t n r s.currentGeneration ∧ s'.frames n = some (frameOf t n r) ∧
      s'.kernel.taskFields n = (r.prio, .ready, 0, false, false) ∧ s'.kernel.taskCnt = s.kernel.taskCnt) s := by
  simp [initializeTask, buildStack, setTask, onKernel, ends_zoom, Kernel.initializeTask, Kernel.onLists,
    Lists.resetNode, Lists.setPrev, Lists.setNext, Lists.setList, Kernel.setWakeupTime, Kernel.setStatus,
    Kernel.taskFields, tcbOf, frameOf]

/-- The transaction has made the task `n`. -/
structure Made (t : BootTarget) (n : Nat) (r : Registration) (s : Boot) : Prop where
  registered : Registered t n r s
  frame : s.frames n = some (frameOf t n r)

/-- The closure of `create_task_static`. A failure leaves the task unregistered. -/
theorem Opened.wpc_registerTask {Q : Except ErrorCode Nat → Boot → Prop}
    (h : Opened t regs old n { s with bootJournal := [n] }) (hj : s.bootJournal = [])
    (hcnt : s.kernel.taskCnt = n) (hs : C s) (hr : regs[n]? = some r)
    (hp : r.prio < numPriorityLevels) (hn : n < t.taskNumLimit) (hC : ∀ c, Halted t regs n c → C c)
    (hQ : ∀ s', Opened t regs old n s' → s'.kernel.taskCnt = n + 1 → Made t n r s' →
      Leads regs (n + 1) s'.kernel.current s'.kernel.curMaxPriority → Q (.ok n) s') :
    wpc (registerTask t r) Q E C s := by
  have hprio := prioAt_eq hr
  have h₁ := hC _ h.halted
  have hopen : Opened t regs old n { s with
      bootJournal := [n], kernel := { s.kernel with taskCnt := n + 1 } } :=
    { h with
      halted := { h.halted with
        counted := Or.inr ⟨h.flag, rfl, Or.inr rfl⟩
        registered := fun i r hi hr => (h.halted.registered i r hi hr).frame rfl rfl rfl
        listed := h.halted.listed.frame rfl rfl rfl }
      stacked := h.stacked.congr rfl rfl rfl
      idle := ⟨h.idle.shows, h.idle.op, h.idle.microOp⟩ }
  have halloc : Opened t regs old n { s with
      bootJournal := [n], kernel := { s.kernel with taskCnt := n + 1 }
      allocated := Function.update s.allocated n true } :=
    hopen.entries (fun _ hi => Function.update_of_ne (Nat.ne_of_lt hi) _ _) (fun _ _ => rfl) fun _ _ => rfl
  have h₂ := hC _ hopen.halted
  refine wpc_bind (wpc_store hs (by rw [hj, hcnt]; exact h₁) ?_)
  rw [hj, hcnt]
  refine wpc_bind (wpc_gets h₁ ?_)
  dsimp only
  rw [hcnt, if_neg (Nat.not_le.mpr hn), if_neg (Nat.not_le.mpr hp)]
  refine wpc_bind (wpc_onKernel (wpc_store h₁ h₂ (wpc_bind (wpc_store h₂ (hC _ halloc.halted) (wpc_bind ?_)))))
  refine wpc_mono (wpc_and_of_ends (ends_initialized r _) (stays_initialized r _ halloc)) ?_ fun c hc => hC c hc.halted
  rintro _ s₁ ⟨⟨hallocated, htcb, hframe, hfields, hcount⟩, hs₁, -⟩
  have hmade : ∀ k : Kernel, k.taskFields n = s₁.kernel.taskFields n → Made t n r { s₁ with kernel := k } := by
    intro k hk
    have halloc : s₁.allocated n = true := by
      rw [hallocated]
      exact Function.update_self _ _ _
    rw [hfields] at hk
    simp only [Kernel.taskFields, Prod.mk.injEq] at hk
    obtain ⟨hprio, hstatus, hwakeup, hdone, hmode⟩ := hk
    refine ⟨⟨halloc, ?_, hprio, hstatus, hwakeup, hdone, hmode⟩, hframe⟩
    rw [htcb]
    rfl
  have h₃ := hC _ hs₁.halted
  obtain ⟨hfirst, hstays⟩ := hs₁.halted.led.next (hprio ▸ hp)
  refine wpc_bind (wpc_gets h₃ (wpc_bind (wpc_gets h₃ ?_)))
  rw [hs₁.halted.stopped]
  by_cases hlt : r.prio < s₁.kernel.curMaxPriority
  · rw [if_pos ⟨Bool.false_ne_true, hlt⟩]
    rw [← hprio] at hlt ⊢
    obtain ⟨hled₁, hled₂⟩ := hs₁.halted.led.current hlt
    have h₄ := hs₁.led hled₁
    have h₅ := hs₁.led hled₂
    refine wpc_bind (wpc_onKernel (wpc_store h₃ (hC _ h₄.halted) ?_))
    refine wpc_bind (wpc_onKernel (wpc_store (hC _ h₄.halted) (hC _ h₅.halted) (wpc_pure (hC _ h₅.halted) ?_)))
    exact hQ _ h₅ hcount (hmade _ rfl) (hfirst hlt)
  · rw [if_neg fun hand => hlt hand.2]
    refine wpc_pure h₃ (hQ _ hs₁ hcount (hmade s₁.kernel rfl) (hstays ?_))
    rwa [hprio]

/-- Before the result is stored. -/
theorem Opened.uncommitted {x : TxCache} (h : Opened t regs old n s) (hc : Committed t.board (results t n) x)
    (hflag : ¬ x.isCommitted t.board.width) : Halted t regs n { s with bootTxCache := x } :=
  { h.halted with
    cache := hc
    counted := by
      rcases h.halted.counted with ⟨_, hj | hflag'⟩ | ⟨_, hj, hcnt⟩
      · exact absurd (h.journal.symm.trans hj) (List.cons_ne_nil _ _)
      · exact absurd hflag' h.flag
      · exact Or.inr ⟨hflag, hj, hcnt⟩
    registered := fun i r hi hr => (h.halted.registered i r hi hr).frame rfl rfl rfl }

/-- From the commit on the task is registered. -/
theorem Opened.commit {x : TxCache} (h : Opened t regs old n s) (hcnt : s.kernel.taskCnt = n + 1)
    (hr : regs[n]? = some r) (hmade : Made t n r s)
    (hlead : Leads regs (n + 1) s.kernel.current s.kernel.curMaxPriority)
    (hc : Committed t.board (results t (n + 1)) x) (hflag : x.isCommitted t.board.width) :
    Halted t regs (n + 1) { s with bootTxCache := x } where
  le := (List.getElem?_eq_some_iff.mp hr).1
  cache := hc
  counted := Or.inl ⟨hcnt, Or.inr hflag⟩
  registered := by
    intro i r' hi hr'
    rcases Nat.lt_succ_iff_lt_or_eq.mp hi with hi | rfl
    · exact (h.halted.registered i r' hi hr').frame rfl rfl rfl
    · obtain rfl : r = r' := Option.some.inj (hr.symm.trans hr')
      exact hmade.registered.frame rfl rfl rfl
  led := ⟨_, _, hlead, Or.inl ⟨rfl, rfl⟩⟩
  listed := h.idle.listed (Nat.le_refl _) (Nat.le_succ n)
  booting := h.halted.booting
  stopped := h.halted.stopped

/-- Its stack is built. -/
theorem Opened.built (h : Opened t regs old n s) (hr : regs[n]? = some r) (hmade : Made t n r s) :
    Stacked t regs old (n + 1) s where
  lost := h.stacked.lost
  built := by
    intro i r' hi hin hr'
    rcases Nat.lt_succ_iff_lt_or_eq.mp hin with hin | rfl
    · exact h.stacked.built i r' hi hin hr'
    · obtain rfl : r = r' := Option.some.inj (hr.symm.trans hr')
      exact hmade.frame

theorem wpc_incNesting {b : Board} {Q : Unit → Boot → Prop} (hE : b.debugAssertions = true → E)
    (hC : ∀ v, C { s with nestingLevel := v }) (hQ : ∀ v, Q () { s with nestingLevel := v }) :
    wpc (incNesting b) Q E C s := by
  unfold incNesting
  split
  case isTrue hd =>
    refine wpc_bind (wpc_store (hC s.nestingLevel) (hC _) (wpc_bind (wpc_gets (hC _) ?_)))
    exact wpc_check (hC _) (fun _ => hE hd) fun _ => hQ _
  case isFalse => exact wpc_pure (hC s.nestingLevel) (hQ s.nestingLevel)

theorem wpc_decNesting {b : Board} {Q : Unit → Boot → Prop} (hE : b.debugAssertions = true → E)
    (hC : ∀ v, C { s with nestingLevel := v }) (hQ : ∀ v, Q () { s with nestingLevel := v }) :
    wpc (decNesting b) Q E C s := by
  unfold decNesting
  split
  case isTrue hd =>
    refine wpc_bind (wpc_gets (hC s.nestingLevel) ?_)
    refine wpc_bind (wpc_check (hC s.nestingLevel) (fun _ => hE hd) fun _ => ?_)
    refine wpc_bind (wpc_store (hC s.nestingLevel) (hC _) (wpc_bind (wpc_gets (hC _) ?_)))
    exact wpc_check (hC _) (fun _ => hE hd) fun _ => hQ _
  case isFalse => exact wpc_pure (hC s.nestingLevel) (hQ s.nestingLevel)

/-- The commit of the transaction, from where its closure has returned. -/
theorem Opened.wpc_commit {Q : Except ErrorCode Nat → Boot → Prop} (h : Opened t regs old n s)
    (hcnt : s.kernel.taskCnt = n + 1) (hr : regs[n]? = some r) (hn : n < t.taskNumLimit) (hmade : Made t n r s)
    (hlead : Leads regs (n + 1) s.kernel.current s.kernel.curMaxPriority) (hE : t.board.debugAssertions = true → E)
    (hC : ∀ n c, Halted t regs n c → C c)
    (hQ : ∀ s', Resumed t regs old (n + 1) n s' →
      s'.bootTxCache.ptr = position t.board.width (results t (n + 1)) → Q (.ok n) s') :
    wpc (do
      decNesting t.board
      onCache (TxCache.cacheResult t.board (t.enc (.ok n)))
      clearJournal
      pure (.ok n)) Q E C s := by
  have hfits := fits_results (t := t) (n := n + 1) hn
  rw [results_succ] at hfits
  refine wpc_bind (wpc_decNesting hE (fun v => hC n _ (h.halted.nesting v)) fun v => ?_)
  have hv : Opened t regs old n { s with nestingLevel := v } :=
    { h with
      halted := h.halted.nesting v
      stacked := h.stacked.congr rfl rfl rfl }
  have hmade' : Made t n r { s with nestingLevel := v } := ⟨hmade.registered.frame rfl rfl rfl, hmade.frame⟩
  refine wpc_bind (wpc_onCache (wpc_mono (wpc_cacheResult_flag h.halted.cache h.ptr hfits h.flag) ?_ ?_))
  · rintro _ x ⟨hx, hptr, hflag⟩
    rw [← results_succ] at hx hptr
    have hdone := hv.commit hcnt hr hmade' hlead hx hflag
    have hclear := hdone.clear hcnt
    refine wpc_bind (wpc_store (hC _ _ hdone) (hC _ _ hclear) (wpc_pure (hC _ _ hclear) (hQ _ ?_ hptr)))
    refine ⟨hclear, ?_, h.old_le.trans (Nat.le_succ n), rfl, h.idle, Nat.le_refl _, Nat.le_succ n⟩
    exact (h.built hr hmade).congr rfl rfl rfl
  · rintro x (⟨hx, hflag⟩ | ⟨hx, hflag⟩)
    · exact hC n _ (hv.uncommitted hx hflag)
    · rw [← results_succ] at hx
      exact hC _ _ (hv.commit hcnt hr hmade' hlead hx hflag)

end Boot

end IntOS
