import IntOS.Sched.ListTxDone
import IntOS.Semaphore.Invariant

/-!
# Power failures while a semaphore is given

The count is committed before the wake-up is logged, and a call that is re-executed decides on the count alone
whether it wakes a task.
-/

namespace IntOS

open Persist Persist.Prog

namespace Semaphore

variable {cfg : Config} {sem : Semaphore} {m c : Machine} {t u : Nat}

/-- One attempt of `sys_semaphore_give`. A task that waits is not ready, so that the call does not yield. -/
def sysSemaphoreGive (cfg : Config) (sem : Semaphore) : Prog Machine Unit := do
  let _ ← semaphoreGive cfg sem
  onKernel (Kernel.Op.syscallEnd.prog cfg)

/-- The boot after a power failure: recovery of the lists, and `jit_recovery` of the task that was in the call. -/
def reboot (cfg : Config) : Prog Machine Unit := onKernel do
  Kernel.recoverListTransaction cfg
  let t ← Kernel.getCurrent
  store fun k => { k with recoveryMode := Function.update k.recoveryMode t true }

/-- The task is found in the wait list. -/
def InWaitList (sem : Semaphore) (m : Machine) (u : Nat) : Prop :=
  Kernel.InList m.kernel (.event u) (.waiting sem.waitList)

/-- A state of the call, and the tasks that were woken and have not tried again since. -/
structure Cut where
  machine : Machine
  woken : Set Nat

/-- The machine goes on to `m`. -/
def Cut.goOn (sem : Semaphore) (x : Cut) (m : Machine) : Cut where
  machine := m
  woken := x.woken ∪ {u | InWaitList sem x.machine u ∧ ¬ InWaitList sem m u}

/-- The states in which attempts start, each with the state in which power failed last. -/
inductive Attempts (cfg : Config) (sem : Semaphore) (s : System) : Option Cut → Cut → Prop
  | first : Attempts cfg sem s none ⟨s.machine, s.woken⟩
  | again {last : Option Cut} {x : Cut} {c m : Machine} : Attempts cfg sem s last x →
      c ∈ crashes (sysSemaphoreGive cfg sem) x.machine → (reboot cfg c).out = some ((), m) →
      Attempts cfg sem s (some (x.goOn sem c)) (x.goOn sem m)

/-- Tasks wait, the count is positive, and no task is to try again. -/
def Lost (sem : Semaphore) (x : Cut) : Prop :=
  (∃ u, InWaitList sem x.machine u) ∧ 0 < x.machine.count ∧ x.woken = ∅

/-- Power fails while tasks wait and none is woken: either the wake-up is logged and has not begun, or it is not
logged and the next attempt will not begin it, for the count has reached the size or an earlier failure has left the
bit `list_tx_done` set. -/
def Forgotten (sem : Semaphore) (t : Nat) (x : Cut) : Prop :=
  (∃ u, InWaitList sem x.machine u) ∧ x.woken = ∅ ∧
    (x.machine.kernel.op = .waitListPopRemoval ∧ x.machine.kernel.lists.getMicroOp = some .invalid ∨
      x.machine.kernel.op = .invalid ∧ 0 < x.machine.count ∧
        (x.machine.count = sem.size ∨ x.machine.kernel.listTxDone t = true))

/-! ## One attempt -/

/-- No node has moved. -/
structure Untouched (k k' : Kernel) : Prop where
  inv : Kernel.Inv k'
  lists : k'.lists = k.lists
  current : k'.current = k.current
  taskCnt : k'.taskCnt = k.taskCnt

theorem Untouched.inWaitList (h : Untouched m.kernel c.kernel) : InWaitList sem c u ↔ InWaitList sem m u := by
  unfold InWaitList Kernel.InList
  have hentry : Kernel.entry c.kernel = Kernel.entry m.kernel := by
    funext l
    cases l <;> simp only [Kernel.entry, h.lists]
  rw [hentry, h.lists]

/-- What a failure during an attempt leaves. -/
inductive Struck (cfg : Config) (sem : Semaphore) (m : Machine) (t : Nat) (c : Machine) : Prop
  /-- The lists are as before. -/
  | quiet : Untouched m.kernel c.kernel → m.count ≤ c.count →
      (c.kernel.listTxDone t = true → m.kernel.listTxDone t = true ∨ 0 < c.count) → Struck cfg sem m t c
  /-- The wake-up is logged. -/
  | logged {u : Nat} : InWaitList sem m u → c.kernel = Kernel.popLogged m.kernel u → 0 < c.count →
      Struck cfg sem m t c
  /-- The wake-up of no task is logged. -/
  | stuck : c.kernel.op = .waitListPopRemoval → c.kernel.blockNodePtr = none → c.kernel.lists.microOpOldLen = 0 →
      Struck cfg sem m t c
  /-- The wake-up has begun. -/
  | waking {u : Nat} : InWaitList sem m u →
      ¬ InWaitList sem c u ∨ c.kernel.op ≠ .invalid ∧ c.kernel.lists.getMicroOp ≠ some .invalid →
      After (Kernel.recoverListTransaction cfg)
        (fun _ r => ¬ Kernel.InList r (.event u) (.waiting sem.waitList)) c.kernel → Struck cfg sem m t c

/-- What an attempt leaves that completes. -/
inductive Gave (sem : Semaphore) (m : Machine) (t : Nat) (m' : Machine) : Prop
  | unmoved : m.count = sem.size ∧ m'.count = m.count ∨ m.kernel.listTxDone t = true ∧ m.count ≤ m'.count ∨
      (∀ u, ¬ InWaitList sem m u) → m.count ≤ m'.count → Untouched m.kernel m'.kernel → Gave sem m t m'
  | woke {u : Nat} : m.count ≠ sem.size → m.kernel.listTxDone t = false → InWaitList sem m u →
      ¬ InWaitList sem m' u → Kernel.Inv m'.kernel → m'.kernel.current = m.kernel.current → Gave sem m t m'

section
open Kernel

/-- A task that waits is blocked. -/
theorem semaphoreGive_yieldNow (h : Inv m.kernel) :
    After (semaphoreGive cfg sem) (fun yieldNow _ => yieldNow = false) m := by
  simp only [semaphoreGive, Semaphore.give, after_bind, after_gets]
  split
  case isTrue => rfl
  case isFalse =>
    simp only [after_bind, after_check, after_store, after_pure, if_true, after_gets, onKernel]
    refine fun _ => after_zoom.mpr (after_getCurrent.mpr fun u _ => ?_)
    rw [after_bind, after_gets, after_bind]
    refine after_zoom.mpr (After.of_forall fun _ _ => ?_)
    rw [after_pure]
    cases hhead : m.kernel.lists.head (.waiting sem.waitList) with
    | none => rfl
    | some n =>
        obtain ⟨_, _, hsched⟩ := h.waiting (h.linked.popped id hhead).1
        have hblocked : m.kernel.status n.task = .blocked := (h.of_list hsched).2.2
        simp [hblocked]

variable {α : Type} {k : Kernel}

theorem wpc_onKernel {p : Prog Kernel α} {Q : α → Machine → Prop} {E : Prop} {C : Machine → Prop} {x : Machine}
    (h : wpc p (fun a k => Q a { x with kernel := k }) E (fun k => C { x with kernel := k }) x.kernel) :
    wpc (onKernel p) Q E C x := wpc_zoom rfl h

/-- No list operation is logged. -/
theorem cleared_lists (h : Inv k) : { k.lists with microOpOldLen := 0 } = k.lists := by
  have hm := h.microOp
  cases hk : k.lists
  rw [hk] at hm
  rw [← hm]

theorem untouched_fields (h : Inv k) (p : Option NodeRef) (d r : Nat → Bool) :
    Untouched k { k with blockNodePtr := p, listTxDone := d, recoveryMode := r } where
  inv := ⟨h.linked, h.timely, h.placed, h.free, h.current, h.running, h.stopped, h.op, h.microOp⟩
  lists := rfl
  current := rfl
  taskCnt := rfl

/-- The transaction was done before. -/
theorem wpc_bypass_done {Q : Bool → Kernel → Prop} {C : Kernel → Prop} (hcur : k.current = some t)
    (hdone : k.listTxDone t = true) (hC : C k) (hQ : Q true k) : wpc (bypass cfg) Q True C k := by
  refine wpc_bind (wpc_getCurrent hcur hC (wpc_bind (wpc_gets hC (wpc_bind (wpc_gets hC ?_)))))
  refine wpc_bind (wpc_check hC (fun _ => trivial) fun _ => wpc_pure hC ?_)
  rwa [hdone]

/-- A wake-up while no task waits. -/
theorem wpc_popNobody {C : Kernel → Prop} {E : Prop} {w : Nat} (h : Inv k) (hcur : k.current = some t)
    (hdone : k.listTxDone t = false) (hhead : k.lists.head (.waiting w) = none)
    (hC : ∀ p d, C { k with blockNodePtr := p, listTxDone := d })
    (hlogged : ∀ d, C { k with blockNodePtr := none, op := .waitListPopRemoval, listTxDone := d }) :
    wpc (rollForwardPopRemoveFromWaitlist cfg w)
      (fun _ r => ∃ d, r = { k with blockNodePtr := none, listTxDone := d }) E C k := by
  have hstart := hC k.blockNodePtr k.listTxDone
  have hset := hlogged k.listTxDone
  have hclear := cleared_lists h
  have hop := h.op
  unfold rollForwardPopRemoveFromWaitlist
  refine wpc_bind (wpc_bypass hcur hdone hstart ?_)
  refine wpc_bind (wpc_gets hstart (wpc_bind (wpc_store hstart (hC _ _) ?_)))
  rw [hhead]
  refine wpc_bind (wpc_store (hC none k.listTxDone) hset (wpc_bind (wpc_onLists ?_)))
  unfold Lists.optimizedPopFront
  refine wpc_bind (wpc_gets hset ?_)
  rw [hhead]
  refine wpc_pure hset ?_
  apply wpc_commit (t := t)
  · exact hcur
  · exact hset
  · rintro _ (_ | _)
    · dsimp only
      rw [hclear]
      exact hlogged _
    · unfold committed
      dsimp only
      rw [hclear, ← hop]
      exact hC _ _
  · refine ⟨Function.update k.listTxDone t true, ?_⟩
    unfold committed
    dsimp only
    rw [hclear, ← hop]

/-- A wake-up of the first waiter. -/
theorem struck_of_popRemoving {cfg : Target} {n : Nat} {r : Option Nat} (h : Inv m.kernel)
    (hcnt : m.kernel.taskCnt ≤ cfg.taskNumLimit) (hcur : m.kernel.current = some t)
    (hdone : m.kernel.listTxDone t = false)
    (hhead : m.kernel.lists.head (.waiting sem.waitList) = some (.event u)) (hle : m.count ≤ n) (hpos : 0 < n)
    (hc : PopRemoving m.kernel t sem.waitList u k) : Struck cfg.toConfig sem m t ⟨k, n, r⟩ := by
  obtain ⟨hf, hw⟩ := popMoved_woke h hcur hdone hhead
  obtain ⟨hu, hwaits, hdelayed⟩ := h.first hhead
  have hin : InWaitList sem m u := h.inList_iff.mpr hwaits
  have hout : ¬ InList (committed (popMoved m.kernel sem.waitList u) t) (.event u) (.waiting sem.waitList) := by
    rw [hf.inList_iff, hw.event]
    exact nofun
  have hlen : m.kernel.lists.len (.waiting sem.waitList) < 2 ^ opCodeShift := len_lt h.linked h.free hcnt
  have hleft := popLeft_wellOrdered h hhead
  have hmoving : ∀ {s : Lists NodeRef ListRef} {op : ListOpCode} {l : Nat},
      s.microOpOldLen = microOpOldLenOf op l → l < 2 ^ opCodeShift → op ≠ .invalid →
      s.getMicroOp ≠ some .invalid := by
    intro s op l hm hl hop he
    rw [Lists.getMicroOp_eq hl hm] at he
    exact hop (Option.some.inj he)
  cases hc with
  | idle => exact .quiet (untouched_fields h _ _ _) hle fun _ => Or.inr hpos
  | logged => exact .logged hin rfl hpos
  | @popping s hs hlist =>
      have hm : s.microOpOldLen = microOpOldLenOf .popFront (m.kernel.lists.len (.waiting sem.waitList)) := by
        cases hs <;> rfl
      refine .waking hin (Or.inr ⟨nofun, hmoving hm hlen nofun⟩) ?_
      refine (recover_pop_popping h hcnt hcur hhead hs hlist).after.mono ?_
      rintro _ _ rfl
      exact hout
  | waking hwk =>
      cases hwk with
      | start =>
          refine .waking hin (Or.inr ⟨nofun, hmoving (rfl : _ = microOpOldLenOf .popFront _) hlen nofun⟩) ?_
          refine (recover_pop_left h hcnt hcur hhead).after.mono ?_
          rintro _ _ rfl
          exact hout
      | removing hs =>
          refine .waking hin (Or.inr ⟨nofun, hmoving hs.microOpOldLen
            (len_lt hleft (free_update h.free hu) hcnt) nofun⟩) ?_
          refine (recover_pop_removing h hcnt hcur hhead hs).after.mono ?_
          rintro _ _ rfl
          exact hout
      | readying hs hstatus =>
          have hlt := len_lt (l := .ready (m.kernel.priority u))
            (unlisted_wellOrdered hleft id (popLeft_delayed h hhead))
            (free_update (free_update h.free hu) hu) hcnt
          refine .waking hin (Or.inr ⟨nofun, hmoving hs.log hlt nofun⟩) ?_
          refine (recover_pop_readying h hcnt hcur hhead hs hstatus).after.mono ?_
          rintro _ _ rfl
          exact hout
  | committing hcm =>
      cases hcm with
      | cleared hd =>
          refine .waking hin (Or.inl hout) ?_
          refine After.mono (Q := fun _ r => r = committed _ t) (recover_pop_invalid (u := u) ?_ ?_ ?_ ?_).after ?_
          · rfl
          · rfl
          · rfl
          · exact hcur
          · rintro _ _ rfl
            exact hout
      | done => exact .waking hin (Or.inl hout) ((ends_recover_idle rfl rfl).mpr hout).after

/-- The wake-up of an attempt that has committed the count. -/
theorem wpc_wake {cfg : Target} {r : Option Nat} (h : Inv m.kernel) (hcnt : m.kernel.taskCnt ≤ cfg.taskNumLimit)
    (hcur : m.kernel.current = some t) (hsize : m.count ≠ sem.size) :
    wpc (rollForwardPopRemoveFromWaitlist cfg.toConfig sem.waitList)
      (fun _ k => Gave sem m t ⟨k, m.count + 1, r⟩ ∧ Struck cfg.toConfig sem m t ⟨k, m.count + 1, r⟩) True
      (fun k => Struck cfg.toConfig sem m t ⟨k, m.count + 1, r⟩) m.kernel := by
  have hle : m.count ≤ m.count + 1 := Nat.le_succ _
  have hpos : 0 < m.count + 1 := Nat.succ_pos _
  have hquiet : ∀ p d, Struck cfg.toConfig sem m t
      ⟨{ m.kernel with blockNodePtr := p, listTxDone := d }, m.count + 1, r⟩ := fun p d =>
    .quiet (untouched_fields h p d m.kernel.recoveryMode) hle fun _ => Or.inr hpos
  have hstart := hquiet m.kernel.blockNodePtr m.kernel.listTxDone
  cases hdone : m.kernel.listTxDone t with
  | true =>
      unfold rollForwardPopRemoveFromWaitlist
      refine wpc_bind (wpc_bypass_done hcur hdone hstart (wpc_pure hstart ⟨?_, hstart⟩))
      exact .unmoved (Or.inr (Or.inl ⟨hdone, hle⟩)) hle (untouched_fields h m.kernel.blockNodePtr
        m.kernel.listTxDone m.kernel.recoveryMode)
  | false =>
      rcases Option.eq_none_or_eq_some (m.kernel.lists.head (.waiting sem.waitList)) with hhead | ⟨n, hhead⟩
      · have hnobody : ∀ u, ¬ InWaitList sem m u := fun u hin =>
          absurd (h.inList_iff.mp hin) (h.linked.head_none id hhead)
        refine wpc_mono (wpc_popNobody (C := fun k => Struck cfg.toConfig sem m t ⟨k, m.count + 1, r⟩) h hcur hdone
          hhead hquiet fun d => .stuck rfl rfl h.microOp) ?_ fun _ => id
        rintro _ _ ⟨d, rfl⟩
        refine ⟨?_, hquiet none d⟩
        exact .unmoved (Or.inr (Or.inr hnobody)) hle (untouched_fields h none d m.kernel.recoveryMode)
      · have hn := (h.linked.popped id hhead).1
        rw [(h.waiting hn).2.1] at hhead hn
        refine wpc_mono (wpc_rollForwardPopRemoveFromWaitlist h hcur hdone hhead) ?_ ?_
        · rintro _ _ rfl
          obtain ⟨hf, hw⟩ := popMoved_woke h hcur hdone hhead
          refine ⟨.woke hsize hdone (h.inList_iff.mpr hn) ?_ hf rfl, ?_⟩
          · unfold InWaitList
            rw [hf.inList_iff, hw.event]
            exact nofun
          · exact struck_of_popRemoving h hcnt hcur hdone hhead hle hpos (.committing .done)
        · exact fun k hk => struck_of_popRemoving h hcnt hcur hdone hhead hle hpos hk

/-- The last store of the call. -/
def ended (m : Machine) (t : Nat) : Machine :=
  { m with kernel := { m.kernel with listTxDone := Function.update m.kernel.listTxDone t false } }

theorem Gave.ended (cfg : Config) {m' : Machine} (hg : Gave sem m t m') :
    Gave sem m t (ended m' t) ∧ Struck cfg sem m t (ended m' t) := by
  have hinv : Inv m'.kernel → Inv (Semaphore.ended m' t).kernel := fun h =>
    ⟨h.linked, h.timely, h.placed, h.free, h.current, h.running, h.stopped, h.op, h.microOp⟩
  cases hg with
  | unmoved hwhy hle hu =>
      have hu' : Untouched m.kernel (Semaphore.ended m' t).kernel := ⟨hinv hu.inv, hu.lists, hu.current, hu.taskCnt⟩
      refine ⟨.unmoved hwhy hle hu', .quiet hu' hle fun hd => ?_⟩
      change Function.update m'.kernel.listTxDone t false t = true at hd
      rw [Function.update_self] at hd
      cases hd
  | @woke u hsize hdone hin hout hi hcur =>
      refine ⟨.woke hsize hdone hin hout (hinv hi) hcur, .waking hin (Or.inl hout) ?_⟩
      have hrun : Ends (recoverListTransaction cfg)
          (fun _ r => ¬ InList r (.event u) (.waiting sem.waitList)) (Semaphore.ended m' t).kernel :=
        (ends_recover_idle (k := (Semaphore.ended m' t).kernel) hi.op hi.microOp).mpr hout
      exact hrun.after

theorem wpc_sysSemaphoreGive {cfg : Target} (h : Inv m.kernel) (hcnt : m.kernel.taskCnt ≤ cfg.taskNumLimit)
    (hcur : m.kernel.current = some t) :
    wpc (sysSemaphoreGive cfg.toConfig sem) (fun _ => Gave sem m t) True (Struck cfg.toConfig sem m t) m := by
  have hstart : Struck cfg.toConfig sem m t m :=
    .quiet ⟨h, rfl, rfl, rfl⟩ (Nat.le_refl _) Or.inl
  have hend : ∀ {m'}, Gave sem m t m' → m'.kernel.current = some t → Struck cfg.toConfig sem m t m' →
      wpc (onKernel (Op.syscallEnd.prog cfg.toConfig)) (fun _ => Gave sem m t) True
      (Struck cfg.toConfig sem m t) m' := by
    intro m' hg hcur' hs
    refine wpc_onKernel (wpc_bind (wpc_getCurrent hcur' hs ?_))
    exact wpc_store hs (hg.ended cfg.toConfig).2 (hg.ended cfg.toConfig).1
  have hcounted : Struck cfg.toConfig sem m t { m with count := m.count + 1 } :=
    .quiet ⟨h, rfl, rfl, rfl⟩ (Nat.le_succ _) fun _ => Or.inr (Nat.succ_pos _)
  unfold sysSemaphoreGive semaphoreGive Semaphore.give
  refine wpc_bind (wpc_bind (wpc_bind (wpc_gets hstart ?_)))
  split
  case isTrue hfull =>
    refine wpc_pure hstart (wpc_pure hstart (hend ?_ hcur hstart))
    exact .unmoved (Or.inl ⟨hfull, rfl⟩) (Nat.le_refl _) ⟨h, rfl, rfl, rfl⟩
  case isFalse hsize =>
    refine wpc_bind (wpc_check hstart (fun _ => trivial) fun _ => wpc_bind (wpc_store hstart hcounted ?_))
    refine wpc_pure hcounted ?_
    refine wpc_bind (wpc_gets hcounted (wpc_bind (wpc_onKernel ?_)))
    apply wpc_getCurrent (t := t)
    · exact hcur
    · exact hcounted
    refine wpc_bind (wpc_gets hcounted (wpc_bind (wpc_onKernel ?_)))
    refine wpc_mono (wpc_wake (m := m) (r := m.mutexHolder) h hcnt hcur hsize) ?_ fun _ hk => hk
    rintro _ k ⟨hg, hs⟩
    refine wpc_pure hs (hend hg ?_ hs)
    cases hg with
    | unmoved _ _ hu => exact hu.current.trans hcur
    | woke _ _ _ _ _ hc => exact hc.trans hcur

/-! ## A schedule of failures -/

/-- What a reboot makes of a state that a failure leaves. -/
inductive Rebooted (sem : Semaphore) (m : Machine) (t : Nat) (c m' : Machine) : Prop
  | quiet : Untouched m.kernel c.kernel → Untouched m.kernel m'.kernel → m'.count = c.count →
      m'.kernel.listTxDone = c.kernel.listTxDone →
      (c.kernel.listTxDone t = true → (m.kernel.listTxDone t = true → 0 < m.count) → 0 < c.count) →
      Rebooted sem m t c m'
  | marked {u : Nat} : c.kernel = popLogged m.kernel u → Untouched m.kernel m'.kernel → m'.count = c.count →
      0 < c.count → InWaitList sem m u → m'.kernel.listTxDone t = true → Rebooted sem m t c m'
  | woke {u : Nat} : InWaitList sem m u →
      ¬ InWaitList sem c u ∨ c.kernel.op ≠ .invalid ∧ c.kernel.lists.getMicroOp ≠ some .invalid →
      ¬ InWaitList sem m' u → Rebooted sem m t c m'

theorem Struck.reboot (hs : Struck cfg sem m t c) (h : Inv m.kernel) (hcur : m.kernel.current = some t) :
    After (reboot cfg) (fun _ => Rebooted sem m t c) c := by
  have hafter : ∀ {Q : Machine → Prop} {P : Kernel → Prop}, After (recoverListTransaction cfg) (fun _ => P) c.kernel →
      (∀ k d, P k → Q { c with kernel := { k with recoveryMode := d } }) →
      After (Semaphore.reboot cfg) (fun _ => Q) c := by
    intro Q P hP hQ
    refine after_zoom.mpr ((after_bind).mpr (hP.mono fun _ k hk => after_bind.mpr ?_))
    exact after_getCurrent.mpr fun u _ => hQ k _ hk
  cases hs with
  | quiet hu hle hd =>
      refine hafter (P := fun k => k = c.kernel) ((ends_recover_idle hu.inv.op hu.inv.microOp).mpr rfl).after ?_
      rintro _ d rfl
      have hi := hu.inv
      refine .quiet hu ⟨?_, hu.lists, hu.current, hu.taskCnt⟩ rfl rfl fun hdone hpos => ?_
      · exact ⟨hi.linked, hi.timely, hi.placed, hi.free, hi.current, hi.running, hi.stopped, hi.op, hi.microOp⟩
      · rcases hd hdone with hm | hc
        · exact (hpos hm).trans_le hle
        · exact hc
  | @logged u hin hk hpos =>
      have hrun : Ends (recoverListTransaction cfg) (fun _ r => r = committed (popLogged m.kernel u) t) c.kernel := by
        rw [hk]
        exact recover_pop_invalid rfl rfl h.microOp hcur
      refine hafter hrun.after ?_
      rintro _ d rfl
      have hlists : (committed (popLogged m.kernel u) t).lists = m.kernel.lists :=
        cleared_lists (k := m.kernel) h
      refine .marked hk ⟨?_, hlists, rfl, rfl⟩ rfl hpos hin (Function.update_self _ _ _)
      refine ⟨?_, ?_, ?_, ?_, h.current, h.running, h.stopped, rfl, rfl⟩
      · exact hlists ▸ h.linked
      · exact fun x hx => h.timely x hx
      · exact h.placed
      · exact h.free
  | stuck hop hptr hm =>
      refine hafter (P := fun _ => False) ?_ fun _ _ => False.elim
      exact After.of_ends fun he => absurd he (not_recover_pop_none hop hptr hm)
  | @waking u hin hc hr =>
      refine hafter hr ?_
      exact fun k d hout => .woke hin hc hout

theorem Cut.goOn_woken {x : Cut} (h : ∀ u, InWaitList sem x.machine u → InWaitList sem m u) :
    (x.goOn sem m).woken = x.woken := by
  have hnone : {u | InWaitList sem x.machine u ∧ ¬ InWaitList sem m u} = (∅ : Set Nat) := by
    ext u
    exact iff_of_false (fun hu => hu.2 (h u hu.1)) id
  unfold Cut.goOn
  rw [hnone, Set.union_empty]

theorem Cut.goOn_woken_ne {x : Cut} (h : x.woken ≠ ∅ ∨ InWaitList sem x.machine u ∧ ¬ InWaitList sem m u) :
    (x.goOn sem m).woken ≠ ∅ := by
  rw [← Set.nonempty_iff_ne_empty] at h ⊢
  rcases h with h | h
  · exact h.mono Set.subset_union_left
  · exact ⟨u, Or.inr h⟩

/-- Between two attempts: a task is woken and will try again, or no node has moved, and the last failure decides. -/
inductive Stage (sem : Semaphore) (t : Nat) (s : System) (last : Option Cut) (x : Cut) : Prop
  | woken : x.woken ≠ ∅ → (∀ y ∈ last, ¬ Forgotten sem t y) → Stage sem t s last x
  | untouched : x.woken = ∅ → Untouched s.kernel x.machine.kernel →
      (x.machine.kernel.listTxDone t = true → 0 < x.machine.count) →
      ((∃ y ∈ last, Forgotten sem t y) ↔ (∃ u, InWaitList sem x.machine u) ∧ 0 < x.machine.count ∧
        (x.machine.count = sem.size ∨ x.machine.kernel.listTxDone t = true)) → Stage sem t s last x

theorem Stage.again {cfg : Target} {s : System} {last : Option Cut} {x : Cut} (hst : Stage sem t s last x)
    (hcnt : s.kernel.taskCnt ≤ cfg.taskNumLimit) (hcur : s.kernel.current = some t)
    (hc : c ∈ crashes (sysSemaphoreGive cfg.toConfig sem) x.machine)
    (hboot : (reboot cfg.toConfig c).out = some ((), m)) :
    Stage sem t s (some (x.goOn sem c)) (x.goOn sem m) := by
  cases hst with
  | woken hw _ =>
      refine .woken (Cut.goOn_woken_ne (u := 0) (Or.inl hw)) ?_
      rintro _ ⟨⟩ ⟨_, hnone, _⟩
      exact Cut.goOn_woken_ne (u := 0) (Or.inl hw) hnone
  | untouched hw hu hd _ =>
      have hcur' : x.machine.kernel.current = some t := hu.current.trans hcur
      have hstruck := (wpc_sysSemaphoreGive hu.inv (hu.taskCnt.le.trans hcnt) hcur').crash hc
      have hcut : ∀ {m}, Untouched x.machine.kernel m.kernel → (x.goOn sem m).woken = ∅ := fun hm =>
        (Cut.goOn_woken fun _ hin => hm.inWaitList.mpr hin).trans hw
      have htrans : ∀ {k}, Untouched x.machine.kernel k → Untouched s.kernel k := fun hk =>
        ⟨hk.inv, hk.lists.trans hu.lists, hk.current.trans hu.current, hk.taskCnt.trans hu.taskCnt⟩
      cases (hstruck.reboot hu.inv hcur').post hboot with
      | quiet hc hm hcount hbit hpos =>
          refine .untouched (hcut hm) (htrans hm) (fun hdone => ?_) ?_
          · change m.kernel.listTxDone t = true at hdone
            rw [hbit] at hdone
            exact hcount ▸ hpos hdone hd
          · simp only [Option.mem_some_iff, exists_eq_left', Forgotten]
            have hin : ∀ u, InWaitList sem (x.goOn sem c).machine u ↔ InWaitList sem (x.goOn sem m).machine u :=
              fun u => hc.inWaitList.trans hm.inWaitList.symm
            have hop : (x.goOn sem c).machine.kernel.op = .invalid := hc.inv.op
            have hcount' : (x.goOn sem c).machine.count = (x.goOn sem m).machine.count := hcount.symm
            have hbit' : (x.goOn sem c).machine.kernel.listTxDone = (x.goOn sem m).machine.kernel.listTxDone :=
              hbit.symm
            simp only [hin, hop, hcut hc, hcount', hbit', true_and, reduceCtorEq, false_and, false_or]
      | @marked u hk hm hcount hpos hin hbit =>
          refine .untouched (hcut hm) (htrans hm) (fun _ => hcount ▸ hpos) ?_
          refine iff_of_true ⟨_, rfl, ?_⟩ ⟨⟨u, hm.inWaitList.mpr hin⟩, hcount ▸ hpos, Or.inr hbit⟩
          have hin' : ∀ {v}, InWaitList sem x.machine v → InWaitList sem c v := by
            intro v hv
            unfold InWaitList
            rw [hk]
            exact hv
          have hlog : (x.goOn sem c).machine.kernel = popLogged x.machine.kernel u := hk
          refine ⟨⟨u, hin' hin⟩, (Cut.goOn_woken fun _ => hin').trans hw, Or.inl ⟨?_, ?_⟩⟩
          · rw [hlog]
            rfl
          · rw [hlog]
            have hzero : 0 < 2 ^ opCodeShift := by decide
            exact Lists.getMicroOp_eq (s := x.machine.kernel.lists) hzero hu.inv.microOp
      | @woke u hin hc hout =>
          refine .woken (Cut.goOn_woken_ne (Or.inr ⟨hin, hout⟩)) ?_
          rintro _ ⟨⟩ ⟨_, hnone, hwhy⟩
          rcases hc with hc | ⟨hop, hmicro⟩
          · exact Cut.goOn_woken_ne (Or.inr ⟨hin, hc⟩) hnone
          · rcases hwhy with ⟨_, hm⟩ | ⟨hi, _⟩
            · exact hmicro hm
            · exact hop hi

theorem Attempts.stage {cfg : Target} {port : Port} {s : System} {last : Option Cut} {x : Cut}
    (ha : Attempts cfg.toConfig sem s last x) (h : System.Reachable cfg.toConfig port sem s) (ht : s.Executes t)
    (hidle : s.activity t = .idle) : Stage sem t s last x := by
  have hc := h.counted
  induction ha with
  | first =>
      have hdone : s.kernel.listTxDone t = false := by
        rw [Bool.eq_false_iff]
        intro hd
        have hf := (hc.sound t).done hd
        rw [hidle] at hf
        exact hf
      by_cases hw : s.woken = ∅
      · refine .untouched ?_ ⟨hc.inv, rfl, rfl, rfl⟩ (fun hd => absurd (hdone.symm.trans hd) nofun) ?_
        · simp [hw]
        · refine iff_of_false (fun ⟨_, hy, _⟩ => nomatch hy) ?_
          rintro ⟨⟨u, hu⟩, hpos, _⟩
          have hle := hc.count u (hc.inv.inList_iff.mp hu)
          rw [hw, Finset.card_empty] at hle
          exact absurd hpos (Nat.not_lt.mpr hle)
      · refine .woken ?_ nofun
        simpa using hw
  | again _ hcrash hboot ih => exact ih.again hc.limit ht.1 hcrash hboot

/-- When a give has completed after any schedule of power failures, no wake-up is lost, if and only if the last
failure was not one after which the next attempt forgets it. -/
theorem give_wakes_iff {cfg : Target} {port : Port} {s : System} {last : Option Cut} {x : Cut} {m' : Machine}
    (h : System.Reachable cfg.toConfig port sem s) (ht : s.Executes t) (hidle : s.activity t = .idle)
    (ha : Attempts cfg.toConfig sem s last x)
    (hout : (sysSemaphoreGive cfg.toConfig sem x.machine).out = some ((), m')) :
    ¬ Lost sem (x.goOn sem m') ↔ ∀ y ∈ last, ¬ Forgotten sem t y := by
  have hc := h.counted
  have hnot : (∀ y ∈ last, ¬ Forgotten sem t y) ↔ ¬ ∃ y ∈ last, Forgotten sem t y := by simp
  cases ha.stage h ht hidle with
  | woken hw hlast =>
      refine iff_of_true ?_ hlast
      rintro ⟨_, _, hnone⟩
      exact Cut.goOn_woken_ne (u := 0) (Or.inl hw) hnone
  | untouched hw hu hd hlast =>
      rw [hnot, hlast]
      refine not_congr ?_
      have hcur := hu.current.trans ht.1
      cases (wpc_sysSemaphoreGive hu.inv (hu.taskCnt.le.trans hc.limit) hcur).post hout with
      | unmoved hwhy hle hm =>
          have hnone : (x.goOn sem m').woken = ∅ :=
            (Cut.goOn_woken fun _ hin => hm.inWaitList.mpr hin).trans hw
          have hin : ∀ u, InWaitList sem (x.goOn sem m').machine u ↔ InWaitList sem x.machine u := fun _ =>
            hm.inWaitList
          have hcount : (x.goOn sem m').machine.count = m'.count := rfl
          simp only [Lost, hnone, hin, hcount, and_true]
          refine and_congr_right fun ⟨u, hwaits⟩ => ?_
          rcases hwhy with ⟨hfull, hsame⟩ | ⟨hdone, _⟩ | hnobody
          · rw [hsame]
            exact (and_iff_left (Or.inl hfull)).symm
          · exact iff_of_true ((hd hdone).trans_le hle) ⟨hd hdone, Or.inr hdone⟩
          · exact absurd hwaits (hnobody u)
      | @woke u hsize hdone hin hout =>
          refine iff_of_false ?_ ?_
          · rintro ⟨_, _, hnone⟩
            exact Cut.goOn_woken_ne (Or.inr ⟨hin, hout⟩) hnone
          · rintro ⟨_, _, hfull | hbit⟩
            · exact hsize hfull
            · exact Bool.false_ne_true (hdone.symm.trans hbit)

/-! ## A run -/

/-- A semaphore of size 1. -/
def mutex : Semaphore := ⟨1, 0⟩

theorem step_other {cfg : Config} {port : Port} {sem : Semaphore} {s : System} (op : Kernel.Op) {k : Kernel}
    (ho : op.Enabled s.kernel) (hother : System.Other sem s op) (hout : (op.prog cfg s.kernel).out = some ((), k)) :
    System.Step cfg port sem s { s with machine := { s.machine with kernel := k } } := .other ho hother hout

/-- A task waits: without a failure the give goes through, and where power fails between the count and the wake-up, the
next attempt loses it. -/
theorem reachable_forgotten : ∃ s, System.Reachable qemuTarget.toConfig .cortexM mutex s ∧ s.Executes 0 ∧
    s.activity 0 = .idle ∧ (∃ m', (sysSemaphoreGive qemuTarget.toConfig mutex s.machine).out = some ((), m')) ∧
    ∃ last x m', Attempts qemuTarget.toConfig mutex s last x ∧
      (sysSemaphoreGive qemuTarget.toConfig mutex x.machine).out = some ((), m') ∧ Lost mutex (x.goOn mutex m') := by
  have hstart : System.Reachable qemuTarget.toConfig .cortexM mutex _ := .refl
  have hinit := ((hstart.tail (step_other (.createTask 0) trivial trivial rfl)).tail
    (step_other (.createTask 0) trivial trivial rfl)).tail (step_other .startKernel trivial trivial rfl)
  have htake := (hinit.tail (.take (t := 0) 5 ⟨rfl, nofun⟩ rfl nofun)).tail (.round (t := 0) ⟨rfl, nofun⟩ rfl rfl)
  have hend := htake.tail (.syscallEnd (t := 0) ⟨rfl, nofun⟩ trivial rfl)
  have hswitch := hend.tail (step_other .taskSwitch rfl trivial rfl)
  have hwait := (hswitch.tail (.take (t := 1) 5 ⟨rfl, nofun⟩ rfl nofun)).tail (.round (t := 1) ⟨rfl, nofun⟩ rfl rfl)
  have hback := hwait.tail (step_other .taskSwitch rfl trivial rfl)
  refine ⟨_, hback, ⟨rfl, nofun⟩, rfl, ⟨_, rfl⟩, _, _, _, .again .first (List.mem_of_getElem? (i := 1) rfl) rfl, rfl,
    ?_, ?_, ?_⟩
  · exact ⟨1, .event 1, rfl, .refl⟩
  · decide
  · refine (Cut.goOn_woken fun _ hin => hin).trans ((Cut.goOn_woken fun _ hin => hin).trans ?_)
    exact Finset.coe_eq_empty.mpr rfl

/-- The first attempt loses no wake-up; the second one does, and power has failed where it is forgotten. -/
theorem give_wakes_iff_mutex : ∃ s, System.Reachable qemuTarget.toConfig .cortexM mutex s ∧
    (∃ m', (sysSemaphoreGive qemuTarget.toConfig mutex s.machine).out = some ((), m') ∧
      ¬ Lost mutex (Cut.goOn mutex ⟨s.machine, s.woken⟩ m')) ∧
    ∃ y x, Attempts qemuTarget.toConfig mutex s (some y) x ∧ Forgotten mutex 0 y := by
  obtain ⟨s, hs, ht, hidle, ⟨m', hfirst⟩, last, x, m'', ha, hout, hlost⟩ := reachable_forgotten
  refine ⟨s, hs, ⟨m', hfirst, (give_wakes_iff hs ht hidle .first hfirst).mpr nofun⟩, ?_⟩
  have hforgotten : ¬ ∀ y ∈ last, ¬ Forgotten mutex 0 y := fun hnone =>
    (give_wakes_iff hs ht hidle ha hout).mpr hnone hlost
  cases last with
  | none => exact absurd nofun hforgotten
  | some y => exact ⟨y, x, ha, by simpa using hforgotten⟩

/-- The next attempt finds the count at the size and wakes no task. -/
theorem wakeup_lost_by_failure : ¬ ∀ s last x m', System.Reachable qemuTarget.toConfig .cortexM mutex s →
    s.Executes 0 → s.activity 0 = .idle → Attempts qemuTarget.toConfig mutex s last x →
    (sysSemaphoreGive qemuTarget.toConfig mutex x.machine).out = some ((), m') → ¬ Lost mutex (x.goOn mutex m') := by
  intro h
  obtain ⟨s, hs, ht, hidle, _, last, x, m', ha, hout, hlost⟩ := reachable_forgotten
  exact h s last x m' hs ht hidle ha hout hlost

end

end Semaphore

end IntOS
