import IntOS.Boot.Lemmas.ReadyInsert
import IntOS.Tx.Lemmas.Cache

/-!
# Where a power failure can leave a boot

`Halted t regs n s`: the transactions of the first `n` registrations are committed. That of the next may be under
way, or the last of them may not be in its ready list yet.
-/

namespace IntOS

open Persist Persist.Prog

variable {t : BootTarget} {regs : List Registration} {i n m old : Nat}
  {r : Registration} {s : Boot}

/-- The fields of a task that the scheduler works with. -/
def Kernel.taskFields (k : Kernel) (tid : Nat) : Nat × TaskState × Nat × Bool × Bool :=
  (k.priority tid, k.status tid, k.wakeupTime tid, k.listTxDone tid, k.recoveryMode tid)

namespace Boot

/-- The priority of the task `i`. -/
def prioAt (regs : List Registration) (i : Nat) : Nat := (regs[i]?.map (·.prio)).getD numPriorityLevels

theorem prioAt_eq (h : regs[i]? = some r) : prioAt regs i = r.prio := by
  rw [prioAt, h]
  rfl

/-- The results of the first `n` transactions. -/
def results (t : BootTarget) (n : Nat) : List (List UInt8) := (List.range n).map fun tid => t.enc (.ok tid)

theorem results_succ (t : BootTarget) (n : Nat) : results t (n + 1) = results t n ++ [t.enc (.ok n)] := by
  rw [results, List.range_succ, List.map_append]
  rfl

theorem length_results (t : BootTarget) (n : Nat) : (results t n).length = n := by
  rw [results, List.length_map, List.length_range]

theorem length_flatten_results (t : BootTarget) (n : Nat) : (results t n).flatten.length = n * t.size := by
  induction n with
  | zero => simp [results]
  | succ n ih => rw [results_succ, flatten_append_singleton_length, ih, t.length_enc, Nat.succ_mul]

theorem fits_results (h : n ≤ t.taskNumLimit) : Fits t.board (results t n) := by
  refine ⟨?_, ?_⟩
  · rw [length_results]
    exact Nat.lt_of_le_of_lt h t.ids_fit
  · rw [length_flatten_results]
    exact (Nat.mul_le_mul_right t.size h).trans t.results_fit

/-- The result of the task `i` among those of all. -/
theorem results_split (h : i < n) :
    results t n = results t i ++ t.enc (.ok i) :: (results t n).drop (i + 1) := by
  have hlt : i < (results t n).length := by rwa [length_results]
  have htake : (results t n).take i = results t i := by
    rw [results, results, ← List.map_take, List.take_range, Nat.min_eq_left (Nat.le_of_lt h)]
  have hget : (results t n)[i] = t.enc (.ok i) := by simp [results]
  rw [← htake, ← hget, ← List.drop_eq_getElem_cons hlt, List.take_append_drop]

/-- The persistent fields of the task `tid` that come from its registration. -/
def tcbOf (t : BootTarget) (tid : Nat) (r : Registration) (generation : Nat) : Tcb where
  taskId := tid
  stackTop := initializeStack t.layout (t.userStack tid)
  stackBottom := t.userStack tid
  param := r.param
  taskFunc := r.func
  name := r.name
  generation := generation

/-- Its initial frame. -/
def frameOf (t : BootTarget) (tid : Nat) (r : Registration) : Frame where
  stackTop := initializeStack t.layout (t.userStack tid)
  taskFunc := r.func
  param := r.param

/-- The persistent fields of the task are those that `initialize_task` stores. -/
structure Registered (t : BootTarget) (tid : Nat) (r : Registration) (s : Boot) : Prop where
  allocated : s.allocated tid = true
  tcb : s.tasks tid = tcbOf t tid r (s.tasks tid).generation
  priority : s.kernel.priority tid = r.prio
  status : s.kernel.status tid = .ready
  wakeupTime : s.kernel.wakeupTime tid = 0
  listTxDone : s.kernel.listTxDone tid = false
  recoveryMode : s.kernel.recoveryMode tid = false

theorem Registered.frame {s' : Boot} (h : Registered t i r s) (ha : s'.allocated i = s.allocated i)
    (ht : s'.tasks i = s.tasks i) (hk : s'.kernel.taskFields i = s.kernel.taskFields i) : Registered t i r s' := by
  simp only [Kernel.taskFields, Prod.mk.injEq] at hk
  obtain ⟨hprio, hstatus, hwakeup, hdone, hmode⟩ := hk
  refine ⟨ha.trans h.allocated, ?_, hprio.trans h.priority, hstatus.trans h.status, hwakeup.trans h.wakeupTime,
    hdone.trans h.listTxDone, hmode.trans h.recoveryMode⟩
  rw [ht, ← h.tcb]

/-- The task is initialised from its registration. A task that is crashed gets its frame from `jit_recovery` when it
is first switched to. -/
structure Initialised (t : BootTarget) (tid : Nat) (r : Registration) (s : Boot) : Prop
    extends Registered t tid r s where
  stack : s.frames tid = some (frameOf t tid r) ∨ s.isCrashed tid

/-- Of the first `n` tasks, `cur` is the first of the highest priority, which is `max`. -/
def Leads (regs : List Registration) (n : Nat) (cur : Option Nat) (max : Nat) : Prop :=
  match cur with
  | none => n = 0 ∧ max = numPriorityLevels
  | some i => i < n ∧ max = prioAt regs i ∧
      ∀ j, j < n → prioAt regs i ≤ prioAt regs j ∧ (j < i → prioAt regs i < prioAt regs j)

/-- `CURRENT_TASK_PTR` and `CUR_MAX_PRIORITY`. The transaction of the next task stores them without logging. -/
def Led (regs : List Registration) (n : Nat) (k : Kernel) : Prop :=
  ∃ cur max, Leads regs n cur max ∧
    (k.current = cur ∧ k.curMaxPriority = max ∨
      prioAt regs n < max ∧ k.current = some n ∧ (k.curMaxPriority = max ∨ k.curMaxPriority = prioAt regs n))

/-- `TASK_CNT` with its journal. -/
def Counted (b : Board) (n : Nat) (s : Boot) : Prop :=
  (s.kernel.taskCnt = n ∧ (s.bootJournal = [] ∨ s.bootTxCache.isCommitted b.width)) ∨
    (¬ s.bootTxCache.isCommitted b.width ∧ s.bootJournal = [n] ∧
      (s.kernel.taskCnt = n ∨ s.kernel.taskCnt = n + 1))

structure Halted (t : BootTarget) (regs : List Registration) (n : Nat) (s : Boot) : Prop where
  le : n ≤ regs.length
  cache : Committed t.board (results t n) s.bootTxCache
  counted : Counted t.board n s
  registered : ∀ i r, i < n → regs[i]? = some r → Registered t i r s
  led : Led regs n s.kernel
  listed : Kernel.Enlisted (prioAt regs) n s.kernel
  booting : s.firstBootDone = false
  stopped : s.kernel.schedulerStarted = false

/-- The stacks in a boot that has found `old` registrations committed. It has built those of the other tasks. -/
structure Stacked (t : BootTarget) (regs : List Registration) (old n : Nat) (s : Boot) : Prop where
  lost : ∀ i, i < old → s.isCrashed i
  built : ∀ i r, old ≤ i → i < n → regs[i]? = some r → s.frames i = some (frameOf t i r)

theorem Stacked.frame {s' : Boot} (h : Stacked t regs old n s) (hn : old ≤ n)
    (ht : ∀ i, i < n → s'.tasks i = s.tasks i) (hf : ∀ i, i < n → s'.frames i = s.frames i)
    (hg : s'.currentGeneration = s.currentGeneration) : Stacked t regs old n s' where
  lost := by
    intro i hi
    rw [isCrashed, ht i (Nat.lt_of_lt_of_le hi hn), hg]
    exact h.lost i hi
  built := fun i r hi hin hr => (hf i hin).trans (h.built i r hi hin hr)

theorem Stacked.congr {s' : Boot} (h : Stacked t regs old n s) (ht : s'.tasks = s.tasks) (hf : s'.frames = s.frames)
    (hg : s'.currentGeneration = s.currentGeneration) : Stacked t regs old n s' where
  lost := by
    intro i hi
    rw [isCrashed, ht, hg]
    exact h.lost i hi
  built := fun i r hi hin hr => hf ▸ h.built i r hi hin hr

/-- Between the transactions of a boot: `n` registrations are committed, and `m` tasks are in their ready lists. -/
structure Resumed (t : BootTarget) (regs : List Registration) (old n m : Nat) (s : Boot) : Prop where
  halted : Halted t regs n s
  stacked : Stacked t regs old n s
  old_le : old ≤ n
  journal : s.bootJournal = []
  idle : Kernel.Resting (prioAt regs) m s.kernel
  le_succ : n ≤ m + 1
  le : m ≤ n

/-- What a failure leaves before the first boot is done. -/
def Struck (t : BootTarget) (regs : List Registration) (s : Boot) : Prop :=
  s.firstBootDone = false ∧ (s.kernel.Misleading ∨ ∃ n, Halted t regs n s)

theorem halted_new (t : BootTarget) (regs : List Registration) : Halted t regs 0 (new t.toConfig) where
  le := Nat.zero_le _
  cache := ⟨Or.inl (position_nil _).symm, rfl⟩
  counted := Or.inl ⟨rfl, Or.inl rfl⟩
  registered := fun i _ hi => absurd hi (Nat.not_lt_zero i)
  led := ⟨none, numPriorityLevels, ⟨rfl, rfl⟩, Or.inl ⟨rfl, rfl⟩⟩
  listed := by
    refine .placed (m := 0) (Nat.zero_le _) (Nat.le_refl _) ?_ rfl (Or.inl rfl)
    rw [Contents.placed_zero]
    exact Lists.holds_new _
  booting := rfl
  stopped := rfl

theorem Halted.struck (h : Halted t regs n s) : Struck t regs s := ⟨h.booting, Or.inr ⟨n, h⟩⟩

theorem Halted.prio (h : Halted t regs n s) (hi : i < n) : s.kernel.priority i = prioAt regs i := by
  obtain ⟨r, hr⟩ : ∃ r, regs[i]? = some r := ⟨_, List.getElem?_eq_getElem (Nat.lt_of_lt_of_le hi h.le)⟩
  rw [(h.registered i r hi hr).priority, prioAt_eq hr]

theorem Halted.current (h : Halted t regs n s) (hn : 0 < n) : ∃ cur, s.kernel.current = some cur := by
  obtain ⟨cur, max, hlead, ⟨hcur, _⟩ | ⟨_, hcur, _⟩⟩ := h.led
  · cases cur with
    | none => exact absurd hlead.1 (Nat.ne_of_gt hn)
    | some cur => exact ⟨cur, hcur⟩
  · exact ⟨n, hcur⟩

/-- A list transaction of the boot. -/
theorem Halted.calm {k : Kernel} (h : Halted t regs n s) (hk : Kernel.Calm n s.kernel k)
    (hl : Kernel.Enlisted (prioAt regs) n k) : Halted t regs n { s with kernel := k } where
  le := h.le
  cache := h.cache
  counted := by
    have hc := h.counted
    rw [Counted, ← hk.taskCnt] at hc
    exact hc
  registered := by
    intro i r hi hr
    have hreg := h.registered i r hi hr
    refine hreg.frame rfl rfl ?_
    simp only [Kernel.taskFields, hk.priority, hk.status i hreg.status, hreg.status, hk.wakeupTime,
      hk.listTxDone i hi, hk.recoveryMode]
  led := by
    have hl := h.led
    rw [Led, ← hk.current, ← hk.curMaxPriority] at hl
    exact hl
  listed := hl
  booting := h.booting
  stopped := hk.schedulerStarted.trans h.stopped

/-- The position from which results are read does not matter. -/
theorem Halted.cachePtr (h : Halted t regs n s) (p : Nat) :
    Halted t regs n { s with bootTxCache := { s.bootTxCache with ptr := p } } where
  le := h.le
  cache := h.cache.congr rfl fun _ _ => rfl
  counted := h.counted
  registered := fun i r hi hr => (h.registered i r hi hr).frame rfl rfl rfl
  led := h.led
  listed := h.listed
  booting := h.booting
  stopped := h.stopped

/-- Nor does the nesting level. -/
theorem Halted.nesting (h : Halted t regs n s) (v : Nat) : Halted t regs n { s with nestingLevel := v } :=
  { h with registered := fun i r hi hr => (h.registered i r hi hr).frame rfl rfl rfl }

end Boot

end IntOS
