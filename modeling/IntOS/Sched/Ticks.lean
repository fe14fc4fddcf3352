import IntOS.Sched.Lemmas.Clock
import IntOS.Sched.Lemmas.Events
import IntOS.Sched.NextUnblock

/-!
# Ticks over long runs

The tick counter and all wakeup times are of the type `Time` and only grow. As long as each sum fits into it, the
counter counts the ticks, and a delay takes as many of them as it was told.
-/

namespace IntOS

open Persist Persist.Prog

namespace Kernel

/-- `get_ticks().checked_add(wait_ticks).unwrap()`. -/
def wakeupAfter (cfg : Config) (waitTicks : Nat) : Prog Kernel Nat := do
  let now ← gets (·.tickCounter)
  addTime cfg now waitTicks

inductive Action
  | op (o : Op)
  /-- `sys_task_delay` before it yields. -/
  | sysTaskDelay (nticks : Nat)
  /-- A queue or a semaphore blocks the current task, perhaps that of a mutex. -/
  | wait (w waitTicks : Nat)
  /-- An event group blocks the current task. -/
  | waitUnsorted (w waitTicks : Nat)
  /-- The daemon computes when a timer expires. -/
  | expiryTime (start periodTicks : Nat)

namespace Action

def prog (cfg : Config) : Action → Prog Kernel Unit
  | op o => o.prog cfg
  | sysTaskDelay nticks => taskDelay cfg nticks
  | wait w waitTicks => do
      let wakeupTime ← wakeupAfter cfg waitTicks
      blockOnWaitlist cfg w wakeupTime
  | waitUnsorted w waitTicks => do
      let wakeupTime ← wakeupAfter cfg waitTicks
      blockOnUnsortedWaitlist cfg w wakeupTime
  | expiryTime start periodTicks => do
      let _ ← addTime cfg start periodTicks

/-- The sum that the action computes. -/
def time (k : Kernel) : Action → Option Nat
  | op .processTick => some (k.tickCounter + 1)
  | op _ => none
  | sysTaskDelay nticks => some (k.tickCounter + nticks)
  | wait _ waitTicks => some (k.tickCounter + waitTicks)
  | waitUnsorted _ waitTicks => some (k.tickCounter + waitTicks)
  | expiryTime start periodTicks => some (start + periodTicks)

/-- The sum is a `Time`. -/
def Fits (cfg : Config) (k : Kernel) (a : Action) : Prop := ∀ v ∈ a.time k, v ≤ cfg.maxDelayTime

def ticks : Action → Nat
  | op .processTick => 1
  | _ => 0

/-- No panic, and the counter does not wrap. -/
def Sound (cfg : Config) (k : Kernel) (a : Action) : Prop :=
  Ends (a.prog cfg) (fun _ k' => k'.tickCounter = k.tickCounter + a.ticks) k

/-- What happens to the lists, if the sum fits. -/
def toOp (k : Kernel) : Action → Option Op
  | op o => some o
  | sysTaskDelay nticks => some (.taskDelay nticks)
  | wait w waitTicks => some (.block w (k.tickCounter + waitTicks))
  | waitUnsorted w waitTicks => some (.blockUnsorted w (k.tickCounter + waitTicks))
  | expiryTime _ _ => none

/-- Whether the current task is in a syscall from now on. -/
def marks : Action → Option Bool
  | op .syscallEnd => some false
  | op (.taskDelay _) => some true
  | op (.block _ _) => some true
  | op (.blockUnsorted _ _) => some true
  | op (.wake _) => some true
  | op (.wakeNode _ _) => some true
  | sysTaskDelay _ => some true
  | wait _ _ => some true
  | waitUnsorted _ _ => some true
  | _ => none

end Action

/-- The kernel, and which tasks are in a syscall. -/
structure Timed where
  kernel : Kernel
  inSyscall : Nat → Bool

namespace Timed

def new (cfg : Config) : Timed := ⟨Kernel.new cfg, fun _ => false⟩

def mark (s : Timed) (a : Action) : Nat → Bool :=
  match a.marks, s.kernel.current with
  | some b, some t => Function.update s.inSyscall t b
  | _, _ => s.inSyscall

/-- The current task executes. -/
def Calls (s : Timed) : Prop := ∃ t, s.kernel.current = some t ∧ s.kernel.status t ≠ .blocked

/-- A task delays itself outside its other syscalls. -/
def Enabled (s : Timed) : Action → Prop
  | .op o => o.Enabled s.kernel ∧ ∀ nticks, o ≠ .taskDelay nticks
  | .sysTaskDelay _ => s.Calls ∧ ∀ t, s.kernel.current = some t → s.inSyscall t = false
  | .wait _ _ => s.Calls
  | .waitUnsorted _ _ => s.Calls
  | .expiryTime _ _ => True

structure Step (cfg : Config) (s : Timed) (a : Action) (s' : Timed) : Prop where
  enabled : s.Enabled a
  fits : a.Fits cfg s.kernel
  out : (a.prog cfg s.kernel).out = some ((), s'.kernel)
  inSyscall : s'.inSyscall = s.mark a

/-- A run with so many ticks, of any length. -/
inductive Run (cfg : Config) (s : Timed) : Nat → Timed → Prop
  | refl : Run cfg s 0 s
  | step {m : Nat} {s₁ s₂ : Timed} {a : Action} : Run cfg s m s₁ → Step cfg s₁ a s₂ → Run cfg s (m + a.ticks) s₂

end Timed

variable {cfg : Config} {k k' : Kernel} {s s' : Timed} {a : Action} {t m n : Nat}

/-! ## One action -/

theorem lt_of_fits {x y : Nat} (h : x + y ≤ cfg.maxDelayTime) : x + y < 2 ^ cfg.timeBits := by
  have hpos : 0 < 2 ^ cfg.timeBits := Nat.two_pow_pos _
  unfold Config.maxDelayTime at h
  omega

theorem fits_of_lt {x y : Nat} (h : x + y < 2 ^ cfg.timeBits) : x + y ≤ cfg.maxDelayTime := Nat.le_sub_one_of_lt h

/-- An action does what its operation does. -/
theorem Action.after {Q : Unit → Kernel → Prop} (hop : ∀ o, a.toOp k = some o → After (o.prog cfg) Q k)
    (hnone : a.toOp k = none → Q () k) : After (a.prog cfg) Q k := by
  cases a with
  | op o => exact hop o rfl
  | sysTaskDelay nticks => exact hop _ rfl
  | wait w waitTicks =>
      simp only [Action.prog, wakeupAfter, addTime, after_bind, after_gets, after_check, after_pure]
      exact fun _ => hop _ rfl
  | waitUnsorted w waitTicks =>
      simp only [Action.prog, wakeupAfter, addTime, after_bind, after_gets, after_check, after_pure]
      exact fun _ => hop _ rfl
  | expiryTime start periodTicks =>
      simp only [Action.prog, addTime, after_bind, after_check, after_pure]
      exact fun _ => hnone rfl

theorem Timed.Enabled.toOp {o : Op} (h : s.Enabled a) (ho : a.toOp s.kernel = some o) : o.Enabled s.kernel := by
  have hexecuting : s.Calls → Executing s.kernel := by
    rintro ⟨t, hcur, hb⟩ u hu
    rw [hcur] at hu
    cases hu
    exact hb
  cases a <;> cases ho
  case op => exact h.1
  case sysTaskDelay => exact hexecuting h.1
  case wait => exact hexecuting h
  case waitUnsorted => exact hexecuting h

theorem Action.toOp_processTick (ho : a.toOp k = some .processTick) : a = .op .processTick := by
  cases a <;> cases ho
  rfl

/-- Ticks apart, the counter stays. -/
theorem Action.tickCounter_eq (ha : a ≠ .op .processTick) :
    After (a.prog cfg) (fun _ k' => k'.tickCounter = k.tickCounter + a.ticks) k := by
  have hticks : a.ticks = 0 := by
    unfold Action.ticks
    split
    · exact absurd rfl ha
    · rfl
  rw [hticks, Nat.add_zero]
  apply Action.after
  · intro o ho
    apply Op.tickCounter_eq
    rintro rfl
    exact ha (Action.toOp_processTick ho)
  · exact fun _ => rfl

/-- The counter wraps at the end of `Time`. -/
theorem processTick_tickCounter :
    After (processTick cfg) (fun _ k' => k'.tickCounter = (k.tickCounter + 1) % 2 ^ cfg.timeBits) k := by
  simp only [processTick, incTick, after_bind, after_gets, after_check, after_store, after_pure]
  intro _
  split
  · simp only [after_bind, after_gets]
    have hclock : ∀ curTicks fuel, Keeps clock (wakeDue cfg curTicks fuel) := keeps_clock_wakeDue
    exact After.mono (hclock _ _ _).2 fun _ _ hk' => congrArg Prod.fst hk'
  · rfl

section
variable {w v : Nat}

theorem Inv.setOwnWakeupTime (h : Inv k) (hcur : k.current = some t) (hb : k.status t ≠ .blocked) :
    Inv { k with wakeupTime := Function.update k.wakeupTime t v } := by
  obtain ⟨hsched, _⟩ := h.unblocked (h.current t hcur) hb
  exact h.setWakeupTime (by simp [hsched]) v

theorem Inv.blockOnWaitlist_returns (h : Inv k) (hcur : k.current = some t) (hb : k.status t ≠ .blocked) :
    Ends (Kernel.blockOnWaitlist cfg w v) (fun _ _ => True) k := by
  simp only [Kernel.blockOnWaitlist, ends_bind, ends_getCurrent hcur, ends_setWakeupTime]
  exact ((h.setOwnWakeupTime hcur hb).insertIntoWaitlist w (h.current t hcur) hb).mono fun _ _ _ => trivial

theorem Inv.blockOnUnsortedWaitlist_returns (h : Inv k) (hcur : k.current = some t) (hb : k.status t ≠ .blocked) :
    Ends (Kernel.blockOnUnsortedWaitlist cfg w v) (fun _ _ => True) k := by
  simp only [Kernel.blockOnUnsortedWaitlist, ends_bind, ends_getCurrent hcur, ends_setWakeupTime]
  exact ((h.setOwnWakeupTime hcur hb).insertIntoUnsortedWaitlist w (h.current t hcur) hb).mono fun _ _ _ => trivial

/-- A task that is not in a syscall falls asleep. -/
theorem Inv.insertIntoDelaylist_dozes (h : Inv k) (hcur : k.current = some t) (hdone : k.listTxDone t = false)
    (hb : k.status t ≠ .blocked) : Ends (rollForwardInsertIntoDelaylist cfg) (fun _ => Dozes t v)
      { k with wakeupTime := Function.update k.wakeupTime t v } := by
  refine ((h.setOwnWakeupTime hcur hb).insertIntoDelaylist hcur hdone hb).mono ?_
  rintro _ k' ⟨_, _, hs⟩
  refine ⟨hs.sched, hs.event, ?_⟩
  rw [hs.frame.wakeupTime]
  exact Function.update_self _ _ _

end

/-! ## What a run keeps -/

/-- Outside of a syscall no list transaction is done. -/
structure Timed.Good (s : Timed) : Prop where
  inv : Inv s.kernel
  listTxDone : ∀ t, s.kernel.listTxDone t = true → s.inSyscall t = true

namespace Timed

theorem good_new (cfg : Config) : (new cfg).Good := ⟨inv_new cfg, nofun⟩

theorem mark_of_inSyscall (ha : a.marks ≠ some false) (ht : s.inSyscall t = true) : s.mark a t = true := by
  cases hmarks : a.marks with
  | none => simp [mark, hmarks, ht]
  | some b =>
      cases b with
      | false => exact absurd hmarks ha
      | true =>
          cases hcur : s.kernel.current with
          | none => simp [mark, hmarks, hcur, ht]
          | some u =>
              by_cases htu : t = u
              · simp [mark, hmarks, hcur, htu]
              · simp [mark, hmarks, hcur, htu, ht]

theorem mark_current (ha : a.marks = some true) (hcur : s.kernel.current = some t) : s.mark a t = true := by
  simp [mark, ha, hcur]

theorem marks_of_toOp {o : Op} (ho : a.toOp k = some o) (hin : o.InSyscall) (hend : a ≠ .op .syscallEnd) :
    a.marks = some true := by
  cases a <;> cases ho
  case op =>
    cases o <;> first | rfl | exact hin.elim | exact absurd rfl hend
  all_goals rfl

theorem marks_ne (hend : a ≠ .op .syscallEnd) : a.marks ≠ some false := by
  unfold Action.marks
  split
  · exact absurd rfl hend
  all_goals exact nofun

theorem Good.not_done (h : s.Good) (hout : s.inSyscall t = false) : s.kernel.listTxDone t = false := by
  by_contra hdone
  have hin := h.listTxDone t (Bool.eq_true_of_not_eq_false hdone)
  simp [hout] at hin

theorem Good.step (h : s.Good) (hs : Step cfg s a s') : s'.Good := by
  refine ⟨?_, fun t ht => ?_⟩
  · have hinv : After (a.prog cfg) (fun _ => Inv) s.kernel :=
      Action.after (fun o ho => h.inv.step (hs.enabled.toOp ho)) fun _ => h.inv
    exact hinv.post hs.out
  · rw [hs.inSyscall]
    by_cases hend : a = .op .syscallEnd
    · subst hend
      have hdone : After (Op.syscallEnd.prog cfg) (fun _ k' => ∃ u, s.kernel.current = some u ∧
          k'.listTxDone = Function.update s.kernel.listTxDone u false) s.kernel := by
        simp only [Op.prog, after_bind, after_getCurrent, after_store]
        exact fun u hu => ⟨u, hu, rfl⟩
      obtain ⟨u, hu, hlist⟩ := hdone.post hs.out
      have htu : t ≠ u := by
        rintro rfl
        simp [hlist] at ht
      rw [hlist, Function.update_of_ne htu] at ht
      simp [mark, Action.marks, hu, htu, h.listTxDone t ht]
    · have hdone : After (a.prog cfg) (fun _ k' => ∀ u, k'.listTxDone u = true →
          s.kernel.listTxDone u = true ∨ a.marks = some true ∧ s.kernel.current = some u) s.kernel := by
        apply Action.after
        · intro o ho
          refine (h.inv.events (hs.enabled.toOp ho)).mono fun _ k' he u hu => ?_
          exact (he.listTxDone u hu).imp_right fun hin => ⟨marks_of_toOp ho hin.1 hend, hin.2⟩
        · exact fun _ u hu => Or.inl hu
      rcases hdone.post hs.out t ht with hold | ⟨hmarks, hcur⟩
      · exact mark_of_inSyscall (marks_ne hend) (h.listTxDone t hold)
      · exact mark_current hmarks hcur

theorem Good.run (h : s.Good) (hr : Run cfg s m s') : s'.Good := by
  induction hr with
  | refl => exact h
  | step _ hs ih => exact ih.step hs

/-! ## When an action is sound -/

theorem sound_iff_ends (ha : a ≠ .op .processTick) : a.Sound cfg k ↔ Ends (a.prog cfg) (fun _ _ => True) k := by
  constructor
  · exact fun h => Ends.mono h fun _ _ _ => trivial
  · exact fun h => (h.and_after (Action.tickCounter_eq ha)).mono fun _ _ hk' => hk'.2

theorem ends_wakeupAfter {Q : Nat → Kernel → Prop} :
    Ends (wakeupAfter cfg n) Q k ↔ k.tickCounter + n < 2 ^ cfg.timeBits ∧ Q (k.tickCounter + n) k := by
  simp [wakeupAfter, addTime]

theorem sound_iff_fits (h : s.Good) (ha : s.Enabled a) (htime : a.time s.kernel ≠ none) :
    a.Sound cfg s.kernel ↔ a.Fits cfg s.kernel := by
  have hfits : ∀ {x y : Nat}, a.time s.kernel = some (x + y) → (a.Fits cfg s.kernel ↔ x + y < 2 ^ cfg.timeBits) := by
    intro x y hxy
    simp only [Action.Fits, hxy, Option.mem_some_iff, forall_eq']
    exact ⟨lt_of_fits, fits_of_lt⟩
  cases a with
  | op o =>
      cases o with
      | processTick =>
          constructor
          · intro hs
            obtain ⟨_, k', hout, hk'⟩ := hs.returns
            rw [hfits rfl]
            have hwrap : After (processTick cfg) _ s.kernel := processTick_tickCounter
            rw [hwrap.post hout] at hk'
            exact hk' ▸ Nat.mod_lt _ (Nat.two_pow_pos _)
          · exact fun hf => (h.inv.tick (hf _ rfl)).mono fun _ _ hk' => hk'.2.1
      | _ => exact absurd rfl htime
  | sysTaskDelay nticks =>
      obtain ⟨⟨t, hcur, hb⟩, hout⟩ := ha
      have hdone := h.not_done (hout t hcur)
      rw [hfits rfl]
      refine (sound_iff_ends ?_).trans ?_
      · simp
      simp only [Action.prog, taskDelay, addTime, ends_bind, ends_getCurrent hcur, ends_gets, ends_check, ends_pure,
        ends_setWakeupTime]
      exact and_iff_left ((h.inv.insertIntoDelaylist_dozes hcur hdone hb).mono fun _ _ _ => trivial)
  | wait w waitTicks =>
      obtain ⟨t, hcur, hb⟩ := ha
      rw [hfits rfl]
      refine (sound_iff_ends ?_).trans ?_
      · simp
      rw [Action.prog, ends_bind, ends_wakeupAfter]
      exact and_iff_left (h.inv.blockOnWaitlist_returns hcur hb)
  | waitUnsorted w waitTicks =>
      obtain ⟨t, hcur, hb⟩ := ha
      rw [hfits rfl]
      refine (sound_iff_ends ?_).trans ?_
      · simp
      rw [Action.prog, ends_bind, ends_wakeupAfter]
      exact and_iff_left (h.inv.blockOnUnsortedWaitlist_returns hcur hb)
  | expiryTime start periodTicks =>
      rw [hfits rfl]
      refine (sound_iff_ends ?_).trans ?_
      · simp
      simp [Action.prog, addTime]

/-! ## Runs -/

theorem Good.step_tickCounter (h : s.Good) (hs : Step cfg s a s') :
    s'.kernel.tickCounter = s.kernel.tickCounter + a.ticks := by
  by_cases ha : a = .op .processTick
  · subst ha
    have htick : Ends (processTick cfg) _ s.kernel := h.inv.tick (hs.fits _ rfl)
    exact (htick.post hs.out).2.1
  · exact (Action.tickCounter_eq ha).post hs.out

theorem Good.tickCounter (h : s.Good) (hr : Run cfg s m s') : s'.kernel.tickCounter = s.kernel.tickCounter + m := by
  induction hr with
  | refl => rfl
  | step hr hs ih => rw [(h.run hr).step_tickCounter hs, ih, Nat.add_assoc]

theorem Good.dozes (h : s.Good) (hcur : s.kernel.current = some t) (hs : Step cfg s (.sysTaskDelay n) s') :
    Dozes t (s.kernel.tickCounter + n) s'.kernel := by
  obtain ⟨⟨u, hu, hb⟩, hout⟩ := hs.enabled
  rw [hcur] at hu
  cases hu
  have hends : Ends ((Action.sysTaskDelay n).prog cfg) (fun _ => Dozes t (s.kernel.tickCounter + n)) s.kernel := by
    simp only [Action.prog, taskDelay, addTime, ends_bind, ends_getCurrent hcur, ends_gets, ends_check, ends_pure,
      ends_setWakeupTime]
    exact ⟨lt_of_fits (hs.fits _ rfl), h.inv.insertIntoDelaylist_dozes hcur (h.not_done (hout t hcur)) hb⟩
  exact hends.post hs.out

/-- A delayed task sleeps as long as its tick has not come. -/
theorem Good.still_dozes {wk j : Nat} (h : s.Good) (hd : Dozes t wk s.kernel) (hr : Run cfg s j s')
    (hj : s.kernel.tickCounter + j < wk) : Dozes t wk s'.kernel := by
  induction hr with
  | refl => exact hd
  | @step j s₁ s₂ a hr hs ih =>
      have h₁ := h.run hr
      have hd₁ := ih (by omega)
      by_cases ha : a = .op .processTick
      · subst ha
        have htick : Ends (processTick cfg) _ s₁.kernel := h₁.inv.tick (hs.fits _ rfl)
        refine hd₁.tick_early (htick.post hs.out).2.2.1 ?_
        rw [h.tickCounter hr]
        exact hj
      · have hafter : After (a.prog cfg) (fun _ => Dozes t wk) s₁.kernel := by
          apply Action.after
          · intro o ho
            apply hd₁.op h₁.inv (hs.enabled.toOp ho)
            rintro rfl
            exact ha (Action.toOp_processTick ho)
          · exact fun _ => hd₁
        exact hafter.post hs.out

end Timed

open Timed in
/-- As long as every sum fits, the counter is the number of ticks, however long the run, and a task that delays itself
for `n` ticks is made ready by the `n`-th tick after that and not before. A sum that does not fit is a panic, or the
counter wraps. -/
theorem ticks_in_time (hr : Run cfg (Timed.new cfg) m s) :
    s.kernel.tickCounter = m ∧
    (∀ a, s.Enabled a → a.time s.kernel ≠ none → (a.Sound cfg s.kernel ↔ a.Fits cfg s.kernel)) ∧
    ∀ n t s', s.kernel.current = some t → Step cfg s (.sysTaskDelay n) s' → ∀ j s'', Run cfg s' j s'' →
      (j < n → s''.kernel.status t = .blocked ∧ InList s''.kernel (.sched t) .delayed) ∧
      (j + 1 = n → Ends (processTick cfg) (fun _ k' => k'.status t = .ready ∧
        InList k' (.sched t) (.ready (k'.priority t))) s''.kernel) := by
  have h := (good_new cfg).run hr
  refine ⟨?_, fun a => sound_iff_fits h, fun n t s' hcur hs j s'' hr' => ?_⟩
  · rw [(good_new cfg).tickCounter hr]
    exact Nat.zero_add m
  have h' := h.step hs
  have hd := h.dozes hcur hs
  have hcount : s'.kernel.tickCounter = s.kernel.tickCounter := h.step_tickCounter hs
  have hrun := h'.tickCounter hr'
  have h'' := h'.run hr'
  constructor
  · intro hj
    have hd' := h'.still_dozes hd hr' (by omega)
    refine ⟨?_, h''.inv.inList_iff.mpr hd'.sched⟩
    exact (h''.inv.of_list hd'.sched).2.2
  · intro hj
    have hd' := h'.still_dozes hd hr' (by omega)
    have hfits : s.kernel.tickCounter + n ≤ cfg.maxDelayTime := hs.fits _ rfl
    refine (h''.inv.tick (by omega)).mono ?_
    rintro _ k' ⟨hinv, _, hp, hall⟩
    obtain ⟨hready, hstatus⟩ := hd'.tick_due hp hall (by omega)
    refine ⟨hstatus, hinv.inList_iff.mpr ?_⟩
    rw [hp.priority]
    exact hready

/-! ## Short runs -/

theorem Timed.Run.exec {s₁ : Timed} (h : Timed.Run cfg s m s₁) (a : Action) (ha : s₁.Enabled a)
    (hf : a.Fits cfg s₁.kernel) (hout : (a.prog cfg s₁.kernel).out = some ((), k')) :
    Timed.Run cfg s (m + a.ticks) ⟨k', s₁.mark a⟩ := h.step ⟨ha, hf, hout, rfl⟩

/-- `twoTasks`, with no task in a syscall. -/
def twoTasksTimed : Timed := ⟨twoTasks, fun _ => false⟩

theorem run_twoTasksTimed : Timed.Run qemuDebug (Timed.new qemuDebug) 0 twoTasksTimed := by
  have hinit : Timed.Run qemuDebug (Timed.new qemuDebug) 0 (Timed.new qemuDebug) := .refl
  have hfirst := hinit.exec (.op (.createTask 0)) ⟨trivial, nofun⟩ nofun (Op.out_exec _ rfl)
  have hsecond := hfirst.exec (.op (.createTask 1)) ⟨trivial, nofun⟩ nofun (Op.out_exec _ rfl)
  exact hsecond.exec (.op .startKernel) ⟨trivial, nofun⟩ nofun (Op.out_exec _ rfl)

/-- The first of the two tasks delays itself for one tick. -/
def napping : Kernel := (Op.taskDelay 1).exec qemuDebug twoTasks

theorem ticks_in_time_napping :
    napping.status 0 = .blocked ∧ Ends (processTick qemuDebug) (fun _ k' => k'.status 0 = .ready ∧
      InList k' (.sched 0) (.ready (k'.priority 0))) napping := by
  have hexecuting : twoTasks.status 0 ≠ .blocked := by decide
  have hs : twoTasksTimed.Step qemuDebug (.sysTaskDelay 1) ⟨napping, twoTasksTimed.mark (.sysTaskDelay 1)⟩ := by
    refine ⟨⟨⟨0, rfl, hexecuting⟩, fun _ _ => rfl⟩, ?_, Op.out_exec (.taskDelay 1) rfl, rfl⟩
    rintro v hv
    cases hv
    decide
  obtain ⟨hasleep, hawake⟩ := (ticks_in_time run_twoTasksTimed).2.2 1 0 _ rfl hs 0 _ .refl
  exact ⟨(hasleep Nat.zero_lt_one).1, hawake rfl⟩

/-- A board whose `Time` is `u16`, without debug assertions. -/
def msp430Release : Config := ⟨false, 6, 16⟩

def oneTaskTicked : Kernel :=
  Op.processTick.exec msp430Release (Op.startKernel.exec msp430Release
    ((Op.createTask 0).exec msp430Release (new msp430Release)))

/-- After one tick, a task delays itself as long as `Time` allows. -/
theorem not_ticks_in_time_msp430Release :
    ∃ s, Timed.Run msp430Release (Timed.new msp430Release) 1 s ∧ s.Enabled (.sysTaskDelay 65535) ∧
      ((Action.sysTaskDelay 65535).prog msp430Release s.kernel).out = none := by
  have hinit : Timed.Run msp430Release (Timed.new msp430Release) 0 (Timed.new msp430Release) := .refl
  have hfirst := hinit.exec (.op (.createTask 0)) ⟨trivial, nofun⟩ nofun (Op.out_exec _ rfl)
  have hstart := hfirst.exec (.op .startKernel) ⟨trivial, nofun⟩ nofun (Op.out_exec _ rfl)
  have hfits : (Action.op .processTick).Fits msp430Release (Op.startKernel.exec msp430Release
      ((Op.createTask 0).exec msp430Release (new msp430Release))) := by
    rintro v hv
    cases hv
    decide
  have htick := hstart.exec (.op .processTick) ⟨trivial, nofun⟩ hfits (Op.out_exec _ rfl)
  have hexecuting : oneTaskTicked.status 0 ≠ .blocked := by decide
  exact ⟨_, htick, ⟨⟨0, rfl, hexecuting⟩, fun _ _ => rfl⟩, rfl⟩

end Kernel

end IntOS
