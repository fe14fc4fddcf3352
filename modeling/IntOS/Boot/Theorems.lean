import IntOS.Boot.Lemmas.Attempt
import IntOS.Pmem.Body

/-!
# Boot survives power failures

Power fails in a boot, the next boot recovers and starts over, and so on until one completes.
-/

namespace IntOS

open Persist Persist.Prog

namespace Boot

variable {t : BootTarget} {regs : List Registration} {i old n m idleFn : Nat} {r : Registration} {s : Boot} {E : Prop}
  {C : Boot → Prop}

/-- The states in which boots start. `ok` says in which states power may fail. -/
inductive Boots (t : BootTarget) (idleFn : Nat) (apps : List Registration) (ok : Boot → Prop) : Boot → Prop
  | first : Boots t idleFn apps ok (new t.toConfig)
  | failed {s c : Boot} : Boots t idleFn apps ok s → c ∈ crashes (recoverAndBoot t idleFn apps) s →
      c.firstBootDone = false → ok c → Boots t idleFn apps ok c.powerOff

/-- The first task of the highest priority. -/
def Foremost (regs : List Registration) (i : Nat) (r : Registration) : Prop :=
  regs[i]? = some r ∧ ∀ j r', regs[j]? = some r' → r.prio ≤ r'.prio ∧ (j < i → r.prio < r'.prio)

/-- All of `regs` are registered, in this order. -/
structure Booted (t : BootTarget) (regs : List Registration) (s : Boot) : Prop where
  taskCnt : s.kernel.taskCnt = regs.length
  initialised : ∀ i r, regs[i]? = some r → Initialised t i r s
  /-- The ready lists hold the `sched_node`s of all tasks, each once and in the order of registration. -/
  rings : s.kernel.Shows (Contents.placed (prioAt regs) regs.length)
  list : ∀ i r, regs[i]? = some r → s.kernel.lists.list (.sched i) = some (.ready r.prio)
  len : ∀ p, s.kernel.lists.len (.ready p) = regs.countP (·.prio = p)
  /-- The kernel starts the current task from the frame on its stack. -/
  current : ∃ i r, Foremost regs i r ∧ s.kernel.current = some i ∧ s.frames i = some (frameOf t i r)

/-- How many registrations are committed. -/
def registrations (t : BootTarget) (s : Boot) : Nat := s.bootTxCache.getTxIdOfTail t.board.width

/-- A power failure that the boots after it make good. -/
structure Harmless (t : BootTarget) (regs : List Registration) (c : Boot) : Prop where
  log : ¬ c.kernel.Misleading
  /-- The recovery of an insertion commits, and so it sets `list_tx_done` of the current task. -/
  marked : c.kernel.op = .readyListInsert → ∀ i, c.kernel.current = some i → registrations t c ≤ i
  /-- No boot builds the stack of a registered task again, and the kernel starts the first one from it. -/
  first : ∀ i r, Foremost regs i r → registrations t c ≤ i
  /-- The generation of the next boot is that of no registered task. -/
  generation : ∀ i, i < registrations t c →
    (c.tasks i).generation ≠ (c.currentGeneration + 1) % 2 ^ t.board.width.bits

/-- The switch to a task finds the initial frame, or builds it. -/
theorem Initialised.ends_recoverStack (h : Initialised t i r s) :
    Ends (recoverStack t i) (fun _ s' => s'.frames i = some (frameOf t i r)) s := by
  have hbottom : (s.tasks i).stackBottom = t.userStack i := congrArg Tcb.stackBottom h.tcb
  have hfunc : (s.tasks i).taskFunc = r.func := congrArg Tcb.taskFunc h.tcb
  have hparam : (s.tasks i).param = r.param := congrArg Tcb.param h.tcb
  by_cases hcrashed : s.isCrashed i
  · simp [recoverStack, buildStack, setTask, hcrashed, hbottom, hfunc, hparam, frameOf]
  · simp [recoverStack, hcrashed, h.stack.resolve_right hcrashed]

theorem length_placed (regs : List Registration) (p : Nat) :
    (Contents.placed (prioAt regs) regs.length (.ready p)).length = regs.countP (·.prio = p) := by
  have hmap : regs.map (·.prio) = (List.range regs.length).map (prioAt regs) := by
    apply List.ext_getElem
    · simp
    · intro i hi _
      have hlt : i < regs.length := by simpa using hi
      simp [prioAt, hlt]
  have hcount : regs.countP (·.prio = p) = (regs.map (·.prio)).countP (· = p) := by
    rw [List.countP_map]
    rfl
  rw [hcount, hmap, List.countP_map, List.countP_eq_length_filter, Contents.placed, List.length_map]
  rfl

theorem Leads.foremost (h : Leads regs regs.length (some i) m) : ∃ r, Foremost regs i r ∧ m = r.prio := by
  obtain ⟨hi, rfl, hmin⟩ := h
  have hr := List.getElem?_eq_getElem hi
  refine ⟨_, ⟨hr, fun j r' hr' => ?_⟩, prioAt_eq hr⟩
  have hj := hmin j (List.getElem?_eq_some_iff.mp hr').1
  rwa [prioAt_eq hr, prioAt_eq hr'] at hj

theorem Halted.registrations (h : Halted t regs n s) (hn : n ≤ t.taskNumLimit) : registrations t s = n := by
  rw [Boot.registrations, h.cache.txIdOf (fits_results hn), length_results]

/-- The tasks that this boot has not registered are crashed. -/
theorem Resumed.initialised (h : Resumed t regs old n m s) (hi : i < n) (hr : regs[i]? = some r) :
    Initialised t i r s := by
  refine ⟨h.halted.registered i r hi hr, ?_⟩
  rcases Nat.lt_or_ge i old with hlt | hge
  · exact Or.inr (h.stacked.lost i hlt)
  · exact Or.inl (h.stacked.built i r hge hi hr)

/-- The last registration is done. -/
theorem Arrived.booted (h : Arrived t regs old regs.length s) (hp : ∀ r ∈ regs, r.prio < numPriorityLevels)
    (hne : regs ≠ []) (hfirst : ∀ i r, Foremost regs i r → old ≤ i) :
    Booted t regs { s with firstBootDone := true } := by
  obtain ⟨n, m, h, _, hle, hm⟩ := h
  obtain rfl : n = regs.length := Nat.le_antisymm h.halted.le hle
  obtain rfl := hm rfl
  have hlt : ∀ {i r}, regs[i]? = some r → i < regs.length := fun hr => (List.getElem?_eq_some_iff.mp hr).1
  have hpos : 0 < regs.length := List.length_pos_iff.mpr hne
  refine ⟨h.taskCnt, fun i r hr => ?_, h.idle.shows, fun i r hr => ?_, fun p => ?_, ?_⟩
  · have hmade := h.initialised (hlt hr) hr
    exact ⟨hmade.toRegistered.frame rfl rfl rfl, hmade.stack⟩
  · exact h.idle.shows.mem.mp (Contents.mem_placed.mpr ⟨i, hlt hr, rfl, by rw [prioAt_eq hr]⟩)
  · rw [← length_placed]
    exact h.idle.shows.len _
  · obtain ⟨cur, max, hlead, hcur⟩ := h.halted.led
    cases cur with
    | none => exact absurd hlead.1 (Nat.ne_of_gt hpos)
    | some i =>
        obtain ⟨r, hforemost, rfl⟩ := hlead.foremost
        rcases hcur with ⟨hcur, _⟩ | ⟨hmax, _⟩
        · exact ⟨i, r, hforemost, hcur, h.stacked.built i r (hfirst i r hforemost) (hlt hforemost.1) hforemost.1⟩
        -- no task is left to take the lead
        · have hlast : prioAt regs regs.length = numPriorityLevels := by simp [prioAt]
          rw [hlast] at hmax
          exact absurd (hp r (List.mem_of_getElem? hforemost.1)) (Nat.lt_asymm hmax)

/-- The registrations from `i` on. -/
theorem Arrived.wpc_registerApps {Q : Unit → Boot → Prop} {apps : List Registration} (h : Arrived t regs old i s)
    (hdrop : regs.drop i = apps) (hp : ∀ r ∈ regs, r.prio < numPriorityLevels)
    (hlimit : regs.length ≤ t.taskNumLimit) (hE : t.board.debugAssertions = true → E)
    (hC : ∀ c, Struck t regs c → C c) (hQ : ∀ s', Arrived t regs old regs.length s' → Q () s') :
    wpc (registerApps t apps) Q E C s := by
  induction apps generalizing i s with
  | nil =>
      obtain ⟨n, m, hs, hptr, hin, hm⟩ := h
      obtain rfl : i = regs.length :=
        Nat.le_antisymm (hin.trans hs.halted.le) (List.drop_eq_nil_iff.mp hdrop)
      exact wpc_pure (hC _ hs.halted.struck) (hQ _ ⟨n, m, hs, hptr, hin, hm⟩)
  | cons r apps ih =>
      have hr : regs[i]? = some r := by rw [← List.head?_drop, hdrop, List.head?_cons]
      have hrest : regs.drop (i + 1) = apps := by rw [← List.tail_drop, hdrop, List.tail_cons]
      refine wpc_bind (h.wpc_create hr (hp r (List.mem_of_getElem? hr)) hlimit hE hC fun s' hs' => ?_)
      exact ih hs' hrest

/-- The generation of the boot. The tasks registered before it are crashed. -/
theorem Halted.wpc_increaseGeneration {Q : Unit → Boot → Prop} (h : Halted t regs n s)
    (hE : t.board.debugAssertions = true → E)
    (hgeneration : ∀ i, i < n → (s.tasks i).generation ≠ (s.currentGeneration + 1) % 2 ^ t.board.width.bits)
    (hC : ∀ c, Halted t regs n c → C c)
    (hQ : ∀ g, Halted t regs n { s with currentGeneration := g } →
      Stacked t regs n n { s with currentGeneration := g } → Q () { s with currentGeneration := g }) :
    wpc (increaseGeneration t.board) Q E C s := by
  have h₀ := hC s h
  have hnext : ∀ g, Halted t regs n { s with currentGeneration := g } := fun g =>
    { h with registered := fun i r hi hr => (h.registered i r hi hr).frame rfl rfl rfl }
  refine wpc_bind (wpc_gets h₀ (wpc_bind (wpc_bind (wpc_check h₀ (fun hne => hE (Classical.not_imp.mp hne).1) ?_))))
  refine fun _ => wpc_pure h₀ (wpc_store h₀ (hC _ (hnext _)) (hQ _ (hnext _) ⟨hgeneration, ?_⟩))
  exact fun i _ hni hin => absurd hin (Nat.not_lt.mpr hni)

/-- One attempt to boot, from where a harmless failure left the one before. -/
theorem Halted.wpc_boot {apps : List Registration} (h : Halted t (idle idleFn :: apps) n s)
    (hmarked : s.kernel.op = .readyListInsert → ∀ i, s.kernel.current = some i → n ≤ i)
    (hfirst : ∀ i r, Foremost (idle idleFn :: apps) i r → n ≤ i)
    (hgeneration : ∀ i, i < n → (s.tasks i).generation ≠ (s.currentGeneration + 1) % 2 ^ t.board.width.bits)
    (hp : ∀ r ∈ apps, r.prio < numPriorityLevels) (hlimit : apps.length + 1 ≤ t.taskNumLimit) :
    wpc (recoverAndBoot t idleFn apps)
      (fun _ s' => s'.firstBootDone = true ∧ Booted t (idle idleFn :: apps) s')
      (t.board.debugAssertions = true)
      (fun c => Struck t (idle idleFn :: apps) c ∨ c.firstBootDone = true ∧ Booted t (idle idleFn :: apps) c) s := by
  have hprios : ∀ r ∈ idle idleFn :: apps, r.prio < numPriorityLevels := by
    intro r hr
    rcases List.mem_cons.mp hr with rfl | hr
    · exact Nat.lt_succ_self _
    · exact hp r hr
  have hstopped : Halted t (idle idleFn :: apps) n
      { s with kernel := { s.kernel with schedulerStarted := false } } :=
    h.calm ⟨rfl, rfl, rfl, fun _ _ => rfl, rfl, fun _ hs => hs, rfl, rfl, h.stopped.symm⟩ (h.listed.frame rfl rfl rfl)
  refine wpc_bind (wpc_onKernel (wpc_store (Or.inl h.struck) (Or.inl hstopped.struck) (wpc_bind ?_)))
  refine hstopped.wpc_increaseGeneration id hgeneration (fun c hc => Or.inl hc.struck) fun g hs₀ hstacked => ?_
  refine wpc_bind (hs₀.wpc_recover (lt_of_le_limit (h.le.trans hlimit)) hmarked hstacked (Nat.le_refl n)
    (fun c hc => Or.inl hc.struck) ?_)
  intro m s₁ hs₁
  have hreset : Arrived t (idle idleFn :: apps) n 0
      { s₁ with bootTxCache := { s₁.bootTxCache with ptr := 0 } } := by
    refine ⟨n, m, ⟨hs₁.halted.cachePtr 0, hs₁.stacked.congr rfl rfl rfl, Nat.le_refl n, hs₁.journal, hs₁.idle,
      hs₁.le_succ, hs₁.le⟩, ?_, Nat.zero_le n, ?_⟩
    · exact (position_nil _).symm
    · rintro rfl
      exact Nat.le_zero.mp hs₁.le
  have h₁ := hs₁.halted.struck
  refine wpc_bind (wpc_onCache (wpc_store (Or.inl h₁) (Or.inl (hs₁.halted.cachePtr 0).struck) ?_))
  refine wpc_bind (wpc_bind (hreset.wpc_create rfl (Nat.lt_succ_self _) hlimit id (fun c hc => Or.inl hc) ?_))
  intro s₂ hs₂
  have h₂ : Struck t (idle idleFn :: apps) s₂ := by
    obtain ⟨_, _, hs, _⟩ := hs₂
    exact hs.halted.struck
  refine wpc_pure (Or.inl h₂) (wpc_bind (hs₂.wpc_registerApps rfl hprios hlimit id (fun c hc => Or.inl hc) ?_))
  intro s₃ hs₃
  have hbooted := hs₃.booted hprios (List.cons_ne_nil _ _) hfirst
  have h₃ : Struck t (idle idleFn :: apps) s₃ := by
    obtain ⟨_, _, hs, _⟩ := hs₃
    exact hs.halted.struck
  exact wpc_store (Or.inl h₃) (Or.inr ⟨rfl, hbooted⟩) ⟨rfl, hbooted⟩

/-- The first `n` transactions are committed in every state in which a boot starts. -/
theorem Boots.wpc_boot {apps : List Registration} (hp : ∀ r ∈ apps, r.prio < numPriorityLevels)
    (hlimit : apps.length + 1 ≤ t.taskNumLimit) (h : Boots t idleFn apps (Harmless t (idle idleFn :: apps)) s) :
    wpc (recoverAndBoot t idleFn apps)
      (fun _ s' => s'.firstBootDone = true ∧ Booted t (idle idleFn :: apps) s')
      (t.board.debugAssertions = true)
      (fun c => Struck t (idle idleFn :: apps) c ∨ c.firstBootDone = true ∧ Booted t (idle idleFn :: apps) c) s := by
  induction h with
  | first =>
      refine (halted_new t _).wpc_boot ?_ (fun _ _ _ => Nat.zero_le _) ?_ hp hlimit
      · exact fun _ _ _ => Nat.zero_le _
      · exact fun i hi => absurd hi (Nat.not_lt_zero i)
  | @failed s c _ hc hbooting hok ih =>
      obtain ⟨n, h⟩ : ∃ n, Halted t (idle idleFn :: apps) n c := by
        rcases ih.crash hc with ⟨_, hmislead | hhalted⟩ | ⟨hdone, _⟩
        · exact absurd hmislead hok.log
        · exact hhalted
        · exact absurd (hbooting.symm.trans hdone) Bool.false_ne_true
      obtain ⟨_, hmarked, hfirst, hgeneration⟩ := hok
      rw [h.registrations (h.le.trans hlimit)] at hmarked hfirst hgeneration
      have hoff : Halted t (idle idleFn :: apps) n c.powerOff :=
        { h with registered := fun i r hi hr => (h.registered i r hi hr).frame rfl rfl rfl }
      exact hoff.wpc_boot hmarked hfirst hgeneration hp hlimit

/-- Power fails any number of times, always harmlessly; the boot that completes registers all tasks. -/
theorem boot_survives (t : BootTarget) (idleFn : Nat) (apps : List Registration)
    (hp : ∀ r ∈ apps, r.prio < numPriorityLevels) (hlimit : apps.length + 1 ≤ t.taskNumLimit)
    (h : Boots t idleFn apps (Harmless t (idle idleFn :: apps)) s) :
    wpc (recoverAndBoot t idleFn apps)
      (fun _ s' => s'.firstBootDone = true ∧ Booted t (idle idleFn :: apps) s')
      (t.board.debugAssertions = true)
      (fun c => c.firstBootDone = true → Booted t (idle idleFn :: apps) c) s := by
  refine wpc_mono (h.wpc_boot hp hlimit) (fun _ _ hs => hs) ?_
  rintro c (⟨hbooting, _⟩ | ⟨_, hbooted⟩) hdone
  · exact absurd (hbooting.symm.trans hdone) Bool.false_ne_true
  · exact hbooted

/-! ## A build for QEMU -/

/-- The tag of the result, then the task or the error. -/
def encResult : Except ErrorCode Nat → List UInt8
  | .ok tid => [0, 0, 0, 0] ++ wordBytes tid 4
  | .error .invalidCode => [1, 0, 0, 0, 0, 0, 0, 0]
  | .error .noSpace => [1, 1, 0, 0, 0, 0, 0, 0]
  | .error .invalidParam => [1, 2, 0, 0, 0, 0, 0, 0]
  | .error .txRetry => [1, 3, 0, 0, 0, 0, 0, 0]
  | .error .txExit => [1, 4, 0, 0, 0, 0, 0, 0]
  | .error .txFatal => [1, 5, 0, 0, 0, 0, 0, 0]

def decResult : List UInt8 → Except ErrorCode Nat
  | 0 :: _ :: _ :: _ :: word => .ok (wordOf word)
  | _ :: 0 :: _ => .error .invalidCode
  | _ :: 1 :: _ => .error .noSpace
  | _ :: 2 :: _ => .error .invalidParam
  | _ :: 3 :: _ => .error .txRetry
  | _ :: 4 :: _ => .error .txExit
  | _ => .error .txFatal

def qemu : BootTarget where
  debugAssertions := false
  taskNumLimit := 6
  timeBits := 32
  fits := by decide
  board := ⟨.w32, 64, false, false⟩
  build := rfl
  layout := .armv7m
  userStack := fun tid => 0x20000000 + 0x1000 * tid
  size := 8
  enc := encResult
  dec := decResult
  length_enc := by
    rintro (e | tid)
    · cases e <;> rfl
    · rfl
  dec_enc_ok := fun tid h => congrArg Except.ok (wordOf_wordBytes (Nat.lt_trans h (by decide)))
  dec_enc_error := by rintro ⟨⟩ <;> rfl
  results_fit := by decide
  ids_fit := by decide

/-- What `main` registers. -/
def oneApp : List Registration := [⟨"app", 1, 0x200, 0⟩]

/-- Where a power failure can leave the first boot. -/
def firstCrashes : List Boot := crashes (recoverAndBoot qemu 0x100 oneApp) (new qemu.toConfig)

/-- Power fails behind the store of `CURRENT_TASK_PTR` for the task of `main`, which is not yet registered. -/
theorem boot_survives_unlogged : ∃ c s', c ∈ firstCrashes ∧ registrations qemu c = 1 ∧ c.kernel.current = some 1 ∧
    (recoverAndBoot qemu 0x100 oneApp c.powerOff).out = some ((), s') ∧ Booted qemu (idle 0x100 :: oneApp) s' := by
  have hobs : (firstCrashes[78]?).map (fun c => decide (c.firstBootDone = false ∧ registrations qemu c = 1 ∧
      c.kernel.current = some 1 ∧ c.kernel.op = .invalid ∧ (c.tasks 0).generation = 1 ∧
      c.currentGeneration = 1)) = some true := by decide +kernel
  obtain ⟨c, hc, hobs⟩ := Option.map_eq_some_iff.mp hobs
  obtain ⟨hbooting, hcount, hcur, hop, hmade, hgen⟩ := of_decide_eq_true hobs
  have hmem := List.mem_of_getElem? hc
  have hok : Harmless qemu (idle 0x100 :: oneApp) c := by
    refine ⟨fun h => ?_, fun h => ?_, fun i r hr => ?_, fun i hi => ?_⟩
    · exact absurd (hop.symm.trans h.1) (by decide)
    · exact absurd (hop.symm.trans h) (by decide)
    · rw [hcount]
      refine Nat.pos_of_ne_zero fun hi => ?_
      subst hi
      obtain rfl : idle 0x100 = r := Option.some.inj hr.1
      exact absurd (hr.2 1 _ rfl).1 (by decide)
    · obtain rfl : i = 0 := Nat.lt_one_iff.mp (hcount ▸ hi)
      rw [hmade, hgen]
      decide
  have hw := boot_survives qemu 0x100 oneApp (by decide) (by decide) (.failed .first hmem hbooting hok)
  have hend := hw.2
  cases hout : (recoverAndBoot qemu 0x100 oneApp c.powerOff).out with
  | none =>
      rw [hout] at hend
      exact absurd hend Bool.false_ne_true
  | some r =>
      rw [hout] at hend
      exact ⟨c, r.2, hmem, hcount, hcur, hout, hend.2⟩

/-- Where power fails only in states with `ok`, a boot that completes registers all tasks. -/
def Survives (ok : Boot → Prop) : Prop :=
  ∀ (t : BootTarget) (idleFn : Nat) (apps : List Registration), (∀ r ∈ apps, r.prio < numPriorityLevels) →
    apps.length + 1 ≤ t.taskNumLimit → ∀ s, Boots t idleFn apps ok s →
    After (recoverAndBoot t idleFn apps) (fun _ s' => Booted t (idle idleFn :: apps) s') s

/-- One failure in the first boot, observed in the state that it leaves and behind the second boot. -/
theorem Survives.false_of {α : Type} {ok : Boot → Prop} {j : Nat} {f : Boot → Boot → α} {a : α}
    (h : Survives ok) (hobs : (firstCrashes[j]?).bind (fun c =>
      (recoverAndBoot qemu 0x100 oneApp c.powerOff).out.map fun r => (c.firstBootDone, f c r.2)) = some (false, a))
    (hok : ∀ c s', f c s' = a → ok c) (hne : ∀ c s', Booted qemu (idle 0x100 :: oneApp) s' → f c s' ≠ a) : False := by
  obtain ⟨c, hc, hobs⟩ := Option.bind_eq_some_iff.mp hobs
  obtain ⟨r, hout, hobs⟩ := Option.map_eq_some_iff.mp hobs
  simp only [Prod.mk.injEq] at hobs
  obtain ⟨hbooting, hobs⟩ := hobs
  have hstart : Boots qemu 0x100 oneApp ok c.powerOff :=
    .failed .first (List.mem_of_getElem? hc) hbooting (hok c r.2 hobs)
  exact hne c r.2 ((h qemu 0x100 oneApp (by decide) (by decide) _ hstart).post hout) hobs

/-- Power fails behind the start of the log for the idle task: its node is linked twice. Just before that start, the
idle task comes out with `list_tx_done`. Behind the commit of the last task, no boot builds its stack. -/
theorem not_boot_survives : ¬ Survives (fun _ => True) ∧ ¬ Survives (fun c => ¬ c.kernel.Misleading) ∧
    ¬ Survives (fun c => c.kernel.op = .invalid) := by
  refine ⟨fun h => ?_, fun h => ?_, fun h => ?_⟩
  · refine h.false_of (j := 44) (f := fun _ s' => s'.kernel.lists.len (.ready 7)) (a := 2) (by decide +kernel)
      (fun _ _ _ => trivial) fun c s' hs => ?_
    rw [hs.len 7]
    decide
  · refine h.false_of (j := 43) (f := fun c s' => (c.kernel.lists.getMicroOp, s'.kernel.listTxDone 0))
      (a := (some .invalid, true)) (by decide +kernel) ?_ ?_
    · rintro c s' hobs ⟨-, hop, -⟩
      rw [hop] at hobs
      exact absurd (congrArg Prod.fst hobs) (by simp)
    · intro c s' hs hobs
      rw [(hs.initialised 0 _ rfl).listTxDone] at hobs
      exact absurd hobs (by simp)
  · refine h.false_of (j := 88) (f := fun c s' => (c.kernel.op, s'.kernel.current, s'.frames 1))
      (a := (.invalid, some 1, none)) (by decide +kernel) ?_ ?_
    · exact fun c s' hobs => congrArg Prod.fst hobs
    · intro c s' hs hobs
      obtain ⟨i, r, -, hcur, hframe⟩ := hs.current
      simp only [Prod.mk.injEq] at hobs
      obtain rfl : i = 1 := Option.some.inj (hcur.symm.trans hobs.2.1)
      exact absurd (hframe.symm.trans hobs.2.2) (Option.some_ne_none _)

end Boot

end IntOS
