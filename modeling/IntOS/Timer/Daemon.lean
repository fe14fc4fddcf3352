import IntOS.Timer.Firing

/-!
# The timer daemon (`daemon_timer_task` in `src/time.rs`)

While no tick and no command comes, the daemon works off its queue and all timers that are due, and then sleeps until
the next one is.
-/

namespace IntOS

open Persist Persist.Prog History

variable {N : Type} [DecidableEq N]

namespace TimeManager

/-- The loop of `process_receive_timer_cmd`, for at most `n` rounds. -/
def receiveTimerCmds (cfg : Config) : Nat → Prog (TimeManager N) Unit
  | 0 => pure ()
  | n + 1 => do
      let received ← processReceiveTimerCmd cfg
      if received then
        receiveTimerCmds cfg n
      else
        pure ()

/-- The timer that `process_expired_timer` finds expired. -/
def expiredTimer (s : TimeManager N) : Option N :=
  (s.lists.head ()).filter fun t => (s.timer t).expiryTime ≤ s.tickCounter

/-- The loop of `daemon_timer_task`, for at most `rounds` rounds, up to the first time that it sleeps: it does not
while its queue holds a command. The result is which timers it has dispatched, and how long it is to sleep. The
callbacks do nothing that it could see. -/
def daemonTimerTask (cfg : Config) : Nat → Prog (TimeManager N) (List N × Option (Nat × Bool))
  | 0 => pure ([], none)
  | rounds + 1 => do
      let expired ← gets expiredTimer
      let wait ← processExpiredTimer cfg (pure ())
      let queue ← gets (·.timerCmdQueue)
      if wait.isSome ∧ queue.isEmpty then
        pure (expired.toList, wait)
      else do
        receiveTimerCmds cfg (queue.length + 1)
        let later ← daemonTimerTask cfg rounds
        pure (expired.toList ++ later.1, later.2)

/-- The clock, the periods and the messages are such that no sum overflows. -/
structure Bounded (M : Nat) (s : TimeManager N) : Prop where
  tick : s.tickCounter ≤ M
  period : ∀ t ∈ s.timers, (s.timer t).periodTicks ≤ M
  message : ∀ msg ∈ s.timerCmdQueue, msg.opaqueTime ≤ M

/-- What the daemon sleeps for: the time to the earliest timer, or for ever. -/
def SleepsUntilDue (s : TimeManager N) (wait : Option (Nat × Bool)) : Prop :=
  wait = some (0, true) ∧ (∀ t, due s t = none) ∨
    ∃ d, wait = some (d, false) ∧ 0 < d ∧ (∃ t, due s t = some (s.tickCounter + d)) ∧
      ∀ t e, due s t = some e → s.tickCounter + d ≤ e

/-- The timers that are to go off. -/
def dueTimers (s : TimeManager N) : Finset N :=
  s.timers.toFinset.filter fun t => (s.timer t).active ∧ (s.timer t).expiryTime ≤ s.tickCounter

/-- The timer after it has gone off. -/
def wentOff (s : TimeManager N) (t : N) : Timer :=
  if (s.timer t).autoReload then
    { s.timer t with active := true, expiryTime := s.tickCounter + (s.timer t).periodTicks }
  else
    { s.timer t with active := false }

/-- The timers that are to go off have done so once each, the earliest first, and nothing else has changed. -/
structure CaughtUp (s : TimeManager N) (dispatched : List N) (s' : TimeManager N) : Prop where
  nodup : dispatched.Nodup
  mem : ∀ t, t ∈ dispatched ↔ t ∈ dueTimers s
  ordered : dispatched.Pairwise fun t u => (s.timer t).expiryTime ≤ (s.timer u).expiryTime
  timer : ∀ t, s'.timer t = if t ∈ dueTimers s then wentOff s t else s.timer t

variable {cfg : Config} {s s' : TimeManager N} {t : N} {xs : List N} {msg : TimerMessage N} {M : Nat}

/-! ## Commands -/

theorem Loose.reinsert (h : Loose t s xs) (expiryTime : Nat) :
    Ends (do activateTimer t expiryTime; atomicRollForwardRemoveReinsertIntoActivelist cfg t)
      (fun _ s' => (∃ ys, Active s' ys) ∧
        Changed t { s.timer t with active := true, expiryTime := expiryTime } s s') s := by
  refine Ends.and_after ?_ (after_activate expiryTime keeps_clocked_removeReinsert)
  simp only [activateTimer, TimeManager.update, ends_bind, ends_store]
  exact ((h.update fun x => { x with active := true }).update
    fun x => { x with expiryTime := expiryTime }).removeReinsert (by simp)

/-- The timer is the first of the list. -/
theorem Loose.repop (h : Loose t s (t :: xs)) (expiryTime : Nat) :
    Ends (do activateTimer t expiryTime; atomicRollForwardPopReinsertIntoActivelist cfg)
      (fun _ s' => (∃ ys, Active s' ys) ∧
        Changed t { s.timer t with active := true, expiryTime := expiryTime } s s') s := by
  refine Ends.and_after ?_ (after_activate expiryTime keeps_clocked_popReinsert)
  simp only [activateTimer, TimeManager.update, ends_bind, ends_store]
  exact ((h.update fun x => { x with active := true }).update fun x => { x with expiryTime := expiryTime }).popReinsert
    (by simp)

theorem Loose.unlist (h : Loose t s xs) :
    Ends (do TimeManager.update t fun x => { x with active := false }; atomicRollForwardRemoveFromActivelist cfg t)
      (fun _ s' => (∃ ys, Active s' ys) ∧ Changed t { s.timer t with active := false } s s') s := by
  refine Ends.and_after ?_ (after_deactivate keeps_clocked_removeFromActivelist)
  simp only [TimeManager.update, ends_bind, ends_store]
  exact ((h.update fun x => { x with active := false }).remove (by simp)).mono fun _ _ h' => ⟨_, h'⟩

/-- The list is in order, nothing overflows, and no timer has the period 0. -/
structure Sane (M : Nat) (s : TimeManager N) : Prop where
  active : ∃ xs, Active s xs
  bounded : Bounded M s
  period : ∀ t ∈ s.timers, 0 < (s.timer t).periodTicks

theorem Sane.changed {x : Timer} (h : Sane M s) (hc : Changed t x s s') (hactive : ∃ ys, Active s' ys)
    (hpos : 0 < x.periodTicks) (hle : x.periodTicks ≤ M) : Sane M s' where
  active := hactive
  bounded :=
    { tick := hc.tick.trans_le h.bounded.tick
      period := by
        intro u hu
        rw [hc.timer]
        by_cases hut : u = t
        · rwa [hut, Function.update_self]
        · rw [Function.update_of_ne hut]
          exact h.bounded.period u (hc.timers ▸ hu)
      message := hc.queue ▸ h.bounded.message }
  period := by
    intro u hu
    rw [hc.timer]
    by_cases hut : u = t
    · rwa [hut, Function.update_self]
    · rw [Function.update_of_ne hut]
      exact h.period u (hc.timers ▸ hu)

/-- The daemon has changed timers at most. -/
structure Handled (M : Nat) (s s' : TimeManager N) : Prop where
  sane : Sane M s'
  tick : s'.tickCounter = s.tickCounter
  timers : s'.timers = s.timers
  queue : s'.timerCmdQueue = s.timerCmdQueue

theorem Sane.handled {x : Timer} (h : Sane M s) (hc : Changed t x s s') (hactive : ∃ ys, Active s' ys)
    (hpos : 0 < x.periodTicks) (hle : x.periodTicks ≤ M) : Handled M s s' :=
  ⟨h.changed hc hactive hpos hle, hc.tick, hc.timers, hc.queue⟩

theorem Sane.processTimerCmd (hM : 2 * M < 2 ^ cfg.timeBits) (h : Sane M s)
    (hknown : ∀ t, msg.timer = some t → t ∈ s.timers) (hmsg : msg.opaqueTime ≤ M) :
    Ends (TimeManager.processTimerCmd cfg msg) (fun _ => Handled M s) s := by
  obtain ⟨xs, hxs⟩ := h.active
  unfold TimeManager.processTimerCmd
  cases ht : msg.timer with
  | none => exact ⟨h, rfl, rfl, rfl⟩
  | some t =>
      have hin := hknown t ht
      have hloose := hxs.loose hin
      have hpos := h.period t hin
      have hle := h.bounded.period t hin
      have htick := h.bounded.tick
      have hstart : Ends (do
          let period ← gets fun s => (s.timer t).periodTicks
          let expiryTime ← checkedAdd cfg msg.opaqueTime period
          activateTimer t expiryTime
          atomicRollForwardRemoveReinsertIntoActivelist cfg t) (fun _ => Handled M s) s := by
        simp only [checkedAdd, ends_bind, ends_gets, ends_check, ends_pure]
        refine ⟨by omega, (hloose.reinsert _).mono ?_⟩
        rintro _ s' ⟨hactive, hc⟩
        exact h.handled hc hactive hpos hle
      have hstop : Ends (do
          TimeManager.update t fun x => { x with active := false }
          atomicRollForwardRemoveFromActivelist cfg t) (fun _ => Handled M s) s := by
        refine hloose.unlist.mono ?_
        rintro _ s' ⟨hactive, hc⟩
        exact h.handled hc hactive hpos hle
      cases msg.cmd with
      | invalid => exact ⟨h, rfl, rfl, rfl⟩
      | start => exact hstart
      | reset => exact hstart
      | stop => exact hstop
      | delete => exact hstop
      | setPeriod =>
          dsimp only
          split
          case isTrue => exact ⟨h, rfl, rfl, rfl⟩
          case isFalse hne =>
            simp only [TimeManager.update, checkedAdd, ends_bind, ends_gets, ends_check, ends_store, ends_pure]
            refine ⟨by omega, ((hloose.update fun x => { x with periodTicks := msg.opaqueTime }).reinsert _).mono ?_⟩
            rintro _ s' ⟨hactive, hc⟩
            have hc' : Changed t { s.timer t with
                active := true, expiryTime := s.tickCounter + msg.opaqueTime, periodTicks := msg.opaqueTime } s s' :=
              ⟨hc.tick, hc.timers, hc.queue, hc.timer.trans (by simp)⟩
            exact h.handled hc' hactive (Nat.pos_of_ne_zero hne) hmsg

/-- Nothing has changed that the daemon goes by. -/
structure Same (s s' : TimeManager N) : Prop where
  tick : s'.tickCounter = s.tickCounter
  timers : s'.timers = s.timers
  queue : s'.timerCmdQueue = s.timerCmdQueue
  timer : s'.timer = s.timer

omit [DecidableEq N] in
theorem Sane.same (h : Sane M s) (hs : Same s s') (hactive : ∃ ys, Active s' ys) : Sane M s' where
  active := hactive
  bounded :=
    { tick := hs.tick.trans_le h.bounded.tick
      period := by
        rw [hs.timers, hs.timer]
        exact h.bounded.period
      message := hs.queue ▸ h.bounded.message }
  period := by
    rw [hs.timers, hs.timer]
    exact h.period

omit [DecidableEq N] in
theorem Active.ends_invalidate (h : Active s xs) :
    Ends TimeManager.invalidate (fun _ s' => Active s' xs ∧ Same s s') s := by
  simp only [TimeManager.invalidate, ends_bind, ends_onLists, Lists.setMicroOpOldLen, ends_store]
  exact ⟨h.relogged _ s.nextExpiryTime _, rfl, rfl, rfl, rfl⟩

theorem Sane.processReceiveTimerCmd (hM : 2 * M < 2 ^ cfg.timeBits) (h : Sane M s) :
    Ends (TimeManager.processReceiveTimerCmd cfg) (fun more s' => Sane M s' ∧ s'.tickCounter = s.tickCounter ∧
      s'.timers = s.timers ∧ s'.timerCmdQueue = s.timerCmdQueue.tail ∧
      (s.timerCmdQueue = [] → more = false ∧ s'.timer = s.timer) ∧ (more = false → s.timerCmdQueue = [])) s := by
  obtain ⟨xs, hxs⟩ := h.active
  unfold TimeManager.processReceiveTimerCmd
  rw [ends_bind]
  refine hxs.ends_invalidate.mono ?_
  rintro _ s₁ ⟨hactive, hsame⟩
  have h₁ := h.same hsame ⟨xs, hactive⟩
  rw [ends_bind, ends_gets, ← hsame.queue]
  cases hq : s₁.timerCmdQueue with
  | nil => exact ⟨h₁, hsame.tick, hsame.timers, hq, fun _ => ⟨rfl, hsame.timer⟩, fun _ => rfl⟩
  | cons msg rest =>
      have hmem : msg ∈ s₁.timerCmdQueue := hq ▸ List.mem_cons_self
      have hrest : ∀ m ∈ rest, m ∈ s₁.timerCmdQueue := fun m hm => hq ▸ List.mem_cons_of_mem _ hm
      have h₂ : Sane M { s₁ with timerCmdQueue := rest, messageBuf := msg } := by
        refine ⟨⟨xs, hactive.linear, hactive.ascending, hactive.active, hactive.known, ?_⟩,
          ⟨h₁.bounded.tick, h₁.bounded.period, ?_⟩, h₁.period⟩
        · exact fun m hm => hactive.queued m (hrest m hm)
        · exact fun m hm => h₁.bounded.message m (hrest m hm)
      simp only [ends_bind, ends_store]
      refine (h₂.processTimerCmd hM (hactive.queued msg hmem) (h₁.bounded.message msg hmem)).mono ?_
      rintro _ s' ⟨hsane, htick, htimers, hqueue⟩
      exact ⟨hsane, htick.trans hsame.tick, htimers.trans hsame.timers, hqueue, (fun h => by cases h),
        fun h => by cases h⟩

/-- The loop works off the queue. -/
theorem Sane.receiveTimerCmds (hM : 2 * M < 2 ^ cfg.timeBits) (h : Sane M s) {n : Nat}
    (hn : s.timerCmdQueue.length ≤ n) :
    Ends (TimeManager.receiveTimerCmds cfg n) (fun _ s' => Sane M s' ∧ s'.tickCounter = s.tickCounter ∧
      s'.timers = s.timers ∧ s'.timerCmdQueue = [] ∧ (s.timerCmdQueue = [] → s'.timer = s.timer)) s := by
  induction n generalizing s with
  | zero => exact ⟨h, rfl, rfl, List.length_eq_zero_iff.mp (Nat.le_zero.mp hn), fun _ => rfl⟩
  | succ n ih =>
      unfold TimeManager.receiveTimerCmds
      rw [ends_bind]
      refine (h.processReceiveTimerCmd hM).mono ?_
      rintro more s' ⟨hsane, htick, htimers, hqueue, hempty, hlast⟩
      cases more with
      | false =>
          have hnil := hlast rfl
          refine ⟨hsane, htick, htimers, ?_, fun hnil => (hempty hnil).2⟩
          rw [hqueue, hnil]
          rfl
      | true =>
          have hlen : s'.timerCmdQueue.length ≤ n := by
            rw [hqueue, List.length_tail]
            omega
          refine (ih hsane hlen).mono ?_
          rintro _ s'' ⟨hsane', htick', htimers', hqueue', _⟩
          refine ⟨hsane', htick'.trans htick, htimers'.trans htimers, hqueue', fun hnil => ?_⟩
          cases (hempty hnil).1

/-! ## Expiry -/

theorem mem_dueTimers :
    t ∈ dueTimers s ↔ t ∈ s.timers ∧ (s.timer t).active ∧ (s.timer t).expiryTime ≤ s.tickCounter := by
  rw [dueTimers, Finset.mem_filter, List.mem_toFinset]

theorem card_dueTimers_le (s : TimeManager N) : (dueTimers s).card ≤ s.timers.length :=
  (Finset.card_filter_le _ _).trans s.timers.toFinset_card_le

theorem Same.dueTimers (h : Same s s') : dueTimers s' = dueTimers s := by
  unfold TimeManager.dueTimers
  rw [h.timers, h.timer, h.tick]

/-- The timer `t` was the first that was due, and has gone off. -/
structure Fired (t : N) (s s' : TimeManager N) : Prop where
  expired : t ∈ dueTimers s
  first : ∀ u ∈ dueTimers s, (s.timer t).expiryTime ≤ (s.timer u).expiryTime
  period : 0 < (s.timer t).periodTicks
  tick : s'.tickCounter = s.tickCounter
  timers : s'.timers = s.timers
  queue : s'.timerCmdQueue = s.timerCmdQueue
  timer : s'.timer = Function.update s.timer t (wentOff s t)

omit [DecidableEq N] in
/-- A timer that has gone off is not due. -/
theorem not_due_wentOff (hpos : 0 < (s.timer t).periodTicks) :
    ¬ ((wentOff s t).active = true ∧ (wentOff s t).expiryTime ≤ s.tickCounter) := by
  unfold wentOff
  split
  · rintro ⟨_, hle⟩
    dsimp only at hle
    omega
  · exact fun h => by cases h.1

theorem Fired.mem_iff (h : Fired t s s') {u : N} : u ∈ dueTimers s' ↔ u ≠ t ∧ u ∈ dueTimers s := by
  rw [mem_dueTimers, mem_dueTimers, h.timers, h.tick, h.timer]
  by_cases hut : u = t
  · rw [hut, Function.update_self]
    exact iff_of_false (fun hu => not_due_wentOff h.period hu.2) fun hu => hu.1 rfl
  · rw [Function.update_of_ne hut]
    exact (and_iff_right hut).symm

/-- There is one timer less that is due. -/
theorem Fired.card_lt (h : Fired t s s') : (dueTimers s').card < (dueTimers s).card := by
  refine Finset.card_lt_card ((Finset.ssubset_iff_of_subset fun u hu => ?_).mpr ⟨t, h.expired, fun ht => ?_⟩)
  · exact (h.mem_iff.mp hu).2
  · exact (h.mem_iff.mp ht).1 rfl

omit [DecidableEq N] in
theorem Same.wentOff (h : Same s s') : wentOff s' = wentOff s := by
  unfold TimeManager.wentOff
  rw [h.timer, h.tick]

theorem Fired.of_same {s₁ : TimeManager N} (h : Fired t s₁ s') (hs : Same s s₁) : Fired t s s' where
  expired := hs.dueTimers ▸ h.expired
  first := by
    have hfirst := h.first
    rwa [hs.dueTimers, hs.timer] at hfirst
  period := hs.timer ▸ h.period
  tick := h.tick.trans hs.tick
  timers := h.timers.trans hs.timers
  queue := h.queue.trans hs.queue
  timer := by
    have htimer := h.timer
    rwa [hs.timer, hs.wentOff] at htimer

/-- What is left to go off after the first timer goes off as it would have. -/
theorem Fired.caughtUp {rest : List N} {s₁ : TimeManager N} (h : Fired t s s₁) (hrest : CaughtUp s₁ rest s') :
    CaughtUp s (t :: rest) s' where
  nodup := List.nodup_cons.mpr ⟨fun ht => (h.mem_iff.mp ((hrest.mem t).mp ht)).1 rfl, hrest.nodup⟩
  mem u := by
    rw [List.mem_cons, hrest.mem, h.mem_iff]
    by_cases hut : u = t
    · rw [hut]
      exact iff_of_true (Or.inl rfl) h.expired
    · rw [or_iff_right hut, and_iff_right hut]
  ordered := by
    have hother : ∀ u ∈ rest, s₁.timer u = s.timer u ∧ u ∈ dueTimers s := by
      intro u hu
      obtain ⟨hut, hdue⟩ := h.mem_iff.mp ((hrest.mem u).mp hu)
      rw [h.timer, Function.update_of_ne hut]
      exact ⟨rfl, hdue⟩
    refine List.pairwise_cons.mpr ⟨fun u hu => h.first u (hother u hu).2, ?_⟩
    refine hrest.ordered.imp_of_mem fun hx hy hle => ?_
    rwa [(hother _ hx).1, (hother _ hy).1] at hle
  timer u := by
    rw [hrest.timer u]
    by_cases hut : u = t
    · have hgone : u ∉ dueTimers s₁ := fun hu => (h.mem_iff.mp hu).1 hut
      rw [if_neg hgone, h.timer, hut, Function.update_self, if_pos h.expired]
    · have hiff : u ∈ dueTimers s₁ ↔ u ∈ dueTimers s := h.mem_iff.trans (and_iff_right hut)
      have hu : s₁.timer u = s.timer u := by rw [h.timer, Function.update_of_ne hut]
      rw [wentOff, wentOff, hu, h.tick]
      exact if_congr hiff rfl rfl

/-- The first timer is set again or not. -/
theorem Sane.reloadIfNecessary (hM : 2 * M < 2 ^ cfg.timeBits) (h : Sane M s) (hxs : Active s (t :: xs))
    (hdue : (s.timer t).expiryTime ≤ s.tickCounter) :
    Ends (TimeManager.reloadIfNecessary cfg t) (fun _ s' => Sane M s' ∧ Fired t s s') s := by
  have hin := hxs.known t List.mem_cons_self
  have hact := (hxs.active t).mp List.mem_cons_self
  have hpos := h.period t hin
  have hle := h.bounded.period t hin
  have htick := h.bounded.tick
  have hloose := hxs.loose hin
  have hfired : ∀ s', Changed t (wentOff s t) s s' → Fired t s s' := by
    intro s' hc
    refine ⟨mem_dueTimers.mpr ⟨hin, hact, hdue⟩, fun u hu => ?_, hpos, hc.tick, hc.timers, hc.queue, hc.timer⟩
    exact hxs.first_le (due_eq_some.mpr ⟨(mem_dueTimers.mp hu).2.1, rfl⟩)
  unfold TimeManager.reloadIfNecessary
  rw [ends_bind, ends_gets]
  split
  case isTrue hauto =>
    simp only [checkedAdd, ends_bind, ends_gets, ends_check, ends_pure]
    refine ⟨by omega, ?_⟩
    rw [← ends_bind]
    refine (hloose.repop _).mono ?_
    rintro _ s' ⟨hactive, hc⟩
    refine ⟨h.changed hc hactive hpos hle, hfired s' ?_⟩
    rwa [wentOff, if_pos hauto]
  case isFalse hauto =>
    refine hloose.unlist.mono ?_
    rintro _ s' ⟨hactive, hc⟩
    refine ⟨h.changed hc hactive hpos hle, hfired s' ?_⟩
    rwa [wentOff, if_neg hauto]

/-- With a callback that does nothing, the first timer goes off. -/
theorem Sane.dispatchExpired (hM : 2 * M < 2 ^ cfg.timeBits) (h : Sane M s) (hxs : Active s (t :: xs))
    (hdue : (s.timer t).expiryTime ≤ s.tickCounter) :
    Ends (TimeManager.dispatchExpired cfg (pure ()) t) (fun _ s' => Sane M s' ∧ Fired t s s') s := by
  unfold TimeManager.dispatchExpired
  rw [ends_bind, ends_gets]
  split
  · exact h.reloadIfNecessary hM hxs hdue
  · rw [ends_bind, ends_pure]
    exact h.reloadIfNecessary hM hxs hdue

theorem Sane.processExpiredTimer (hM : 2 * M < 2 ^ cfg.timeBits) (h : Sane M s) :
    Ends (TimeManager.processExpiredTimer cfg (pure ())) (fun wait s' => Sane M s' ∧
      (expiredTimer s = none ∧ Same s s' ∧ wait.isSome ∧ SleepsUntilDue s' wait ∨
        wait = none ∧ ∃ t, expiredTimer s = some t ∧ Fired t s s')) s := by
  obtain ⟨xs, hxs⟩ := h.active
  unfold TimeManager.processExpiredTimer
  rw [ends_bind]
  refine hxs.ends_invalidate.mono ?_
  rintro _ s₁ ⟨hactive, hsame⟩
  have h₁ := h.same hsame ⟨xs, hactive⟩
  rw [ends_bind, ends_gets]
  cases xs with
  | nil =>
      have hhead : s₁.lists.head () = none := hactive.linear.head
      have hhead' : s.lists.head () = none := hxs.linear.head
      rw [hhead]
      refine ⟨h₁, Or.inl ⟨?_, hsame, rfl, Or.inl ⟨rfl, fun t => ?_⟩⟩⟩
      · rw [expiredTimer, hhead', Option.filter_none]
      · have hidle : ¬ (s₁.timer t).active := fun hact => absurd ((hactive.active t).mpr hact) List.not_mem_nil
        simp [due, hidle]
  | cons t xs =>
      have hhead : s₁.lists.head () = some t := hactive.linear.head
      have hhead' : s.lists.head () = some t := hxs.linear.head
      have hnext : Active { s₁ with nextExpiryTime := (s₁.timer t).expiryTime } (t :: xs) :=
        ⟨hactive.linear, hactive.ascending, hactive.active, hactive.known, hactive.queued⟩
      have h₂ : Sane M { s₁ with nextExpiryTime := (s₁.timer t).expiryTime } :=
        h₁.same ⟨rfl, rfl, rfl, rfl⟩ ⟨_, hnext⟩
      have hsame' : Same s { s₁ with nextExpiryTime := (s₁.timer t).expiryTime } :=
        ⟨hsame.tick, hsame.timers, hsame.queue, hsame.timer⟩
      rw [hhead]
      simp only [ends_bind, ends_gets, ends_store]
      split
      case isTrue hdue =>
        rw [ends_bind]
        refine (h₂.dispatchExpired hM hnext hdue).mono ?_
        rintro _ s' ⟨hsane, hf⟩
        refine ⟨hsane, Or.inr ⟨rfl, t, ?_, hf.of_same hsame'⟩⟩
        rw [hsame.timer, hsame.tick] at hdue
        rw [expiredTimer, hhead', Option.filter_some, if_pos (decide_eq_true hdue)]
      case isFalse hlater =>
        simp only [ends_bind, ends_gets, ends_pure]
        have hlt : s₁.tickCounter < (s₁.timer t).expiryTime := Nat.lt_of_not_le hlater
        rw [if_pos hlt]
        refine ⟨h₂, Or.inl ⟨?_, hsame', rfl, Or.inr ?_⟩⟩
        · rw [hsame.timer, hsame.tick] at hlater
          rw [expiredTimer, hhead', Option.filter_some, if_neg (by simpa using hlater)]
        · refine ⟨_, rfl, Nat.sub_pos_of_lt hlt, ⟨t, ?_⟩, fun u e hu => ?_⟩
          · rw [hnext.first_due]
            dsimp only
            rw [Nat.add_sub_cancel' hlt.le]
          · have hle := hnext.first_le hu
            dsimp only at hle ⊢
            omega

/-! ## The loop -/

/-- The daemon sleeps, so no timer is due. -/
theorem SleepsUntilDue.caughtUp {wait : Option (Nat × Bool)} (h : SleepsUntilDue s' wait) (hs : Same s s') :
    CaughtUp s [] s' := by
  have hnone : ∀ u, u ∉ dueTimers s := by
    intro u
    rw [← hs.dueTimers, mem_dueTimers]
    rintro ⟨_, hact, hle⟩
    have hdue : due s' u = some (s'.timer u).expiryTime := due_eq_some.mpr ⟨hact, rfl⟩
    rcases h with ⟨_, hidle⟩ | ⟨d, _, hpos, _, hmin⟩
    · cases hdue.symm.trans (hidle u)
    · have hlate := hmin u _ hdue
      omega
  refine ⟨List.nodup_nil, fun u => ?_, List.Pairwise.nil, fun u => ?_⟩
  · exact iff_of_false List.not_mem_nil (hnone u)
  · rw [if_neg (hnone u), hs.timer]

/-- With an empty queue, a round for each timer that is due and one more. -/
theorem Sane.daemonTimerTask (hM : 2 * M < 2 ^ cfg.timeBits) (h : Sane M s) (hq : s.timerCmdQueue = []) {rounds : Nat}
    (hr : (dueTimers s).card < rounds) :
    Ends (TimeManager.daemonTimerTask cfg rounds) (fun r s' => s'.timerCmdQueue = [] ∧
      s'.tickCounter = s.tickCounter ∧ SleepsUntilDue s' r.2 ∧ CaughtUp s r.1 s') s := by
  induction rounds generalizing s with
  | zero => exact absurd hr (Nat.not_lt_zero _)
  | succ rounds ih =>
      unfold TimeManager.daemonTimerTask
      rw [ends_bind, ends_gets, ends_bind]
      refine (h.processExpiredTimer hM).mono ?_
      rintro wait s₁ ⟨h₁, ⟨hnone, hsame, hsome, hsleeps⟩ | ⟨rfl, t, hexpired, hfired⟩⟩
      · rw [ends_bind, ends_gets, hsame.queue, hq, if_pos ⟨hsome, rfl⟩, hnone]
        exact ⟨hsame.queue.trans hq, hsame.tick, hsleeps, hsleeps.caughtUp hsame⟩
      · have hq₁ := hfired.queue.trans hq
        rw [ends_bind, ends_gets, if_neg (fun h => by cases h.1), ends_bind]
        refine (h₁.receiveTimerCmds hM (Nat.le_succ _)).mono ?_
        rintro _ s₂ ⟨h₂, htick, htimers, hq₂, htimer⟩
        have hsame₂ : Same s₁ s₂ := ⟨htick, htimers, hq₂.trans hq₁.symm, htimer hq₁⟩
        have hfired₂ : Fired t s s₂ := ⟨hfired.expired, hfired.first, hfired.period, htick.trans hfired.tick,
          htimers.trans hfired.timers, hq₂.trans hq.symm, hsame₂.timer.trans hfired.timer⟩
        have hcard := hfired₂.card_lt
        rw [ends_bind]
        refine (ih h₂ hq₂ (by omega)).mono ?_
        rintro later s' ⟨hq', htick', hsleeps, hrest⟩
        rw [ends_pure, hexpired]
        exact ⟨hq', htick'.trans hfired₂.tick, hsleeps, hfired₂.caughtUp hrest⟩

/-- From every reachable state, while no tick and no command comes, the daemon comes to sleep, within a round for each
timer and two more: its queue is empty then, no timer is due, and it sleeps exactly until the earliest one is. If no
command was waiting, it has dispatched the timers that were due, once each and the earliest first: those of them that
are reloaded are set for one period from now and the others are inactive, while every other timer is as it was. -/
theorem daemon_catches_up (hreach : Reachable cfg s) (hM : 2 * M < 2 ^ cfg.timeBits) (hbounded : Bounded M s)
    (hperiod : ∀ t ∈ s.timers, 0 < (s.timer t).periodTicks) {rounds : Nat} (hr : s.timers.length + 2 ≤ rounds) :
    Ends (TimeManager.daemonTimerTask cfg rounds) (fun r s' => s'.timerCmdQueue = [] ∧
      s'.tickCounter = s.tickCounter ∧ SleepsUntilDue s' r.2 ∧ (s.timerCmdQueue = [] → CaughtUp s r.1 s')) s := by
  have h : Sane M s := ⟨hreach.active, hbounded, hperiod⟩
  have hcard := card_dueTimers_le s
  by_cases hq : s.timerCmdQueue = []
  · refine (h.daemonTimerTask hM hq (by omega)).mono ?_
    rintro r s' ⟨hq', htick, hsleeps, hcaught⟩
    exact ⟨hq', htick, hsleeps, fun _ => hcaught⟩
  · -- The first round works off the queue.
    obtain ⟨n, rfl⟩ : ∃ n, rounds = n + 1 := ⟨rounds - 1, by omega⟩
    unfold TimeManager.daemonTimerTask
    rw [ends_bind, ends_gets, ends_bind]
    refine (h.processExpiredTimer hM).mono ?_
    intro wait s₁ hround
    have hfirst : Sane M s₁ ∧ s₁.tickCounter = s.tickCounter ∧ s₁.timers = s.timers ∧
        s₁.timerCmdQueue = s.timerCmdQueue := by
      obtain ⟨h₁, ⟨_, hsame, _⟩ | ⟨_, t, _, hfired⟩⟩ := hround
      · exact ⟨h₁, hsame.tick, hsame.timers, hsame.queue⟩
      · exact ⟨h₁, hfired.tick, hfired.timers, hfired.queue⟩
    obtain ⟨h₁, htick₁, htimers₁, hq₁⟩ := hfirst
    have hbusy : ¬ (wait.isSome = true ∧ s₁.timerCmdQueue.isEmpty = true) := by
      rw [hq₁, List.isEmpty_iff]
      exact fun h => hq h.2
    rw [ends_bind, ends_gets, if_neg hbusy, ends_bind]
    refine (h₁.receiveTimerCmds hM (Nat.le_succ _)).mono ?_
    rintro _ s₂ ⟨h₂, htick₂, htimers₂, hq₂, _⟩
    have hcard₂ := card_dueTimers_le s₂
    rw [htimers₂, htimers₁] at hcard₂
    rw [ends_bind]
    refine (h₂.daemonTimerTask hM hq₂ (by omega)).mono ?_
    rintro later s' ⟨hq', htick', hsleeps, _⟩
    exact ⟨hq', htick'.trans (htick₂.trans htick₁), hsleeps, fun h => absurd h hq⟩

/-- Two timers with the periods 5 and 3, after three ticks. -/
def threeTicks : TimeManager Nat :=
  (.event .tick :: .event .tick :: .event .tick :: twoTimers).foldr (TimeManager.after msp430) (TimeManager.new msp430)

theorem reachable_threeTicks : Reachable msp430 threeTicks := by
  unfold threeTicks
  refine .after ?_ rfl
  refine .after ?_ rfl
  refine .after ?_ rfl
  exact reachable_twoTimers

/-- The second timer goes off, and the daemon sleeps for two ticks. -/
theorem daemon_catches_up_threeTicks :
    Ends (TimeManager.daemonTimerTask msp430 4) (fun r s' => s'.timerCmdQueue = [] ∧ s'.tickCounter = 3 ∧
      SleepsUntilDue s' r.2 ∧ (∀ t, t ∈ r.1 ↔ t = 1) ∧ (s'.timer 0).expiryTime = 5 ∧ (s'.timer 1).expiryTime = 6)
      threeTicks := by
  have hbounded : Bounded 5 threeTicks := ⟨by decide +kernel, by decide +kernel, by decide +kernel⟩
  have hdue : dueTimers threeTicks = {1} := by decide +kernel
  refine (daemon_catches_up reachable_threeTicks (by decide) hbounded (by decide +kernel) (by decide +kernel)).mono ?_
  rintro r s' ⟨hq, htick, hsleeps, hcaught⟩
  obtain ⟨_, hmem, _, htimer⟩ := hcaught rfl
  refine ⟨hq, htick, hsleeps, fun t => ?_, ?_, ?_⟩
  · rw [hmem t, hdue, Finset.mem_singleton]
  · rw [htimer 0, hdue]
    rfl
  · rw [htimer 1, hdue]
    rfl

end TimeManager

end IntOS
