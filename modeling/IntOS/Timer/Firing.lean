import IntOS.Lib.Alarms
import IntOS.Timer.Active

/-!
# When timers fire

The timers are a table of alarms: commands set and cancel them, and the daemon makes the earliest one go off when its
time has come. In between it sleeps until then.
-/

namespace IntOS

open Persist Persist.Prog Chain History

variable {N : Type} [DecidableEq N]

namespace TimeManager

variable {cfg : Config} {s s' : TimeManager N} {t : N} {xs : List N} {msg : TimerMessage N}

/-- When the timer is due, if it is active. -/
def due (s : TimeManager N) (t : N) : Option Nat :=
  if (s.timer t).active then some (s.timer t).expiryTime else none

omit [DecidableEq N] in
theorem due_eq_some {e : Nat} : due s t = some e ↔ (s.timer t).active ∧ (s.timer t).expiryTime = e := by
  simp [due]

/-! ## What the list operations leave alone -/

/-- The clock, the timers and the queue. -/
def clocked (s : TimeManager N) : Nat × List N × List (TimerMessage N) × (N → Timer) :=
  (s.tickCounter, s.timers, s.timerCmdQueue, s.timer)

omit [DecidableEq N] in
theorem keeps_clocked_onLists {α : Type} (m : Prog (Lists N Unit) α) : Keeps clocked (onLists m) :=
  keeps_zoom fun _ _ => rfl

theorem keeps_clocked_insertActive : Keeps clocked (insertActive cfg t) :=
  (keeps_gets _).bind fun _ => keeps_clocked_onLists _

omit [DecidableEq N] in
theorem keeps_clocked_startTx (p : Option N) (op : ListTxOpCode) : Keeps clocked (startTx p op) :=
  Keeps.bind (keeps_store fun _ => rfl) fun _ => keeps_store fun _ => rfl

omit [DecidableEq N] in
theorem keeps_clocked_commitActivelist : Keeps clocked (commitActivelist (N := N)) :=
  Keeps.bind (keeps_store fun _ => rfl) fun _ => keeps_clocked_onLists _

theorem keeps_clocked_removeReinsert : Keeps clocked (atomicRollForwardRemoveReinsertIntoActivelist cfg t) :=
  (keeps_clocked_startTx _ _).bind fun _ => (keeps_clocked_onLists _).bind fun _ =>
    keeps_clocked_insertActive.bind fun _ => keeps_clocked_commitActivelist

theorem keeps_clocked_popReinsert :
    Keeps clocked (atomicRollForwardPopReinsertIntoActivelist (N := N) cfg) := by
  refine (keeps_gets _).bind fun _ => (keeps_clocked_startTx _ _).bind fun _ =>
    (keeps_clocked_onLists _).bind fun r => ?_
  cases r with
  | none => exact keeps_clocked_commitActivelist
  | some t => exact keeps_clocked_insertActive.bind fun _ => keeps_clocked_commitActivelist

theorem keeps_clocked_removeFromActivelist : Keeps clocked (atomicRollForwardRemoveFromActivelist cfg t) :=
  (keeps_clocked_startTx _ _).bind fun _ => (keeps_clocked_onLists _).bind fun _ => keeps_clocked_commitActivelist

/-- Only the timer `t` has changed. -/
structure Changed (t : N) (x : Timer) (s s' : TimeManager N) : Prop where
  tick : s'.tickCounter = s.tickCounter
  timers : s'.timers = s.timers
  queue : s'.timerCmdQueue = s.timerCmdQueue
  timer : s'.timer = Function.update s.timer t x

theorem Changed.due {x : Timer} (h : Changed t x s s') :
    due s' = Function.update (due s) t (if x.active then some x.expiryTime else none) := by
  funext u
  simp only [TimeManager.due, h.timer]
  by_cases hu : u = t
  · rw [hu, Function.update_self, Function.update_self]
  · rw [Function.update_of_ne hu, Function.update_of_ne hu]
    rfl

theorem after_changed {x : Timer} {p : Prog (TimeManager N) Unit} (hp : Keeps clocked p) {f : N → Timer}
    (hf : f = Function.update s.timer t x) : After p (fun _ => Changed t x s) { s with timer := f } := by
  refine After.mono (hp { s with timer := f }).2 fun _ s' h => ?_
  simp only [clocked, Prod.mk.injEq] at h
  obtain ⟨htick, htimers, hqueue, htimer⟩ := h
  exact ⟨htick, htimers, hqueue, htimer.trans hf⟩

theorem after_activate (expiryTime : Nat) {p : Prog (TimeManager N) Unit} (hp : Keeps clocked p) :
    After (do activateTimer t expiryTime; p)
      (fun _ => Changed t { s.timer t with active := true, expiryTime := expiryTime } s) s := by
  simp only [activateTimer, TimeManager.update, after_bind, after_store]
  exact after_changed hp (by simp)

theorem after_deactivate {p : Prog (TimeManager N) Unit} (hp : Keeps clocked p) :
    After (do update t fun x => { x with active := false }; p)
      (fun _ => Changed t { s.timer t with active := false } s) s := by
  simp only [TimeManager.update, after_bind, after_store]
  exact after_changed hp rfl

/-! ## Commands -/

/-- What a command does to the alarms. A start or a reset counts from the time of the call. -/
def commanded (s : TimeManager N) (msg : TimerMessage N) : List (Alarms.Event N Nat) :=
  match msg.timer with
  | none => []
  | some t =>
      match msg.cmd with
      | .start => [.set t (msg.opaqueTime + (s.timer t).periodTicks)]
      | .reset => [.set t (msg.opaqueTime + (s.timer t).periodTicks)]
      | .stop => [.cancel t]
      | .delete => [.cancel t]
      | .setPeriod => if msg.opaqueTime = 0 then [] else [.set t (s.tickCounter + msg.opaqueTime)]
      | .invalid => []

theorem after_processTimerCmd :
    After (processTimerCmd cfg msg) (fun _ s' => Run Alarms.Step (due s) (commanded s msg) (due s')) s := by
  unfold processTimerCmd commanded
  cases msg.timer with
  | none => exact .refl
  | some t =>
      have hset : ∀ {e s'}, Changed t { s.timer t with active := true, expiryTime := e } s s' →
          Run Alarms.Step (due s) [.set t e] (due s') := by
        intro e s' h
        rw [h.due]
        exact .single (.set _ _ _)
      have hcancel : ∀ {s'}, Changed t { s.timer t with active := false } s s' →
          Run Alarms.Step (due s) [.cancel t] (due s') := by
        intro s' h
        rw [h.due]
        exact .single (.cancel _ _)
      cases msg.cmd with
      | invalid => exact .refl
      | start =>
          simp only [checkedAdd, after_bind, after_gets, after_check, after_pure]
          exact fun _ => (after_activate _ keeps_clocked_removeReinsert).mono fun _ _ => hset
      | reset =>
          simp only [checkedAdd, after_bind, after_gets, after_check, after_pure]
          exact fun _ => (after_activate _ keeps_clocked_removeReinsert).mono fun _ _ => hset
      | stop => exact (after_deactivate keeps_clocked_removeFromActivelist).mono fun _ _ => hcancel
      | delete => exact (after_deactivate keeps_clocked_removeFromActivelist).mono fun _ _ => hcancel
      | setPeriod =>
          dsimp only
          split
          case isTrue => exact .refl
          case isFalse =>
            simp only [TimeManager.update, checkedAdd, after_bind, after_gets, after_check, after_store, after_pure]
            intro _
            refine (after_activate _ keeps_clocked_removeReinsert).mono ?_
            intro _ s' h
            have hdue : due s' = Function.update (due s) t (some (s.tickCounter + msg.opaqueTime)) := by
              rw [h.due]
              funext u
              by_cases hu : u = t
              · rw [hu, Function.update_self, Function.update_self]
                rfl
              · rw [Function.update_of_ne hu, Function.update_of_ne hu]
                simp [due, hu]
            rw [hdue]
            exact .single (.set _ _ _)

/-! ## Expiry -/

/-- What tasks and interrupts do: time goes on and timers are created. -/
structure Onward (s s' : TimeManager N) : Prop where
  tick : s.tickCounter ≤ s'.tickCounter
  timer : ∀ t ∈ s.timers, t ∈ s'.timers ∧ s'.timer t = s.timer t
  due : due s' = due s

omit [DecidableEq N] in
theorem Onward.refl (s : TimeManager N) : Onward s s := ⟨Nat.le_refl _, fun _ ht => ⟨ht, rfl⟩, rfl⟩

omit [DecidableEq N] in
theorem Onward.trans {s'' : TimeManager N} (h : Onward s s') (h' : Onward s' s'') : Onward s s'' where
  tick := h.tick.trans h'.tick
  timer t ht := ⟨(h'.timer t (h.timer t ht).1).1, (h'.timer t (h.timer t ht).1).2.trans (h.timer t ht).2⟩
  due := h'.due.trans h.due

theorem Active.event_onward {e : Event N} (h : Active s xs) : After (e.run cfg) (fun _ => Onward s) s := by
  cases e with
  | createTimer t periodTicks autoReload isClosure =>
      simp only [Event.run, TimeManager.createTimer, Lists.resetNode, Lists.setPrev, Lists.setNext, Lists.setList,
        TimeManager.update, after_bind, after_gets, after_check, after_onLists, after_store]
      intro ht
      refine ⟨Nat.le_refl _, fun u hu => ⟨List.mem_cons_of_mem _ hu, ?_⟩, funext fun u => ?_⟩
      · exact Function.update_of_ne (ne_of_mem_of_not_mem hu ht) _ _
      · by_cases hut : u = t
        · have hidle : ¬ (s.timer t).active := fun hact => ht (h.known t ((h.active t).mpr hact))
          simp [TimeManager.due, hut, hidle]
        · simp [TimeManager.due, hut]
  | timerControl cmd opaqueTime t =>
      simp only [Event.run, timerControl, after_bind, after_gets, after_check]
      intro _
      split
      · exact ⟨Nat.le_refl _, fun _ ht => ⟨ht, rfl⟩, rfl⟩
      · exact .refl s
  | tick =>
      simp only [Event.run, incTick, after_bind, after_gets, after_check, after_store]
      exact fun _ => ⟨Nat.le_succ _, fun _ ht => ⟨ht, rfl⟩, rfl⟩

theorem Active.events_onward {es : List (Event N)} (h : Active s xs) :
    After (runEvents cfg es) (fun _ => Onward s) s := by
  induction es generalizing s with
  | nil => exact .refl s
  | cons e es ih =>
      unfold runEvents
      rw [after_bind]
      refine (h.event.and h.event_onward).mono ?_
      rintro _ s' ⟨h', honward⟩
      exact (ih h').mono fun _ _ => honward.trans

/-- What the expiry of a timer does to the alarms, where the clock is at `now'` after the callback. -/
def expired (s : TimeManager N) (now' : Nat) (t : N) : List (Alarms.Event N Nat) :=
  .fire t s.tickCounter :: if (s.timer t).autoReload then [.set t (now' + (s.timer t).periodTicks)] else []

/-- The timer goes off, and is set again if it is to be reloaded. -/
theorem run_expired {now' : Nat} {x : Timer} {s₁ : TimeManager N} (hfire : due s t = some (s.timer t).expiryTime)
    (hdue : (s.timer t).expiryTime ≤ s.tickCounter) (hmin : ∀ u e, due s u = some e → (s.timer t).expiryTime ≤ e)
    (hs₁ : due s₁ = due s) (h : Changed t x s₁ s')
    (hx : (if x.active then some x.expiryTime else none) =
      if (s.timer t).autoReload then some (now' + (s.timer t).periodTicks) else none) :
    Run Alarms.Step (due s) (expired s now' t) (due s') := by
  have hoff : Run Alarms.Step (due s) [.fire t s.tickCounter] (Function.update (due s) t none) :=
    .single (.fire hfire hdue hmin)
  have hafter : due s' = Function.update (due s) t
      (if (s.timer t).autoReload then some (now' + (s.timer t).periodTicks) else none) := by
    rw [h.due, hx, hs₁]
  unfold expired
  cases hauto : (s.timer t).autoReload with
  | false =>
      rw [hauto] at hafter
      rw [hafter]
      exact hoff
  | true =>
      rw [hauto] at hafter
      have hset := hoff.tail (.set (Function.update (due s) t none) t (now' + (s.timer t).periodTicks))
      rw [Function.update_idem] at hset
      rw [hafter]
      exact hset

omit [DecidableEq N] in
theorem Active.first_due (h : Active s (t :: xs)) : due s t = some (s.timer t).expiryTime :=
  due_eq_some.mpr ⟨(h.active t).mp List.mem_cons_self, rfl⟩

omit [DecidableEq N] in
theorem Active.first_le (h : Active s (t :: xs)) {u : N} {e : Nat} (hu : due s u = some e) :
    (s.timer t).expiryTime ≤ e := by
  obtain ⟨hact, rfl⟩ := due_eq_some.mp hu
  rcases List.mem_cons.mp ((h.active u).mpr hact) with rfl | hmem
  · exact Nat.le_refl _
  · exact List.rel_of_pairwise_cons h.ascending hmem

/-- The timer is the first of the list of `s`, and since then time has gone on. -/
theorem Active.reload {s₁ : TimeManager N} (h : Active s (t :: xs)) (hdue : (s.timer t).expiryTime ≤ s.tickCounter)
    (honward : Onward s s₁) :
    After (TimeManager.reloadIfNecessary cfg t)
      (fun _ s' => Run Alarms.Step (due s) (expired s s'.tickCounter t) (due s')) s₁ := by
  have hsame := (honward.timer t (h.known t List.mem_cons_self)).2
  have hmin := fun u e => h.first_le (u := u) (e := e)
  unfold TimeManager.reloadIfNecessary
  rw [after_bind, after_gets, hsame]
  split
  case isTrue hauto =>
    simp only [checkedAdd, after_bind, after_gets, after_check, after_pure]
    intro _
    refine (after_activate _ keeps_clocked_popReinsert).mono fun _ s' hs' => ?_
    refine run_expired h.first_due hdue hmin honward.due hs' ?_
    rw [if_pos hauto, hs'.tick, hsame]
    rfl
  case isFalse hauto =>
    refine (after_deactivate keeps_clocked_removeFromActivelist).mono fun _ s' hs' => ?_
    refine run_expired h.first_due hdue hmin honward.due hs' ?_
    rw [if_neg hauto]
    rfl

theorem Active.dispatch {callback : List (Event N)} (h : Active s (t :: xs))
    (hdue : (s.timer t).expiryTime ≤ s.tickCounter) :
    After (TimeManager.dispatchExpired cfg (runEvents cfg callback) t)
      (fun _ s' => Run Alarms.Step (due s) (expired s s'.tickCounter t) (due s')) s := by
  unfold TimeManager.dispatchExpired
  rw [after_bind, after_gets]
  split
  · exact h.reload hdue (.refl s)
  · rw [after_bind]
    exact h.events_onward.mono fun _ s₁ => h.reload hdue

/-! ## Runs -/

/-- What a step from `s` does to the alarms, where it ends at the tick `now'`. -/
def happens (s : TimeManager N) (now' : Nat) : Op N → List (Alarms.Event N Nat)
  | .event _ => []
  | .processReceiveTimerCmd =>
      match s.timerCmdQueue with
      | [] => []
      | msg :: _ => commanded s msg
  | .processExpiredTimer _ =>
      match s.lists.head () with
      | none => []
      | some t => if (s.timer t).expiryTime ≤ s.tickCounter then expired s now' t else []

/-- The steps of `Reachable`, with what they do. -/
def Step (cfg : Config) (s : TimeManager N) (es : List (Alarms.Event N Nat)) (s' : TimeManager N) : Prop :=
  ∃ op : Op N, (op.run cfg s).out = some ((), s') ∧ es = happens s s'.tickCounter op

omit [DecidableEq N] in
/-- The log and the next expiry time have no part in the list. -/
theorem Active.relogged (h : Active s xs) (v e : Nat) (op : ListTxOpCode) :
    Active { s with lists := { s.lists with microOpOldLen := v }, op := op, nextExpiryTime := e } xs :=
  ⟨h.linear.setMicroOpOldLen v, h.ascending, h.active, h.known, h.queued⟩

theorem Active.happens {op : Op N} (h : Active s xs) : After (op.run cfg)
    (fun _ s' => Run Alarms.Step (due s) (happens s s'.tickCounter op) (due s')) s := by
  cases op with
  | event e =>
      refine h.event_onward.mono fun _ s' honward => ?_
      rw [honward.due]
      exact .refl
  | processReceiveTimerCmd =>
      simp only [Op.run, TimeManager.processReceiveTimerCmd, TimeManager.happens, TimeManager.invalidate, after_bind,
        after_onLists, Lists.setMicroOpOldLen, after_store, after_gets]
      cases hq : s.timerCmdQueue with
      | nil => exact .refl
      | cons msg rest =>
          simp only [after_bind, after_store]
          exact after_processTimerCmd
  | processExpiredTimer callback =>
      simp only [Op.run, TimeManager.processExpiredTimer, TimeManager.happens, TimeManager.invalidate, after_bind,
        after_onLists, Lists.setMicroOpOldLen, after_store, after_gets]
      cases xs with
      | nil =>
          have hhead : s.lists.head () = none := h.linear.head
          rw [hhead]
          exact .refl
      | cons t xs =>
          have hhead : s.lists.head () = some t := h.linear.head
          rw [hhead]
          simp only [after_bind, after_gets, after_store]
          split
          case isTrue hdue =>
            rw [after_bind]
            exact (h.relogged _ _ _).dispatch hdue
          case isFalse => exact .refl

theorem active_new (cfg : Config) : Active (new cfg : TimeManager N) [] := by
  have hnew : Reachable cfg (new cfg : TimeManager N) := .new
  obtain ⟨xs, h⟩ := hnew.active
  have hxs : xs = [] := by
    refine List.eq_nil_iff_forall_not_mem.mpr fun n hn => ?_
    have hact := (h.active n).mp hn
    cases hact
  exact hxs ▸ h

/-- In every run without failures the timers are a table of alarms: starts, resets and periods set them, stops and
deletions cancel them, and what goes off was set, has since neither been set again nor stopped nor gone off, is not
early and is not later than any other timer that is set at that moment. -/
theorem timers_are_alarms {h : List (Alarms.Event N Nat)} (hrun : Run (Step cfg) (new cfg) h s) :
    Run Alarms.Step (fun _ => none) h (due s) ∧
      ∀ h₁ t now h₂, h = h₁ ++ .fire t now :: h₂ →
        ∃ e, Alarms.SetLast h₁ t e ∧ e ≤ now ∧ ∀ u e', Alarms.SetLast h₁ u e' → e ≤ e' := by
  have hspec : Run Alarms.Step (due (new cfg : TimeManager N)) h (due s) := by
    refine hrun.simulates due (I := fun s => ∃ xs, Active s xs) ⟨[], active_new cfg⟩ ?_
    rintro s es s' ⟨xs, hxs⟩ ⟨op, hout, rfl⟩
    exact ⟨hxs.step.post hout, hxs.happens.post hout⟩
  exact ⟨hspec, fun h₁ t now h₂ => Alarms.run_fire hspec⟩

theorem run_after {h : List (Alarms.Event N Nat)} (hrun : Run (Step cfg) (new cfg) h s) (op : Op N)
    (hsome : (op.run cfg s).out.isSome = true) :
    Run (Step cfg) (new cfg) (h ++ happens s (s.after cfg op).tickCounter op) (s.after cfg op) := by
  obtain ⟨⟨_, s'⟩, hs'⟩ := Option.isSome_iff_exists.mp hsome
  have heq : s.after cfg op = s' := by rw [TimeManager.after, hs']
  rw [heq]
  exact hrun.tail ⟨op, hs', rfl⟩

/-- Two timers are started, with the periods 3 and 1, and after a tick the second one goes off. -/
theorem timers_are_alarms_two : ∃ s : TimeManager Nat,
    Run (Step msp430) (new msp430) [.set 0 3, .set 1 1, .fire 1 1] s ∧
      ∃ e, Alarms.SetLast [.set 0 3, .set 1 1] 1 e ∧ e ≤ 1 ∧ e ≤ 3 := by
  have hstart : Run (Step (N := Nat) msp430) (new msp430) [] (new msp430) := .refl
  have hcreated := run_after (run_after hstart (.event (.createTimer 0 3 false false)) (by decide +kernel))
    (.event (.createTimer 1 1 false false)) (by decide +kernel)
  have hqueued := run_after (run_after hcreated (.event (.timerControl .start 0 0)) (by decide +kernel))
    (.event (.timerControl .start 0 1)) (by decide +kernel)
  have hstarted := run_after (run_after hqueued .processReceiveTimerCmd (by decide +kernel)) .processReceiveTimerCmd
    (by decide +kernel)
  have hrun := run_after (run_after hstarted (.event .tick) (by decide +kernel)) (.processExpiredTimer [])
    (by decide +kernel)
  obtain ⟨e, hset, hle, hleast⟩ := (timers_are_alarms hrun).2 [.set 0 3, .set 1 1] 1 1 [] (by decide +kernel)
  exact ⟨_, hrun, e, hset, hle, hleast 0 3 ⟨[], [.set 1 1], rfl, by decide⟩⟩

end TimeManager

end IntOS
