import IntOS.Timer.Timer
import IntOS.List.Sorted

/-!
# The timer list and the active flags

Runs of the timer daemon and of the tasks and interrupts around it, without failures.
-/

namespace IntOS

open Persist Persist.Prog Chain

variable {N : Type} [DecidableEq N]

namespace TimeManager

/-- What happens outside the daemon's two functions. -/
inductive Event (N : Type)
  | createTimer (t : N) (periodTicks : Nat) (autoReload isClosure : Bool)
  | timerControl (cmd : TimerCmd) (opaqueTime : Nat) (t : N)
  | tick

def Event.run (cfg : Config) : Event N → Prog (TimeManager N) Unit
  | createTimer t periodTicks autoReload isClosure => TimeManager.createTimer t periodTicks autoReload isClosure
  | timerControl cmd opaqueTime t => do
      let _ ← TimeManager.timerControl cmd opaqueTime t
      pure ()
  | tick => incTick cfg

def runEvents (cfg : Config) : List (Event N) → Prog (TimeManager N) Unit
  | [] => pure ()
  | e :: es => do
      e.run cfg
      runEvents cfg es

/-- A step of a run. While a callback runs, so do tasks and interrupts. -/
inductive Op (N : Type)
  | event (e : Event N)
  | processReceiveTimerCmd
  | processExpiredTimer (callback : List (Event N))

def Op.run (cfg : Config) : Op N → Prog (TimeManager N) Unit
  | event e => e.run cfg
  | processReceiveTimerCmd => do
      let _ ← TimeManager.processReceiveTimerCmd cfg
      pure ()
  | processExpiredTimer callback => do
      let _ ← TimeManager.processExpiredTimer cfg (runEvents cfg callback)
      pure ()

inductive Reachable (cfg : Config) : TimeManager N → Prop
  | new : Reachable cfg (TimeManager.new cfg)
  | step {s s' : TimeManager N} {op : Op N} : Reachable cfg s → (op.run cfg s).out = some ((), s') → Reachable cfg s'

/-- The active list holds `xs`, in the order of expiry, and these are the active timers. -/
structure Active (s : TimeManager N) (xs : List N) : Prop where
  linear : Lists.LinearOf s.lists () xs
  ascending : xs.Pairwise fun x y => (s.timer x).expiryTime ≤ (s.timer y).expiryTime
  active : ∀ n, n ∈ xs ↔ (s.timer n).active
  known : ∀ n ∈ xs, n ∈ s.timers
  queued : ∀ msg ∈ s.timerCmdQueue, ∀ n, msg.timer = some n → n ∈ s.timers

/-- The same, but for the timer `t`: its key and its flag have just been set. -/
structure Loose (t : N) (s : TimeManager N) (xs : List N) : Prop where
  linear : Lists.LinearOf s.lists () xs
  ascending : (xs.erase t).Pairwise fun x y => (s.timer x).expiryTime ≤ (s.timer y).expiryTime
  active : ∀ n, n ≠ t → (n ∈ xs ↔ (s.timer n).active)
  known : ∀ n ∈ xs, n ∈ s.timers
  queued : ∀ msg ∈ s.timerCmdQueue, ∀ n, msg.timer = some n → n ∈ s.timers
  here : t ∈ s.timers

variable {cfg : Config} {s s' : TimeManager N} {t : N} {xs ys : List N} {op : Op N} {e : Event N}

theorem Active.loose (h : Active s xs) (ht : t ∈ s.timers) : Loose t s xs :=
  ⟨h.linear, h.ascending.sublist List.erase_sublist, fun n _ => h.active n, h.known, h.queued, ht⟩

theorem Loose.update (h : Loose t s xs) (f : Timer → Timer) :
    Loose t { s with timer := Function.update s.timer t (f (s.timer t)) } xs where
  linear := h.linear
  ascending := by
    refine h.ascending.imp_of_mem ?_
    intro x y hx hy hxy
    have hxt : x ≠ t := (h.linear.nodup.mem_erase_iff.mp hx).1
    have hyt : y ≠ t := (h.linear.nodup.mem_erase_iff.mp hy).1
    simpa [hxt, hyt] using hxy
  active n hn := by simpa [hn] using h.active n hn
  known := h.known
  queued := h.queued
  here := h.here

omit [DecidableEq N] in
@[simp] theorem ends_onLists {α : Type} {m : Prog (Lists N Unit) α} {Q : α → TimeManager N → Prop} :
    Ends (onLists m) Q s ↔ Ends m (fun a r => Q a { s with lists := r }) s.lists := ends_zoom

omit [DecidableEq N] in
@[simp] theorem after_onLists {α : Type} {m : Prog (Lists N Unit) α} {Q : α → TimeManager N → Prop} :
    After (onLists m) Q s ↔ After m (fun a r => Q a { s with lists := r }) s.lists := after_zoom

/-- A timer that is not listed goes in by its expiry time. -/
theorem ends_insertActive {Q : Unit → TimeManager N → Prop} (h : Lists.LinearOf s.lists () xs)
    (hs : xs.Pairwise fun x y => (s.timer x).expiryTime ≤ (s.timer y).expiryTime) (hn : s.lists.list t = none)
    (hlen : xs.length ≤ s.timers.length)
    (hQ : ∀ ys zs r, xs = ys ++ zs → Lists.LinearOf r () (ys ++ t :: zs) →
      ((ys ++ t :: zs).Pairwise fun x y => (s.timer x).expiryTime ≤ (s.timer y).expiryTime) →
      Q () { s with lists := r }) : Ends (insertActive cfg t) Q s := by
  simp only [insertActive, ends_bind, ends_gets, ends_onLists, id_eq]
  refine (h.insert hs hn hlen).mono ?_
  rintro _ r ⟨ys, zs, hxs, hr, hascending⟩
  exact hQ ys zs r hxs hr hascending

omit [DecidableEq N] in
/-- A timer is in no list but this one. -/
theorem listed (r : Lists N Unit) (t : N) : r.list t = none ∨ r.list t = some () :=
  (Option.eq_none_or_eq_some _).imp id fun ⟨_, h⟩ => h

/-- The timer has left the list, and comes back at the place that its key gives it. -/
theorem Loose.insert {r : Lists N Unit} {p : Option N} {op : ListTxOpCode} (h : Loose t s xs)
    (ht : (s.timer t).active) (hr : Lists.LinearOf r () (xs.erase t)) :
    Ends (do insertActive cfg t; commitActivelist) (fun _ s' => ∃ ys, Active s' ys)
      { s with lists := r, blockNodePtr := p, op := op } := by
  have hn : r.list t = none := by
    cases hl : r.list t with
    | none => rfl
    | some l => exact absurd ((hr.owner t).mp hl) h.linear.nodup.not_mem_erase
  have hsub : (xs.erase t).Subset s.timers := fun x hx => h.known x (List.mem_of_mem_erase hx)
  rw [ends_bind]
  refine ends_insertActive hr h.ascending hn ((hr.nodup.subperm hsub).length_le) ?_
  intro ys zs r' hyz hr' hascending
  have hmem : ∀ n, n ∈ ys ++ t :: zs ↔ n = t ∨ n ∈ xs.erase t := by
    intro n
    rw [hyz]
    simp [or_left_comm]
  simp only [commitActivelist, ends_bind, ends_store, ends_onLists]
  refine ⟨ys ++ t :: zs, hr'.setMicroOpOldLen _, hascending, fun n => ?_, fun n hn => ?_, h.queued⟩
  · rw [hmem, h.linear.nodup.mem_erase_iff]
    by_cases hnt : n = t
    · simp [hnt, ht]
    · simp [hnt, h.active n hnt]
  · rcases (hmem n).mp hn with rfl | hn
    · exact h.here
    · exact hsub hn

theorem Loose.removeReinsert (h : Loose t s xs) (ht : (s.timer t).active) :
    Ends (atomicRollForwardRemoveReinsertIntoActivelist cfg t) (fun _ s' => ∃ ys, Active s' ys) s := by
  simp only [atomicRollForwardRemoveReinsertIntoActivelist, startTx, ends_bind, ends_store, ends_onLists]
  refine (h.linear.remove (listed _ t)).mono fun _ r hr => ?_
  rw [← ends_bind]
  exact h.insert ht hr

/-- The timer is the first of the list. -/
theorem Loose.popReinsert (h : Loose t s (t :: xs)) (ht : (s.timer t).active) :
    Ends (atomicRollForwardPopReinsertIntoActivelist cfg) (fun _ s' => ∃ ys, Active s' ys) s := by
  simp only [atomicRollForwardPopReinsertIntoActivelist, startTx, ends_bind, ends_gets, ends_store, ends_onLists]
  refine h.linear.popFront.mono ?_
  rintro _ r ⟨rfl, hr⟩
  exact h.insert ht (by simpa using hr)

theorem Loose.remove (h : Loose t s xs) (ht : (s.timer t).active = false) :
    Ends (atomicRollForwardRemoveFromActivelist cfg t) (fun _ s' => Active s' (xs.erase t)) s := by
  simp only [atomicRollForwardRemoveFromActivelist, startTx, commitActivelist, ends_bind, ends_store, ends_onLists]
  refine (h.linear.remove (listed _ t)).mono fun _ r hr => ?_
  refine ⟨hr.setMicroOpOldLen _, h.ascending, fun n => ?_, fun n hn => h.known n (List.mem_of_mem_erase hn),
    h.queued⟩
  rw [h.linear.nodup.mem_erase_iff]
  by_cases hnt : n = t
  · simp [hnt, ht]
  · simp [hnt, h.active n hnt]

/-! ## What happens outside -/

theorem Active.createTimer {periodTicks : Nat} {autoReload isClosure : Bool} (h : Active s xs) :
    After (TimeManager.createTimer t periodTicks autoReload isClosure) (fun _ s' => Active s' xs) s := by
  simp only [TimeManager.createTimer, Lists.resetNode, Lists.setPrev, Lists.setNext, Lists.setList,
    TimeManager.update, after_bind, after_gets, after_check, after_onLists, after_store]
  intro ht
  have htxs : t ∉ xs := fun hx => ht (h.known t hx)
  have hne : ∀ x ∈ xs, x ≠ t := fun x hx => ne_of_mem_of_not_mem hx htxs
  refine ⟨⟨?_, fun n => ?_, h.linear.nodup⟩, ?_, fun n => ?_, fun n hn => List.mem_cons_of_mem _ (h.known n hn),
    fun msg hmsg n hn => List.mem_cons_of_mem _ (h.queued msg hmsg n hn)⟩
  · refine h.linear.toLinearAt.congr rfl rfl rfl (fun x hx => ?_) fun x hx => ?_
    · exact Function.update_of_ne (hne x hx) _ _
    · exact Function.update_of_ne (hne x hx) _ _
  · by_cases hnt : n = t
    · simp [hnt, htxs]
    · simpa [hnt] using h.linear.owner n
  · refine h.ascending.imp_of_mem ?_
    intro x y hx hy hxy
    simpa [hne x hx, hne y hy] using hxy
  · by_cases hnt : n = t
    · simp [hnt, htxs]
    · simpa [hnt] using h.active n

theorem Active.event (h : Active s xs) : After (e.run cfg) (fun _ s' => Active s' xs) s := by
  cases e with
  | createTimer t periodTicks autoReload isClosure => exact h.createTimer
  | timerControl cmd opaqueTime t =>
      simp only [Event.run, timerControl, after_bind, after_gets, after_check]
      intro ht
      split
      · refine ⟨h.linear, h.ascending, h.active, h.known, fun msg hmsg n hn => ?_⟩
        rcases List.mem_append.mp hmsg with hmsg | hmsg
        · exact h.queued msg hmsg n hn
        · obtain rfl := List.mem_singleton.mp hmsg
          cases hn
          exact ht
      · exact h
  | tick =>
      simp only [Event.run, incTick, after_bind, after_gets, after_check, after_store]
      exact fun _ => ⟨h.linear, h.ascending, h.active, h.known, h.queued⟩

theorem Active.events {es : List (Event N)} (h : Active s xs) :
    After (runEvents cfg es) (fun _ s' => Active s' xs) s := by
  induction es generalizing s with
  | nil => exact h
  | cons e es ih =>
      unfold runEvents
      rw [after_bind]
      exact h.event.mono fun _ _ h' => ih h'

/-! ## The daemon -/

theorem Loose.activate {expiryTime : Nat} {Q : Unit → TimeManager N → Prop} (h : Loose t s xs)
    (hQ : ∀ s', Loose t s' xs → (s'.timer t).active → Q () s') : After (activateTimer t expiryTime) Q s := by
  simp only [activateTimer, TimeManager.update, after_bind, after_store]
  exact hQ _ ((h.update fun x => { x with active := true }).update fun x => { x with expiryTime := expiryTime })
    (by simp)

theorem Active.processTimerCmd {msg : TimerMessage N} (h : Active s xs)
    (hmsg : ∀ n, msg.timer = some n → n ∈ s.timers) :
    After (TimeManager.processTimerCmd cfg msg) (fun _ s' => ∃ ys, Active s' ys) s := by
  unfold TimeManager.processTimerCmd
  cases ht : msg.timer with
  | none => exact ⟨xs, h⟩
  | some t =>
      have hloose := h.loose (hmsg t ht)
      have hreinsert : ∀ s', Loose t s' xs → (s'.timer t).active →
          After (atomicRollForwardRemoveReinsertIntoActivelist cfg t) (fun _ s' => ∃ ys, Active s' ys) s' :=
        fun s' h' ha => (h'.removeReinsert ha).after
      have hremove : After (atomicRollForwardRemoveFromActivelist cfg t) (fun _ s' => ∃ ys, Active s' ys)
          { s with timer := Function.update s.timer t { s.timer t with active := false } } :=
        (((hloose.update fun x => { x with active := false }).remove (by simp)).mono fun _ _ h' => ⟨_, h'⟩).after
      cases hc : msg.cmd with
      | invalid => exact ⟨xs, h⟩
      | start =>
          simp only [checkedAdd, after_bind, after_gets, after_check, after_pure]
          exact fun _ => hloose.activate hreinsert
      | reset =>
          simp only [checkedAdd, after_bind, after_gets, after_check, after_pure]
          exact fun _ => hloose.activate hreinsert
      | stop =>
          simp only [TimeManager.update, after_bind, after_store]
          exact hremove
      | delete =>
          simp only [TimeManager.update, after_bind, after_store]
          exact hremove
      | setPeriod =>
          dsimp only
          split
          · exact ⟨xs, h⟩
          · simp only [TimeManager.update, checkedAdd, after_bind, after_gets, after_check, after_store, after_pure]
            exact fun _ => (hloose.update fun x => { x with periodTicks := msg.opaqueTime }).activate hreinsert

omit [DecidableEq N] in
theorem Active.invalidate (h : Active s xs) : After TimeManager.invalidate (fun _ s' => Active s' xs) s := by
  simp only [TimeManager.invalidate, after_bind, after_onLists, Lists.setMicroOpOldLen, after_store]
  exact ⟨h.linear.setMicroOpOldLen _, h.ascending, h.active, h.known, h.queued⟩

theorem Active.processReceiveTimerCmd (h : Active s xs) :
    After (TimeManager.processReceiveTimerCmd cfg) (fun _ s' => ∃ ys, Active s' ys) s := by
  unfold TimeManager.processReceiveTimerCmd
  rw [after_bind]
  refine h.invalidate.mono fun _ s' h' => ?_
  rw [after_bind, after_gets]
  cases hq : s'.timerCmdQueue with
  | nil => exact ⟨xs, h'⟩
  | cons msg rest =>
      have hqueued := h'.queued
      rw [hq] at hqueued
      simp only [after_bind, after_store]
      refine Active.processTimerCmd (?_ : Active _ xs) ?_
      · exact ⟨h'.linear, h'.ascending, h'.active, h'.known, fun m hm => hqueued m (List.mem_cons_of_mem _ hm)⟩
      · exact hqueued msg List.mem_cons_self

theorem Active.reloadIfNecessary (h : Active s (t :: xs)) :
    After (TimeManager.reloadIfNecessary cfg t) (fun _ s' => ∃ ys, Active s' ys) s := by
  have hloose := h.loose (h.known t List.mem_cons_self)
  unfold TimeManager.reloadIfNecessary
  rw [after_bind, after_gets]
  split
  · simp only [checkedAdd, after_bind, after_gets, after_check, after_pure]
    exact fun _ => hloose.activate fun _ h ha => (h.popReinsert ha).after
  · simp only [TimeManager.update, after_bind, after_store]
    exact (((hloose.update fun x => { x with active := false }).remove (by simp)).mono fun _ _ h' => ⟨_, h'⟩).after

/-- The callback leaves the list as it is, so the timer that expired is still its first. -/
theorem Active.dispatchExpired {callback : List (Event N)} (h : Active s (t :: xs)) :
    After (TimeManager.dispatchExpired cfg (runEvents cfg callback) t) (fun _ s' => ∃ ys, Active s' ys) s := by
  unfold TimeManager.dispatchExpired
  rw [after_bind, after_gets]
  split
  · exact h.reloadIfNecessary
  · rw [after_bind]
    exact h.events.mono fun _ s' h' => h'.reloadIfNecessary

theorem Active.processExpiredTimer {callback : List (Event N)} (h : Active s xs) :
    After (TimeManager.processExpiredTimer cfg (runEvents cfg callback)) (fun _ s' => ∃ ys, Active s' ys) s := by
  unfold TimeManager.processExpiredTimer
  rw [after_bind]
  refine h.invalidate.mono fun _ s' h' => ?_
  rw [after_bind, after_gets]
  cases xs with
  | nil =>
      have hh : s'.lists.head () = none := h'.linear.head
      rw [hh]
      exact ⟨[], h'⟩
  | cons t xs =>
      have hh : s'.lists.head () = some t := h'.linear.head
      rw [hh]
      simp only [after_bind, after_gets, after_store]
      have h'' : Active { s' with nextExpiryTime := (s'.timer t).expiryTime } (t :: xs) :=
        ⟨h'.linear, h'.ascending, h'.active, h'.known, h'.queued⟩
      split
      · rw [after_bind]
        exact h''.dispatchExpired
      · exact ⟨_, h''⟩

theorem Active.step (h : Active s xs) : After (op.run cfg) (fun _ s' => ∃ ys, Active s' ys) s := by
  cases op with
  | event e => exact h.event.mono fun _ _ h' => ⟨xs, h'⟩
  | processReceiveTimerCmd =>
      unfold Op.run
      rw [after_bind]
      exact h.processReceiveTimerCmd
  | processExpiredTimer callback =>
      unfold Op.run
      rw [after_bind]
      exact h.processExpiredTimer

theorem Reachable.active (h : Reachable cfg s) : ∃ xs, Active s xs := by
  induction h with
  | new =>
      refine ⟨[], ⟨⟨rfl, rfl, rfl, trivial⟩, fun n => ?_, List.nodup_nil⟩, List.Pairwise.nil, fun n => ?_, nofun, nofun⟩
      · simp [TimeManager.new, Lists.new]
      · simp [TimeManager.new]
  | step _ hout ih =>
      obtain ⟨xs, hxs⟩ := ih
      exact hxs.step.post hout

/-- After every step of a run the active list is sorted by expiry time, `len` counts its nodes, no timer is in it
twice, and the timers in it are those whose flag is set. -/
theorem active_list_correct (h : Reachable cfg s) :
    ∃ xs : List N, s.lists.head () = xs.head? ∧ Linked s.lists.prev s.lists.next none xs none ∧
      (xs.Pairwise fun x y => (s.timer x).expiryTime ≤ (s.timer y).expiryTime) ∧ s.lists.len () = xs.length ∧
      xs.Nodup ∧ (∀ n, s.lists.list n = some () ↔ n ∈ xs) ∧ ∀ n, n ∈ xs ↔ (s.timer n).active := by
  obtain ⟨xs, hxs⟩ := h.active
  exact ⟨xs, hxs.linear.head, hxs.linear.links, hxs.ascending, hxs.linear.len, hxs.linear.nodup, hxs.linear.owner,
    hxs.active⟩

/-! ## A run -/

/-- The state after a step. -/
def after (cfg : Config) (op : Op N) (s : TimeManager N) : TimeManager N :=
  match (op.run cfg s).out with
  | none => s
  | some (_, s') => s'

theorem Reachable.after (h : Reachable cfg s) (hout : (op.run cfg s).out.isSome) : Reachable cfg (s.after cfg op) := by
  obtain ⟨⟨⟨⟩, s'⟩, hs'⟩ := Option.isSome_iff_exists.mp hout
  have heq : s.after cfg op = s' := by rw [TimeManager.after, hs']
  rw [heq]
  exact h.step hs'

/-- Timers 0 and 1 with periods 5 and 3 are created and started, in this order, and both messages are processed. -/
def twoTimers : List (Op Nat) :=
  [.processReceiveTimerCmd, .processReceiveTimerCmd, .event (.timerControl .start 0 1),
    .event (.timerControl .start 0 0), .event (.createTimer 1 3 true false), .event (.createTimer 0 5 true false)]

def msp430 : Config := ⟨true, 8, 16⟩

theorem reachable_twoTimers :
    Reachable msp430 (twoTimers.foldr (TimeManager.after msp430) (TimeManager.new msp430)) := by
  refine .after ?_ rfl
  refine .after ?_ rfl
  refine .after ?_ rfl
  refine .after ?_ rfl
  refine .after ?_ rfl
  exact .after .new rfl

theorem active_list_correct_twoTimers : ∃ xs : List Nat, xs.head? = some 1 ∧ xs.length = 2 := by
  obtain ⟨xs, hhead, _, _, hlen, _⟩ := active_list_correct reachable_twoTimers
  exact ⟨xs, hhead.symm, hlen.symm⟩

end TimeManager

end IntOS
