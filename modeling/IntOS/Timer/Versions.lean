import IntOS.Timer.Active
import IntOS.Timer.Journaled

/-!
# Timer commands with and without `opt_list`

Both versions are compared with what a command is for, from any state of the timers and any active list.
-/

namespace IntOS

open Persist Persist.Prog Chain

variable {N : Type} [DecidableEq N]

namespace TimerContents

/-- The timers and the list that the state holds. -/
structure Shows (s : TimeManager N) (c : TimerContents N) : Prop where
  timer : s.timer = c.timer
  linear : Lists.LinearOf s.lists () c.active

variable {cfg : Config} {jcfg : NodeJournal} {s : TimeManager N} {p : JournaledTimers N} {c : TimerContents N}
  {msg : TimerMessage N} {t : N} {xs ys zs : List N}

omit [DecidableEq N] in
/-- Where the search stops depends on the comparison alone. -/
theorem split_eq {q : N → Bool} (hys : ∀ y ∈ ys, q y) (hzs : ∀ z, zs.head? = some z → q z = false) (t : N) :
    (ys ++ zs).takeWhile q ++ t :: (ys ++ zs).dropWhile q = ys ++ t :: zs := by
  rw [List.takeWhile_append_of_pos hys, List.dropWhile_append_of_pos hys]
  cases zs with
  | nil => simp
  | cons z zs => simp [hzs z rfl]

omit [DecidableEq N] in
theorem Shows.not_listed (h : Shows s c) : t ∉ c.active ↔ s.lists.list t = none := by
  rw [← h.linear.owner]
  cases s.lists.list t <;> simp

theorem Shows.update (h : Shows s c) (f : Timer → Timer) :
    Shows { s with timer := Function.update s.timer t (f (s.timer t)) } (c.update t f) :=
  ⟨by rw [h.timer]; rfl, h.linear⟩

/-! ## With `opt_list` -/

theorem Shows.insertSorted {debug : Bool} (h : Shows s c) (ht : t ∉ c.active)
    (hlen : c.active.length ≤ s.timers.length) :
    Ends (Lists.optimizedInsertSorted debug s.timers.length (s.greater t) () t)
      (fun _ r => Lists.LinearOf r () (c.insert t).active) s.lists := by
  refine (h.linear.insertSorted (h.not_listed.mp ht) hlen).mono ?_
  rintro _ r ⟨ys, zs, hxs, hys, hzs, hr⟩
  have heq : c.earlier t = s.greater t := by
    funext x
    simp [earlier, TimeManager.greater, h.timer]
  have hactive : (c.insert t).active = ys ++ t :: zs := by
    rw [insert, hxs, heq]
    exact split_eq hys hzs t
  rw [hactive]
  exact hr

theorem Shows.insertActive (h : Shows s c) (ht : t ∉ c.active) (hlen : c.active.length ≤ s.timers.length) :
    Ends (TimeManager.insertActive cfg t) (fun _ s' => Shows s' (c.insert t)) s := by
  rw [TimeManager.insertActive, ends_bind, ends_gets, TimeManager.ends_onLists, Lists.insertSorted, ends_bind,
    Lists.ends_startOpLog]
  have h' : Shows { s with lists.microOpOldLen := microOpOldLenOf .insertSortedDelayList (s.lists.len ()) } c :=
    ⟨h.timer, h.linear.setMicroOpOldLen _⟩
  have hends : Ends (Lists.optimizedInsertSorted cfg.debugAssertions s.timers.length (s.greater t) () t) _ _ :=
    h'.insertSorted ht hlen
  exact hends.mono fun _ _ hr => ⟨h.timer, hr⟩

omit [DecidableEq N] in
theorem Shows.commitActivelist (h : Shows s c) : Ends TimeManager.commitActivelist (fun _ s' => Shows s' c) s := by
  simp only [TimeManager.commitActivelist, ends_bind, ends_store, TimeManager.ends_onLists]
  exact ⟨h.timer, h.linear.setMicroOpOldLen _⟩

theorem length_remove_le : (c.remove t).active.length ≤ c.active.length := List.length_erase_le

theorem Shows.removeReinsert (h : Shows s c) (hlen : c.active.length ≤ s.timers.length) :
    Ends (TimeManager.atomicRollForwardRemoveReinsertIntoActivelist cfg t)
      (fun _ s' => Shows s' ((c.remove t).insert t)) s := by
  simp only [TimeManager.atomicRollForwardRemoveReinsertIntoActivelist, TimeManager.startTx, ends_bind, ends_store,
    TimeManager.ends_onLists]
  refine (h.linear.remove (TimeManager.listed _ t)).mono fun _ r hr => ?_
  have h' : Shows { s with lists := r, blockNodePtr := some t, op := .activeListRemoveReInsert } (c.remove t) :=
    ⟨h.timer, hr⟩
  exact (h'.insertActive h.linear.nodup.not_mem_erase (Nat.le_trans length_remove_le hlen)).mono
    fun _ _ h'' => h''.commitActivelist

theorem Shows.remove (h : Shows s c) :
    Ends (TimeManager.atomicRollForwardRemoveFromActivelist cfg t) (fun _ s' => Shows s' (c.remove t)) s := by
  simp only [TimeManager.atomicRollForwardRemoveFromActivelist, TimeManager.startTx, ends_bind, ends_store,
    TimeManager.ends_onLists]
  refine (h.linear.remove (TimeManager.listed _ t)).mono fun _ r hr => ?_
  exact Shows.commitActivelist ⟨h.timer, hr⟩

theorem Shows.activate {expiryTime : Nat} (h : Shows s c) (hlen : c.active.length ≤ s.timers.length) :
    Ends (do
      TimeManager.activateTimer t expiryTime
      TimeManager.atomicRollForwardRemoveReinsertIntoActivelist cfg t)
      (fun _ s' => Shows s' (c.activate t expiryTime)) s := by
  simp only [TimeManager.activateTimer, TimeManager.update, ends_bind, ends_store, Function.update_self,
    Function.update_idem]
  exact (h.update fun x => { x with active := true, expiryTime := expiryTime }).removeReinsert hlen

/-- The version with `opt_list` does what the command is for. -/
theorem Shows.processTimerCmd (h : Shows s c) (hlen : c.active.length ≤ s.timers.length)
    (hfits : c.Fits cfg s.tickCounter msg) :
    Ends (TimeManager.processTimerCmd cfg msg) (fun _ s' => Shows s' (c.process s.tickCounter msg)) s := by
  unfold TimeManager.processTimerCmd process
  unfold Fits at hfits
  cases ht : msg.timer with
  | none => exact h
  | some t =>
      have hdeactivate : Ends (do
          TimeManager.update t fun x => { x with active := false }
          TimeManager.atomicRollForwardRemoveFromActivelist cfg t)
          (fun _ s' => Shows s' ((c.remove t).update t fun x => { x with active := false })) s := by
        rw [ends_bind, TimeManager.update, ends_store]
        exact (h.update fun x => { x with active := false }).remove
      simp only [ht] at hfits
      cases hc : msg.cmd with
      | invalid => exact h
      | start =>
          simp only [hc, ← h.timer] at hfits ⊢
          rw [ends_bind, ends_gets, TimeManager.checkedAdd, ends_bind, ends_bind, ends_check]
          exact ⟨hfits, h.activate hlen⟩
      | reset =>
          simp only [hc, ← h.timer] at hfits ⊢
          rw [ends_bind, ends_gets, TimeManager.checkedAdd, ends_bind, ends_bind, ends_check]
          exact ⟨hfits, h.activate hlen⟩
      | stop => exact hdeactivate
      | delete => exact hdeactivate
      | setPeriod =>
          simp only [hc] at hfits ⊢
          split
          · exact h
          · next hzero =>
              rw [ends_bind, TimeManager.update, ends_store, ends_bind, ends_gets, TimeManager.checkedAdd, ends_bind,
                ends_bind, ends_check]
              exact ⟨hfits.resolve_left hzero,
                (h.update fun x => { x with periodTicks := msg.opaqueTime }).activate hlen⟩

theorem fits_of_processTimerCmd (h : Shows s c) :
    After (TimeManager.processTimerCmd cfg msg) (fun _ _ => c.Fits cfg s.tickCounter msg) s := by
  unfold TimeManager.processTimerCmd Fits
  cases ht : msg.timer with
  | none => trivial
  | some t =>
      cases hc : msg.cmd with
      | invalid => trivial
      | start =>
          simp only [← h.timer, TimeManager.checkedAdd, after_bind, after_gets, after_check]
          exact fun hfits => After.of_forall fun _ _ => After.of_forall fun _ _ => hfits
      | reset =>
          simp only [← h.timer, TimeManager.checkedAdd, after_bind, after_gets, after_check]
          exact fun hfits => After.of_forall fun _ _ => After.of_forall fun _ _ => hfits
      | stop => exact After.of_forall fun _ _ => trivial
      | delete => exact After.of_forall fun _ _ => trivial
      | setPeriod =>
          dsimp only
          split
          · next hzero => exact Or.inl hzero
          · simp only [TimeManager.update, TimeManager.checkedAdd, after_bind, after_gets, after_store, after_check]
            exact fun hfits => After.of_forall fun _ _ => After.of_forall fun _ _ => Or.inr hfits

/-! ## Without `opt_list` -/

/-- The timer is taken out before the command is looked at. -/
def processJournaled (now : Nat) (msg : TimerMessage N) (c : TimerContents N) : TimerContents N :=
  match msg.timer with
  | none => c
  | some t => (c.remove t).process now msg

end TimerContents

open TimerContents

namespace JournaledTimers

variable {α : Type} {cfg : Config} {jcfg : NodeJournal} {p : JournaledTimers N} {c : TimerContents N}
  {msg : TimerMessage N} {t : N} {xs : List N} {Q : α → JournaledTimers N → Prop}

omit [DecidableEq N] in
@[simp] theorem after_onTimes {m : Prog (TimeManager N) α} :
    After (onTimes m) Q p ↔ After m (fun a r => Q a { p with times := r }) p.times := after_zoom

omit [DecidableEq N] in
@[simp] theorem after_onJournaled {m : Prog (Journaled N Unit) α} :
    After (onJournaled m) Q p ↔
      After m (fun a r => Q a ⟨{ p.times with lists := r.lists }, r.tail, r.saved⟩) p.journaled := after_zoom

omit [DecidableEq N] in
@[simp] theorem ends_onTimes {m : Prog (TimeManager N) α} :
    Ends (onTimes m) Q p ↔ Ends m (fun a r => Q a { p with times := r }) p.times := ends_zoom

omit [DecidableEq N] in
@[simp] theorem ends_onJournaled {m : Prog (Journaled N Unit) α} :
    Ends (onJournaled m) Q p ↔
      Ends m (fun a r => Q a ⟨{ p.times with lists := r.lists }, r.tail, r.saved⟩) p.journaled := ends_zoom

omit [DecidableEq N] in
/-- An operation without `opt_list`, by the one with it. -/
theorem after_agrees {plain : Prog (Journaled N Unit) Unit} {opt : Prog (Lists N Unit) Unit}
    {Q : Unit → JournaledTimers N → Prop} {d : TimerContents N} (h : Shows p.times c) (htimer : d.timer = c.timer)
    (hagrees : After plain (fun _ r => Ends opt
      (fun _ r' => Journaled.Same () r.lists r' ∧ r'.cursor () = r.lists.cursor ()) p.times.lists) p.journaled)
    (hopt : Ends opt (fun _ r => Lists.LinearOf r () d.active) p.times.lists)
    (hQ : ∀ p', Shows p'.times d → p'.times.tickCounter = p.times.tickCounter → p'.times.timers = p.times.timers →
      Q () p') : After (onJournaled plain) Q p := by
  rw [after_onJournaled]
  exact (Journaled.linearOf_of_agrees hagrees hopt).mono fun _ r hr => hQ _ ⟨h.timer.trans htimer.symm, hr⟩ rfl rfl

theorem after_insertIntoActiveList {expiryTime : Nat} (h : Shows p.times c) (ht : t ∉ c.active)
    (hlen : c.active.length ≤ p.times.timers.length) :
    After (insertIntoActiveList jcfg t expiryTime) (fun _ p' => Shows p'.times (c.activate t expiryTime)) p := by
  have hremove : c.remove t = c := by rw [TimerContents.remove, List.erase_of_not_mem ht]
  have h' := h.update (t := t) fun x => { x with active := true, expiryTime := expiryTime }
  have hends : Ends (Lists.optimizedInsertSorted true p.times.timers.length _ () t) _ _ :=
    h'.insertSorted (t := t) ht hlen
  unfold insertIntoActiveList
  rw [after_bind, after_onJournaled]
  refine Journaled.after_borrowMut fun tail saved => ?_
  rw [after_bind, after_onTimes, TimeManager.update, after_store, after_bind, after_onJournaled]
  refine Journaled.after_asMut fun tail saved => ?_
  rw [after_bind, after_onTimes, TimeManager.update, after_store, after_bind, after_gets]
  dsimp only [journaled]
  simp only [Function.update_self, Function.update_idem]
  rw [activate, hremove]
  exact after_agrees (d := (c.update t fun x => { x with active := true, expiryTime := expiryTime }).insert t) h' rfl
    Journaled.insertSortedImpl_agrees hends fun _ h _ _ => h

theorem after_removeFromActiveList {Q : Unit → JournaledTimers N → Prop} (h : Shows p.times c)
    (hQ : ∀ p', Shows p'.times (c.remove t) → p'.times.tickCounter = p.times.tickCounter →
      p'.times.timers = p.times.timers → (t ∈ c.active → (c.timer t).active) → Q () p') :
    After (removeFromActiveList cfg jcfg t) Q p := by
  unfold removeFromActiveList
  rw [after_bind, after_gets]
  split
  · next hnone =>
      have ht : t ∉ c.active := h.not_listed.mpr hnone
      refine hQ p ?_ rfl rfl fun hmem => absurd hmem ht
      rw [TimerContents.remove, List.erase_of_not_mem ht]
      exact h
  · rw [after_bind, after_gets, after_bind, after_check]
    intro hactive
    rw [after_bind, after_onJournaled]
    refine Journaled.after_borrowMut fun tail saved => ?_
    exact after_agrees (d := c.remove t) h rfl Journaled.remove_agrees
      (h.linear.remove (TimeManager.listed _ t)) fun p' h' hnow htimers =>
        hQ p' h' hnow htimers fun _ => h.timer ▸ hactive

/-- The version without `opt_list` takes the timer out first, whatever the command. -/
theorem after_processTimerCmd (h : Shows p.times c) (hlen : c.active.length ≤ p.times.timers.length) :
    After (processTimerCmd cfg jcfg msg) (fun _ p' => Shows p'.times (c.processJournaled p.times.tickCounter msg) ∧
      c.Fits cfg p.times.tickCounter msg ∧ ∀ t, msg.timer = some t → t ∈ c.active → (c.timer t).active) p := by
  unfold processTimerCmd processJournaled Fits
  cases ht : msg.timer with
  | none => exact ⟨h, trivial, nofun⟩
  | some t =>
      dsimp only
      rw [after_bind]
      refine after_removeFromActiveList h fun p' h' hnow htimers hin => ?_
      have hin' : ∀ t', some t = some t' → t' ∈ c.active → (c.timer t').active := fun _ he => by
        cases he
        exact hin
      have htimer : p'.times.timer = c.timer := h'.timer
      have hnot : t ∉ (c.remove t).active := h.linear.nodup.not_mem_erase
      have htwice : (c.remove t).remove t = c.remove t := by
        rw [TimerContents.remove, List.erase_of_not_mem hnot]
      have hlen' : (c.remove t).active.length ≤ p'.times.timers.length := by
        rw [htimers]
        exact Nat.le_trans length_remove_le hlen
      simp only [process, ht]
      cases hc : msg.cmd with
      | invalid => exact ⟨h', trivial, hin'⟩
      | start =>
          simp only [after_bind, after_gets, after_onTimes, TimeManager.checkedAdd, after_check, after_pure, htimer]
          exact fun hfits => (after_insertIntoActiveList h' hnot hlen').mono fun _ _ h'' => ⟨h'', hfits, hin'⟩
      | reset =>
          simp only [after_bind, after_gets, after_onTimes, TimeManager.checkedAdd, after_check, after_pure, htimer]
          exact fun hfits => (after_insertIntoActiveList h' hnot hlen').mono fun _ _ h'' => ⟨h'', hfits, hin'⟩
      | stop =>
          simp only [after_onTimes, TimeManager.update, after_store]
          rw [htwice]
          exact ⟨h'.update (t := t) fun x => { x with active := false }, trivial, hin'⟩
      | delete =>
          simp only [after_onTimes, TimeManager.update, after_store]
          rw [htwice]
          exact ⟨h'.update (t := t) fun x => { x with active := false }, trivial, hin'⟩
      | setPeriod =>
          dsimp only
          split
          · next hzero => exact ⟨h', Or.inl hzero, hin'⟩
          · rw [← hnow]
            simp only [after_bind, after_gets, after_onTimes, TimeManager.update, TimeManager.checkedAdd, after_store,
              after_check, after_pure, Function.update_self, Function.update_idem]
            intro hfits
            -- the flag is set here and once more on insertion
            have h₁ := h'.update (t := t) fun x => { x with active := true, periodTicks := msg.opaqueTime }
            refine After.mono (after_insertIntoActiveList h₁ hnot hlen') fun _ _ h₂ => ⟨?_, Or.inr hfits, hin'⟩
            simpa [activate, TimerContents.update, TimerContents.remove] using h₂

/-! ### It returns -/

theorem removeFromActiveList_returns {k : Nat} (h : Shows p.times c) (hroom : Journaled.Room jcfg (k + 4) p.journaled)
    (hin : t ∈ c.active → (c.timer t).active) :
    Ends (removeFromActiveList cfg jcfg t) (fun _ p' => Journaled.Room jcfg k p'.journaled) p := by
  unfold removeFromActiveList
  rw [ends_bind, ends_gets]
  split
  · exact hroom.less.less.less.less
  · next hsome =>
      have ht : t ∈ c.active := by
        by_contra hnot
        exact hsome (h.not_listed.mp hnot)
      have hlen : 0 < p.times.lists.len () := by
        rw [h.linear.len]
        exact List.length_pos_of_mem ht
      rw [ends_bind, ends_gets, ends_bind, ends_check, h.timer]
      refine ⟨hin ht, ?_⟩
      rw [ends_bind, ends_onJournaled]
      refine Journaled.ends_borrowMut hroom fun saved hroom' => ?_
      rw [ends_onJournaled]
      exact Journaled.remove_returns hlen hroom'

theorem insertIntoActiveList_returns {expiryTime : Nat} (h : Shows p.times c) (ht : t ∉ c.active)
    (hlen : c.active.length ≤ p.times.timers.length) (hroom : Journaled.Room jcfg 4 p.journaled) :
    Ends (insertIntoActiveList jcfg t expiryTime) (fun _ _ => True) p := by
  unfold insertIntoActiveList
  rw [ends_bind, ends_onJournaled]
  refine Journaled.ends_borrowMut hroom fun saved hroom => ?_
  rw [ends_bind, ends_onTimes, TimeManager.update, ends_store, ends_bind, ends_onJournaled]
  refine Journaled.ends_asMut hroom fun saved hroom => ?_
  rw [ends_bind, ends_onTimes, TimeManager.update, ends_store, ends_bind, ends_gets, ends_onJournaled]
  exact (Journaled.insertSortedImpl_returns h.linear (h.not_listed.mp ht) hlen hroom).mono fun _ _ _ => trivial

/-- With room in the journal, and an active timer where the command finds one listed. -/
theorem processTimerCmd_returns (h : Shows p.times c) (hlen : c.active.length ≤ p.times.timers.length)
    (hroom : Journaled.Room jcfg 8 p.journaled) (hfits : c.Fits cfg p.times.tickCounter msg)
    (hin : ∀ t, msg.timer = some t → t ∈ c.active → (c.timer t).active) :
    Ends (processTimerCmd cfg jcfg msg) (fun _ _ => True) p := by
  unfold processTimerCmd
  unfold Fits at hfits
  cases ht : msg.timer with
  | none => trivial
  | some t =>
      dsimp only
      rw [ends_bind]
      have hremoved : After (removeFromActiveList cfg jcfg t) (fun _ p' => Shows p'.times (c.remove t) ∧
          p'.times.tickCounter = p.times.tickCounter ∧ p'.times.timers = p.times.timers) p :=
        after_removeFromActiveList h fun p' h' hnow htimers _ => ⟨h', hnow, htimers⟩
      refine ((removeFromActiveList_returns h hroom (hin t ht)).and_after hremoved).mono ?_
      rintro _ p' ⟨hroom', h', hnow, htimers⟩
      have htimer : p'.times.timer = c.timer := h'.timer
      have hnot : t ∉ (c.remove t).active := h.linear.nodup.not_mem_erase
      have hlen' : (c.remove t).active.length ≤ p'.times.timers.length := by
        rw [htimers]
        exact Nat.le_trans length_remove_le hlen
      simp only [ht] at hfits
      cases hc : msg.cmd with
      | invalid => trivial
      | start =>
          simp only [hc] at hfits
          simp only [ends_bind, ends_gets, ends_onTimes, TimeManager.checkedAdd, ends_check, ends_pure, htimer]
          exact ⟨hfits, insertIntoActiveList_returns h' hnot hlen' hroom'⟩
      | reset =>
          simp only [hc] at hfits
          simp only [ends_bind, ends_gets, ends_onTimes, TimeManager.checkedAdd, ends_check, ends_pure, htimer]
          exact ⟨hfits, insertIntoActiveList_returns h' hnot hlen' hroom'⟩
      | stop => trivial
      | delete => trivial
      | setPeriod =>
          simp only [hc] at hfits
          dsimp only
          split
          · trivial
          · next hzero =>
              rw [← hnow] at hfits
              simp only [ends_bind, ends_gets, ends_onTimes, TimeManager.update, TimeManager.checkedAdd, ends_store,
                ends_check, ends_pure, Function.update_self, Function.update_idem]
              refine ⟨hfits.resolve_left hzero, ?_⟩
              have h₁ := h'.update (t := t) fun x => { x with active := true, periodTicks := msg.opaqueTime }
              exact insertIntoActiveList_returns h₁ hnot hlen' hroom'

/-! ### The two versions -/

theorem process_remove {now : Nat} (hnd : c.active.Nodup) (ht : msg.timer = some t) (hv : ¬ msg.Void) :
    (c.remove t).process now msg = c.process now msg := by
  have herase : (c.active.erase t).erase t = c.active.erase t := List.erase_of_not_mem hnd.not_mem_erase
  unfold process
  unfold TimerMessage.Void at hv
  simp only [ht]
  cases hc : msg.cmd with
  | invalid => exact absurd (Or.inl hc) hv
  | start => simp [activate, TimerContents.remove, herase]
  | reset => simp [activate, TimerContents.remove, herase]
  | stop => simp [TimerContents.remove, herase]
  | delete => simp [TimerContents.remove, herase]
  | setPeriod =>
      have hzero : msg.opaqueTime ≠ 0 := fun hzero => hv (Or.inr ⟨hc, hzero⟩)
      simp [hzero, activate, TimerContents.update, TimerContents.remove, herase]

/-- Both versions return, with the same timers and the same list, or neither does. -/
def Agree (cfg : Config) (jcfg : NodeJournal) (msg : TimerMessage N) (p : JournaledTimers N) : Prop :=
  Ends (processTimerCmd cfg jcfg msg) (fun _ p' => Ends (TimeManager.processTimerCmd cfg msg) (fun _ s' =>
    s'.timer = p'.times.timer ∧ ∃ xs, Lists.LinearOf s'.lists () xs ∧ Lists.LinearOf p'.times.lists () xs) p.times) p ∨
  ¬ Ends (processTimerCmd cfg jcfg msg) (fun _ _ => True) p ∧
    ¬ Ends (TimeManager.processTimerCmd cfg msg) (fun _ _ => True) p.times

/-- The command asks nothing of an active timer in the list. -/
def TakesOut (msg : TimerMessage N) (p : JournaledTimers N) : Prop :=
  ∃ t, msg.timer = some t ∧ p.times.lists.list t = some () ∧ (p.times.timer t).active ∧ msg.Void

/-- The command is for a timer that is in the list without its flag, and the time that it asks for fits. -/
def FindsInactive (cfg : Config) (msg : TimerMessage N) (p : JournaledTimers N) : Prop :=
  ∃ t, msg.timer = some t ∧ p.times.lists.list t = some () ∧ (p.times.timer t).active = false ∧
    Fits cfg p.times.tickCounter msg ⟨p.times.timer, []⟩

theorem agree_of_returns (h : Shows p.times c) (hlen : c.active.length ≤ p.times.timers.length)
    (hroom : Journaled.Room jcfg 8 p.journaled) (hfits : c.Fits cfg p.times.tickCounter msg)
    (hin : ∀ t, msg.timer = some t → t ∈ c.active → (c.timer t).active) (hnot : ¬ TakesOut msg p) :
    Agree cfg jcfg msg p := by
  have heq : c.processJournaled p.times.tickCounter msg = c.process p.times.tickCounter msg := by
    unfold processJournaled
    cases ht : msg.timer with
    | none => simp [process, ht]
    | some t =>
        by_cases hmem : t ∈ c.active
        · refine process_remove h.linear.nodup ht fun hv => hnot ⟨t, ht, (h.linear.owner t).mpr hmem, ?_, hv⟩
          rw [h.timer]
          exact hin t ht hmem
        · dsimp only
          rw [TimerContents.remove, List.erase_of_not_mem hmem]
  have hreturns := processTimerCmd_returns h hlen hroom hfits hin
  refine Or.inl ((hreturns.and_after (after_processTimerCmd h hlen)).mono ?_)
  rintro _ p' ⟨_, h', _⟩
  rw [heq] at h'
  exact (h.processTimerCmd hlen hfits).mono fun _ s' hs => ⟨hs.timer.trans h'.timer.symm, _, hs.linear, h'.linear⟩

theorem not_agree_of_takesOut (h : Shows p.times c) (hlen : c.active.length ≤ p.times.timers.length)
    (hroom : Journaled.Room jcfg 8 p.journaled) (htakes : TakesOut msg p) : ¬ Agree cfg jcfg msg p := by
  obtain ⟨t, ht, hlist, hactive, hv⟩ := htakes
  intro hagree
  have hmem : t ∈ c.active := (h.linear.owner t).mp hlist
  have hprocess : ∀ d : TimerContents N, d.process p.times.tickCounter msg = d := by
    intro d
    rcases hv with hc | ⟨hc, hzero⟩
    · simp [process, ht, hc]
    · simp [process, ht, hc, hzero]
  have hfits : c.Fits cfg p.times.tickCounter msg := by
    rcases hv with hc | ⟨hc, hzero⟩
    · simp [Fits, ht, hc]
    · simp [Fits, ht, hc, hzero]
  have hin : ∀ t', msg.timer = some t' → t' ∈ c.active → (c.timer t').active := by
    intro t' ht' _
    rw [← h.timer]
    obtain rfl := Option.some.inj (ht.symm.trans ht')
    exact hactive
  have hreturns := processTimerCmd_returns h hlen hroom hfits hin
  rcases hagree with hboth | ⟨hneither, _⟩
  case inr => exact hneither hreturns
  obtain ⟨_, p', _, hopt, h', _⟩ := (hboth.and_after (after_processTimerCmd h hlen)).returns
  obtain ⟨_, s', _, ⟨_, xs, hxs, hxs'⟩, hs⟩ := (hopt.and (h.processTimerCmd hlen hfits)).returns
  rw [hprocess] at hs
  have hshows : Shows p'.times (c.remove t) := by
    have heq : c.processJournaled p.times.tickCounter msg = c.remove t := by simp [processJournaled, ht, hprocess]
    rwa [heq] at h'
  have hin' : t ∈ xs := (hxs.owner t).mp ((hs.linear.owner t).mpr hmem)
  have hout : t ∈ (c.remove t).active := (hshows.linear.owner t).mp ((hxs'.owner t).mpr hin')
  exact h.linear.nodup.not_mem_erase hout

/-- Its assertion stops the version without `opt_list` only. -/
theorem not_agree_of_findsInactive (h : Shows p.times c) (hlen : c.active.length ≤ p.times.timers.length)
    (hfinds : FindsInactive cfg msg p) : ¬ Agree cfg jcfg msg p := by
  obtain ⟨t, ht, hlist, hactive, hfits⟩ := hfinds
  have hstops : ¬ Ends (processTimerCmd cfg jcfg msg) (fun _ _ => True) p := by
    intro hends
    obtain ⟨_, _, _, _, _, _, hin⟩ := (hends.and_after (after_processTimerCmd h hlen)).returns
    have hset := hin t ht ((h.linear.owner t).mp hlist)
    rw [← h.timer, hactive] at hset
    cases hset
  have hreturns : Ends (TimeManager.processTimerCmd cfg msg) (fun _ _ => True) p.times := by
    refine (h.processTimerCmd hlen ?_).mono fun _ _ _ => trivial
    unfold Fits at hfits ⊢
    rw [h.timer] at hfits
    exact hfits
  rintro (hboth | ⟨_, hneither⟩)
  · exact hstops (hboth.mono fun _ _ _ => trivial)
  · exact hneither hreturns

/-- From any state whose active list is well formed the two versions agree, unless the command is invalid or a period
of zero and is for an active timer in the list, or is for a timer in the list that is not active. -/
theorem versions_agree_iff (hl : Lists.LinearOf p.times.lists () xs)
    (hknown : ∀ n, p.times.lists.list n = some () → n ∈ p.times.timers) (hroom : Journaled.Room jcfg 8 p.journaled) :
    Agree cfg jcfg msg p ↔ ¬ TakesOut msg p ∧ ¬ FindsInactive cfg msg p := by
  have h : Shows p.times ⟨p.times.timer, xs⟩ := ⟨rfl, hl⟩
  have hlen : xs.length ≤ p.times.timers.length :=
    (hl.nodup.subperm fun n hn => hknown n ((hl.owner n).mpr hn)).length_le
  constructor
  · intro hagree
    exact ⟨fun htakes => not_agree_of_takesOut h hlen hroom htakes hagree,
      fun hfinds => not_agree_of_findsInactive h hlen hfinds hagree⟩
  · rintro ⟨hnot, hfinds⟩
    by_cases hfits : Fits cfg p.times.tickCounter msg ⟨p.times.timer, xs⟩
    · refine agree_of_returns h hlen hroom hfits (fun t ht hmem => ?_) hnot
      by_contra hactive
      exact hfinds ⟨t, ht, (hl.owner t).mpr hmem, by simpa using hactive, hfits⟩
    · -- the sum of the ticks overflows in both versions
      refine Or.inr ⟨fun hends => ?_, fun hends => ?_⟩
      · obtain ⟨_, _, _, _, _, hsum, _⟩ := (hends.and_after (after_processTimerCmd h hlen)).returns
        exact hfits hsum
      · obtain ⟨_, _, _, _, hsum⟩ := (hends.and_after (fits_of_processTimerCmd h)).returns
        exact hfits hsum

/-! ## A period of zero -/

def smallJournal : NodeJournal := ⟨256, 32, 32⟩

/-- After the command, and the end of its transaction. -/
def commit (m : Prog (JournaledTimers N) Unit) (p : JournaledTimers N) : JournaledTimers N :=
  match (m p).out with
  | none => p
  | some (_, p') => ⟨p'.times, 0, []⟩

/-- Timer 0 with period 5 is created and started. -/
def startedTimer : JournaledTimers Nat :=
  commit (processTimerCmd TimeManager.msp430 smallJournal ⟨.start, some 0, 0⟩)
    (commit (onTimes (TimeManager.createTimer 0 5 true false)) ⟨TimeManager.new TimeManager.msp430, 0, []⟩)

theorem startedTimer_linear : Lists.LinearOf startedTimer.times.lists () [0] where
  len := rfl
  cursor := rfl
  head := rfl
  links := ⟨rfl, rfl, trivial⟩
  owner n := by
    have hlist : startedTimer.times.lists.list = Function.update (Function.update (fun _ => none) 0 none) 0 (some ()) :=
      rfl
    by_cases hn : n = 0 <;> simp [hlist, hn]
  nodup := List.nodup_singleton 0

theorem startedTimer_room : Journaled.Room smallJournal 8 startedTimer.journaled := Nat.le_refl 256

/-- The period is set to zero: the version without `opt_list` takes the timer out of the list. -/
theorem versions_differ : ¬ Agree TimeManager.msp430 smallJournal ⟨.setPeriod, some 0, 0⟩ startedTimer :=
  not_agree_of_takesOut (c := ⟨_, [0]⟩) ⟨rfl, startedTimer_linear⟩ (by decide) startedTimer_room
    ⟨0, rfl, rfl, rfl, Or.inr ⟨rfl, rfl⟩⟩

theorem versions_agree_iff_startedTimer :
    Agree TimeManager.msp430 smallJournal ⟨.setPeriod, some 0, 7⟩ startedTimer := by
  refine (versions_agree_iff startedTimer_linear (fun n hn => (startedTimer_linear.owner n).mp hn)
    startedTimer_room).mpr ⟨?_, ?_⟩
  · rintro ⟨_, _, _, _, hv⟩
    exact hv.elim nofun fun h => absurd h.2 (by decide)
  · rintro ⟨t, ht, _, hactive, _⟩
    cases ht
    cases hactive

end JournaledTimers

end IntOS
