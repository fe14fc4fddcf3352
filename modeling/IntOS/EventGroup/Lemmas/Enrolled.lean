import IntOS.EventGroup.Lemmas.Alive
import IntOS.Sched.Lemmas.Confined

/-!
# Tasks that begin their calls again

In every run, wherever power fails, the tasks that are in a syscall are tasks that have been created, and a task that
comes back to what it has done of its call is in recovery mode, as the assertions of debug builds want it.
-/

namespace IntOS

open Persist Persist.Prog IntOS.Lists

namespace EventGroup

open Kernel (Confined Joined NodeBelow)

variable {width : PtrWidth} {α : Type} {cfg : Config} {port : Port} {waitList n t u : Nat} {mode : Nat → Bool}
  {m c : Machine width} {bits b bitsSet : EventBits width} {a : Activity width} {call : Call width} {r : Outcome width}
  {Q : α → Prop}

/-! ## A task goes on -/

/-- The calls name none but tasks that have been created. -/
def Confines (n : Nat) (mode : Nat → Bool) (p : Prog (Machine width) α) : Prop :=
  Stays (fun m => Confined n mode m.kernel) p fun _ => True

theorem confines_onKernel {p : Prog Kernel α} (hp : Stays (Confined n mode) p Q) :
    Stays (fun m : Machine width => Confined n mode m.kernel) (onKernel p) Q :=
  stays_zoom hp (fun _ => rfl) (fun _ => id) fun _ _ _ => id

theorem confines_keeps {p : Prog (Machine width) α} (hp : Keeps Machine.kernel p) : Confines n mode p := hp.stays _

theorem confines_store {g : Machine width → Machine width} (h : ∀ m, (g m).kernel = m.kernel) :
    Confines n mode (store g) := confines_keeps (keeps_store h)

theorem confines_gets (g : Machine width → α) : Confines n mode (gets g) := stays_gets fun _ _ => trivial

theorem confines_unblockWaiters {fuel : Nat} {item : Option NodeRef} {bitsToClear : EventBits width}
    {yldToHigherPrio : Bool} (hitem : Own (NodeBelow n) item) :
    Confines n mode (unblockWaiters cfg waitList bitsSet fuel item bitsToClear yldToHigherPrio) := by
  induction fuel generalizing item bitsToClear yldToHigherPrio with
  | zero =>
      cases item with
      | none => exact stays_pure trivial
      | some node => exact stays_fail
  | succ fuel ih =>
      cases item with
      | none => exact stays_pure trivial
      | some node =>
          have hnode := hitem node rfl
          refine (stays_gets (Q := Own (NodeBelow n)) fun _ hc => hc.lists.closed.next node hnode).bind
            fun next hnext => ?_
          refine (confines_gets _).bind fun _ _ => ?_
          split
          · refine (confines_keeps keeps_kernel_getCurrent).bind fun _ _ => (confines_gets _).bind fun _ _ => ?_
            refine Stays.bind (confines_store fun _ => rfl) fun _ _ => ?_
            exact (confines_onKernel (Kernel.confined_removeUnsorted hnode)).bind fun _ _ => ih hnext
          · exact ih hnext

theorem confines_setEventGroupBits : Confines n mode (setEventGroupBits cfg waitList bits) := by
  refine (confines_keeps (keeps_kernel_run.bind fun _ => keeps_pure _)).bind fun _ _ =>
    (confines_gets _).bind fun _ _ => ?_
  refine (stays_gets (Q := Own (NodeBelow n)) fun _ hc => hc.lists.closed.head _ trivial).bind fun head hhead => ?_
  refine (confines_gets _).bind fun _ _ => (confines_unblockWaiters hhead).bind fun _ _ => ?_
  exact (confines_keeps keeps_kernel_clear).bind fun _ _ => stays_pure trivial

theorem confines_blockFor (v : EventBits width) (waitTicks : Nat) :
    Confines n mode (blockFor cfg waitList v waitTicks) := by
  refine (confines_keeps keeps_kernel_getCurrent).bind fun _ _ => ?_
  refine Stays.bind (confines_store fun _ => rfl) fun _ _ => (confines_gets _).bind fun _ _ => ?_
  exact (confines_onKernel (Kernel.confined_addTime _ _)).bind fun _ _ =>
    confines_onKernel (Kernel.confined_blockUnsorted _)

theorem confines_syncTest (orig : EventBits width) (waitTicks : Nat) :
    Confines n mode (syncTest cfg waitList bits b waitTicks orig) := by
  unfold syncTest
  split
  · exact (confines_keeps keeps_kernel_clear).bind fun _ _ => stays_pure trivial
  · split
    · exact (confines_blockFor _ _).bind fun _ _ => stays_pure trivial
    · exact (confines_gets _).bind fun _ _ => stays_pure trivial

theorem confines_wait (clear all : Bool) (waitTicks : Nat) :
    Confines n mode (waitForEventGroupBits cfg waitList bits clear all waitTicks) := by
  refine (confines_keeps keeps_kernel_getCurrent).bind fun _ _ => (confines_gets _).bind fun _ _ => ?_
  split
  · exact stays_pure trivial
  · refine (confines_gets _).bind fun _ _ => ?_
    split
    · refine (confines_gets _).bind fun _ _ => ?_
      split
      · exact (confines_keeps keeps_kernel_clear).bind fun _ _ => stays_pure trivial
      · exact stays_pure trivial
    · split
      · exact (confines_blockFor _ _).bind fun _ _ => stays_pure trivial
      · exact (confines_gets _).bind fun _ _ => stays_pure trivial

theorem confines_begin : Confines n mode (begin cfg port waitList call) := by
  cases call with
  | wait bits clear all waitTicks => exact (confines_wait _ _ _).bind fun _ _ => stays_pure trivial
  | set bits => exact confines_setEventGroupBits.bind fun _ _ => stays_pure trivial
  | sync bits bitsToWaitFor waitTicks =>
      have hset : Confines n mode (syncSet cfg waitList bits) :=
        (confines_keeps keeps_kernel_run).bind fun _ _ => confines_setEventGroupBits.bind fun _ _ => stays_pure trivial
      refine hset.bind fun r _ => ?_
      dsimp only
      split
      · exact stays_pure trivial
      · exact (confines_syncTest _ _).bind fun _ _ => stays_pure trivial

theorem confines_syscallEnd : Confines n mode (syscallEnd call r) := by
  refine (confines_keeps keeps_kernel_getCurrent).bind fun _ _ => ?_
  refine Stays.bind (confines_store fun _ => rfl) fun _ _ => Stays.bind (confines_store fun _ => rfl) fun _ _ => ?_
  refine Stays.bind (Q := fun _ => True) ?_ fun _ _ => ?_
  · exact confines_onKernel (Kernel.confined_store fun _ => rfl)
  · exact (confines_keeps keeps_kernel_epilogue).bind fun _ _ => stays_pure trivial

/-- Whatever the task does next. -/
theorem confines_prog (a : Activity width) : Confines n mode (a.prog cfg port waitList) := by
  cases a with
  | idle => exact stays_pure trivial
  | calling call =>
      refine (confines_keeps keeps_kernel_getCurrent).bind fun t _ => (confines_gets _).bind fun entry _ => ?_
      cases entry with
      | some r =>
          exact (confines_gets _).bind fun _ _ => (stays_check _).bind fun _ _ =>
            (confines_keeps keeps_kernel_epilogue).bind fun _ _ => stays_pure trivial
      | none => exact Stays.bind (confines_store fun _ => rfl) fun _ _ => confines_begin
  | inSet bits bitsToWaitFor waitTicks orig => exact (confines_syncTest _ _).bind fun _ _ => stays_pure trivial
  | ending call r => exact confines_syscallEnd
  | elsewhere => exact confines_syscallEnd
  | yielding call =>
      cases call with
      | set bits => exact stays_pure trivial
      | wait bits clear all waitTicks => exact confines_keeps ((keeps_kernel_waitAwoken _).bind fun _ => keeps_pure _)
      | sync bits bitsToWaitFor waitTicks => exact confines_keeps (keeps_kernel_syncAwoken.bind fun _ => keeps_pure _)

/-- After a power failure every task recovers. -/
theorem confined_reboot (h : Confined n mode c.kernel) :
    After (reboot cfg) (fun _ m => Confined n (fun _ => true) m.kernel) c := by
  unfold reboot
  rw [after_bind, after_onKernel]
  refine After.mono (Kernel.confined_recoverListTransaction c.kernel h).2 fun _ k hk => ?_
  rw [after_store]
  exact ⟨hk.1.taskCnt, rfl, hk.1.lists, hk.1.blockNode, hk.1.task, hk.1.current⟩

/-! ## The results of a `sync` that is begun for the first time -/

/-- The running call has read all results that there are. -/
def Fresh (t : Nat) (m : Machine width) : Prop := (m.txResults t).length ≤ m.txPtr t

theorem fresh_run {f : EventBits width → EventBits width × EventBits width} (hcur : m.kernel.current = some t)
    (h : Fresh t m) : After (run cfg f) (fun _ c => c.kernel.current = some t ∧ Fresh t c) m := by
  have hnew : Fresh t (advanced t (applied f t m)) := by simpa [Fresh, advanced, applied] using h
  exact (wpc_run_new (C := fun _ => True) hcur (List.getElem?_eq_none h) trivial trivial trivial ⟨hcur, hnew⟩).2

/-- What the tasks have read of their results, and which of them runs. -/
def place (m : Machine width) : Option Nat × (Nat → List (EventBits width)) × (Nat → Nat) :=
  (m.kernel.current, m.txResults, m.txPtr)

theorem keeps_place_onKernel {p : Prog Kernel α} (hp : Keeps Kernel.current p) :
    Keeps (place : Machine width → _) (onKernel p) := by
  intro m
  have hkept : ∀ k : Kernel, k.current = m.kernel.current → place { m with kernel := k } = place m := fun _ hk =>
    congrArg (·, m.txResults, m.txPtr) hk
  exact wpc_onKernel (wpc_mono (hp m.kernel) (fun _ k hk => hkept k hk) hkept)

theorem keeps_place_unblockWaiters {fuel : Nat} {item : Option NodeRef} {bitsToClear : EventBits width}
    {yldToHigherPrio : Bool} :
    Keeps place (unblockWaiters cfg waitList bitsSet fuel item bitsToClear yldToHigherPrio) := by
  induction fuel generalizing item bitsToClear yldToHigherPrio with
  | zero =>
      cases item with
      | none => exact keeps_pure _
      | some node => exact keeps_fail
  | succ fuel ih =>
      cases item with
      | none => exact keeps_pure _
      | some node =>
          refine (keeps_gets _).bind fun _ => (keeps_gets _).bind fun _ => ?_
          split
          · have hcurrent : Keeps Kernel.current Kernel.getCurrent := by
              refine (keeps_gets _).bind fun t => ?_
              cases t with
              | none => exact keeps_fail
              | some t => exact keeps_pure _
            refine (keeps_place_onKernel hcurrent).bind fun _ => (keeps_gets _).bind fun _ => ?_
            refine Keeps.bind (keeps_store fun _ => rfl) fun _ => ?_
            exact (keeps_place_onKernel Kernel.keeps_current_removeUnsorted).bind fun _ => ih
          · exact ih

theorem Fresh.of_place (h : Fresh t m) (hp : place c = place m) : Fresh t c := by
  simp only [place, Prod.mk.injEq] at hp
  rw [Fresh, hp.2.1, hp.2.2]
  exact h

theorem fresh_set (hcur : m.kernel.current = some t) (h : Fresh t m) :
    After (setEventGroupBits cfg waitList bits) (fun _ c => c.kernel.current = some t ∧ Fresh t c) m := by
  unfold setEventGroupBits
  have hrun : ∀ {f : EventBits width → EventBits width × EventBits width} {m : Machine width},
      m.kernel.current = some t ∧ Fresh t m → After (do
        let _ ← run cfg f
        pure ()) (fun _ c => c.kernel.current = some t ∧ Fresh t c) m := by
    rintro f m ⟨hcur, h⟩
    rw [after_bind]
    exact (fresh_run hcur h).mono fun _ _ hc => hc
  rw [after_bind]
  refine (hrun ⟨hcur, h⟩).mono fun _ m₁ h₁ => ?_
  rw [after_bind, after_gets, after_bind, after_gets, after_bind, after_gets, after_bind]
  refine After.mono (keeps_place_unblockWaiters m₁).2 fun r m₂ h₂ => ?_
  rw [after_bind]
  refine (hrun ⟨?_, h₁.2.of_place h₂⟩).mono fun _ _ hc => hc
  exact (congrArg Prod.fst h₂).trans h₁.1

theorem returnOrYield_ne_inSet (o : Option (Outcome width)) (bits b : EventBits width) (n : Nat)
    (orig : EventBits width) : returnOrYield call o ≠ .inSet bits b n orig := by
  cases o <;> exact nofun

/-- A `sync` that begins without results has read all of them when it yields in its set. -/
theorem fresh_attempt (hcur : m.kernel.current = some t) (hnil : m.txResults t = []) :
    After (attempt cfg port waitList call) (fun a c => ∀ bits b n orig, a = .inSet bits b n orig → Fresh t c) m := by
  unfold attempt
  rw [after_bind, after_onKernel, Kernel.after_getCurrent]
  intro v hv
  cases hcur.symm.trans hv
  rw [after_bind, after_gets]
  dsimp only
  cases m.entry t with
  | some r =>
      dsimp only
      rw [after_bind, after_gets, after_bind, after_check]
      intro _
      rw [after_bind]
      refine After.of_forall fun _ _ _ _ _ _ ha => ?_
      cases ha
  | none =>
      dsimp only
      rw [after_bind, setTxPtr, after_store]
      cases call with
      | wait bits clear all waitTicks =>
          unfold begin
          rw [after_bind]
          exact After.of_forall fun o _ _ _ _ _ ha => absurd ha (returnOrYield_ne_inSet o _ _ _ _)
      | set bits =>
          unfold begin
          rw [after_bind]
          refine After.of_forall fun _ _ _ _ _ _ ha => ?_
          cases ha
      | sync bits b waitTicks =>
          have hfresh : Fresh t { m with txPtr := Function.update m.txPtr t 0 } := by simp [Fresh, hnil]
          have hcur' : { m with txPtr := Function.update m.txPtr t 0 }.kernel.current = some t := hcur
          unfold begin syncSet
          rw [after_bind, after_bind]
          refine (fresh_run hcur' hfresh).mono fun orig m₁ h₁ => ?_
          rw [after_bind]
          refine (fresh_set h₁.1 h₁.2).mono fun yld m₂ h₂ => ?_
          rw [after_pure]
          dsimp only
          split
          · exact fun _ _ _ _ _ => h₂.2
          · rw [after_bind]
            exact After.of_forall fun o _ _ _ _ _ ha => absurd ha (returnOrYield_ne_inSet o _ _ _ _)

/-- Whatever the task does next. -/
theorem fresh_prog (hcur : m.kernel.current = some t) (hnil : ∀ c, a = .calling c → m.txResults t = []) :
    After (a.prog cfg port waitList) (fun a' c => ∀ bits b n orig, a' = .inSet bits b n orig → Fresh t c) m := by
  have hend : ∀ {call : Call width} {r : Outcome width}, After (syscallEnd call r)
      (fun a' c => ∀ bits b n orig, a' = .inSet bits b n orig → Fresh t c) m := by
    intro call r
    refine After.mono (wpc_syscallEnd_results hcur).2 fun a' c hc bits b n orig ha' => ?_
    cases hc.1.symm.trans ha'
  cases a with
  | idle => exact fun _ _ _ _ => nofun
  | calling call =>
      exact fresh_attempt hcur (hnil call rfl)
  | inSet bits bitsToWaitFor waitTicks orig =>
      unfold Activity.prog
      rw [after_bind]
      exact After.of_forall fun o _ _ _ _ _ ha => absurd ha (returnOrYield_ne_inSet o _ _ _ _)
  | ending call r => exact hend
  | elsewhere => exact hend
  | yielding call =>
      cases call with
      | set bits => exact fun _ _ _ _ => nofun
      | wait bits clear all waitTicks =>
          unfold Activity.prog
          rw [after_bind]
          exact After.of_forall fun _ _ _ _ _ _ => nofun
      | sync bits bitsToWaitFor waitTicks =>
          unfold Activity.prog
          rw [after_bind]
          exact After.of_forall fun _ _ _ _ _ _ => nofun

/-! ## Runs -/

variable {s s' : System width} {e : System.Event}

/-- A task in a syscall has been created, and one that has come back to what it has done of its call recovers. -/
structure Enrolled (s : System width) : Prop extends Tidy s where
  confined : Confined s.kernel.taskCnt s.kernel.recoveryMode s.kernel
  created : ∀ t, s.activity t ≠ .idle → t < s.kernel.taskCnt
  calling : ∀ t c, s.activity t = .calling c → s.machine.entry t ≠ none ∨ s.machine.txResults t ≠ [] →
    s.kernel.recoveryMode t = true
  inSet : ∀ t bits b n orig, s.activity t = .inSet bits b n orig → ¬ Fresh t s.machine →
    s.kernel.recoveryMode t = true

theorem enrolled_start : Enrolled (System.start cfg : System width) where
  toTidy := tidy_start
  confined := Kernel.confined_new
  created := fun _ h => absurd rfl h
  calling := fun _ _ => nofun
  inSet := fun _ _ _ _ _ => nofun

theorem Enrolled.exists_ (h : Enrolled s) (ht : s.Executes t) : t < s.kernel.taskCnt := h.confined.current t ht.1

theorem Enrolled.running (h : Enrolled s) (hu : s.Executes u) (hact : s.activity u ≠ .idle)
    (hout : ((s.activity u).prog cfg port waitList s.machine).out = some (a, m)) :
    Enrolled { s.noting u m with machine := m, activity := Function.update s.activity u a } := by
  have hspares : Spares u s.machine m :=
    (((spares_prog (s.activity u)) s.machine (.start hu.1 h.eventBits)).post hout).1
  have hconf := ((confines_prog (s.activity u) _ h.confined).post hout).1
  have hprog := (after_prog hu.1 hact (h.ended u)).post hout
  have hmode : m.kernel.recoveryMode = s.kernel.recoveryMode := hconf.recoveryMode
  refine ⟨h.toTidy.running hu hact hout, ?_, fun t ht => ?_, fun t c ht hback => ?_, fun t bits b n orig ht hback => ?_⟩
  · exact (Kernel.Confined.carried (Or.inl hconf)).1
  · refine (h.created t ?_).trans_eq hconf.taskCnt.symm
    rintro hidle
    by_cases htu : t = u
    · exact hact (htu ▸ hidle)
    · simp only [Function.update_of_ne htu] at ht
      exact ht hidle
  · by_cases htu : t = u
    · subst htu
      simp only [Function.update_self] at ht
      rcases hprog with ⟨_, _, _, hne⟩ | ⟨hidle, _⟩
      · exact absurd ht (hne c)
      · cases hidle.symm.trans ht
    · simp only [Function.update_of_ne htu] at ht
      rw [hspares.entry t htu, hspares.txResults t htu] at hback
      exact (congrFun hmode t).trans (h.calling t c ht hback)
  · by_cases htu : t = u
    · subst htu
      simp only [Function.update_self] at ht
      by_cases hold : ∃ c, s.activity t = .calling c ∧ s.machine.txResults t ≠ []
      · obtain ⟨c, hc, hne⟩ := hold
        exact (congrFun hmode t).trans (h.calling t c hc (Or.inr hne))
      · have hnil : ∀ c, s.activity t = .calling c → s.machine.txResults t = [] := fun c hc =>
          by_contra fun hne => hold ⟨c, hc, hne⟩
        exact absurd ((fresh_prog hu.1 hnil).post hout _ _ _ _ ht) hback
    · simp only [Function.update_of_ne htu] at ht
      have hfresh : ¬ Fresh t s.machine := by
        rwa [Fresh, hspares.txResults t htu, hspares.txPtr t htu] at hback
      exact (congrFun hmode t).trans (h.inSet t _ _ _ _ ht hfresh)

/-- What a restart leaves. -/
theorem Enrolled.restarted {took released : Nat → Bool} (h : Enrolled s) (hcnt : s.kernel.taskCnt ≤ n)
    (hm : Confined n (fun _ => true) m.kernel)
    (htidy : Tidy { machine := m, activity := fun t => (s.activity t).restarted, took := took, released := released }) :
    Enrolled { machine := m, activity := fun t => (s.activity t).restarted, took := took, released := released } where
  toTidy := htidy
  confined := (Kernel.Confined.carried (Or.inl hm)).1
  created := by
    intro t ht
    refine (h.created t fun hidle => ht ?_).trans_le (hcnt.trans_eq hm.taskCnt.symm)
    simp [Activity.restarted, Activity.call, hidle]
  calling := fun t _ _ _ => congrFun hm.recoveryMode t
  inSet := fun t _ _ _ _ _ _ => congrFun hm.recoveryMode t

theorem Enrolled.step (h : Enrolled s) (hstep : System.Step cfg port waitList e s s') : Enrolled s' := by
  have htidy := h.toTidy.step hstep
  cases hstep with
  | @call _ t c ht hidle =>
      have hnil : s.machine.txResults t = [] := h.outside t (by simp [hidle, Activity.call])
      refine ⟨htidy, h.confined, fun v hv => ?_, fun v c hc hback => ?_, fun v bits b n orig hv hback => ?_⟩
      · by_cases hvt : v = t
        · rw [hvt]
          exact h.exists_ ht
        · simp only [Function.update_of_ne hvt] at hv
          exact h.created v hv
      · by_cases hvt : v = t
        · subst hvt
          simp [hnil] at hback
        · simp only [Function.update_of_ne hvt] at hc hback
          exact h.calling v c hc hback
      · by_cases hvt : v = t
        · subst hvt
          simp at hv
        · simp only [Function.update_of_ne hvt] at hv
          exact h.inSet v _ _ _ _ hv hback
  | run ht hact hout => exact h.running ht hact hout
  | bypass ht hcalling => exact ⟨htidy, h.confined, h.created, h.calling, h.inSet⟩
  | @syscallBegin _ t ht hidle =>
      refine ⟨htidy, h.confined, fun v hv => ?_, fun v c hc hback => ?_, fun v bits b n orig hv hback => ?_⟩
      · by_cases hvt : v = t
        · rw [hvt]
          exact h.exists_ ht
        · simp only [Function.update_of_ne hvt] at hv
          exact h.created v hv
      · by_cases hvt : v = t
        · subst hvt
          simp at hc
        · simp only [Function.update_of_ne hvt] at hc hback
          exact h.calling v c hc hback
      · by_cases hvt : v = t
        · subst hvt
          simp at hv
        · simp only [Function.update_of_ne hvt] at hv
          exact h.inSet v _ _ _ _ hv hback
  | @other _ op k ho hother hout =>
      obtain ⟨hconf, hcnt, hmode⟩ := Kernel.Confined.carried ((Kernel.confined_prog ho h.confined).post hout)
      refine ⟨htidy, hconf, fun t ht => (h.created t ht).trans_le hcnt, fun t c hc hback => ?_,
        fun t bits b n orig ht hback => ?_⟩
      · rw [hmode t (h.created t (fun hidle => by cases hidle.symm.trans hc))]
        exact h.calling t c hc hback
      · rw [hmode t (h.created t (fun hidle => by cases hidle.symm.trans ht))]
        exact h.inSet t _ _ _ _ ht hback
  | @fail _ t c m ht hc hr =>
      exact h.restarted le_rfl ((confined_reboot ((confines_prog _ _ h.confined).crash hc)).post hr) htidy
  | @failOther _ op k m ho hother hk hr =>
      rcases (Kernel.confined_prog ho h.confined).crash hk with hk | ⟨_, _, hk⟩
      · exact h.restarted le_rfl ((confined_reboot hk).post hr) htidy
      · exact h.restarted (Nat.le_succ _) ((confined_reboot hk).post hr) htidy

/-- Whatever the schedule and the failures are. -/
theorem Enrolled.reachable {Ok : System.Event → System width → System width → Prop}
    (h : System.Reachable cfg port waitList Ok s) : Enrolled s := by
  induction h with
  | start => exact enrolled_start
  | step _ hstep _ ih => exact ih.step hstep

end EventGroup

end IntOS
