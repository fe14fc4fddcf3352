import IntOS.Sched.Lemmas.Events
import IntOS.Semaphore.Semaphore

/-!
# Waiters and the count

While tasks wait for a semaphore, its count is not more than what the woken tasks may still take.
-/

namespace IntOS

open Persist Persist.Prog

namespace Semaphore

variable {cfg : Config} {port : Port} {sem : Semaphore}

theorem Activity.Finishing.not_tries {a : Activity} (h : a.Finishing) : ¬ a.Tries := by
  cases a <;> simp [Activity.Finishing, Activity.Tries] at h ⊢

namespace System

open Kernel

variable {s s' : System} {t u : Nat} {k : Kernel} {m : Machine}

def Waits (sem : Semaphore) (k : Kernel) (u : Nat) : Prop :=
  k.lists.list (.event u) = some (.waiting sem.waitList)

/-- What holds of each task. -/
structure Sound (sem : Semaphore) (s : System) (u : Nat) : Prop where
  done : s.kernel.listTxDone u = true → (s.activity u).Finishing
  waiting : Waits sem s.kernel u → (s.activity u).Tries
  woken : u ∈ s.woken → s.kernel.lists.list (.event u) = none ∧ (s.activity u).Tries

structure Counted (cfg : Config) (sem : Semaphore) (s : System) : Prop where
  inv : Inv s.kernel
  limit : s.kernel.taskCnt ≤ cfg.taskNumLimit
  sound : ∀ u, Sound sem s u
  count : ∀ u, Waits sem s.kernel u → s.machine.count ≤ s.woken.card

theorem counted_start (cfg : Config) (sem : Semaphore) : Counted cfg sem (start cfg sem) where
  inv := inv_new cfg
  limit := Nat.zero_le _
  sound := fun u => ⟨nofun, nofun, fun h => absurd h (Finset.notMem_empty u)⟩
  count := fun _ => nofun

/-- The task does nothing in this step. -/
theorem Sound.other (h : Sound sem s u) (hact : s'.activity u = s.activity u)
    (hdone : s'.kernel.listTxDone u = true → s.kernel.listTxDone u = true)
    (hevent : s'.kernel.lists.list (.event u) = s.kernel.lists.list (.event u) ∨
      s'.kernel.lists.list (.event u) = none)
    (hwoken : u ∈ s'.woken → u ∈ s.woken ∨ Waits sem s.kernel u ∧ ¬ Waits sem s'.kernel u) : Sound sem s' u := by
  refine ⟨fun hd => ?_, fun hw => ?_, fun hm => ?_⟩
  · rw [hact]
    exact h.done (hdone hd)
  · rw [hact]
    rcases hevent with he | he
    · exact h.waiting (he.symm.trans hw)
    · cases he.symm.trans hw
  · rw [hact]
    rcases hwoken hm with hm | ⟨hw, hnot⟩
    · obtain ⟨hnone, htries⟩ := h.woken hm
      rcases hevent with he | he
      · exact ⟨he.trans hnone, htries⟩
      · exact ⟨he, htries⟩
    · rcases hevent with he | he
      · exact absurd (he.trans hw) hnot
      · exact ⟨he, h.waiting hw⟩

/-- The event node of a task that executes is in no list. -/
theorem Executes.event (ht : s.Executes t) (h : Inv s.kernel) : s.kernel.lists.list (.event t) = none :=
  (h.unblocked (h.current t ht.1) ht.2).2

theorem Executes.executing (ht : s.Executes t) : Executing s.kernel := by
  intro u hu
  cases ht.1.symm.trans hu
  exact ht.2

/-- The executing task goes on, and no node moves. -/
theorem Counted.advance (h : Counted cfg sem s) (ht : s.Executes t) (hinv : Inv k)
    (hcnt : k.taskCnt = s.kernel.taskCnt) (hlists : k.lists.list = s.kernel.lists.list)
    (hdone : ∀ u, u ≠ t → k.listTxDone u = true → s.kernel.listTxDone u = true) {a : Activity}
    (ha : k.listTxDone t = true → a.Finishing) (hwoken : t ∈ s.woken → a.Tries) :
    Counted cfg sem { s with
      machine := { s.machine with kernel := k }
      activity := Function.update s.activity t a } := by
  have hevent := ht.event h.inv
  have hnone : k.lists.list (.event t) = none := (congrFun hlists _).trans hevent
  refine ⟨hinv, hcnt.le.trans h.limit, fun u => ?_, fun u hu => h.count u ((congrFun hlists _).symm.trans hu)⟩
  · by_cases hut : u = t
    · subst hut
      refine ⟨?_, fun hw => ?_, fun hm => ⟨hnone, ?_⟩⟩
      · simpa using ha
      · cases hnone.symm.trans hw
      · simpa using hwoken hm
    · refine (h.sound u).other ?_ (hdone u hut) (Or.inl ?_) Or.inl
      · exact Function.update_of_ne hut _ _
      · exact congrFun hlists _

/-- What another task, an interrupt or another syscall does. -/
theorem Counted.foreign (h : Counted cfg sem s) {op : Kernel.Op} (ho : op.Enabled s.kernel) (hother : Other sem s op) :
    After (op.prog cfg) (fun _ k => Counted cfg sem { s with machine := { s.machine with kernel := k } }) s.kernel := by
  have helse : op.InSyscall → ∀ t, s.kernel.current = some t → s.activity t = .elsewhere := by
    cases op <;> intro hin
    case taskDelay => exact hother
    case block => exact hother.1
    case blockUnsorted => exact hother.1
    case wake => exact hother.1
    case wakeNode => exact hother.1
    case syscallEnd => exact hother.elim
    all_goals exact hin.elim
  have hlist : ∀ w, op.entered = some w → op.InSyscall ∧ w ≠ sem.waitList := by
    intro w hw
    cases op <;> cases hw
    case block => exact ⟨trivial, hother.2⟩
    case blockUnsorted => exact ⟨trivial, hother.2⟩
  refine (h.inv.events ho).mono ?_
  intro _ k he
  have hback : ∀ u, Waits sem k u → Waits sem s.kernel u := by
    intro u hw
    rcases he.event u with hu | hu | ⟨w, hop, _, hu⟩
    · exact hu.symm.trans hw
    · cases hu.symm.trans hw
    · cases hu.symm.trans hw
      exact absurd rfl (hlist _ hop).2
  refine ⟨he.inv, he.limit h.limit, fun u => ?_, fun u hu => h.count u (hback u hu)⟩
  have hs := h.sound u
  refine ⟨fun hd => ?_, fun hw => hs.waiting (hback u hw), fun hm => ?_⟩
  · rcases he.listTxDone u hd with hd | ⟨hin, hcur⟩
    · exact hs.done hd
    · have ha := helse hin u hcur
      change (s.activity u).Finishing
      rw [ha]
      trivial
  · obtain ⟨hnone, htries⟩ := hs.woken hm
    refine ⟨?_, htries⟩
    rcases he.event u with hu | hu | ⟨w, hop, hcur, _⟩
    · exact hu.trans hnone
    · exact hu
    · rw [helse (hlist w hop).1 u hcur] at htries
      exact htries.elim

/-! ## Rounds of `semaphore_take` -/

/-- A round that finds the count 0, or takes one. -/
theorem Counted.round (h : Counted cfg sem s) {c : Countdown} (ht : s.Executes t) (hact : s.activity t = .trying c) :
    After (semaphoreTake cfg port sem c) (fun o m => Counted cfg sem
      { machine := m
        activity := Function.update s.activity t o.activity
        woken := s.woken.erase t }) s.machine := by
  have hdone : s.kernel.listTxDone t ≠ true := by
    intro hd
    have hf := (h.sound t).done hd
    rw [hact] at hf
    exact hf
  have hevent := ht.event h.inv
  -- The task takes one, or gives up.
  have hstay : ∀ n r taken, (∀ u, Waits sem s.kernel u → n ≤ (s.woken.erase t).card) → Counted cfg sem
      { machine := ⟨s.kernel, n, r⟩
        activity := Function.update s.activity t (Outcome.exit taken).activity
        woken := s.woken.erase t } := by
    intro n r taken hn
    refine ⟨h.inv, h.limit, fun u => ?_, hn⟩
    by_cases hut : u = t
    · subst hut
      exact ⟨fun hd => absurd hd hdone, fun hw => absurd (hevent.symm.trans hw) nofun, by simp⟩
    · refine (h.sound u).other ?_ id (Or.inl rfl) fun hm => Or.inl (Finset.mem_of_mem_erase hm)
      exact Function.update_of_ne hut _ _
  simp only [semaphoreTake, tryTake, after_bind, after_gets]
  split
  case isTrue hpos =>
    simp only [after_bind, onKernel]
    refine after_zoom.mpr ((after_getCurrent).mpr fun u hu => ?_)
    cases ht.1.symm.trans hu
    refine hstay _ _ true fun u hw => ?_
    calc s.machine.count - 1 ≤ s.woken.card - 1 := Nat.sub_le_sub_right (h.count u hw) 1
      _ ≤ (s.woken.erase t).card := Finset.pred_card_le_card_erase
  case isFalse hzero =>
    simp only [after_pure, Bool.false_eq_true, if_false]
    have hcount : s.machine.count = 0 := Nat.eq_zero_of_not_pos hzero
    split
    case isTrue =>
      simp only [after_bind, after_gets, onKernel]
      refine after_zoom.mpr ?_
      have hwake : After (if c.wakeupTimeSet = true then pure c.wakeupTime else
          Kernel.addTime cfg s.machine.kernel.tickCounter c.waitTicks) (fun _ k => k = s.kernel) s.kernel := by
        split
        · exact rfl
        · simp only [Kernel.addTime, after_bind, after_check, after_pure]
          exact fun _ => trivial
      refine hwake.mono ?_
      rintro wakeupTime _ rfl
      rw [after_bind]
      refine after_zoom.mpr ((h.inv.blockOnWaitlist ht.executing _ wakeupTime).mono ?_)
      rintro _ k ⟨hinv, hd, u, hcur, hs⟩
      cases ht.1.symm.trans hcur
      refine ⟨hinv, hs.frame.taskCnt.le.trans h.limit, fun u => ?_, fun u _ => ?_⟩
      · by_cases hut : u = t
        · subst hut
          refine ⟨fun hdone' => absurd (hd ▸ hdone') hdone, fun _ => ?_, by simp⟩
          dsimp only
          rw [Function.update_self]
          trivial
        · refine (h.sound u).other ?_ (fun hu => hd ▸ hu) (Or.inl ?_) fun hm => Or.inl (Finset.mem_of_mem_erase hm)
          · exact Function.update_of_ne hut _ _
          · exact hs.others hut
      · exact hcount ▸ Nat.zero_le _
    case isFalse =>
      exact hstay _ _ false fun u _ => hcount ▸ Nat.zero_le _

/-! ## Giving -/

theorem mem_leaves {k k' : Kernel} {l u : Nat} : u ∈ System.leaves k k' l ↔ u < k.taskCnt ∧
    k.lists.list (.event u) = some (.waiting l) ∧ k'.lists.list (.event u) ≠ some (.waiting l) := by
  rw [System.leaves, Finset.mem_filter, Finset.mem_range]

/-- The count stays, or is one more and a task is woken if one waits. -/
theorem Counted.give (h : Counted cfg sem s) (ht : s.Executes t) (hact : s.activity t = .idle) :
    After (semaphoreGive cfg sem) (fun yieldNow m => Counted cfg sem
      { machine := m
        activity := Function.update s.activity t (.given yieldNow)
        woken := s.woken ∪ System.leaves s.kernel m.kernel sem.waitList }) s.machine := by
  have hdone : s.kernel.listTxDone t = false := by
    rw [Bool.eq_false_iff]
    intro hd
    have hf := (h.sound t).done hd
    rw [hact] at hf
    exact hf
  have hevent := ht.event h.inv
  have hwoken : t ∉ s.woken := by
    intro hm
    have hf := ((h.sound t).woken hm).2
    rw [hact] at hf
    exact hf
  have hleaves : ∀ k, t ∉ System.leaves s.kernel k sem.waitList := by
    intro k hm
    cases hevent.symm.trans (mem_leaves.mp hm).2.1
  simp only [semaphoreGive, Semaphore.give, after_bind, after_gets]
  split
  case isTrue =>
    simp only [after_pure, Bool.false_eq_true, if_false]
    refine ⟨h.inv, h.limit, fun u => ?_, fun u hw => ?_⟩
    · by_cases hut : u = t
      · subst hut
        refine ⟨fun hd => ?_, fun hw => ?_, fun hm => ?_⟩
        · cases hdone.symm.trans hd
        · cases hevent.symm.trans hw
        rcases Finset.mem_union.mp hm with hm | hm
        · exact absurd hm hwoken
        · exact absurd hm (hleaves _)
      · refine (h.sound u).other ?_ id (Or.inl rfl) fun hm => ?_
        · exact Function.update_of_ne hut _ _
        · exact (Finset.mem_union.mp hm).imp_right fun hm => (mem_leaves.mp hm).2
    · exact (h.count u hw).trans (Finset.card_le_card Finset.subset_union_left)
  case isFalse =>
    simp only [after_bind, after_check, after_store, after_pure, if_true, after_gets, onKernel]
    intro _
    refine after_zoom.mpr (after_getCurrent.mpr fun u hu => ?_)
    cases ht.1.symm.trans hu
    rw [after_bind, after_gets, after_bind]
    refine after_zoom.mpr ((h.inv.popRemoveFromWaitlist _ ht.1 hdone).after.mono ?_)
    rintro _ k ⟨hinv, hd, hpop⟩
    have hevents : ∀ u, k.lists.list (.event u) = s.kernel.lists.list (.event u) ∨ k.lists.list (.event u) = none := by
      intro u
      rcases hpop with ⟨_, hk⟩ | ⟨v, _, _, _, hw⟩
      · rw [hk.lists]
        exact Or.inl rfl
      · exact hw.events u
    have hcnt : k.taskCnt = s.kernel.taskCnt := by
      rcases hpop with ⟨_, hk⟩ | ⟨_, _, _, _, hw⟩
      · exact hk.frame.taskCnt
      · exact hw.frame.taskCnt
    refine ⟨hinv, hcnt.le.trans h.limit, fun u => ?_, fun u hw => ?_⟩
    · by_cases hut : u = t
      · subst hut
        refine ⟨fun _ => ?_, fun hw => ?_, fun hm => ?_⟩
        · dsimp only
          rw [Function.update_self]
          trivial
        · rcases hevents u with he | he
          · cases (he.trans hevent).symm.trans hw
          · cases he.symm.trans hw
        · rcases Finset.mem_union.mp hm with hm | hm
          · exact absurd hm hwoken
          · exact absurd hm (hleaves _)
      · refine (h.sound u).other ?_ (fun hu => ?_) (hevents u) fun hm => ?_
        · exact Function.update_of_ne hut _ _
        · change k.listTxDone u = true at hu
          rw [hd, Function.update_of_ne hut] at hu
          exact hu
        · exact (Finset.mem_union.mp hm).imp_right fun hm => (mem_leaves.mp hm).2
    · -- The first waiter joins the woken tasks.
      have hback : Waits sem s.kernel u := by
        rcases hevents u with he | he
        · exact he.symm.trans hw
        · cases he.symm.trans hw
      rcases hpop with ⟨hnone, _⟩ | ⟨v, _, hv, hvw, hwoke⟩
      · exact absurd hback (h.inv.linked.head_none id hnone)
      · have hnew : v ∉ s.woken := by
          intro hm
          cases ((h.sound v).woken hm).1.symm.trans hvw
        have hleft : v ∈ System.leaves s.kernel k sem.waitList := by
          refine mem_leaves.mpr ⟨hv, hvw, ?_⟩
          rw [hwoke.event]
          exact fun h => by cases h
        calc s.machine.count + 1 ≤ s.woken.card + 1 := Nat.succ_le_succ (h.count u hback)
          _ = (insert v s.woken).card := (Finset.card_insert_of_notMem hnew).symm
          _ ≤ _ := Finset.card_le_card (Finset.insert_subset (Finset.mem_union_right _ hleft)
            Finset.subset_union_left)

/-! ## Runs -/

theorem Counted.step (h : Counted cfg sem s) (hs : Step cfg port sem s s') : Counted cfg sem s' := by
  have hidle : ∀ {t}, s.activity t = .idle → s.kernel.listTxDone t ≠ true ∧ t ∉ s.woken := by
    intro t ha
    refine ⟨fun hd => ?_, fun hm => ?_⟩
    · have hf := (h.sound t).done hd
      rw [ha] at hf
      exact hf
    · have hf := ((h.sound t).woken hm).2
      rw [ha] at hf
      exact hf
  cases hs with
  | holds ht ha hm =>
      exact h.advance ht h.inv rfl rfl (fun _ _ => id) (fun _ => trivial) fun hm => absurd hm (hidle ha).2
  | take waitTicks ht ha hm =>
      exact h.advance ht h.inv rfl rfl (fun _ _ => id) (fun hd => absurd hd (hidle ha).1) fun _ => trivial
  | round ht ha hout => exact (h.round ht ha).post hout
  | @resume t c ht ha =>
      refine h.advance ht h.inv rfl rfl (fun _ _ => id) (fun hd => ?_) fun _ => trivial
      have hf := (h.sound t).done hd
      rw [ha] at hf
      exact hf.elim
  | give ht ha hout => exact (h.give ht ha).post hout
  | syscallBegin ht ha =>
      exact h.advance ht h.inv rfl rfl (fun _ _ => id) (fun _ => trivial) fun hm => absurd hm (hidle ha).2
  | @syscallEnd t k ht ha hout =>
      have hend : After (Op.syscallEnd.prog cfg) (fun _ k => Inv k ∧ k.taskCnt = s.kernel.taskCnt ∧
          k.lists = s.kernel.lists ∧ k.listTxDone = Function.update s.kernel.listTxDone t false) s.kernel := by
        rw [Op.prog, after_bind, after_getCurrent]
        intro u hcur
        cases ht.1.symm.trans hcur
        have hi := h.inv
        exact ⟨⟨hi.linked, hi.timely, hi.placed, hi.free, hi.current, hi.running, hi.stopped, hi.op,
          hi.microOp⟩, rfl, rfl, rfl⟩
      obtain ⟨hinv, hcnt, hlists, hd⟩ := hend.post hout
      refine h.advance ht hinv hcnt (congrArg Lists.list hlists) (fun u hut hu => ?_) (fun hu => ?_) fun hm => ?_
      · rw [hd, Function.update_of_ne hut] at hu
        exact hu
      · rw [hd, Function.update_self] at hu
        cases hu
      · exact absurd ((h.sound t).woken hm).2 ha.not_tries
  | other ho hother hout => exact (h.foreign ho hother).post hout

theorem Reachable.counted (h : Reachable cfg port sem s) : Counted cfg sem s := by
  induction h with
  | refl => exact counted_start cfg sem
  | tail _ hs ih => exact ih.step hs

end System

end Semaphore

end IntOS
