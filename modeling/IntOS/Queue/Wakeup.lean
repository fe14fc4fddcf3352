import IntOS.Queue.Blocking
import IntOS.Queue.Theorems

/-!
# No queue wake-up is lost

While tasks of a role wait, what they wait for is not more than what the woken tasks of the role may still
take. A woken task has nothing in its hands: another one may take the item or the slot first.
-/

namespace IntOS

open Persist Persist.Prog

variable {w : PtrWidth} {cfg : Config} {q : Queue w} {lists : QueueLists}

theorem Role.eq_or_other (r r' : Role) : r' = r ∨ r' = r.other := by cases r <;> cases r' <;> simp [other]

theorem Role.other_ne (r : Role) : r.other ≠ r := by cases r <;> exact nofun

theorem QueueLists.of_inj {r r' : Role} (h : lists.of r = lists.of r') : r = r' := by
  have hne := lists.ne
  cases r with
  | sender =>
      cases r' with
      | sender => rfl
      | receiver => exact absurd h.symm hne
  | receiver =>
      cases r' with
      | sender => exact absurd h hne
      | receiver => rfl

/-! ## The buffer -/

namespace Queue

variable {m : Nat → UInt8} {op : Op}

theorem WellFormed.length_le (h : q.WellFormed m) : (q.content m).length ≤ q.length := by
  obtain ⟨r, n, hh⟩ := h
  rw [hh.length_content]
  exact hh.n_le

/-- An operation fails where there is nothing for it. -/
theorem WellFormed.failed (h : q.WellFormed m) {e : QueueErr} (he : ((op.body q).eval m).1 = .error e) :
    q.available m op.role = 0 ∧ ((op.body q).eval m).2 = m := by
  have hs := h.serves op
  refine ⟨?_, hs.unchanged e he⟩
  rw [hs.reply] at he
  cases op with
  | pushBack item =>
      simp only [listStep] at he
      split at he
      case isTrue hfull => simp [available, Op.role, hfull]
      case isFalse => cases he
  | pushFront item =>
      simp only [listStep] at he
      split at he
      case isTrue hfull => simp [available, Op.role, hfull]
      case isFalse => cases he
  | dequeue =>
      cases hc : q.content m with
      | nil => simp [available, Op.role, hc]
      | cons x xs =>
          rw [hc] at he
          cases he

/-- An operation that succeeds takes one slot or item, and leaves one item or slot to the other role. -/
theorem WellFormed.succeeded (h : q.WellFormed m) {item : List UInt8} (ho : ((op.body q).eval m).1 = .ok item) :
    q.available ((op.body q).eval m).2 op.role + 1 = q.available m op.role ∧
      q.available ((op.body q).eval m).2 op.role.other = q.available m op.role.other + 1 := by
  have hs := h.serves op
  have hlen := h.length_le
  rw [hs.reply] at ho
  cases op with
  | pushBack item =>
      simp only [listStep] at ho
      simp only [available, Op.role, Role.other, hs.content, listStep]
      split at ho
      case isTrue => cases ho
      case isFalse hfull =>
        rw [if_neg hfull, List.length_append, List.length_singleton]
        exact ⟨by omega, rfl⟩
  | pushFront item =>
      simp only [listStep] at ho
      simp only [available, Op.role, Role.other, hs.content, listStep]
      split at ho
      case isTrue => cases ho
      case isFalse hfull =>
        rw [if_neg hfull, List.length_cons]
        exact ⟨by omega, rfl⟩
  | dequeue =>
      cases hc : q.content m with
      | nil =>
          rw [hc] at ho
          cases ho
      | cons x xs =>
          rw [hc, List.length_cons] at hlen
          simp only [available, Op.role, Role.other, hs.content, hc, listStep, List.length_cons]
          exact ⟨trivial, by omega⟩

end Queue

/-! ## The invariant -/

/-- In a call of this role that has not succeeded. -/
def Activity.Tries (r : Role) (a : Activity) : Prop :=
  ∃ op c, op.role = r ∧ (a = .trying op c ∨ a = .yielding op c)

/-- In a syscall that may have done its list transaction. -/
def Activity.Finishing (a : Activity) : Prop := a = .elsewhere ∨ ∃ res, a = .leaving res

theorem Activity.Finishing.not_tries {r : Role} {a : Activity} (h : a.Finishing) : ¬ a.Tries r := by
  rintro ⟨op, c, _, ha⟩
  rcases h with rfl | ⟨res, rfl⟩ <;> simp at ha

namespace System

open Kernel

variable {s : System} {t : Nat} {k : Kernel}

structure Counted (q : Queue w) (lists : QueueLists) (s : System) : Prop where
  inv : Inv s.kernel
  wellFormed : q.WellFormed s.machine.mem
  done : ∀ u, s.kernel.listTxDone u = true → (s.activity u).Finishing
  waiting : ∀ r u, s.kernel.lists.list (.event u) = some (.waiting (lists.of r)) →
    ∃ op c, op.role = r ∧ s.activity u = .yielding op c
  woken : ∀ r, ∀ u ∈ s.woken r, s.kernel.lists.list (.event u) = none ∧ (s.activity u).Tries r
  available : ∀ r u, s.kernel.lists.list (.event u) = some (.waiting (lists.of r)) →
    q.available s.machine.mem r ≤ (s.woken r).card

theorem counted_start (cfg : Config) (q : Queue w) (lists : QueueLists) (m : Nat → UInt8) :
    Counted q lists (start cfg q m) where
  inv := inv_new cfg
  wellFormed := ⟨0, 0, q.init_holds m⟩
  done := fun _ => nofun
  waiting := fun _ _ => nofun
  woken := fun _ _ h => absurd h (Finset.notMem_empty _)
  available := fun _ _ => nofun

/-- The event node of a task that executes is in no list. -/
theorem Executes.event (ht : s.Executes t) (h : Inv s.kernel) : s.kernel.lists.list (.event t) = none :=
  (h.unblocked (h.current t ht.1) ht.2).2

/-- The executing task goes on, on its own. -/
theorem Counted.advance (h : Counted q lists s) (ht : s.Executes t) (hinv : Inv k)
    (hlists : k.lists = s.kernel.lists)
    (hdone : ∀ u, u ≠ t → k.listTxDone u = true → s.kernel.listTxDone u = true) {a : Activity}
    (ha : k.listTxDone t = true → a.Finishing) (hwoken : ∀ r, t ∈ s.woken r → a.Tries r) :
    Counted q lists { s with
      machine := { s.machine with kernel := k }
      activity := Function.update s.activity t a } := by
  have hevent := ht.event h.inv
  refine ⟨hinv, h.wellFormed, ?_, ?_, ?_, ?_⟩
  · intro u hu
    by_cases hut : u = t
    · subst hut
      dsimp only
      rw [Function.update_self]
      exact ha hu
    · dsimp only
      rw [Function.update_of_ne hut]
      exact h.done u (hdone u hut hu)
  · intro r u hu
    dsimp only at hu ⊢
    rw [hlists] at hu
    have hut : u ≠ t := by
      rintro rfl
      cases hevent.symm.trans hu
    rw [Function.update_of_ne hut]
    exact h.waiting r u hu
  · intro r u hu
    dsimp only at hu ⊢
    rw [hlists]
    refine ⟨(h.woken r u hu).1, ?_⟩
    by_cases hut : u = t
    · subst hut
      rw [Function.update_self]
      exact hwoken r hu
    · rw [Function.update_of_ne hut]
      exact (h.woken r u hu).2
  · dsimp only
    rw [hlists]
    exact h.available

/-- No task is moved into or between the wait lists of the queue, and none of the tasks that call it leaves
its call. -/
theorem Counted.other (h : Counted q lists s) (hinv : Inv k)
    (hdone : ∀ u, k.listTxDone u = true → s.kernel.listTxDone u = true ∨ (s.activity u).Finishing)
    (hevent : ∀ u, k.lists.list (.event u) = s.kernel.lists.list (.event u) ∨ k.lists.list (.event u) = none ∨
      s.activity u = .elsewhere ∧ ∃ l, (∀ r, l ≠ lists.of r) ∧ k.lists.list (.event u) = some (.waiting l)) :
    Counted q lists { s with machine := { s.machine with kernel := k } } := by
  have hback : ∀ r u, k.lists.list (.event u) = some (.waiting (lists.of r)) →
      s.kernel.lists.list (.event u) = some (.waiting (lists.of r)) := by
    intro r u hu
    rcases hevent u with he | he | ⟨_, l, hl, he⟩
    · rw [← he]
      exact hu
    · cases he.symm.trans hu
    · rw [he] at hu
      cases hu
      exact absurd rfl (hl r)
  refine ⟨hinv, h.wellFormed, ?_, ?_, ?_, ?_⟩
  · intro u hu
    rcases hdone u hu with hd | hd
    · exact h.done u hd
    · exact hd
  · intro r u hu
    exact h.waiting r u (hback r u hu)
  · intro r u hu
    obtain ⟨hnone, htries⟩ := h.woken r u hu
    refine ⟨?_, htries⟩
    rcases hevent u with he | he | ⟨ha, _⟩
    · exact he.trans hnone
    · exact he
    · exact absurd htries (Activity.Finishing.not_tries (Or.inl ha))
  · intro r u hu
    exact h.available r u (hback r u hu)

/-! ## Rounds -/

theorem mem_leaves {k k' : Kernel} {l u : Nat} : u ∈ leaves k k' l ↔ u < k.taskCnt ∧
    k.lists.list (.event u) = some (.waiting l) ∧ k'.lists.list (.event u) ≠ some (.waiting l) := by
  rw [leaves, Finset.mem_filter, Finset.mem_range]

/-- The tasks of the other role that were woken do not count the one that executes. -/
theorem Counted.notMem_other (h : Counted q lists s) {op : Queue.Op} {c : Countdown}
    (hact : s.activity t = .trying op c) : t ∉ s.woken op.role.other := by
  intro hmem
  obtain ⟨_, op', c', hrole, ha⟩ := h.woken _ t hmem
  rw [hact] at ha
  rcases ha with ha | ha
  · cases ha
    exact op.role.other_ne hrole.symm
  · cases ha

/-- The operation fails, and the task blocks or gives up. -/
theorem Counted.failed (h : Counted q lists s) {op : Queue.Op} {c : Countdown} {a : Activity}
    (ht : s.Executes t) (hact : s.activity t = .trying op c) (hzero : q.available s.machine.mem op.role = 0)
    (hinv : Inv k) (hdone : k.listTxDone = s.kernel.listTxDone)
    (hothers : ∀ u, u ≠ t → k.lists.list (.event u) = s.kernel.lists.list (.event u))
    (hown : k.lists.list (.event t) = none ∨
      k.lists.list (.event t) = some (.waiting (lists.of op.role)) ∧ ∃ c', a = .yielding op c') :
    Counted q lists
      { machine := { s.machine with kernel := k }
        activity := Function.update s.activity t a
        woken := fun r => (s.woken r ∪ leaves s.kernel k (lists.of r)).erase t } := by
  have hevent := ht.event h.inv
  have hwoken : ∀ r, (s.woken r ∪ leaves s.kernel k (lists.of r)).erase t = (s.woken r).erase t := by
    intro r
    ext u
    rw [Finset.mem_erase, Finset.mem_erase, Finset.mem_union, mem_leaves]
    refine and_congr_right fun hut => or_iff_left ?_
    rintro ⟨_, h1, h2⟩
    exact h2 ((hothers u hut).trans h1)
  simp only [hwoken]
  refine ⟨hinv, h.wellFormed, ?_, ?_, ?_, ?_⟩
  · intro u hu
    dsimp only at hu ⊢
    rw [hdone] at hu
    have hut : u ≠ t := by
      rintro rfl
      rcases h.done u hu with ha | ⟨res, ha⟩ <;> cases hact.symm.trans ha
    rw [Function.update_of_ne hut]
    exact h.done u hu
  · intro r u hu
    dsimp only at hu ⊢
    by_cases hut : u = t
    · subst hut
      rw [Function.update_self]
      rcases hown with hnone | ⟨hlist, c', rfl⟩
      · cases hnone.symm.trans hu
      · rw [hlist] at hu
        simp only [Option.some.injEq, ListRef.waiting.injEq] at hu
        exact ⟨op, c', lists.of_inj hu, rfl⟩
    · rw [Function.update_of_ne hut]
      rw [hothers u hut] at hu
      exact h.waiting r u hu
  · intro r u hu
    obtain ⟨hut, hu⟩ := Finset.mem_erase.mp hu
    dsimp only
    rw [hothers u hut, Function.update_of_ne hut]
    exact h.woken r u hu
  · intro r u hu
    dsimp only at hu ⊢
    rcases op.role.eq_or_other r with rfl | rfl
    · rw [hzero]
      exact Nat.zero_le _
    · rw [Finset.erase_eq_of_notMem (h.notMem_other hact)]
      by_cases hut : u = t
      · subst hut
        rcases hown with hnone | ⟨hlist, _⟩
        · cases hnone.symm.trans hu
        · rw [hlist] at hu
          simp only [Option.some.injEq, ListRef.waiting.injEq] at hu
          exact absurd (lists.of_inj hu).symm op.role.other_ne
      · rw [hothers u hut] at hu
        exact h.available _ u hu

/-- The operation succeeds, and a task of the other role is woken if one waits. -/
theorem Counted.served (h : Counted q lists s) {op : Queue.Op} {c : Countdown} {m : Nat → UInt8}
    {res : Except QueueErr (List UInt8)} (ht : s.Executes t) (hact : s.activity t = .trying op c)
    (hm : q.WellFormed m) (hrole : q.available m op.role + 1 = q.available s.machine.mem op.role)
    (hother : q.available m op.role.other = q.available s.machine.mem op.role.other + 1) (hinv : Inv k)
    (hdone : k.listTxDone = Function.update s.kernel.listTxDone t true)
    (hevents : ∀ u, k.lists.list (.event u) = s.kernel.lists.list (.event u) ∨ k.lists.list (.event u) = none)
    (hfirst : ∀ u, s.kernel.lists.list (.event u) = some (.waiting (lists.of op.role.other)) →
      ∃ v, s.kernel.lists.list (.event v) = some (.waiting (lists.of op.role.other)) ∧
        k.lists.list (.event v) = none) :
    Counted q lists
      { machine := ⟨k, m⟩
        activity := Function.update s.activity t (.leaving res)
        woken := fun r => (s.woken r ∪ leaves s.kernel k (lists.of r)).erase t } := by
  have hevent := ht.event h.inv
  have hback : ∀ r u, k.lists.list (.event u) = some (.waiting (lists.of r)) →
      s.kernel.lists.list (.event u) = some (.waiting (lists.of r)) := by
    intro r u hu
    rcases hevents u with he | he
    · rw [← he]
      exact hu
    · cases he.symm.trans hu
  refine ⟨hinv, hm, ?_, ?_, ?_, ?_⟩
  · intro u hu
    dsimp only at hu ⊢
    by_cases hut : u = t
    · rw [hut, Function.update_self]
      exact Or.inr ⟨res, rfl⟩
    · rw [Function.update_of_ne hut]
      rw [hdone, Function.update_of_ne hut] at hu
      exact h.done u hu
  · intro r u hu
    have hu' := hback r u hu
    have hut : u ≠ t := by
      rintro rfl
      cases hevent.symm.trans hu'
    dsimp only
    rw [Function.update_of_ne hut]
    exact h.waiting r u hu'
  · intro r u hu
    obtain ⟨hut, hu⟩ := Finset.mem_erase.mp hu
    dsimp only
    rw [Function.update_of_ne hut]
    rcases Finset.mem_union.mp hu with hu | hu
    · obtain ⟨hnone, htries⟩ := h.woken r u hu
      refine ⟨?_, htries⟩
      rcases hevents u with he | he
      · exact he.trans hnone
      · exact he
    · obtain ⟨_, h1, h2⟩ := mem_leaves.mp hu
      obtain ⟨op', c', hr, ha⟩ := h.waiting r u h1
      refine ⟨?_, op', c', hr, Or.inr ha⟩
      rcases hevents u with he | he
      · exact absurd (he.trans h1) h2
      · exact he
  · intro r u hu
    have hu' := hback r u hu
    have hle := h.available r u hu'
    dsimp only
    rcases op.role.eq_or_other r with rfl | rfl
    · calc q.available m op.role
          ≤ (s.woken op.role).card - 1 := by omega
        _ ≤ ((s.woken op.role).erase t).card := Finset.pred_card_le_card_erase
        _ ≤ _ := Finset.card_le_card (Finset.erase_subset_erase t Finset.subset_union_left)
    · obtain ⟨v, hv, hgone⟩ := hfirst u hu'
      have hnew : v ∉ s.woken op.role.other := by
        intro hmem
        cases (h.woken _ v hmem).1.symm.trans hv
      have hvt : v ≠ t := by
        rintro rfl
        cases hevent.symm.trans hv
      have hsub : insert v (s.woken op.role.other) ⊆
          (s.woken op.role.other ∪ leaves s.kernel k (lists.of op.role.other)).erase t := by
        intro x hx
        rw [Finset.mem_erase, Finset.mem_union, mem_leaves]
        rcases Finset.mem_insert.mp hx with rfl | hx
        · refine ⟨hvt, Or.inr ⟨(h.inv.waiting hv).1, hv, ?_⟩⟩
          rw [hgone]
          exact nofun
        · refine ⟨?_, Or.inl hx⟩
          rintro rfl
          exact h.notMem_other hact hx
      calc q.available m op.role.other
          = q.available s.machine.mem op.role.other + 1 := hother
        _ ≤ (s.woken op.role.other).card + 1 := Nat.succ_le_succ hle
        _ = (insert v (s.woken op.role.other)).card := (Finset.card_insert_of_notMem hnew).symm
        _ ≤ _ := Finset.card_le_card hsub

/-- The error of a role. -/
def Role.err : Role → QueueErr
  | .sender => .queueFull
  | .receiver => .queueEmpty

theorem round_eq (cfg : Config) (q : Queue w) (lists : QueueLists) (op : Queue.Op) :
    Machine.round cfg q lists op =
      Machine.queueRound cfg q op (lists.of op.role) (lists.of op.role.other) (Role.err op.role) := by
  cases op <;> rfl

theorem Counted.round (h : Counted q lists s) {op : Queue.Op} {c : Countdown} (ht : s.Executes t)
    (hact : s.activity t = .trying op c) :
    After (Machine.round cfg q lists op c) (fun o m => Counted q lists
      { machine := m
        activity := Function.update s.activity t (o.activity op)
        woken := fun r => (s.woken r ∪ leaves s.kernel m.kernel (lists.of r)).erase t }) s.machine := by
  have hdone : s.kernel.listTxDone t = false := by
    cases hd : s.kernel.listTxDone t with
    | false => rfl
    | true => rcases h.done t hd with ha | ⟨res, ha⟩ <;> cases hact.symm.trans ha
  have hexec : Executing s.kernel := by
    intro u hu
    cases ht.1.symm.trans hu
    exact ht.2
  rw [round_eq]
  simp only [Machine.queueRound, Machine.tryRunRelaxed, after_bind, after_gets, after_store, after_pure]
  cases hr : ((op.body q).eval s.machine.mem).1 with
  | error e =>
      obtain ⟨hzero, hsame⟩ := h.wellFormed.failed hr
      simp only [hsame]
      split
      · simp only [after_bind, after_gets, Machine.onKernel]
        refine after_zoom.mpr ?_
        have hwake : After (if c.wakeupTimeSet = true then pure c.wakeupTime else
            Kernel.addTime cfg s.machine.kernel.tickCounter c.waitTicks)
            (fun _ k => k = s.kernel) s.kernel := by
          split
          · exact rfl
          · simp only [Kernel.addTime, after_bind, after_check, after_pure]
            exact fun _ => trivial
        refine hwake.mono ?_
        rintro wakeupTime _ rfl
        rw [after_bind]
        refine after_zoom.mpr ((h.inv.blockOnWaitlist hexec _ wakeupTime).mono ?_)
        rintro _ k ⟨hinv, hd, u, hcur, hs⟩
        cases ht.1.symm.trans hcur
        refine h.failed ht hact hzero hinv hd (fun u hut => ?_) (Or.inr ⟨hs.event, _, rfl⟩)
        exact hs.others hut
      · exact h.failed ht hact hzero h.inv rfl (fun _ _ => rfl) (Or.inl (ht.event h.inv))
  | ok item =>
      obtain ⟨hrole, hother⟩ := h.wellFormed.succeeded hr
      simp only [after_bind, Machine.onKernel]
      refine after_zoom.mpr ((h.inv.popRemoveFromWaitlist _ ht.1 hdone).after.mono ?_)
      rintro _ k ⟨hinv, hd, hpop⟩
      refine h.served ht hact (h.wellFormed.serves op).wellFormed hrole hother hinv hd ?_ ?_
      · intro u
        rcases hpop with ⟨_, hk⟩ | ⟨v, _, _, _, hw⟩
        · rw [hk.lists]
          exact Or.inl rfl
        · exact hw.events u
      · intro u hu
        rcases hpop with ⟨hnone, _⟩ | ⟨v, _, _, hv, hw⟩
        · exact absurd hu (h.inv.linked.head_none id hnone)
        · exact ⟨v, hv, hw.event⟩

/-! ## Everything else -/

theorem Counted.slept (h : Counted q lists s) {l : Nat} {v : Nat → Nat}
    (helse : ∀ t, s.kernel.current = some t → s.activity t = .elsewhere) (hl : ∀ r, l ≠ lists.of r)
    (hcur : s.kernel.current = some t) (hinv : Inv k) (hd : k.listTxDone = s.kernel.listTxDone)
    (hs : Slept { s.kernel with wakeupTime := v } t (some (.waiting l)) k) :
    Counted q lists { s with machine := { s.machine with kernel := k } } := by
  refine h.other hinv (fun u hu => ?_) fun u => ?_
  · rw [hd] at hu
    exact Or.inl hu
  · by_cases hut : u = t
    · rw [hut]
      exact Or.inr (Or.inr ⟨helse t hcur, l, hl, hs.event⟩)
    · exact Or.inl (hs.others hut)

theorem Counted.foreign (h : Counted q lists s) {op : Kernel.Op} (ho : op.Enabled s.kernel)
    (hother : Other lists s op) : After (op.prog cfg)
      (fun _ k => Counted q lists { s with machine := { s.machine with kernel := k } }) s.kernel := by
  cases op with
  | createTask prio =>
      simp only [Op.prog, after_bind]
      refine (h.inv.createTaskStatic prio).after.mono ?_
      rintro _ k ⟨hinv, hc⟩
      exact h.other hinv (fun u hu => Or.inl (hc.listTxDone u hu)) fun u => Or.inl (hc.events u)
  | startKernel =>
      have hi := h.inv
      exact h.other ⟨hi.linked, hi.timely, hi.placed, hi.free, hi.current, hi.running, (fun h => by cases h), hi.op,
        hi.microOp⟩
        (fun _ => Or.inl) fun _ => Or.inl rfl
  | taskDelay nticks =>
      refine (h.inv.taskDelay ho nticks).mono ?_
      rintro _ k ⟨hinv, _, he, hd⟩
      refine h.other hinv (fun u hu => ?_) fun u => Or.inl (he u)
      exact (hd u hu).imp_right fun hcur => Or.inl (hother u hcur)
  | block l wakeupTime =>
      refine (h.inv.blockOnWaitlist ho l wakeupTime).mono ?_
      rintro _ k ⟨hinv, hd, t, hcur, hs⟩
      exact h.slept hother.1 hother.2 hcur hinv hd hs
  | blockUnsorted l wakeupTime =>
      refine (h.inv.blockOnUnsortedWaitlist ho l wakeupTime).mono ?_
      rintro _ k ⟨hinv, hd, t, hcur, hs⟩
      exact h.slept hother.1 hother.2 hcur hinv hd hs
  | wake l =>
      refine (h.inv.wakeFirst l).mono ?_
      rintro _ k ⟨hinv, _, he, hd⟩
      refine h.other hinv (fun u hu => ?_) fun u => ?_
      · exact (hd u hu).imp_right fun hcur => Or.inl (hother.1 u hcur)
      · exact (he u).imp_right fun hu => Or.inl hu.2
  | wakeNode l n =>
      have hn := h.inv.inList_iff.mp ho
      obtain ⟨_, hevent, _⟩ := h.inv.waiting hn
      simp only [Op.prog]
      rw [hevent] at hn ⊢
      refine (h.inv.removeFromUnsortedWaitlist hn).after.mono ?_
      rintro _ k ⟨hinv, hd, hw⟩
      refine h.other hinv (fun u hu => ?_) fun u => ?_
      · rw [hd] at hu
        exact Or.inl hu
      · exact (hw.events u).imp_right Or.inl
  | processTick =>
      refine h.inv.processTick.mono ?_
      rintro _ k ⟨hinv, he⟩
      refine h.other hinv (fun u hu => ?_) fun u => (he.events u).imp_right Or.inl
      rw [he.listTxDone] at hu
      exact Or.inl hu
  | taskSwitch =>
      refine (h.inv.taskSwitch ho).mono ?_
      rintro _ k ⟨hinv, hs⟩
      refine h.other hinv (fun u hu => ?_) fun u => Or.inl (by rw [hs.list])
      rw [hs.listTxDone] at hu
      exact Or.inl hu
  | syscallEnd => exact hother.elim

theorem Counted.step (h : Counted q lists s) {s' : System} (hs : Step cfg q lists s s') :
    Counted q lists s' := by
  have hidle : ∀ {t}, s.activity t = .idle → ∀ r, t ∉ s.woken r := by
    intro t ha r hmem
    obtain ⟨_, op, c, _, ht⟩ := h.woken r t hmem
    rw [ha] at ht
    simp at ht
  have hfree : ∀ {t op c}, s.activity t = .yielding op c → s.kernel.listTxDone t ≠ true := by
    intro t op c ha hd
    rcases h.done t hd with he | ⟨res, he⟩ <;> cases ha.symm.trans he
  cases hs with
  | call op waitTicks ht ha =>
      refine h.advance ht h.inv rfl (fun _ _ => id) (fun hd => ?_) fun r hmem => absurd hmem (hidle ha r)
      rcases h.done _ hd with he | ⟨res, he⟩ <;> cases ha.symm.trans he
  | round ht ha hout => exact (h.round ht ha).post hout
  | resume ht ha =>
      refine h.advance ht h.inv rfl (fun _ _ => id) (fun hd => absurd hd (hfree ha)) fun r hmem => ?_
      obtain ⟨_, op, c, hr, he⟩ := h.woken r _ hmem
      rw [ha] at he
      rcases he with he | he
      · cases he
      · cases he
        exact ⟨_, _, hr, Or.inl rfl⟩
  | syscallBegin ht ha =>
      exact h.advance ht h.inv rfl (fun _ _ => id) (fun _ => Or.inl rfl) fun r hmem =>
        absurd hmem (hidle ha r)
  | @syscallEnd t k ht ha hout =>
      have hend : After (Op.syscallEnd.prog cfg) (fun _ k => Inv k ∧ k.lists = s.kernel.lists ∧
          k.listTxDone = Function.update s.kernel.listTxDone t false) s.kernel := by
        rw [Op.prog, after_bind, after_getCurrent]
        intro u hcur
        cases ht.1.symm.trans hcur
        have hi := h.inv
        exact ⟨⟨hi.linked, hi.timely, hi.placed, hi.free, hi.current, hi.running, hi.stopped, hi.op,
          hi.microOp⟩, rfl, rfl⟩
      obtain ⟨hinv, hlists, hd⟩ := hend.post hout
      refine h.advance ht hinv hlists (fun u hut hu => ?_) (fun hu => ?_) fun r hmem => ?_
      · rw [hd, Function.update_of_ne hut] at hu
        exact hu
      · rw [hd, Function.update_self] at hu
        cases hu
      · exact absurd (h.woken r t hmem).2 (Activity.Finishing.not_tries ha)
  | other ho hother hout => exact (h.foreign ho hother).post hout

theorem Reachable.counted {m : Nat → UInt8} (h : Reachable cfg q lists m s) : Counted q lists s := by
  induction h with
  | refl => exact counted_start cfg q lists m
  | tail _ hs ih => exact ih.step hs

/-- In every reachable state: while receivers wait, there are no more items than receivers that were woken
and have not tried again, and while senders wait, no more free slots than such senders. The woken tasks are in
their call and wait in no list. -/
theorem no_queue_wakeup_lost {m : Nat → UInt8} (h : Reachable cfg q lists m s) :
    ((∃ n, InList s.kernel n (.waiting lists.blockedReaders)) →
      (q.content s.machine.mem).length ≤ (s.woken .receiver).card) ∧
    ((∃ n, InList s.kernel n (.waiting lists.blockedWriters)) →
      q.length - (q.content s.machine.mem).length ≤ (s.woken .sender).card) ∧
    ∀ r, ∀ t ∈ s.woken r, (s.activity t).Tries r ∧ ∀ l, ¬ InList s.kernel (.event t) l := by
  have hc := h.counted
  have hwait : ∀ r, (∃ n, InList s.kernel n (.waiting (lists.of r))) →
      q.available s.machine.mem r ≤ (s.woken r).card := by
    rintro r ⟨n, hn⟩
    rw [hc.inv.inList_iff] at hn
    obtain ⟨_, hevent, _⟩ := hc.inv.waiting hn
    rw [hevent] at hn
    exact hc.available r _ hn
  refine ⟨hwait .receiver, hwait .sender, fun r t ht => ?_⟩
  obtain ⟨hnone, htries⟩ := hc.woken r t ht
  refine ⟨htries, fun l => ?_⟩
  rw [hc.inv.inList_iff, hnone]
  exact nofun

theorem Reachable.foreign {m : Nat → UInt8} (h : Reachable cfg q lists m s) (op : Kernel.Op)
    (ho : op.Enabled s.kernel) (hother : Other lists s op) (hsome : (op.prog cfg s.kernel).out.isSome = true) :
    Reachable cfg q lists m { s with machine := { s.machine with kernel := op.exec cfg s.kernel } } := by
  obtain ⟨⟨_, k⟩, hout⟩ := Option.isSome_iff_exists.mp hsome
  unfold Op.exec
  rw [hout]
  exact h.tail (.other ho hother hout)

/-- A receiver finds the new queue empty and waits, and a sender puts an item into the queue. -/
theorem no_queue_wakeup_lost_sent : ∃ s,
    Reachable qemuDebug Queue.ofBytes ⟨0, 1, nofun⟩ (fun _ => 0) s ∧
      Queue.ofBytes.content s.machine.mem = [[5]] ∧ (s.activity 0).Tries .receiver ∧
      ∀ l, ¬ InList s.kernel (.event 0) l := by
  have hstart : Reachable qemuDebug Queue.ofBytes ⟨0, 1, nofun⟩ (fun _ => 0) _ := .refl
  have hrun := ((hstart.foreign (.createTask 0) trivial trivial rfl).foreign (.createTask 7) trivial trivial
    rfl).foreign .startKernel trivial trivial rfl
  have hcall := hrun.tail (.call (t := 0) .dequeue 5 ⟨rfl, nofun⟩ rfl)
  have hwaits := hcall.tail (.round (t := 0) ⟨rfl, nofun⟩ rfl rfl)
  have hswitch := Reachable.foreign hwaits .taskSwitch rfl trivial rfl
  have hsend := hswitch.tail (.call (t := 1) (.pushBack fun _ => 5) 0 ⟨rfl, nofun⟩ rfl)
  have hsent := hsend.tail (.round (t := 1) ⟨rfl, nofun⟩ rfl rfl)
  obtain ⟨_, _, hwoken⟩ := no_queue_wakeup_lost hsent
  obtain ⟨htries, hnone⟩ := hwoken .receiver 0 (by decide)
  exact ⟨_, hsent, rfl, htries, hnone⟩

end System

end IntOS
