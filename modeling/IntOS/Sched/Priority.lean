import IntOS.Sched.Lemmas.Contents

/-!
# Which waiter is woken

The wait list of a queue or a semaphore is a `SortedPList` in the order of `BlockedListItem`, which is that of
`Priority`: ascending, so its first task is the least important one.
-/

namespace IntOS

open Persist Persist.Prog IntOS.Lists

/-- `Priority::is_higher_than`. -/
def isHigherThan (x y : Nat) : Prop := x < y

namespace Kernel

variable {cfg : Config} {sorted : Nat → Prop} {k k' : Kernel} {q q' : Contents} {w : Nat} {op : Op}

/-- Queues and semaphores have `SortedPList`s, event groups have `UnsortedPList`s. -/
def Op.Typed (sorted : Nat → Prop) : Op → Prop
  | block w _ => sorted w
  | wake w => sorted w
  | blockUnsorted w _ => ¬ sorted w
  | wakeNode w _ => ¬ sorted w
  | _ => True

/-- Runs without power failures of tasks that keep to the types of the wait lists. -/
inductive TypedReachable (cfg : Config) (sorted : Nat → Prop) : Kernel → Prop
  | init : TypedReachable cfg sorted (new cfg)
  | step {k k' : Kernel} {op : Op} : TypedReachable cfg sorted k → op.Enabled k → op.Typed sorted →
      (op.prog cfg k).out = some ((), k') → TypedReachable cfg sorted k'

theorem TypedReachable.reachable (h : TypedReachable cfg sorted k) : Reachable cfg k := by
  induction h with
  | init => exact .init
  | step _ ho _ hout ih => exact ih.step ho hout

theorem TypedReachable.exec (h : TypedReachable cfg sorted k) (op : Op) (ho : op.Enabled k) (ht : op.Typed sorted)
    (hsome : (op.prog cfg k).out.isSome = true) : TypedReachable cfg sorted (op.exec cfg k) :=
  h.step ho ht (Op.out_exec _ hsome)

/-- The least important task comes first. -/
def Ascending (prio : Nat → Nat) (xs : List NodeRef) : Prop := xs.Pairwise fun x y => prio y.task ≤ prio x.task

def Ranked (sorted : Nat → Prop) (k : Kernel) (q : Contents) : Prop :=
  ∀ w, sorted w → Ascending k.priority (q (.waiting w))

/-! ## The order of the wait lists -/

theorem Ascending.insertSorted {prio : Nat → Nat} {xs : List NodeRef} (h : Ascending prio xs) (t : Nat) :
    Ascending prio (Contents.insertSorted (moreImportant prio t) (.event t) xs) := by
  have hgt : ∀ x, moreImportant prio t x = true → prio t ≤ prio x.task := fun x hx =>
    Nat.le_of_lt (of_decide_eq_true hx)
  have hle : ∀ y, moreImportant prio t y = false → prio y.task ≤ prio t := fun y hy =>
    Nat.le_of_not_lt (of_decide_eq_false hy)
  have hsplit : Ascending prio (xs.takeWhile (moreImportant prio t) ++ xs.dropWhile (moreImportant prio t)) := by
    rwa [List.takeWhile_append_dropWhile]
  refine pairwise_insert (fun _ _ _ h1 h2 => Nat.le_trans h2 h1) hgt hle hsplit ?_ ?_
  · exact fun x hx => List.mem_takeWhile_imp hx
  · intro y hy
    have hdrop := List.head?_dropWhile_not (moreImportant prio t) xs
    rw [hy] at hdrop
    simpa using hdrop

theorem Wakes.ranked (h : Wakes k q k' q') (hr : Ranked sorted k q) : Ranked sorted k' q' := by
  induction h with
  | rest hrest =>
      intro w hw
      rw [hrest.priority]
      exact hr w hw
  | wake _ ht _ ih =>
      apply ih
      intro w hw
      rw [ht.priority]
      exact (hr w hw).sublist List.erase_sublist

theorem Effect.ranked (h : Effect op k q k' q') (hinv : Inv k) (hq : Shows k q) (ht : op.Typed sorted)
    (hr : Ranked sorted k q) : Ranked sorted k' q' := by
  intro w hw
  cases h with
  | wakes h => exact h.ranked hr w hw
  | create hc =>
      refine (hr w hw).imp_of_mem fun {x y} hx hy hxy => ?_
      have hne : ∀ z ∈ q (.waiting w), z.task ≠ k.taskCnt := fun z hz =>
        Nat.ne_of_lt (hinv.of_list (hq.mem.mp hz)).1
      rw [hc.priority, Function.update_of_ne (hne x hx), Function.update_of_ne (hne y hy)]
      exact hxy
  | delay _ _ h =>
      rw [h.priority]
      exact hr w hw
  | @block v wakeupTime t _ _ _ _ _ h =>
      rw [h.priority]
      by_cases hwv : w = v
      · subst hwv
        rw [Contents.wait, Function.update_self]
        exact (hr w hw).insertSorted t
      · rw [Contents.wait, Function.update_of_ne (by simpa using hwv)]
        exact hr w hw
  | @blockUnsorted v wakeupTime t _ _ _ _ _ h =>
      rw [h.priority]
      have hwv : w ≠ v := fun he => ht (he ▸ hw)
      rw [Contents.waitFront, Function.update_of_ne (by simpa using hwv)]
      exact hr w hw
  | switch h =>
      rw [h.priority]
      exact hr w hw

theorem TypedReachable.ranked (h : TypedReachable cfg sorted k) : ∃ q, Shows k q ∧ Ranked sorted k q := by
  induction h with
  | init => exact ⟨_, holds_new _, fun _ _ => List.Pairwise.nil⟩
  | step h ho ht hout ih =>
      obtain ⟨q, hq, hr⟩ := ih
      obtain ⟨q', hq', he⟩ := (h.reachable.inv.effect hq ho).post hout
      exact ⟨q', hq', he.ranked h.reachable.inv hq ht hr⟩

/-! ## The woken task -/

/-- The task `t` is taken out of the wait list. -/
def MadeReady (k : Kernel) (w t : Nat) (k' : Kernel) : Prop :=
  InList k (.event t) (.waiting w) ∧ ¬ InList k' (.event t) (.waiting w)

/-- No task that remains in the wait list is more important than the woken one. -/
def WokenFirst (k : Kernel) (w : Nat) (k' : Kernel) : Prop :=
  ∀ t u, MadeReady k w t k' → InList k' (.event u) (.waiting w) → ¬ isHigherThan (k.priority u) (k.priority t)

/-- A wake-up that this syscall has done already is bypassed. -/
def Bypassed (k : Kernel) : Prop := ∃ t, k.current = some t ∧ k.listTxDone t = true

/-- The tasks of the wait list have one priority. -/
def EquallyImportant (k : Kernel) (w : Nat) : Prop :=
  ∀ t u, InList k (.event t) (.waiting w) → InList k (.event u) (.waiting w) → k.priority t = k.priority u

theorem woken_first_iff (h : TypedReachable cfg sorted k) (hw : sorted w)
    (hout : (rollForwardPopRemoveFromWaitlist cfg w k).out = some ((), k')) :
    WokenFirst k w k' ↔ Bypassed k ∨ EquallyImportant k w := by
  have hinv := h.reachable.inv
  obtain ⟨q, hq, hr⟩ := h.ranked
  have hinv' := ((hinv.wakeFirst w).post hout).1
  cases hcur : k.current with
  | none =>
      have hfail : After (rollForwardPopRemoveFromWaitlist cfg w) (fun _ _ => False) k := by
        simp only [rollForwardPopRemoveFromWaitlist, after_bind, after_bypass, hcur]
        exact nofun
      exact (hfail.post hout).elim
  | some c =>
      by_cases hdone : k.listTxDone c = true
      · have hsame : After (rollForwardPopRemoveFromWaitlist cfg w) (fun _ k' => k' = k) k := by
          simp only [rollForwardPopRemoveFromWaitlist, after_bind, after_bypass]
          intro u hu _
          rw [hcur] at hu
          cases hu
          rw [hdone]
          exact rfl
        obtain rfl := hsame.post hout
        exact iff_of_true (fun t u ht _ => absurd ht.1 ht.2) (Or.inl ⟨c, hcur, hdone⟩)
      · have hdone' := Bool.eq_false_iff.mpr hdone
        have hq' := (hinv.popRemove_shows hq w hcur hdone').post hout
        have hbypass : ¬ Bypassed k := by
          rintro ⟨t, ht, htd⟩
          rw [hcur] at ht
          cases ht
          exact hdone htd
        rw [or_iff_right hbypass]
        unfold WokenFirst MadeReady EquallyImportant
        simp only [hinv.inList_iff, hinv'.inList_iff, ← hq.mem, ← hq'.mem]
        cases hxs : q (.waiting w) with
        | nil => simp
        | cons n xs =>
            have hn : k.lists.list n = some (.waiting w) := hq.mem.mp (by simp [hxs])
            obtain ⟨_, hevent, _⟩ := hinv.waiting hn
            generalize n.task = u at hevent
            subst hevent
            have hrank := hr w hw
            rw [hxs, Ascending, List.pairwise_cons] at hrank
            have hnd := hq.nodup (.waiting w)
            rw [hxs, List.nodup_cons] at hnd
            simp only [List.head?_cons, Contents.wake, NodeRef.task, hxs, List.erase_cons_head, List.mem_cons]
            constructor
            · intro hfirst
              have heq : ∀ v, NodeRef.event v ∈ xs → k.priority v = k.priority u := by
                intro v hv
                have hle := hrank.1 _ hv
                have hge := hfirst u v ⟨Or.inl rfl, hnd.1⟩ hv
                unfold isHigherThan at hge
                exact Nat.le_antisymm hle (Nat.le_of_not_lt hge)
              rintro t v (ht | ht) (hv | hv)
              · cases ht
                cases hv
                rfl
              · cases ht
                exact (heq v hv).symm
              · cases hv
                exact heq t ht
              · rw [heq t ht, heq v hv]
            · rintro hequal t v ⟨ht, _⟩ hv hlt
              unfold isHigherThan at hlt
              rw [hequal v t (Or.inr hv) ht] at hlt
              exact Nat.lt_irrefl _ hlt

/-! ## A run -/

/-- A task of the highest priority waits, and then one of a lower priority. -/
def twoWaiters : Kernel :=
  Op.taskSwitch.exec qemuDebug ((Op.block 5 9).exec qemuDebug (Op.taskSwitch.exec qemuDebug
    ((Op.block 5 9).exec qemuDebug (Op.startKernel.exec qemuDebug ((Op.createTask 7).exec qemuDebug
      ((Op.createTask 3).exec qemuDebug ((Op.createTask 0).exec qemuDebug (new qemuDebug))))))))

theorem typedReachable_twoWaiters : TypedReachable qemuDebug (fun _ => True) twoWaiters := by
  have hinit : TypedReachable qemuDebug (fun _ => True) (new qemuDebug) := .init
  have hstart := (((hinit.exec (.createTask 0) trivial trivial rfl).exec (.createTask 3) trivial trivial rfl).exec
    (.createTask 7) trivial trivial rfl).exec .startKernel trivial trivial rfl
  have hfirst := (hstart.exec (.block 5 9) (fun t ht => by cases ht; exact nofun) trivial rfl).exec .taskSwitch rfl
    trivial rfl
  exact (hfirst.exec (.block 5 9) (fun t ht => by cases ht; exact nofun) trivial rfl).exec .taskSwitch rfl trivial rfl

/-- They have different priorities, and no wake-up is bypassed. -/
theorem woken_first_iff_twoWaiters :
    ∃ k', (rollForwardPopRemoveFromWaitlist qemuDebug 5 twoWaiters).out = some ((), k') ∧
    ¬ WokenFirst twoWaiters 5 k' := by
  have hsome : (rollForwardPopRemoveFromWaitlist qemuDebug 5 twoWaiters).out.isSome = true := rfl
  obtain ⟨⟨_, k'⟩, hout⟩ := Option.isSome_iff_exists.mp hsome
  refine ⟨k', hout, fun hfirst => ?_⟩
  rcases (woken_first_iff typedReachable_twoWaiters trivial hout).mp hfirst with ⟨t, ht, hdone⟩ | hequal
  · cases ht
    cases hdone
  · have hinv := typedReachable_twoWaiters.reachable.inv
    have hsame := hequal 0 1 (hinv.inList_iff.mpr rfl) (hinv.inList_iff.mpr rfl)
    cases hsame

/-- The task of priority 3 is woken, and the one of priority 0 goes on waiting. -/
theorem least_important_woken_first : TypedReachable qemuDebug (fun _ => True) twoWaiters ∧
    ∃ k', (rollForwardPopRemoveFromWaitlist qemuDebug 5 twoWaiters).out = some ((), k') ∧
      MadeReady twoWaiters 5 1 k' ∧ InList k' (.event 0) (.waiting 5) ∧
      isHigherThan (twoWaiters.priority 0) (twoWaiters.priority 1) := by
  have hout : (rollForwardPopRemoveFromWaitlist qemuDebug 5 twoWaiters).out =
      some ((), (Op.wake 5).exec qemuDebug twoWaiters) := rfl
  have hk := typedReachable_twoWaiters.reachable
  have hk' := hk.exec (.wake 5) trivial rfl
  refine ⟨typedReachable_twoWaiters, _, hout, ⟨?_, ?_⟩, ?_, ?_⟩
  · exact hk.inv.inList_iff.mpr rfl
  · rw [hk'.inv.inList_iff]
    exact nofun
  · exact hk'.inv.inList_iff.mpr rfl
  · unfold isHigherThan
    decide +kernel

end Kernel

end IntOS
