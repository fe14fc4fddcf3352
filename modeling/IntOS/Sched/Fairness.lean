import IntOS.Sched.Selection

/-!
# Turns within a priority

Between two choices of one task every other task of its ring has its turn, except where the cursor has come to
a task because the one before it was removed: `task_switch` takes the task after the cursor and passes it over.
-/

namespace IntOS

open Persist Persist.Prog IntOS.Lists

namespace Kernel

variable {cfg : Config} {k k' k₀ : Kernel} {q q' : Contents} {op : Op} {p x y : Nat} {ks : List Kernel}

/-- A run from a choice of `x` in the state `k₀`. The task `y` stays in their ring, and neither of them is
chosen again; `ks` are the states before the other choices. -/
inductive Stretch (cfg : Config) (p x y : Nat) (k₀ : Kernel) : List Kernel → Kernel → Prop
  | selected {k : Kernel} : Reachable cfg k₀ → k₀.schedulerStarted = true → nextTask k₀ = some (p, x) → x ≠ y →
      InList k₀ (.sched y) (.ready p) → (taskSwitch cfg k₀).out = some ((), k) → Stretch cfg p x y k₀ [] k
  | switch {ks : List Kernel} {k k' : Kernel} : Stretch cfg p x y k₀ ks k → k.schedulerStarted = true →
      nextTask k ≠ some (p, x) → nextTask k ≠ some (p, y) → (taskSwitch cfg k).out = some ((), k') →
      Stretch cfg p x y k₀ (ks ++ [k]) k'
  | other {ks : List Kernel} {k k' : Kernel} {op : Op} : Stretch cfg p x y k₀ ks k → op ≠ .taskSwitch →
      op.Enabled k → (op.prog cfg k).out = some ((), k') → InList k' (.sched y) (.ready p) →
      Stretch cfg p x y k₀ ks k'

/-- The cursor is on `y`, which is not alone, so that the task after it is chosen. -/
def PassedOver (k : Kernel) (p y : Nat) : Prop :=
  Highest k p ∧ k.lists.cursor (.ready p) = some (.sched y) ∧ k.lists.len (.ready p) ≠ 1

/-! ## The order in a ring -/

/-- After the task under the cursor, `x` does not come before `y`. -/
def Ahead {α : Type} (x y : α) (r : List α) : Prop := ∃ as bs, r = as ++ y :: bs ∧ x ∉ as.tail

section
variable {α : Type} {x y z : α} {r : List α}

theorem Ahead.append (h : Ahead x y r) (z : α) : Ahead x y (r ++ [z]) := by
  obtain ⟨as, bs, rfl, hx⟩ := h
  exact ⟨as, bs ++ [z], by simp, hx⟩

theorem Ahead.erase [DecidableEq α] (h : Ahead x y r) (hz : z ≠ y) : Ahead x y (r.erase z) := by
  obtain ⟨as, bs, rfl, hx⟩ := h
  by_cases hza : z ∈ as
  · refine ⟨as.erase z, bs, List.erase_append_left _ hza, fun hm => hx ?_⟩
    cases as with
    | nil => cases hza
    | cons a as =>
        by_cases haz : a = z
        · subst haz
          rw [List.erase_cons_head] at hm
          exact List.mem_of_mem_tail hm
        · rw [List.erase_cons_tail (by simpa using haz)] at hm
          exact List.mem_of_mem_erase hm
  · refine ⟨as, bs.erase z, ?_, hx⟩
    rw [List.erase_append_right _ hza, List.erase_cons_tail (by simpa using Ne.symm hz)]

/-- The cursor moves on, from another task than `y`. -/
theorem Ahead.rotate (h : Ahead x y r) (hy : r.head? ≠ some y) : Ahead x y (r.rotate 1) := by
  obtain ⟨as, bs, rfl, hx⟩ := h
  cases as with
  | nil => exact absurd rfl hy
  | cons a as => exact ⟨as, bs ++ [a], by simp, fun hm => hx (List.mem_of_mem_tail hm)⟩

/-- The task after the cursor is not `x`. -/
theorem Ahead.next (h : Ahead x y r) (hne : x ≠ y) (hy : r.head? ≠ some y) : (r.rotate 1).head? ≠ some x := by
  obtain ⟨as, bs, rfl, hx⟩ := h
  cases as with
  | nil => exact absurd rfl hy
  | cons a as =>
      cases as with
      | nil => simpa using Ne.symm hne
      | cons b as =>
          intro he
          have hb : b = x := by simpa using he
          exact hx (by simp [hb])

theorem Ahead.of_head (hx : r.head? = some x) (hy : y ∈ r) (hne : x ≠ y) (hnd : r.Nodup) : Ahead x y r := by
  obtain ⟨xs, rfl⟩ : ∃ xs, r = x :: xs := ⟨_, List.eq_cons_of_mem_head? hx⟩
  obtain ⟨as, bs, rfl⟩ := List.append_of_mem ((List.mem_cons.mp hy).resolve_left hne.symm)
  refine ⟨x :: as, bs, rfl, fun hm => (List.nodup_cons.mp hnd).1 ?_⟩
  exact List.mem_append_left _ hm

end

/-! ## What the operations do to it -/

theorem Wakes.ahead (h : Wakes k q k' q') {m n : NodeRef} (ha : Ahead m n (q (.ready p))) :
    Ahead m n (q' (.ready p)) := by
  induction h with
  | rest _ => exact ha
  | wake _ _ _ ih =>
      apply ih
      rw [Contents.wake]
      split
      · exact ha.append _
      · exact ha

/-- Only `task_switch` moves the cursor on. -/
theorem Effect.ahead (h : Effect op k q k' q') (hop : op ≠ .taskSwitch) (hy : NodeRef.sched y ∈ q' (.ready p))
    (hnd : (q (.ready p)).Nodup) {m : NodeRef} (ha : Ahead m (.sched y) (q (.ready p))) :
    Ahead m (.sched y) (q' (.ready p)) := by
  have herase : ∀ t, NodeRef.sched y ∈ (q (.ready p)).erase (.sched t) →
      Ahead m (.sched y) ((q (.ready p)).erase (.sched t)) := by
    intro t ht
    exact ha.erase fun he => (hnd.mem_erase_iff.mp ht).1 he.symm
  cases h with
  | wakes h => exact h.ahead ha
  | create _ =>
      rw [Contents.join]
      split
      · exact ha.append _
      · exact ha
  | delay _ _ _ => exact herase _ hy
  | block _ _ _ =>
      rw [Contents.wait, Function.update_of_ne (by simp)] at hy ⊢
      exact herase _ hy
  | blockUnsorted _ _ _ =>
      rw [Contents.waitFront, Function.update_of_ne (by simp)] at hy ⊢
      exact herase _ hy
  | switch _ => exact absurd rfl hop

theorem Stretch.reachable (h : Stretch cfg p x y k₀ ks k) : Reachable cfg k := by
  induction h with
  | selected h₀ hst _ _ _ hout => exact h₀.switched hst hout
  | switch _ hst _ _ hout ih => exact ih.switched hst hout
  | other _ _ ho hout _ ih => exact ih.step ho hout

theorem Stretch.ne (h : Stretch cfg p x y k₀ ks k) : x ≠ y := by
  induction h with
  | selected _ _ _ hxy _ _ => exact hxy
  | switch _ _ _ _ _ ih => exact ih
  | other _ _ _ _ _ ih => exact ih

/-- With `y` under the cursor, another task of the ring is chosen only if `y` is passed over. -/
theorem Shows.passedOver (hq : Shows k q) (hinv : Inv k) {t : Nat} (hk : Kernel.nextTask k = some (p, t))
    (hty : t ≠ y) (hhead : (q (.ready p)).head? = some (.sched y)) : PassedOver k p y := by
  obtain ⟨_, hhighest, hnext⟩ := (hq.nextTask_iff hinv).mp hk
  rw [hq.peekNext] at hnext
  refine ⟨hhighest, by rw [hq.cursor, hhead], fun hlen => ?_⟩
  rw [hq.len, List.length_eq_one_iff] at hlen
  obtain ⟨n, hn⟩ := hlen
  rw [hn] at hhead hnext
  cases hhead
  rw [List.rotate_singleton] at hnext
  cases hnext
  exact hty rfl

/-- Where `x` and `y` are in their ring, as long as `y` is not passed over. -/
theorem Stretch.ahead (h : Stretch cfg p x y k₀ ks k) (hfirst : k₀.current ≠ some x)
    (hturn : ∀ s ∈ ks, ¬ PassedOver s p y) :
    ∃ q, Shows k q ∧ NodeRef.sched y ∈ q (.ready p) ∧ Ahead (.sched x) (.sched y) (q (.ready p)) := by
  induction h with
  | selected h₀ hst hk hxy hy hout =>
      have hinv := h₀.inv
      obtain ⟨q, hq⟩ := hinv.shows
      rw [hinv.inList_iff, ← hq.mem] at hy
      obtain ⟨prevTask, i, t, hcur, hk', hcase⟩ := (hinv.taskSwitch_chooses hq).post hout
      rw [hk] at hk'
      cases hk'
      rcases hcase with ⟨rfl, _⟩ | ⟨hs, hq'⟩
      · exact absurd hcur hfirst
      · obtain ⟨_, hhead⟩ := hs.first hinv hq
        have hmem : NodeRef.sched y ∈ q.turn p (.ready p) := by
          rw [Contents.turn, Function.update_self, List.mem_rotate]
          exact hy
        exact ⟨_, hq', hmem, .of_head hhead hmem (by simpa using hxy) (hq'.nodup _)⟩
  | @switch ks k k' hr hst hnx hny hout ih =>
      have hinv := hr.reachable.inv
      obtain ⟨q, hq, hy, ha⟩ := ih fun s hs => hturn s (List.mem_append_left _ hs)
      have hnot := hturn k (by simp)
      obtain ⟨prevTask, i, t, hcur, hk, ⟨_, rfl⟩ | ⟨hs, hq'⟩⟩ := (hinv.taskSwitch_chooses hq).post hout
      · exact ⟨q, hq, hy, ha⟩
      · refine ⟨_, hq', ?_⟩
        by_cases hip : i = p
        · subst hip
          rw [Contents.turn, Function.update_self, List.mem_rotate]
          refine ⟨hy, ha.rotate fun hhead => hnot (hq.passedOver hinv hk ?_ hhead)⟩
          rintro rfl
          exact hny hk
        · rw [Contents.turn, Function.update_of_ne (by simpa using Ne.symm hip)]
          exact ⟨hy, ha⟩
  | other hr hop ho hout hy ih =>
      have hinv := hr.reachable.inv
      obtain ⟨q, hq, _, ha⟩ := ih hturn
      obtain ⟨q', hq', he⟩ := (hinv.effect hq ho).post hout
      have hinv' := (hr.reachable.step ho hout).inv
      rw [hinv'.inList_iff, ← hq'.mem] at hy
      exact ⟨q', hq', hy, he.ahead hop hy (hq.nodup _) ha⟩

theorem round_robin (h : Stretch cfg p x y k₀ ks k) (hfirst : k₀.current ≠ some x)
    (hturn : ∀ s ∈ ks ++ [k], ¬ PassedOver s p y) : nextTask k ≠ some (p, x) := by
  intro hk
  have hinv := h.reachable.inv
  obtain ⟨q, hq, _, ha⟩ := h.ahead hfirst fun s hs => hturn s (List.mem_append_left _ hs)
  have hxy : x ≠ y := h.ne
  obtain ⟨_, _, hnext⟩ := (hq.nextTask_iff hinv).mp hk
  rw [hq.peekNext] at hnext
  refine ha.next (by simpa using hxy) (fun hhead => ?_) hnext
  exact hturn k (by simp) (hq.passedOver hinv hk hxy hhead)

/-! ## Runs -/

theorem Stretch.exec (h : Stretch cfg p x y k₀ ks k) (op : Op) (hop : op ≠ .taskSwitch) (ho : op.Enabled k)
    (hsome : (op.prog cfg k).out.isSome = true)
    (hlist : (op.exec cfg k).lists.list (.sched y) = some (.ready p)) : Stretch cfg p x y k₀ ks (op.exec cfg k) := by
  have hinv := (h.reachable.exec op ho hsome).inv
  exact h.other hop ho (Op.out_exec _ hsome) (hinv.inList_iff.mpr hlist)

/-- Three tasks of one priority, each of which has run. -/
def threeTasks : Kernel :=
  Op.taskSwitch.exec qemuDebug (Op.taskSwitch.exec qemuDebug (Op.startKernel.exec qemuDebug
    ((Op.createTask 3).exec qemuDebug ((Op.createTask 3).exec qemuDebug ((Op.createTask 3).exec qemuDebug
      (new qemuDebug))))))

theorem reachable_threeTasks : Reachable qemuDebug threeTasks := by
  have hinit : Reachable qemuDebug (new qemuDebug) := .init
  have hstart := (((hinit.exec (.createTask 3) trivial rfl).exec (.createTask 3) trivial rfl).exec (.createTask 3)
    trivial rfl).exec .startKernel trivial rfl
  exact (hstart.exec .taskSwitch rfl rfl).exec .taskSwitch rfl rfl

/-- The first task is chosen again. -/
def turned : Kernel := Op.taskSwitch.exec qemuDebug threeTasks

theorem stretch_turned {y : Nat} (hy : 0 ≠ y) (hlist : threeTasks.lists.list (.sched y) = some (.ready 3)) :
    Stretch qemuDebug 3 0 y threeTasks [] turned := by
  refine .selected reachable_threeTasks rfl (by decide +kernel) hy ?_ (Op.taskSwitch.out_exec rfl)
  exact reachable_threeTasks.inv.inList_iff.mpr hlist

theorem round_robin_threeTasks :
    nextTask (Op.taskSwitch.exec qemuDebug turned) ≠ some (3, 0) := by
  have hfirst := stretch_turned (y := 2) (by decide) (by decide +kernel)
  have hnext : nextTask turned = some (3, 1) := by decide +kernel
  have hlater := hfirst.switch rfl (by rw [hnext]; decide) (by rw [hnext]; decide)
    (Op.taskSwitch.out_exec rfl)
  refine round_robin hlater (by decide +kernel) fun s hs => ?_
  simp only [List.nil_append, List.cons_append, List.mem_cons, List.not_mem_nil, or_false] at hs
  rintro ⟨_, hcursor, _⟩
  rcases hs with rfl | rfl
  · exact absurd hcursor (by decide +kernel)
  · exact absurd hcursor (by decide +kernel)

/-- Task 0 waits, task 2 runs, wakes it and waits as well: both times the cursor has come to task 1. -/
theorem second_task_starves : ∃ ks k, Stretch qemuDebug 3 0 1 threeTasks ks k ∧ k.schedulerStarted = true ∧
    nextTask k = some (3, 0) := by
  have hfirst := stretch_turned (y := 1) (by decide) (by decide +kernel)
  have hblock := hfirst.exec (.block 5 9) nofun (fun t ht => by cases ht; exact nofun) rfl (by decide +kernel)
  have hnext : nextTask ((Op.block 5 9).exec qemuDebug turned) = some (3, 2) := by decide +kernel
  have hswitch := hblock.switch rfl (by rw [hnext]; decide) (by rw [hnext]; decide)
    (Op.taskSwitch.out_exec rfl)
  have hwake := hswitch.exec (.wake 5) nofun trivial rfl (by decide +kernel)
  have hagain := hwake.exec (.block 6 9) nofun (fun t ht => by cases ht; exact nofun) rfl (by decide +kernel)
  exact ⟨_, _, hagain, rfl, by decide +kernel⟩

end Kernel

end IntOS
