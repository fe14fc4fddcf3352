import IntOS.Sched.Lemmas.Contents
import IntOS.Sched.NextUnblock

/-!
# The tasks that a tick wakes

`process_tick` takes the front of the delayed list until it meets a task that is not due. Which tasks that are is
read off the lists before the tick.
-/

namespace IntOS

open Persist Persist.Prog IntOS.Lists

namespace Contents

/-- The tasks `ts` wake up, in this order. -/
def wakeAll (prio : Nat → Nat) (ts : List Nat) (q : Contents) : Contents
  | .ready p => q (.ready p) ++ (ts.filter fun t => prio t = p).map NodeRef.sched
  | .delayed => (q .delayed).filter fun x => x ∉ ts.map NodeRef.sched
  | .waiting w => (q (.waiting w)).filter fun x => x ∉ ts.map NodeRef.event

/-- The delayed tasks that are due at the tick `cur`. -/
def due (wk : Nat → Nat) (cur : Nat) (q : Contents) : List Nat :=
  ((q .delayed).map NodeRef.task).filter fun t => wk t ≤ cur

variable {prio wk : Nat → Nat} {cur t : Nat} {ts : List Nat} {q : Contents} {x : NodeRef} {xs : List NodeRef}

theorem wakeAll_nil : wakeAll prio [] q = q := by
  funext l
  cases l <;> simp [wakeAll]

theorem filter_erase {ns : List NodeRef} (hnd : xs.Nodup) (n : NodeRef) :
    (xs.erase n).filter (fun x => x ∉ ns) = xs.filter fun x => x ∉ n :: ns := by
  rw [hnd.erase_eq_filter, List.filter_filter]
  congr 1
  funext x
  by_cases hx : x = n <;> simp [hx]

theorem wakeAll_cons (hnd : ∀ l, (q l).Nodup) : wakeAll prio (t :: ts) q = wakeAll prio ts (q.wake prio t) := by
  funext l
  cases l with
  | ready p =>
      by_cases hp : p = prio t
      · simp [wakeAll, wake, hp]
      · simp [wakeAll, wake, hp, Ne.symm hp]
  | delayed => exact (filter_erase (hnd .delayed) _).symm
  | waiting w => exact (filter_erase (hnd (.waiting w)) _).symm

theorem due_cons (hd : q .delayed = x :: xs) (hx : wk x.task ≤ cur) (hwake : q.wake prio x.task .delayed = xs) :
    q.due wk cur = x.task :: (q.wake prio x.task).due wk cur := by
  simp [due, hd, hx, hwake]

theorem due_nil (hlater : ∀ x ∈ q .delayed, cur < wk x.task) : q.due wk cur = [] := by
  simpa [due] using hlater

end Contents

namespace Kernel

/-- The delayed list is sorted, and each of its tasks is perhaps in one wait list. -/
structure Sleepers (k : Kernel) (q : Contents) : Prop where
  shows : Shows k q
  sorted : (q .delayed).Pairwise fun x y => k.wakeupTime x.task ≤ k.wakeupTime y.task
  sched : ∀ x ∈ q .delayed, x = .sched x.task ∧ x.task < k.taskCnt
  waits : ∀ x ∈ q .delayed, ∀ l, .event x.task ∈ q l → ∃ w, l = .waiting w

/-- The tasks `ts` are awake, and nothing else has changed. -/
structure Woken (k : Kernel) (q : Contents) (ts : List Nat) (k' : Kernel) : Prop where
  shows : Shows k' (q.wakeAll k.priority ts)
  status : ∀ t, k'.status t = if t ∈ ts then .ready else k.status t
  others : k' = { k with
    lists := k'.lists
    blockNodePtr := k'.blockNodePtr
    op := k'.op
    status := k'.status }

/-- `v` is the least wakeup time of `xs`, or `MAX_DELAY_TIME`. -/
def IsNextUnblock (cfg : Config) (wk : Nat → Nat) (xs : List NodeRef) (v : Nat) : Prop :=
  IsLeast { w | ∃ x ∈ xs, wk x.task = w } v ∨ xs = [] ∧ v = cfg.maxDelayTime

/-- What the tick `cur` leaves. -/
structure Ticked (cfg : Config) (cur : Nat) (k : Kernel) (q : Contents) (k' : Kernel) : Prop where
  shows : Shows k' (q.wakeAll k.priority (q.due k.wakeupTime cur))
  status : ∀ t, k'.status t = if t ∈ q.due k.wakeupTime cur then .ready else k.status t
  others : k' = { k with
    lists := k'.lists
    blockNodePtr := k'.blockNodePtr
    op := k'.op
    status := k'.status
    tickCounter := cur
    nextUnblockTime := k'.nextUnblockTime }
  timely : ∀ x ∈ q .delayed, cur < k.wakeupTime x.task → k'.nextUnblockTime ≤ k.wakeupTime x.task
  nextUnblock : if k.nextUnblockTime ≤ cur then
      IsNextUnblock cfg k.wakeupTime ((q .delayed).filter fun x => cur < k.wakeupTime x.task) k'.nextUnblockTime
    else k'.nextUnblockTime = k.nextUnblockTime

variable {cfg : Config} {k k' : Kernel} {q : Contents} {cur t u : Nat} {ts : List Nat} {x : NodeRef}
  {xs : List NodeRef}

theorem Inv.sleepers (h : Inv k) : ∃ q, Sleepers k q := by
  obtain ⟨q, hq, hsorted⟩ := h.linked
  have hshows : Shows k q := hq
  refine ⟨q, hshows, hsorted, fun x hx => ?_, fun x hx l hl => ?_⟩
  · obtain ⟨hlt, hsched, _⟩ := h.of_list (hshows.mem.mp hx)
    exact ⟨hsched, hlt⟩
  · obtain ⟨_, hl⟩ := h.of_list (hshows.mem.mp hl)
    cases l with
    | ready p => cases hl.1
    | delayed => cases hl.1
    | waiting w => exact ⟨w, rfl⟩

/-! ## One task -/

theorem Sleepers.front (h : Sleepers k q) (hd : q .delayed = x :: xs) :
    x = .sched x.task ∧ q.wake k.priority x.task .delayed = xs := by
  have hx := (h.sched x (by simp [hd])).1
  refine ⟨hx, ?_⟩
  rw [Contents.wake, ← hx, hd, List.erase_cons_head]

theorem Sleepers.removeFromDelaylist (h : Sleepers k q) (hd : q .delayed = x :: xs) :
    Ends (rollForwardRemoveFromDelaylist cfg) (fun _ k' => Sleepers k' (q.wake k.priority x.task) ∧ k' = { k with
      lists := k'.lists
      op := .invalid
      status := Function.update k.status x.task .ready }) k := by
  obtain ⟨hx, hwake⟩ := h.front hd
  have hmem : x ∈ q .delayed := by simp [hd]
  have hfront : q .delayed = .sched x.task :: xs := by rw [hd, ← hx]
  have hwait : ∀ l, k.lists.list (.event x.task) = some l → ∃ w, l = .waiting w := fun l hl =>
    h.waits x hmem l (h.shows.mem.mpr hl)
  refine (h.shows.removeFromDelaylist hfront hwait).mono ?_
  rintro _ k' ⟨hq', hk'⟩
  have hsub : ∀ y ∈ q.wake k.priority x.task .delayed, y ∈ q .delayed := by
    rw [hwake, hd]
    exact fun y => List.mem_cons_of_mem x
  refine ⟨⟨hq', ?_, fun y hy => ?_, fun y hy l hl => ?_⟩, hk'⟩
  · have hsorted := h.sorted
    rw [hd] at hsorted
    rw [hk', hwake]
    exact hsorted.of_cons
  · rw [hk']
    exact h.sched y (hsub y hy)
  · cases l with
    | ready p =>
        have hin : .event y.task ∈ q (.ready p) := by
          by_cases hp : p = k.priority x.task
          · simpa [Contents.wake, hp] using hl
          · simpa [Contents.wake, hp] using hl
        exact h.waits y (hsub y hy) _ hin
    | delayed => exact h.waits y (hsub y hy) _ (hsub _ hl)
    | waiting w => exact ⟨w, rfl⟩

/-! ## The loop -/

theorem Sleepers.none_due (h : Sleepers k q) (hd : q .delayed = x :: xs) (hx : cur < k.wakeupTime x.task) :
    ∀ y ∈ q .delayed, cur < k.wakeupTime y.task := by
  have hsorted := h.sorted
  rw [hd] at hsorted ⊢
  intro y hy
  rcases List.mem_cons.mp hy with rfl | hy
  · exact hx
  · exact Nat.lt_of_lt_of_le hx ((List.pairwise_cons.mp hsorted).1 y hy)

theorem Shows.woken (h : Shows k q) : Woken k q [] k := by
  refine ⟨?_, fun t => by simp, rfl⟩
  rw [Contents.wakeAll_nil]
  exact h

theorem Woken.cons {k₁ : Kernel} {s : Lists NodeRef ListRef} {p : Option NodeRef} {o : ListTxOpCode}
    (hnd : ∀ l, (q l).Nodup)
    (hk₁ : k₁ = { k with lists := s, blockNodePtr := p, op := o, status := Function.update k.status t .ready })
    (h : Woken k₁ (q.wake k.priority t) ts k') : Woken k q (t :: ts) k' := by
  subst hk₁
  refine ⟨?_, fun u => ?_, h.others⟩
  · rw [Contents.wakeAll_cons hnd]
    exact h.shows
  · rw [h.status u]
    by_cases hu : u = t
    · simp [hu]
    · simp [hu]

/-- The loop ends where the delayed list has no task left that is due. -/
theorem Sleepers.wakeDue {fuel : Nat} (h : Sleepers k q) (hfuel : (q .delayed).length < fuel) :
    Ends (Kernel.wakeDue cfg cur fuel) (fun _ k' => Sleepers k' (q.wakeAll k.priority (q.due k.wakeupTime cur)) ∧
      Woken k q (q.due k.wakeupTime cur) k') k := by
  induction fuel generalizing k q with
  | zero => exact absurd hfuel (Nat.not_lt_zero _)
  | succ fuel ih =>
      simp only [Kernel.wakeDue, ends_bind, ends_gets, h.shows.head (l := .delayed) id]
      cases hd : q .delayed with
      | nil =>
          rw [Contents.due_nil (by simp [hd]), Contents.wakeAll_nil]
          exact ⟨h, h.shows.woken⟩
      | cons x xs =>
          simp only [List.head?_cons, ends_bind, ends_gets]
          split
          case isTrue hlater =>
            rw [Contents.due_nil (h.none_due hd hlater), Contents.wakeAll_nil]
            exact ⟨h, h.shows.woken⟩
          case isFalse hdue =>
            obtain ⟨_, hwake⟩ := h.front hd
            have hnd := h.shows.nodup
            rw [ends_bind, Contents.due_cons hd (Nat.le_of_not_lt hdue) hwake, Contents.wakeAll_cons hnd]
            refine (h.removeFromDelaylist hd).mono ?_
            rintro _ k₁ ⟨h₁, hk₁⟩
            have hlen : ((q.wake k.priority x.task) .delayed).length < fuel := by
              rw [hd] at hfuel
              rw [hwake]
              exact Nat.lt_of_succ_lt_succ hfuel
            have hprio : k₁.priority = k.priority := by rw [hk₁]
            have hwk : k₁.wakeupTime = k.wakeupTime := by rw [hk₁]
            have hloop := ih h₁ hlen
            rw [hprio, hwk] at hloop
            refine hloop.mono ?_
            rintro _ k' ⟨h', hk'⟩
            exact ⟨h', hk'.cons hnd hk₁⟩

/-! ## The tick -/

theorem tasks_length_le (hnd : ts.Nodup) (hlt : ∀ t ∈ ts, t < k.taskCnt) : ts.length ≤ nodeBound k := by
  have hlen := (hnd.subperm fun t ht => List.mem_range.mpr (hlt t ht)).length_le
  rw [List.length_range] at hlen
  unfold nodeBound
  omega

theorem Sleepers.length_le (h : Sleepers k q) : (q .delayed).length ≤ nodeBound k := by
  have hnd : ((q .delayed).map NodeRef.task).Nodup := by
    refine (h.shows.nodup .delayed).map_on fun x hx y hy he => ?_
    rw [(h.sched x hx).1, (h.sched y hy).1, he]
  have hlt : ∀ t ∈ (q .delayed).map NodeRef.task, t < k.taskCnt := by
    intro t ht
    obtain ⟨x, hx, rfl⟩ := List.mem_map.mp ht
    exact (h.sched x hx).2
  have hlen := tasks_length_le hnd hlt
  rwa [List.length_map] at hlen

theorem Sleepers.first_le (h : Sleepers k q) (htimely : ∀ x, (q .delayed).head? = some x → u ≤ k.wakeupTime x.task) :
    ∀ x ∈ q .delayed, u ≤ k.wakeupTime x.task := by
  have hsorted := h.sorted
  cases hd : q .delayed with
  | nil => simp
  | cons x xs =>
      rw [hd] at hsorted htimely
      intro y hy
      have hx := htimely x rfl
      rcases List.mem_cons.mp hy with rfl | hy
      · exact hx
      · exact Nat.le_trans hx ((List.pairwise_cons.mp hsorted).1 y hy)

/-- The front of a sorted list has the least wakeup time. -/
theorem isNextUnblock_head (cfg : Config) {wk : Nat → Nat} (hs : xs.Pairwise fun x y => wk x.task ≤ wk y.task) :
    IsNextUnblock cfg wk xs ((xs.head?.map fun n => wk n.task).getD cfg.maxDelayTime) := by
  cases xs with
  | nil => exact Or.inr ⟨rfl, rfl⟩
  | cons x xs =>
      refine Or.inl ⟨⟨x, List.mem_cons_self, rfl⟩, ?_⟩
      rintro _ ⟨y, hy, rfl⟩
      rcases List.mem_cons.mp hy with rfl | hy
      · exact Nat.le_refl _
      · exact (List.pairwise_cons.mp hs).1 y hy

theorem Sleepers.left (h : Sleepers k q) : q.wakeAll k.priority (q.due k.wakeupTime cur) .delayed =
    (q .delayed).filter fun x => cur < k.wakeupTime x.task := by
  refine List.filter_congr fun x hx => ?_
  have hiff : x ∈ (q.due k.wakeupTime cur).map NodeRef.sched ↔ k.wakeupTime x.task ≤ cur := by
    constructor
    · intro hmem
      obtain ⟨t, ht, rfl⟩ := List.mem_map.mp hmem
      simpa [NodeRef.task] using (List.mem_filter.mp ht).2
    · intro hle
      refine List.mem_map.mpr ⟨x.task, ?_, (h.sched x hx).1.symm⟩
      exact List.mem_filter.mpr ⟨List.mem_map_of_mem hx, by simpa using hle⟩
  rw [decide_eq_decide, hiff, Nat.not_le]

theorem Woken.ticked {v : Nat} (h : Woken { k with tickCounter := cur } q (q.due k.wakeupTime cur) k')
    (hlate : k.nextUnblockTime ≤ cur)
    (hv : IsNextUnblock cfg k.wakeupTime ((q .delayed).filter fun x => cur < k.wakeupTime x.task) v) :
    Ticked cfg cur k q { k' with nextUnblockTime := v } := by
  refine ⟨h.shows, h.status, ?_, fun x hx hlater => ?_, ?_⟩
  · exact congrArg (fun r : Kernel => { r with nextUnblockTime := v }) h.others
  · have hmem : x ∈ (q .delayed).filter fun x => cur < k.wakeupTime x.task :=
      List.mem_filter.mpr ⟨hx, by simpa using hlater⟩
    rcases hv with hleast | ⟨hnil, _⟩
    · exact hleast.2 ⟨x, hmem, rfl⟩
    · rw [hnil] at hmem
      cases hmem
  · rw [if_pos hlate]
    exact hv

theorem Sleepers.processTick (h : Sleepers k q)
    (htimely : ∀ x, (q .delayed).head? = some x → k.nextUnblockTime ≤ k.wakeupTime x.task)
    (hroom : cfg.debugAssertions → k.tickCounter + 1 < 2 ^ cfg.timeBits) :
    Ends (Kernel.processTick cfg) (fun _ => Ticked cfg ((k.tickCounter + 1) % 2 ^ cfg.timeBits) k q) k := by
  have hle := h.first_le htimely
  simp only [Kernel.processTick, incTick, ends_bind, ends_gets, ends_check, ends_store, ends_pure]
  refine ⟨hroom, ?_⟩
  generalize (k.tickCounter + 1) % 2 ^ cfg.timeBits = cur
  split
  case isTrue hlate =>
    have h₀ : Sleepers { k with tickCounter := cur } q := ⟨h.shows, h.sorted, h.sched, h.waits⟩
    simp only [ends_bind, ends_gets]
    refine (h₀.wakeDue (Nat.lt_succ_of_le h₀.length_le)).mono ?_
    rintro _ k' ⟨h', hk'⟩
    have hwk : k'.wakeupTime = k.wakeupTime := by rw [hk'.others]
    have hhead := hk'.shows.head (l := .delayed) id
    have hsorted := h'.sorted
    rw [h₀.left] at hhead hsorted
    rw [hwk] at hsorted
    have hnext := isNextUnblock_head cfg hsorted
    simp only [ends_bind, ends_gets, ends_store, hhead]
    simpa only [hwk] using hk'.ticked hlate hnext
  case isFalse hearly =>
    have hlater : ∀ x ∈ q .delayed, cur < k.wakeupTime x.task := fun x hx =>
      Nat.lt_of_lt_of_le (Nat.lt_of_not_le hearly) (hle x hx)
    refine ⟨?_, fun t => ?_, rfl, fun x hx _ => hle x hx, ?_⟩
    · rw [Contents.due_nil hlater, Contents.wakeAll_nil]
      exact h.shows
    · simp [Contents.due_nil hlater]
    · rw [if_neg hearly]

/-- What `task_switch` leaves: the next task runs already, or the cursor of its ring moves on to it. -/
inductive SwitchedOn (k : Kernel) (q : Contents) : Kernel → Prop
  | same {t i : Nat} : k.current = some t → nextTask k = some (i, t) → SwitchedOn k q k
  | other {prevTask t i : Nat} {k' : Kernel} : k.current = some prevTask → nextTask k = some (i, t) → t ≠ prevTask →
      Shows k' (q.turn i) → k' = { k with
        lists := k'.lists
        taskPtr := some prevTask
        status := Function.update (Function.update k.status t .running) prevTask
          (if k.status prevTask = .blocked then .blocked else .ready)
        current := some t } → SwitchedOn k q k'

theorem Shows.ring_of_nextTask (hq : Shows k q) {i : Nat} (hk : nextTask k = some (i, t)) : q (.ready i) ≠ [] := by
  obtain ⟨j, _, hj⟩ := List.exists_of_findSome?_eq_some hk
  obtain ⟨n, hn, heq⟩ := Option.map_eq_some_iff.mp hj
  cases heq
  intro hnil
  rw [hq.peekNext, hnil] at hn
  cases hn

theorem Shows.taskSwitch (hq : Shows k q) : After (Kernel.taskSwitch cfg) (fun _ => SwitchedOn k q) k := by
  simp only [Kernel.taskSwitch, after_bind, after_getCurrent, after_gets]
  intro prevTask hcur
  cases hk : nextTask k with
  | none => trivial
  | some p =>
      obtain ⟨i, t⟩ := p
      by_cases hne : t = prevTask
      · simp only [hne, ne_eq, not_true_eq_false, if_false, after_bind, after_gets, after_check]
        exact fun _ => .same hcur (hne ▸ hk)
      · simp only [ne_eq, hne, not_false_eq_true, if_true, after_bind, after_gets, after_check]
        exact fun _ => (hq.contextSwitch hne (hq.ring_of_nextTask hk)).after.mono fun _ _ h =>
          .other hcur hk hne h.1 h.2

/-- A tick wakes the tasks that are due, each from the delayed list and its wait list into its own ready list. The
MSP430 then switches to the next task. -/
theorem processTick_wakes_due (h : Sleepers k q)
    (htimely : ∀ x, (q .delayed).head? = some x → k.nextUnblockTime ≤ k.wakeupTime x.task)
    (hroom : cfg.debugAssertions → k.tickCounter + 1 < 2 ^ cfg.timeBits) :
    Ends (processTick cfg) (fun _ => Ticked cfg ((k.tickCounter + 1) % 2 ^ cfg.timeBits) k q) k ∧
    After (processTickMsp430 cfg) (fun _ k' => ∃ k₁, Ticked cfg ((k.tickCounter + 1) % 2 ^ cfg.timeBits) k q k₁ ∧
      SwitchedOn k₁ (q.wakeAll k.priority (q.due k.wakeupTime ((k.tickCounter + 1) % 2 ^ cfg.timeBits))) k') k := by
  have htick : Ends (processTick cfg) _ k := h.processTick htimely hroom
  refine ⟨htick, after_bind.mpr (htick.after.mono fun _ k₁ hk₁ => ?_)⟩
  exact hk₁.shows.taskSwitch.mono fun _ _ hk' => ⟨k₁, hk₁, hk'⟩

/-- The task 0 waits in a wait list until the tick 1. -/
def waitingShortly : Kernel := (Op.block 5 1).exec qemuDebug twoTasks

theorem reachable_waitingShortly : Reachable qemuDebug waitingShortly :=
  reachable_twoTasks.exec (.block 5 1) (fun t ht => by cases ht; exact nofun) rfl

theorem processTick_wakes_due_waitingShortly :
    ∃ q, q .delayed = [.sched 0] ∧ q (.waiting 5) = [.event 0] ∧
      Ends (processTick qemuDebug) (fun _ => Ticked qemuDebug 1 waitingShortly q) waitingShortly := by
  obtain ⟨q, h⟩ := reachable_waitingShortly.inv.sleepers
  have hdelayed : q .delayed = [.sched 0] :=
    h.shows.eq_singleton (h.shows.mem.mpr (by decide +kernel)) (by decide +kernel)
  refine ⟨q, hdelayed, h.shows.eq_singleton (h.shows.mem.mpr (by decide +kernel)) (by decide +kernel), ?_⟩
  refine (processTick_wakes_due h (fun x hx => ?_) fun _ => by decide +kernel).1
  rw [hdelayed] at hx
  cases hx
  decide +kernel

/-- The task 0 waited until the tick 9, and the task 1 woke it. -/
def wokenEarly : Kernel :=
  (Op.wake 5).exec qemuDebug (Op.taskSwitch.exec qemuDebug ((Op.block 5 9).exec qemuDebug twoTasks))

theorem reachable_wokenEarly : Reachable qemuDebug wokenEarly :=
  ((reachable_twoTasks.exec (.block 5 9) (fun t ht => by cases ht; exact nofun) rfl).exec .taskSwitch rfl rfl).exec
    (.wake 5) trivial rfl

/-- No task is delayed, but a tick before `next_unblock_time` leaves that as it is. -/
theorem not_next_unblock_least : Reachable qemuDebug wokenEarly ∧ wokenEarly.lists.head .delayed = none ∧
    ∃ k', (processTick qemuDebug wokenEarly).out = some ((), k') ∧ k'.lists.head .delayed = none ∧
      k'.nextUnblockTime ≠ qemuDebug.maxDelayTime := by
  refine ⟨reachable_wokenEarly, by decide +kernel, _, Op.out_exec .processTick rfl, by decide +kernel, ?_⟩
  decide +kernel

end Kernel

end IntOS
