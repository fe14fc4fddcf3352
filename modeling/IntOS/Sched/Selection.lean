import IntOS.Sched.Lemmas.Contents

/-!
# Which task is chosen

Status, ready list, cursor and `CURRENT_TASK_PTR` are four records of one choice. They agree after a switch,
except where `task_switch` finds the previous task, woken before it has yielded, behind the cursor.
-/

namespace IntOS

open Persist Persist.Prog IntOS.Lists

namespace Kernel

variable {cfg : Config} {k k' : Kernel} {q q' : Contents} {op : Op} {i t : Nat}

/-- The ready list of the highest priority that has a task. -/
def Highest (k : Kernel) (i : Nat) : Prop :=
  (∃ n, InList k n (.ready i)) ∧ ∀ j, j < i → ∀ n, ¬ InList k n (.ready j)

/-- The current task is the one to run. -/
def Chosen (k : Kernel) : Prop :=
  ∃ t i, k.current = some t ∧ Highest k i ∧ InList k (.sched t) (.ready i) ∧
    k.lists.cursor (.ready i) = some (.sched t) ∧ k.status t = .running ∧ ∀ u, k.status u = .running → u = t

/-- The assertions of `task_switch` hold: with them it returns where it does without. -/
def AssertionsHold (cfg : Config) (k : Kernel) : Prop :=
  Ends (taskSwitch { cfg with debugAssertions := false }) (fun _ _ => True) k →
    Ends (taskSwitch { cfg with debugAssertions := true }) (fun _ _ => True) k

/-- The next task of the highest ring is the previous task, which does not run any more, or not yet. -/
def Rechosen (k : Kernel) : Prop :=
  ∃ t i, k.current = some t ∧ k.status t ≠ .running ∧ Highest k i ∧ peekNext k.lists (.ready i) = some (.sched t)

/-! ## What the choice goes by -/

theorem findSome?_range {β : Type} {f : Nat → Option β} {n : Nat} {b : β} :
    (List.range n).findSome? f = some b ↔ ∃ i, i < n ∧ f i = some b ∧ ∀ j, j < i → f j = none := by
  induction n with
  | zero => simp
  | succ n ih =>
      rw [List.range_succ, List.findSome?_append, Option.or_eq_some_iff, ih, List.findSome?_eq_none_iff]
      constructor
      · rintro (⟨i, hi, hf⟩ | ⟨hnone, hf⟩)
        · exact ⟨i, Nat.lt_succ_of_lt hi, hf⟩
        · refine ⟨n, Nat.lt_succ_self n, by simpa using hf, fun j hj => hnone j (List.mem_range.mpr hj)⟩
      · rintro ⟨i, hi, hf, hnone⟩
        rcases Nat.lt_succ_iff_lt_or_eq.mp hi with hlt | rfl
        · exact Or.inl ⟨i, hlt, hf, hnone⟩
        · exact Or.inr ⟨fun j hj => hnone j (List.mem_range.mp hj), by simpa using hf⟩

theorem Shows.peekNext_eq_none (hq : Shows k q) {p : Nat} :
    Lists.peekNext k.lists (.ready p) = none ↔ q (.ready p) = [] := by
  rw [hq.peekNext, List.head?_eq_none_iff, List.rotate_eq_nil_iff]

theorem Shows.highest_iff (hq : Shows k q) (hinv : Inv k) :
    Highest k i ↔ q (.ready i) ≠ [] ∧ ∀ j, j < i → q (.ready j) = [] := by
  unfold Highest
  simp only [hinv.inList_iff, ← hq.mem]
  refine and_congr ?_ (forall₂_congr fun j _ => List.eq_nil_iff_forall_not_mem.symm)
  constructor
  · rintro ⟨n, hn⟩
    exact List.ne_nil_of_mem hn
  · exact List.exists_mem_of_ne_nil _

/-- The first ring with a task, and the node after its cursor. -/
theorem Shows.nextTask_iff (hq : Shows k q) (hinv : Inv k) : Kernel.nextTask k = some (i, t) ↔
    i < numPriorityLevels ∧ Highest k i ∧ Lists.peekNext k.lists (.ready i) = some (.sched t) := by
  have hsched : ∀ n, Lists.peekNext k.lists (.ready i) = some n → n = .sched n.task := by
    intro n hn
    obtain ⟨_, _, _, hlist⟩ := hinv.linked.list_of_peekNext (by trivial) hn
    exact (hinv.of_list hlist).2.1
  rw [hq.highest_iff hinv]
  unfold Kernel.nextTask
  rw [findSome?_range]
  simp only [Option.map_eq_some_iff, Option.map_eq_none_iff, hq.peekNext_eq_none]
  constructor
  · rintro ⟨j, hj, ⟨n, hn, hit⟩, hnone⟩
    cases hit
    refine ⟨hj, ⟨?_, hnone⟩, ?_⟩
    · rw [Ne, ← hq.peekNext_eq_none, hn]
      exact nofun
    · rw [hn, ← hsched n hn]
  · rintro ⟨hi, ⟨_, hnone⟩, hn⟩
    exact ⟨i, hi, ⟨_, hn, rfl⟩, hnone⟩

/-! ## The running task -/

/-- The running task is the one under its cursor. -/
structure Settled (k : Kernel) (q : Contents) : Prop where
  running : ∀ t, k.status t = .running → (q (.ready (k.priority t))).head? = some (.sched t)
  alive : ∀ t, k.status t ≠ .killed
  bounded : ∀ t, t < k.taskCnt → k.priority t < numPriorityLevels

/-- A task stops running, or does not start. -/
theorem Turns.settled {v : TaskState} (h : Turns k t v k') (hs : Settled k q) (hrun : v ≠ .running)
    (halive : v ≠ .killed)
    (hfirst : ∀ u, u ≠ t → k.status u = .running → (q' (.ready (k.priority u))).head? = some (.sched u)) :
    Settled k' q' := by
  refine ⟨fun u hu => ?_, fun u hu => ?_, ?_⟩
  · rw [h.status] at hu
    by_cases hut : u = t
    · rw [hut, Function.update_self] at hu
      exact absurd hu hrun
    · rw [Function.update_of_ne hut] at hu
      rw [h.priority]
      exact hfirst u hut hu
  · rw [h.status] at hu
    by_cases hut : u = t
    · rw [hut, Function.update_self] at hu
      exact absurd hu halive
    · rw [Function.update_of_ne hut] at hu
      exact hs.alive u hu
  · rw [h.taskCnt, h.priority]
    exact hs.bounded

theorem Wakes.settled (h : Wakes k q k' q') (hs : Settled k q) : Settled k' q' := by
  induction h with
  | rest hr =>
      refine ⟨?_, ?_, ?_⟩
      · rw [hr.status, hr.priority]
        exact hs.running
      · rw [hr.status]
        exact hs.alive
      · rw [hr.taskCnt, hr.priority]
        exact hs.bounded
  | wake _ ht _ ih =>
      refine ih (ht.settled hs nofun nofun fun u _ hu => ?_)
      have hfirst := hs.running u hu
      rw [Contents.wake]
      split
      · rw [List.head?_append, hfirst]
        rfl
      · exact hfirst

/-- Only the current task runs, so none does once it is blocked. -/
theorem Turns.stopped {v : TaskState} (h : Turns k t v k') (hinv : Inv k) (hs : Settled k q) (hcur : k.current = some t)
    (hrun : v ≠ .running) (halive : v ≠ .killed) : Settled k' q' := by
  refine h.settled hs hrun halive fun u hut hu => ?_
  have hcur' := hinv.running u hu
  rw [hcur] at hcur'
  cases hcur'
  exact absurd rfl hut

theorem Creates.settled {prio : Nat} (h : Creates k prio k') (hs : Settled k q) :
    Settled k' (q.join prio k.taskCnt) := by
  refine ⟨fun u hu => ?_, fun u hu => ?_, fun u hu => ?_⟩
  · rw [h.status] at hu
    by_cases hut : u = k.taskCnt
    · rw [hut, Function.update_self] at hu
      cases hu
    · rw [Function.update_of_ne hut] at hu
      have hfirst := hs.running u hu
      rw [h.priority, Function.update_of_ne hut, Contents.join]
      split
      · rw [List.head?_append, hfirst]
        rfl
      · exact hfirst
  · rw [h.status] at hu
    by_cases hut : u = k.taskCnt
    · rw [hut, Function.update_self] at hu
      cases hu
    · rw [Function.update_of_ne hut] at hu
      exact hs.alive u hu
  · rw [h.priority]
    by_cases hut : u = k.taskCnt
    · rw [hut, Function.update_self]
      exact h.lt
    · rw [Function.update_of_ne hut]
      rw [h.taskCnt] at hu
      exact hs.bounded u (by omega)

/-- After the switch the chosen task runs, and no other. -/
theorem Switches.running {prevTask u : Nat} (h : Switches k i prevTask t k') (hinv : Inv k)
    (hu : k'.status u = .running) : u = t := by
  rw [h.status] at hu
  by_cases hup : u = prevTask
  · rw [hup, Function.update_self] at hu
    split at hu
    · cases hu
    · cases hu
  · rw [Function.update_of_ne hup] at hu
    by_cases hut : u = t
    · exact hut
    · rw [Function.update_of_ne hut] at hu
      have hcur := hinv.running u hu
      rw [h.prev] at hcur
      cases hcur
      exact absurd rfl hup

theorem Switches.first {prevTask : Nat} (h : Switches k i prevTask t k') (hinv : Inv k) (hq : Shows k q) :
    i = k.priority t ∧ (q.turn i (.ready i)).head? = some (.sched t) := by
  obtain ⟨_, _, hprio, _⟩ := hinv.nextTask h.next
  obtain ⟨_, _, hnext⟩ := (hq.nextTask_iff hinv).mp h.next
  rw [hq.peekNext] at hnext
  rw [Contents.turn, Function.update_self]
  exact ⟨hprio, hnext⟩

theorem Switches.settled {prevTask : Nat} (h : Switches k i prevTask t k') (hinv : Inv k) (hq : Shows k q)
    (hs : Settled k q) : Settled k' (q.turn i) := by
  obtain ⟨hprio, hfirst⟩ := h.first hinv hq
  refine ⟨fun u hu => ?_, fun u hu => ?_, ?_⟩
  · rw [h.running hinv hu, h.priority, ← hprio]
    exact hfirst
  · rw [h.status] at hu
    by_cases hup : u = prevTask
    · rw [hup, Function.update_self] at hu
      split at hu
      · cases hu
      · cases hu
    · rw [Function.update_of_ne hup] at hu
      by_cases hut : u = t
      · rw [hut, Function.update_self] at hu
        cases hu
      · rw [Function.update_of_ne hut] at hu
        exact hs.alive u hu
  · rw [h.taskCnt, h.priority]
    exact hs.bounded

theorem Effect.settled (h : Effect op k q k' q') (hinv : Inv k) (hq : Shows k q) (hs : Settled k q) :
    Settled k' q' := by
  cases h with
  | wakes h => exact h.settled hs
  | create h => exact h.settled hs
  | delay hcur _ h => exact h.stopped hinv hs hcur nofun nofun
  | block hcur _ h => exact h.stopped hinv hs hcur nofun nofun
  | blockUnsorted hcur _ h => exact h.stopped hinv hs hcur nofun nofun
  | switch h => exact h.settled hinv hq hs

theorem Reachable.settled (h : Reachable cfg k) : ∃ q, Shows k q ∧ Settled k q := by
  induction h with
  | init => exact ⟨_, holds_new _, ⟨nofun, fun _ => nofun, nofun⟩⟩
  | step h ho hout ih =>
      obtain ⟨q, hq, hs⟩ := ih
      obtain ⟨q', hq', he⟩ := (h.inv.effect hq ho).post hout
      exact ⟨q', hq', he.settled h.inv hq hs⟩

/-! ## The choice -/

theorem ends_taskSwitch_same {Q : Unit → Kernel → Prop} (hcur : k.current = some t)
    (hk : Kernel.nextTask k = some (i, t)) :
    Ends (taskSwitch cfg) Q k ↔ (cfg.debugAssertions → k.lists.len (.ready i) = 1) ∧ Q () k := by
  simp only [taskSwitch, ends_bind, ends_getCurrent hcur, ends_gets, hk]
  simp

theorem ends_taskSwitch_other {Q : Unit → Kernel → Prop} {prevTask : Nat} (hcur : k.current = some prevTask)
    (hk : Kernel.nextTask k = some (i, t)) (hne : t ≠ prevTask) :
    Ends (taskSwitch cfg) Q k ↔ (cfg.debugAssertions → k.status t = .ready ∨ k.status t = .running) ∧
      Ends (atomicRollFowardContextSwitch t prevTask i) Q k := by
  simp only [taskSwitch, ends_bind, ends_getCurrent hcur, ends_gets, hk]
  simp [hne]

theorem not_ends_taskSwitch {Q : Unit → Kernel → Prop} (h : k.current = none ∨ Kernel.nextTask k = none) :
    ¬ Ends (taskSwitch cfg) Q k := by
  intro hends
  simp only [taskSwitch, getCurrent, ends_bind, ends_gets] at hends
  rcases h with h | h
  · rw [h] at hends
    exact hends
  · cases hcur : k.current with
    | none =>
        rw [hcur] at hends
        exact hends
    | some t =>
        rw [hcur] at hends
        simp [h] at hends

theorem Switches.chosen {prevTask : Nat} (h : Switches k i prevTask t k') (hinv : Inv k) (hinv' : Inv k')
    (hq : Shows k q)
    (hq' : Shows k' (q.turn i)) : Chosen k' := by
  obtain ⟨_, hfirst⟩ := h.first hinv hq
  obtain ⟨_, hhighest, _⟩ := (hq.nextTask_iff hinv).mp h.next
  refine ⟨t, i, h.current, (hq'.highest_iff hinv').mpr ⟨?_, fun j hj => ?_⟩, ?_, ?_, ?_, fun u => h.running hinv⟩
  · exact List.ne_nil_of_mem (List.mem_of_head? hfirst)
  · rw [Contents.turn, Function.update_of_ne (by simpa using Nat.ne_of_lt hj)]
    exact ((hq.highest_iff hinv).mp hhighest).2 j hj
  · rw [hinv'.inList_iff, ← hq'.mem]
    exact List.mem_of_head? hfirst
  · rw [hq'.cursor]
    exact hfirst
  · rw [h.status, Function.update_of_ne h.ne, Function.update_self]

/-- The next task is the running one only if it is alone. -/
theorem Settled.alone (hs : Settled k q) (hq : Shows k q) (hinv : Inv k) (hrun : k.status t = .running)
    (hk : Kernel.nextTask k = some (i, t)) : Highest k i ∧ q (.ready i) = [.sched t] := by
  obtain ⟨_, hhighest, hnext⟩ := (hq.nextTask_iff hinv).mp hk
  obtain ⟨_, _, hprio, _⟩ := hinv.nextTask hk
  have hfirst := hs.running t hrun
  rw [← hprio] at hfirst
  refine ⟨hhighest, ?_⟩
  rw [hq.peekNext] at hnext
  have hnd := hq.nodup (.ready i)
  obtain ⟨xs, hxs⟩ : ∃ xs, q (.ready i) = .sched t :: xs := ⟨_, List.eq_cons_of_mem_head? hfirst⟩
  rw [hxs] at hnext hnd ⊢
  cases xs with
  | nil => rfl
  | cons x xs =>
      rw [List.rotate_cons_succ, List.rotate_zero, List.cons_append, List.head?_cons] at hnext
      cases hnext
      simp at hnd

/-- Where the choice is the running task. -/
theorem Settled.chosen (hs : Settled k q) (hq : Shows k q) (hinv : Inv k) (hcur : k.current = some t)
    (hrun : k.status t = .running) (hk : Kernel.nextTask k = some (i, t)) : Chosen k := by
  obtain ⟨hhighest, hring⟩ := hs.alone hq hinv hrun hk
  refine ⟨t, i, hcur, hhighest, ?_, ?_, hrun, fun u hu => ?_⟩
  · rw [hinv.inList_iff, ← hq.mem, hring]
    exact List.mem_singleton_self _
  · rw [hq.cursor, hring]
    rfl
  · have hcur' := hinv.running u hu
    rw [hcur] at hcur'
    cases hcur'
    rfl

/-- What `task_switch` returns, if nothing makes it panic before. -/
theorem Settled.switch {prevTask : Nat} (hs : Settled k q) (hq : Shows k q) (hinv : Inv k)
    (hst : k.schedulerStarted = true) (hcur : k.current = some prevTask) (hk : Kernel.nextTask k = some (i, t))
    (hne : t ≠ prevTask) : Ends (taskSwitch cfg) (fun _ k' => Chosen k') k := by
  obtain ⟨_, ht, _, hb, c, hc, _⟩ := hinv.nextTask hk
  have hring : q (.ready i) ≠ [] := by
    rw [hq.cursor] at hc
    exact List.ne_nil_of_mem (List.mem_of_head? hc)
  rw [ends_taskSwitch_other hcur hk hne]
  refine ⟨fun _ => ?_, ?_⟩
  · have halive := hs.alive t
    cases hv : k.status t with
    | ready => exact Or.inl rfl
    | running => exact Or.inr rfl
    | blocked => exact absurd hv hb
    | killed => exact absurd hv halive
  · refine ((hinv.contextSwitch hne hcur hst ht hb hc).and (hq.contextSwitch hne hring)).mono ?_
    rintro _ k' ⟨⟨hinv', _⟩, hq', hk'⟩
    have hswitch : Switches k i prevTask t k' := by
      rw [hk']
      exact ⟨hne, hk, hcur, rfl, rfl, rfl, rfl⟩
    exact hswitch.chosen hinv hinv' hq hq'

theorem task_switch_chooses_iff (h : Reachable cfg k) (hst : k.schedulerStarted = true) :
    After (taskSwitch cfg) (fun _ k' => Chosen k') k ∧ AssertionsHold cfg k ↔ ¬ Rechosen k := by
  have hinv := h.inv
  obtain ⟨q, hq, hs⟩ := h.settled
  constructor
  · rintro ⟨hchosen, hassert⟩ ⟨t, i, hcur, hrun, hhighest, hnext⟩
    have hlt : i < numPriorityLevels := by
      obtain ⟨_, _, _, hlist⟩ := hinv.linked.list_of_peekNext (by trivial) hnext
      obtain ⟨ht, _, hprio, _⟩ := hinv.of_list hlist
      rw [hprio]
      exact hs.bounded t ht
    have hk := (hq.nextTask_iff hinv).mpr ⟨hlt, hhighest, hnext⟩
    have hdebug := hassert ((ends_taskSwitch_same hcur hk).mpr ⟨nofun, trivial⟩)
    have hlen := ((ends_taskSwitch_same hcur hk).mp hdebug).1 rfl
    have hends : Ends (taskSwitch cfg) (fun _ k' => k' = k) k :=
      (ends_taskSwitch_same hcur hk).mpr ⟨fun _ => hlen, rfl⟩
    obtain ⟨_, _, hout, rfl⟩ := hends.returns
    obtain ⟨u, _, hcur', _, _, _, hrun', _⟩ := hchosen.post hout
    rw [hcur] at hcur'
    cases hcur'
    exact hrun hrun'
  · intro hre
    cases hcur : k.current with
    | none =>
        have hnot : ∀ {cfg Q}, ¬ Ends (taskSwitch cfg) Q k := not_ends_taskSwitch (Or.inl hcur)
        exact ⟨.of_ends fun h => absurd h hnot, fun h => absurd h hnot⟩
    | some prevTask =>
        cases hk : Kernel.nextTask k with
        | none =>
            have hnot : ∀ {cfg Q}, ¬ Ends (taskSwitch cfg) Q k := not_ends_taskSwitch (Or.inr hk)
            exact ⟨.of_ends fun h => absurd h hnot, fun h => absurd h hnot⟩
        | some p =>
            obtain ⟨i, t⟩ := p
            by_cases hne : t = prevTask
            · subst hne
              obtain ⟨_, hhighest, hnext⟩ := (hq.nextTask_iff hinv).mp hk
              have hrun : k.status t = .running := by
                by_contra hrun
                exact hre ⟨t, i, hcur, hrun, hhighest, hnext⟩
              refine ⟨.of_ends fun h => ?_, fun _ => ?_⟩
              · rw [ends_taskSwitch_same hcur hk] at h ⊢
                exact ⟨h.1, hs.chosen hq hinv hcur hrun hk⟩
              · rw [ends_taskSwitch_same hcur hk, hq.len, (hs.alone hq hinv hrun hk).2]
                exact ⟨fun _ => rfl, trivial⟩
            · refine ⟨(hs.switch hq hinv hst hcur hk hne).after, fun _ => ?_⟩
              exact (hs.switch hq hinv hst hcur hk hne).mono fun _ _ _ => trivial

theorem task_switch_chooses_iff_sleeping :
    After (taskSwitch qemuDebug) (fun _ k' => Chosen k') sleeping ∧ AssertionsHold qemuDebug sleeping ↔
      ¬ Rechosen sleeping :=
  task_switch_chooses_iff reachable_sleeping rfl

/-- Of two tasks of one priority the first delays itself, and the tick comes before it yields. -/
def rewoken : Kernel :=
  Op.processTick.exec qemuDebug ((Op.taskDelay 1).exec qemuDebug (Op.startKernel.exec qemuDebug
    ((Op.createTask 3).exec qemuDebug ((Op.createTask 3).exec qemuDebug (new qemuDebug)))))

theorem reachable_rewoken : Reachable qemuDebug rewoken := by
  have hinit : Reachable qemuDebug (new qemuDebug) := .init
  have hstart := ((hinit.exec (.createTask 3) trivial rfl).exec (.createTask 3) trivial rfl).exec .startKernel trivial
    rfl
  exact (hstart.exec (.taskDelay 1) (fun t ht => by cases ht; exact nofun) rfl).exec .processTick trivial rfl

/-- The woken task is chosen again, though the other one is ready and under the cursor. -/
theorem length_asserted_of_two :
    Reachable qemuDebug rewoken ∧ rewoken.schedulerStarted = true ∧ rewoken.current = some 0 ∧
      rewoken.lists.cursor (.ready 3) = some (.sched 1) ∧
      ¬ (After (taskSwitch qemuDebug) (fun _ k' => Chosen k') rewoken ∧ AssertionsHold qemuDebug rewoken) := by
  refine ⟨reachable_rewoken, rfl, rfl, by decide +kernel, fun ⟨_, hassert⟩ => ?_⟩
  have hk : Kernel.nextTask rewoken = some (3, 0) := by decide +kernel
  have hdebug := hassert ((ends_taskSwitch_same rfl hk).mpr ⟨nofun, trivial⟩)
  rw [ends_taskSwitch_same rfl hk] at hdebug
  have hlen : rewoken.lists.len (.ready 3) ≠ 1 := by decide +kernel
  exact hlen (hdebug.1 rfl)

end Kernel

end IntOS
