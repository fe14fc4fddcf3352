import IntOS.List.Lemmas.CrashAgain
import IntOS.Sched.Lemmas.CrashBlock

/-!
# The lists of the scheduler while a transaction moves a task

`Sound cfg none k` says of the lists, and of the tasks in them, what no power failure changes unless recovery leaves a
list broken. `Sound cfg (some t) k` says it of all tasks but `t`, which a transaction moves from list to list.
-/

namespace IntOS

open Persist Persist.Prog IntOS.Lists

namespace Kernel

variable {cfg : Target} {k k' : Kernel} {t u w : Nat} {x : Option Nat} {a b : Option ListRef} {p q : Option NodeRef}
  {s : Lists NodeRef ListRef}

/-- A task that is created but still in no list, or where `Placed` says. -/
def Housed (k : Kernel) (t : Nat) : Prop :=
  (k.lists.list (.sched t) = none ∧ k.lists.list (.event t) = none ∧ k.status t ≠ .blocked) ∨ Placed k t

/-- The lists are well linked, and the tasks other than `x` are housed. -/
structure Sound (cfg : Target) (x : Option Nat) (k : Kernel) : Prop where
  linked : WellOrdered k.wakeupTime k.lists
  housed : ∀ t, x ≠ some t → Housed k t
  free : ∀ n, k.taskCnt ≤ n.task → k.lists.list n = none
  current : ∀ t, k.current = some t → t < k.taskCnt
  limit : k.taskCnt ≤ cfg.taskNumLimit

theorem sound_new (cfg : Target) : Sound cfg none (new cfg.toConfig) where
  linked := (inv_new _).linked
  housed := fun _ _ => Or.inl ⟨rfl, rfl, nofun⟩
  free := fun _ _ => rfl
  current := nofun
  limit := Nat.zero_le _

theorem Sound.but (h : Sound cfg none k) (t : Nat) : Sound cfg (some t) k :=
  ⟨h.linked, fun u _ => h.housed u nofun, h.free, h.current, h.limit⟩

/-- The moved task has arrived. -/
theorem Sound.arrive (h : Sound cfg (some t) k) (ht : Housed k t) : Sound cfg none k := by
  refine ⟨h.linked, fun u _ => ?_, h.free, h.current, h.limit⟩
  by_cases hut : u = t
  · rw [hut]
    exact ht
  · exact h.housed u fun he => hut (Option.some.inj he).symm

/-- Only nodes of the task `t` move. -/
theorem Sound.shift (h : Sound cfg (some t) k) (ht : t < k.taskCnt) (hs : WellOrdered k.wakeupTime s)
    (hlist : ∀ n, n.task ≠ t → s.list n = k.lists.list n) : Sound cfg (some t) { k with lists := s } := by
  refine ⟨hs, fun u hu => ?_, fun n hn => ?_, h.current, h.limit⟩
  · have hut : u ≠ t := fun he => hu (congrArg some he.symm)
    unfold Housed Placed
    dsimp only
    rw [hlist (.sched u) hut, hlist (.event u) hut]
    exact h.housed u hu
  · dsimp only at hn ⊢
    rw [hlist n (by omega)]
    exact h.free n hn

theorem Sound.setStatus (h : Sound cfg (some t) k) (v : TaskState) :
    Sound cfg (some t) { k with status := Function.update k.status t v } := by
  refine ⟨h.linked, fun u hu => ?_, h.free, h.current, h.limit⟩
  have hut : u ≠ t := fun he => hu (congrArg some he.symm)
  unfold Housed Placed
  dsimp only
  rw [Function.update_of_ne hut]
  exact h.housed u hu

/-- The same tasks in the same lists. -/
structure Alike (k k' : Kernel) : Prop where
  lists : k'.lists = k.lists
  taskCnt : k'.taskCnt = k.taskCnt
  priority : k'.priority = k.priority
  status : k'.status = k.status
  wakeupTime : k'.wakeupTime = k.wakeupTime
  current : k'.current = k.current

theorem Sound.alike (h : Sound cfg x k) (ha : Alike k k') : Sound cfg x k' := by
  obtain ⟨hlists, hcnt, hpriority, hstatus, htime, hcurrent⟩ := ha
  refine ⟨?_, fun t ht => ?_, fun n hn => ?_, fun t ht => ?_, ?_⟩
  · rw [hlists, htime]
    exact h.linked
  · unfold Housed Placed
    rw [hlists, hpriority, hstatus]
    exact h.housed t ht
  · rw [hcnt] at hn
    rw [hlists]
    exact h.free n hn
  · rw [hcurrent] at ht
    rw [hcnt]
    exact h.current t ht
  · rw [hcnt]
    exact h.limit

theorem Sound.clearLog (h : Sound cfg x k) : Sound cfg x { k with lists := { k.lists with microOpOldLen := 0 } } :=
  ⟨h.linked.setMicroOpOldLen 0, h.housed, h.free, h.current, h.limit⟩

/-- The length of every list fits the log. -/
theorem Sound.len_lt (h : Sound cfg x k) (l : ListRef) : k.lists.len l < 2 ^ opCodeShift :=
  Kernel.len_lt h.linked h.free h.limit

/-- What a node in a list says about its task. -/
theorem Sound.of_list (h : Sound cfg none k) {n : NodeRef} {l : ListRef} (hn : k.lists.list n = some l) :
    n.task < k.taskCnt ∧ match l with
      | .ready prio => n = .sched n.task ∧ prio = k.priority n.task ∧ k.lists.list (.event n.task) = none ∧
          k.status n.task ≠ .blocked
      | .delayed => n = .sched n.task ∧
          (∀ l, k.lists.list (.event n.task) = some l → ∃ w, l = .waiting w) ∧ k.status n.task = .blocked
      | .waiting _ => n = .event n.task ∧ k.lists.list (.sched n.task) = some .delayed := by
  have hlt : n.task < k.taskCnt := by
    by_contra hge
    rw [h.free n (Nat.le_of_not_lt hge)] at hn
    cases hn
  refine ⟨hlt, ?_⟩
  rcases h.housed n.task nofun with ⟨hs, he, _⟩ | ⟨hs, he, hb⟩ | ⟨hs, he, hb⟩
  · cases n with
    | sched t => cases hs.symm.trans hn
    | event t => cases he.symm.trans hn
  · cases n with
    | sched t =>
        cases hs.symm.trans hn
        exact ⟨rfl, rfl, he, hb⟩
    | event t => cases he.symm.trans hn
  · cases n with
    | sched t =>
        cases hs.symm.trans hn
        exact ⟨rfl, he, hb⟩
    | event t =>
        obtain ⟨w, rfl⟩ := he l hn
        exact ⟨rfl, hs⟩

/-- A ready task turns to another state. -/
theorem Sound.turn (h : Sound cfg none k) (ht : k.status t ≠ .blocked) {v : TaskState} (hv : v ≠ .blocked) :
    Sound cfg none { k with status := Function.update k.status t v } := by
  refine ((h.but t).setStatus v).arrive ?_
  rcases h.housed t nofun with ⟨hs, he, _⟩ | ⟨hs, he, _⟩ | ⟨_, _, hb⟩
  · refine Or.inl ⟨hs, he, ?_⟩
    dsimp only
    rwa [Function.update_self]
  · refine Or.inr (Or.inl ⟨hs, he, ?_⟩)
    dsimp only
    rwa [Function.update_self]
  · exact absurd hb ht

theorem Sound.setCurrent (h : Sound cfg x k) (ht : t < k.taskCnt) : Sound cfg x { k with current := some t } := by
  refine ⟨h.linked, h.housed, h.free, ?_, h.limit⟩
  rintro _ ⟨⟩
  exact ht

/-- The cursor of a ready list moves. -/
theorem Sound.rotate (h : Sound cfg x k) {prio : Nat} {c : NodeRef} (hc : k.lists.cursor (.ready prio) = some c) :
    Sound cfg x { k with lists := { k.lists with
      cursor := Function.update k.lists.cursor (.ready prio) (k.lists.next c) } } := by
  refine ⟨?_, h.housed, h.free, h.current, h.limit⟩
  have hring : ListRef.IsReady (.ready prio) := trivial
  have hnext := h.linked.nextItem hring id hc
  simp only [nextItem, setCursor, ends_bind, ends_gets, hc, ends_store] at hnext
  exact hnext.2.1

/-! ## The task that moves -/

/-- The nodes of the task `t` are in `a` and `b`, and everything else is in order. -/
structure Moving (cfg : Target) (t : Nat) (a b : Option ListRef) (k : Kernel) : Prop where
  sound : Sound cfg (some t) k
  lt : t < k.taskCnt
  sched : k.lists.list (.sched t) = a
  event : k.lists.list (.event t) = b

theorem Moving.setStatus (h : Moving cfg t a b k) (v : TaskState) :
    Moving cfg t a b { k with status := Function.update k.status t v } :=
  ⟨h.sound.setStatus v, h.lt, h.sched, h.event⟩

theorem Moving.alike (h : Moving cfg t a b k) (ha : Alike k k') : Moving cfg t a b k' := by
  refine ⟨h.sound.alike ha, ?_, ?_, ?_⟩
  · rw [ha.taskCnt]
    exact h.lt
  · rw [ha.lists]
    exact h.sched
  · rw [ha.lists]
    exact h.event

theorem Moving.setWakeupTime (h : Moving cfg t a b k) (ha : a ≠ some .delayed) (hb : b ≠ some .delayed) (v : Nat) :
    Moving cfg t a b { k with wakeupTime := Function.update k.wakeupTime t v } := by
  refine ⟨⟨?_, h.sound.housed, h.sound.free, h.sound.current, h.sound.limit⟩, h.lt, h.sched, h.event⟩
  have hne : ∀ n, k.lists.list n = some .delayed → n.task ≠ t := by
    rintro (u | u) hn rfl
    · exact ha (h.sched.symm.trans hn)
    · exact hb (h.event.symm.trans hn)
  refine h.sound.linked.reorder fun x y hx hy hle => ?_
  dsimp only
  rwa [Function.update_of_ne (hne x hx), Function.update_of_ne (hne y hy)]

theorem Moving.moveSched (h : Moving cfg t a b k) {a' : Option ListRef} (hs : WellOrdered k.wakeupTime s)
    (hlist : s.list = Function.update k.lists.list (.sched t) a') : Moving cfg t a' b { k with lists := s } := by
  refine ⟨h.sound.shift h.lt hs fun n hn => ?_, h.lt, ?_, ?_⟩
  · rw [hlist]
    exact update_of_task_ne hn
  · dsimp only
    rw [hlist, Function.update_self]
  · dsimp only
    rw [hlist, Function.update_of_ne (event_ne_sched _ _)]
    exact h.event

theorem Moving.moveEvent (h : Moving cfg t a b k) {b' : Option ListRef} (hs : WellOrdered k.wakeupTime s)
    (hlist : s.list = Function.update k.lists.list (.event t) b') : Moving cfg t a b' { k with lists := s } := by
  refine ⟨h.sound.shift h.lt hs fun n hn => ?_, h.lt, ?_, ?_⟩
  · rw [hlist]
    exact update_of_task_ne hn
  · dsimp only
    rw [hlist, Function.update_of_ne (sched_ne_event _ _)]
    exact h.sched
  · dsimp only
    rw [hlist, Function.update_self]

theorem Moving.arrive (h : Moving cfg t a b k)
    (hab : (a = none ∧ b = none ∧ k.status t ≠ .blocked) ∨
      (a = some (.ready (k.priority t)) ∧ b = none ∧ k.status t ≠ .blocked) ∨
      (a = some .delayed ∧ (∀ l, b = some l → ∃ w, l = .waiting w) ∧ k.status t = .blocked)) : Sound cfg none k := by
  apply h.sound.arrive
  unfold Housed Placed
  rw [h.sched, h.event]
  exact hab

/-- A task that is blocked, but not in the delayed list, is the one that moves. -/
theorem Moving.unique (h : Moving cfg t a b k) (hu : k.status u = .blocked)
    (hn : k.lists.list (.sched u) ≠ some .delayed) : u = t := by
  by_contra hut
  rcases h.sound.housed u fun he => hut (Option.some.inj he).symm with ⟨_, _, hb⟩ | ⟨_, _, hb⟩ | ⟨hs, _, _⟩
  · exact hb hu
  · exact hb hu
  · exact hn hs

/-! ## The moves -/

theorem Moving.wake (h : Moving cfg t (some .delayed) b k) :
    Moving cfg t none b { k with lists := unlisted k.lists .delayed (.sched t) } :=
  h.moveSched (unlisted_wellOrdered h.sound.linked id h.sched) rfl

theorem Moving.ready (h : Moving cfg t none b k) : Moving cfg t (some (.ready (k.priority t))) b { k with
    lists := relisted k.lists (.ready (k.priority t)) (.sched t) } := by
  have hring : ListRef.IsReady (.ready (k.priority t)) := trivial
  have hlog := h.sound.linked.setMicroOpOldLen
    (microOpOldLenOf .insertBeforeCursor (k.lists.len (.ready (k.priority t))))
  exact h.moveSched (hlog.readied hring id h.sched) (readied_list _ _ _)

theorem Moving.leaveReady (h : Moving cfg t (some (.ready (k.priority t))) b k) :
    Moving cfg t none b { k with lists := leftReady k t } := by
  obtain ⟨hs, hlist⟩ := leftReady_wellOrdered h.sound.linked h.sched
  exact h.moveSched hs hlist

theorem Moving.leaveWait (h : Moving cfg t a (some (.waiting w)) k) :
    Moving cfg t a none { k with lists := unlisted k.lists (.waiting w) (.event t) } :=
  h.moveEvent (unlisted_wellOrdered h.sound.linked id h.event) rfl

theorem Moving.pop (h : Moving cfg t a (some (.waiting w)) k) (hhead : k.lists.head (.waiting w) = some (.event t)) :
    Moving cfg t a none { k with lists := popped (logged k.lists .popFront (.waiting w)) (.waiting w) (.event t) } :=
  h.moveEvent (h.sound.linked.popped id hhead).2.2.2.2 rfl

theorem Moving.popDelayed (h : Moving cfg t (some .delayed) b k) (hhead : k.lists.head .delayed = some (.sched t)) :
    Moving cfg t none b { k with lists := popped (logged k.lists .popFront .delayed) .delayed (.sched t) } :=
  h.moveSched (h.sound.linked.popped id hhead).2.2.2.2 rfl

/-- The lists with the task in the wait list `w`, between `p` and `q`. -/
def waitingLists (s : Lists NodeRef ListRef) (t w : Nat) (p q : Option NodeRef) : Lists NodeRef ListRef :=
  inserted (marked (logged s .insertSortedWaitList (.waiting w)) (.waiting w) (.event t)) (.waiting w) (.event t) p q

/-- The place of the task in a sorted wait list. -/
def WaitPlace (k : Kernel) (t w : Nat) (s : Lists NodeRef ListRef) (p q : Option NodeRef) : Prop :=
  Place (nodeBound k) (moreImportant k.priority t)
    (marked (logged s .insertSortedWaitList (.waiting w)) (.waiting w) (.event t)) (.waiting w) (.event t) p q

theorem Moving.exists_waitPlace (h : Moving cfg t a none k) (w : Nat) : ∃ p q, WaitPlace k t w k.lists p q := by
  have hlinear : ¬ ListRef.IsReady (.waiting w) := id
  have hlog : WellOrdered k.wakeupTime (logged k.lists .insertSortedWaitList (.waiting w)) :=
    h.sound.linked.setMicroOpOldLen _
  exact hlog.place hlinear h.event (moreImportant k.priority t) fun _ => length_le h.sound.free

theorem Moving.wait (h : Moving cfg t a none k) (hp : WaitPlace k t w k.lists p q) :
    Moving cfg t a (some (.waiting w)) { k with lists := waitingLists k.lists t w p q } :=
  h.moveEvent (h.sound.linked.inserted id h.event nofun (fun _ => length_le h.sound.free) hp) rfl

theorem Moving.front (h : Moving cfg t a none k) (w : Nat) : Moving cfg t a (some (.waiting w)) { k with
    lists := fronted (logged k.lists .insertFront (.waiting w)) (.waiting w) (.event t) } :=
  h.moveEvent (h.sound.linked.fronted id nofun h.event) rfl

theorem Moving.exists_delayPlace (h : Moving cfg t none b k) : ∃ p q, DelayPlace k t k.lists p q :=
  Kernel.exists_delayPlace h.sound.linked h.sound.free h.sched

theorem Moving.delay (h : Moving cfg t none b k) (hp : DelayPlace k t k.lists p q) :
    Moving cfg t (some .delayed) b { k with lists := delayedLists k.lists t p q } := by
  have hle : ∀ x y z : NodeRef, k.wakeupTime x.task ≤ k.wakeupTime y.task →
      k.wakeupTime y.task ≤ k.wakeupTime z.task → k.wakeupTime x.task ≤ k.wakeupTime z.task := fun _ _ _ => Nat.le_trans
  refine h.moveSched (h.sound.linked.inserted id h.sched (fun _ => ⟨hle, fun x hx => ?_, fun y hy => ?_⟩)
    (fun _ => length_le h.sound.free) hp) rfl
  · exact Nat.le_of_lt (of_decide_eq_true hx)
  · exact Nat.le_of_not_lt (of_decide_eq_false hy)

end Kernel

end IntOS
