import IntOS.List.Lemmas.Ops
import IntOS.Sched.Kernel

/-!
# Where the tasks are

`Inv k`: the lists of `k` are well linked, every created task is placed, the tick at which the delayed list is
looked at again is not too late, and no list transaction runs. A transaction moves one task: it wakes it
(`Woke`) or puts it to sleep (`Slept`), and everything about the other tasks stays as it is.
-/

namespace IntOS

open Persist Persist.Prog IntOS.Lists

namespace Kernel

variable {cfg : Config} {k k' : Kernel} {t : Nat} {Q : Unit → Kernel → Prop}

/-- A ready or running task is in the ready list of its priority only. A blocked task is in the delayed
list, and its event node may be in a wait list. -/
def Placed (k : Kernel) (t : Nat) : Prop :=
  (k.lists.list (.sched t) = some (.ready (k.priority t)) ∧ k.lists.list (.event t) = none ∧
      k.status t ≠ .blocked) ∨
    (k.lists.list (.sched t) = some .delayed ∧
      (∀ l, k.lists.list (.event t) = some l → ∃ w, l = .waiting w) ∧ k.status t = .blocked)

/-- The lists are well linked, and the delayed list is in the order of the wakeup times. -/
def WellOrdered (wakeupTime : Nat → Nat) (s : Lists NodeRef ListRef) : Prop :=
  WellLinked ListRef.IsReady .delayed (fun x y => wakeupTime x.task ≤ wakeupTime y.task) s

structure Inv (k : Kernel) : Prop where
  linked : WellOrdered k.wakeupTime k.lists
  timely : ∀ x, k.lists.list x = some .delayed → k.nextUnblockTime ≤ k.wakeupTime x.task
  placed : ∀ t, t < k.taskCnt → Placed k t
  free : ∀ n, k.taskCnt ≤ n.task → k.lists.list n = none
  current : ∀ t, k.current = some t → t < k.taskCnt
  running : ∀ t, k.status t = .running → k.current = some t
  stopped : k.schedulerStarted = false → ∀ t, k.status t ≠ .running
  op : k.op = .invalid
  microOp : k.lists.microOpOldLen = 0

theorem inv_new (cfg : Config) : Inv (new cfg) where
  linked := ⟨_, holds_new _, List.Pairwise.nil⟩
  timely := fun _ => nofun
  placed := fun t ht => absurd ht (Nat.not_lt_zero t)
  free := fun _ _ => rfl
  current := nofun
  running := nofun
  stopped := fun _ _ => nofun
  op := rfl
  microOp := rfl

/-- What a node in a list says about its task. -/
theorem Inv.of_list (h : Inv k) {n : NodeRef} {l : ListRef} (hn : k.lists.list n = some l) :
    n.task < k.taskCnt ∧ match l with
      | .ready prio => n = .sched n.task ∧ prio = k.priority n.task ∧ k.status n.task ≠ .blocked
      | .delayed => n = .sched n.task ∧ k.status n.task = .blocked
      | .waiting _ => n = .event n.task ∧ k.lists.list (.sched n.task) = some .delayed := by
  have hlt : n.task < k.taskCnt := by
    by_contra hge
    rw [h.free n (Nat.le_of_not_lt hge)] at hn
    cases hn
  refine ⟨hlt, ?_⟩
  cases n with
  | sched t =>
      rcases h.placed t hlt with ⟨hs, _, hb⟩ | ⟨hs, _, hb⟩
      · rw [hs] at hn
        cases hn
        exact ⟨rfl, rfl, hb⟩
      · rw [hs] at hn
        cases hn
        exact ⟨rfl, hb⟩
  | event t =>
      rcases h.placed t hlt with ⟨_, he, _⟩ | ⟨hs, he, _⟩
      · rw [he] at hn
        cases hn
      · obtain ⟨w, rfl⟩ := he l hn
        exact ⟨rfl, hs⟩

/-- No list has more nodes than the loops of the code are given rounds. -/
theorem length_le {cnt : Nat} {s : Lists NodeRef ListRef} {l : ListRef} {xs : List NodeRef}
    (hfree : ∀ n, cnt ≤ n.task → s.list n = none) (hnd : xs.Nodup) (hxs : ∀ x ∈ xs, s.list x = some l) :
    xs.length ≤ 2 * cnt := by
  have hsub : xs ⊆ (List.range cnt).map .sched ++ (List.range cnt).map .event := by
    intro x hx
    have hlt : x.task < cnt := by
      by_contra hge
      have hlist := hxs x hx
      rw [hfree x (Nat.le_of_not_lt hge)] at hlist
      cases hlist
    cases x with
    | sched t => exact List.mem_append_left _ (List.mem_map_of_mem (List.mem_range.mpr hlt))
    | event t => exact List.mem_append_right _ (List.mem_map_of_mem (List.mem_range.mpr hlt))
  have hle := (List.subperm_of_subset hnd hsub).length_le
  simp only [List.length_append, List.length_map, List.length_range] at hle
  omega

/-! ## Steps that move one task -/

/-- What no list transaction changes. -/
structure Frame (k k' : Kernel) : Prop where
  taskCnt : k'.taskCnt = k.taskCnt
  priority : k'.priority = k.priority
  wakeupTime : k'.wakeupTime = k.wakeupTime
  current : k'.current = k.current
  schedulerStarted : k'.schedulerStarted = k.schedulerStarted

/-- A step that moves the task `t` only. -/
theorem Inv.move (h : Inv k) (hf : Frame k k') (hlinked : WellOrdered k'.wakeupTime k'.lists) (ht : t < k.taskCnt)
    (hlist : ∀ n, n.task ≠ t → k'.lists.list n = k.lists.list n)
    (hstatus : ∀ u, u ≠ t → k'.status u = k.status u) (hplaced : Placed k' t)
    (hrun : k'.status t ≠ .running) (hnext : k'.nextUnblockTime ≤ k.nextUnblockTime)
    (htime : ∀ x, x.task = t → k'.lists.list x = some .delayed → k'.nextUnblockTime ≤ k'.wakeupTime t)
    (hop : k'.op = .invalid) (hmicro : k'.lists.microOpOldLen = 0) : Inv k' := by
  refine ⟨hlinked, fun x hx => ?_, fun u hu => ?_, fun n hn => ?_, ?_, fun u hu => ?_, fun hst u => ?_, hop,
    hmicro⟩
  · by_cases hxt : x.task = t
    · rw [hxt]
      exact htime x hxt hx
    · rw [hlist x hxt] at hx
      rw [hf.wakeupTime]
      exact Nat.le_trans hnext (h.timely x hx)
  · by_cases hut : u = t
    · rwa [hut]
    · unfold Placed
      rw [hlist (.sched u) hut, hlist (.event u) hut, hstatus u hut, hf.priority]
      exact h.placed u (hf.taskCnt ▸ hu)
  · rw [hf.taskCnt] at hn
    rw [hlist n (by omega)]
    exact h.free n hn
  · rw [hf.current, hf.taskCnt]
    exact h.current
  · by_cases hut : u = t
    · rw [hut] at hu
      exact absurd hu hrun
    · rw [hstatus u hut] at hu
      rw [hf.current]
      exact h.running u hu
  · by_cases hut : u = t
    · rwa [hut]
    · rw [hstatus u hut]
      exact h.stopped (hf.schedulerStarted ▸ hst) u

/-- The task `t` was in the delayed list, perhaps in a wait list as well, and is in its ready list now. -/
structure Woke (k : Kernel) (t : Nat) (k' : Kernel) : Prop where
  frame : Frame k k'
  list : k'.lists.list = Function.update (Function.update (Function.update k.lists.list (.event t) none)
    (.sched t) none) (.sched t) (some (.ready (k.priority t)))
  status : k'.status = Function.update k.status t .ready
  nextUnblockTime : k'.nextUnblockTime = k.nextUnblockTime

/-- The task `t` was in its ready list and is in the delayed list now, its event node in `v`. -/
structure Slept (k : Kernel) (t : Nat) (v : Option ListRef) (k' : Kernel) : Prop where
  frame : Frame k k'
  list : k'.lists.list = Function.update (Function.update (Function.update k.lists.list (.sched t) none)
    (.event t) v) (.sched t) (some .delayed)
  status : k'.status = Function.update k.status t .blocked
  nextUnblockTime : k'.nextUnblockTime = min (k.wakeupTime t) k.nextUnblockTime

theorem sched_ne_event (t u : Nat) : NodeRef.sched t ≠ .event u := nofun

theorem event_ne_sched (t u : Nat) : NodeRef.event t ≠ .sched u := nofun

theorem update_of_task_ne {f : NodeRef → Option ListRef} {n m : NodeRef} {v : Option ListRef}
    (h : n.task ≠ m.task) : Function.update f m v n = f n :=
  Function.update_of_ne (fun he => h (congrArg NodeRef.task he)) _ _

theorem Woke.sched (h : Woke k t k') : k'.lists.list (.sched t) = some (.ready (k.priority t)) := by
  rw [h.list, Function.update_self]

theorem Woke.event (h : Woke k t k') : k'.lists.list (.event t) = none := by
  rw [h.list, Function.update_of_ne (event_ne_sched _ _), Function.update_of_ne (event_ne_sched _ _),
    Function.update_self]

theorem Woke.others (h : Woke k t k') {n : NodeRef} (hn : n.task ≠ t) : k'.lists.list n = k.lists.list n := by
  rw [h.list, update_of_task_ne hn, update_of_task_ne hn, update_of_task_ne hn]

theorem Slept.sched {v : Option ListRef} (h : Slept k t v k') : k'.lists.list (.sched t) = some .delayed := by
  rw [h.list, Function.update_self]

theorem Slept.event {v : Option ListRef} (h : Slept k t v k') : k'.lists.list (.event t) = v := by
  rw [h.list, Function.update_of_ne (event_ne_sched _ _), Function.update_self]

theorem Slept.others {v : Option ListRef} (h : Slept k t v k') {n : NodeRef} (hn : n.task ≠ t) :
    k'.lists.list n = k.lists.list n := by
  rw [h.list, update_of_task_ne hn, update_of_task_ne hn, update_of_task_ne hn]

theorem Inv.wake (h : Inv k) (ht : t < k.taskCnt) (hw : Woke k t k')
    (hlinked : WellOrdered k'.wakeupTime k'.lists) (hop : k'.op = .invalid)
    (hmicro : k'.lists.microOpOldLen = 0) : Inv k' := by
  refine h.move hw.frame hlinked ht (fun n hn => hw.others hn) (fun u hu => ?_) ?_ ?_
    (Nat.le_of_eq hw.nextUnblockTime) (fun x hx hd => ?_) hop hmicro
  · rw [hw.status, Function.update_of_ne hu]
  · refine Or.inl ⟨?_, hw.event, ?_⟩
    · rw [hw.sched, hw.frame.priority]
    · simp [hw.status]
  · simp [hw.status]
  · cases x with
    | sched u =>
        cases hx
        cases hw.sched.symm.trans hd
    | event u =>
        cases hx
        cases hw.event.symm.trans hd

theorem Inv.block {v : Option ListRef} (h : Inv k) (ht : t < k.taskCnt) (hs : Slept k t v k')
    (hv : ∀ l, v = some l → ∃ w, l = .waiting w) (hlinked : WellOrdered k'.wakeupTime k'.lists)
    (hop : k'.op = .invalid) (hmicro : k'.lists.microOpOldLen = 0) : Inv k' := by
  refine h.move hs.frame hlinked ht (fun n hn => hs.others hn) (fun u hu => ?_) ?_ ?_ ?_ (fun _ _ _ => ?_) hop
    hmicro
  · rw [hs.status, Function.update_of_ne hu]
  · refine Or.inr ⟨hs.sched, ?_, ?_⟩
    · rw [hs.event]
      exact hv
    · rw [hs.status, Function.update_self]
  · simp [hs.status]
  · rw [hs.nextUnblockTime]
    exact Nat.min_le_right _ _
  · rw [hs.nextUnblockTime, hs.frame.wakeupTime]
    exact Nat.min_le_left _ _

/-- A step that keeps the lists, the tasks and their states. -/
structure Kept (k k' : Kernel) : Prop where
  frame : Frame k k'
  lists : k'.lists = { k.lists with microOpOldLen := 0 }
  status : k'.status = k.status
  nextUnblockTime : k'.nextUnblockTime = k.nextUnblockTime

theorem Inv.keep (h : Inv k) (hk : Kept k k') (hop : k'.op = .invalid) : Inv k' := by
  obtain ⟨hf, hlists, hstatus, hnext⟩ := hk
  have hlist : k'.lists.list = k.lists.list := by rw [hlists]
  refine ⟨?_, ?_, ?_, ?_, ?_, ?_, ?_, hop, by rw [hlists]⟩
  · rw [hlists, hf.wakeupTime]
    exact h.linked.setMicroOpOldLen 0
  · rw [hlist, hnext, hf.wakeupTime]
    exact h.timely
  · unfold Placed
    rw [hlist, hstatus, hf.priority, hf.taskCnt]
    exact h.placed
  · rw [hlist, hf.taskCnt]
    exact h.free
  · rw [hf.current, hf.taskCnt]
    exact h.current
  · rw [hstatus, hf.current]
    exact h.running
  · rw [hstatus, hf.schedulerStarted]
    exact h.stopped

end Kernel

end IntOS
