import IntOS.Sched.Recover
import IntOS.Sched.Runs

/-!
# Context switches and power failures

A switch first stores `task_ptr`, then logs `ReadyListNext`. From there on recovery goes on from what the
ring of the previous task's priority shows.
-/

namespace IntOS

open Persist Persist.Prog IntOS.Lists

namespace Kernel

variable {cfg : Config} {k c : Kernel} {prevTask task i n : Nat} {moved : Prop}

/-- The switch to `task` is complete. -/
structure SwitchedTo (task : Nat) (k : Kernel) : Prop where
  current : k.current = some task
  cursor : k.lists.cursor (.ready (k.priority task)) = some (.sched task)
  status : k.status task = .running
  others : ∀ u, k.status u = .running → u = task

/-- How many stores a switch from `prevTask` has made when the cursor has moved. -/
def cursorStore (k : Kernel) (prevTask : Nat) : Nat := if k.status prevTask = .blocked then 4 else 5

/-! ## The states of a switch -/

/-- What a failure leaves once the switch is logged. -/
def midSwitch (k : Kernel) (prevTask : Nat) (status : Nat → TaskState) (cursor : ListRef → Option NodeRef)
    (current : Option Nat) : Kernel :=
  { k with
    taskPtr := some prevTask
    status := status
    current := current
    lists := { k.lists with cursor := cursor, microOpOldLen := microOpOldLenOf .readyListNext 0 } }

/-- The statuses that a switch leaves. -/
def switchedStatus (k : Kernel) (prevTask task : Nat) : Nat → TaskState :=
  if k.status prevTask = .blocked then Function.update k.status task .running
  else Function.update (Function.update k.status task .running) prevTask .ready

theorem switch_trace {v : NodeRef} (hc : k.lists.cursor (.ready i) = some v)
    (hnext : k.lists.next v = some (.sched task)) (hne : task ≠ prevTask) :
    (atomicRollFowardContextSwitch task prevTask i k).trace =
      [{ k with taskPtr := some prevTask }, midSwitch k prevTask k.status k.lists.cursor k.current,
        midSwitch k prevTask (Function.update k.status task .running) k.lists.cursor k.current] ++
      (if k.status prevTask = .blocked then []
        else [midSwitch k prevTask (switchedStatus k prevTask task) k.lists.cursor k.current]) ++
      [midSwitch k prevTask (switchedStatus k prevTask task)
          (Function.update k.lists.cursor (.ready i) (some (.sched task))) k.current,
        midSwitch k prevTask (switchedStatus k prevTask task)
          (Function.update k.lists.cursor (.ready i) (some (.sched task))) (some task),
        { midSwitch k prevTask (switchedStatus k prevTask task)
            (Function.update k.lists.cursor (.ready i) (some (.sched task))) (some task) with
          lists := { k.lists with
            cursor := Function.update k.lists.cursor (.ready i) (some (.sched task)), microOpOldLen := 0 } }] := by
  unfold switchedStatus
  by_cases hb : k.status prevTask = .blocked
  · simp only [atomicRollFowardContextSwitch, store_bind_apply, setMicroOp, setMicroOpOldLen, setStatus,
      setCurrent, onLists, zoom_bind_apply, store, gets_bind_apply, ne_eq, hb, nextItem, setCursor, hc, hnext,
      gets, Function.update_of_ne hne.symm, not_true_eq_false, if_true, if_false, List.map, List.cons_append,
      List.nil_append, zoom]
    rfl
  · simp only [atomicRollFowardContextSwitch, store_bind_apply, setMicroOp, setMicroOpOldLen, setStatus,
      setCurrent, onLists, zoom_bind_apply, store, gets_bind_apply, ne_eq, hb, nextItem, setCursor, hc, hnext,
      gets, Function.update_of_ne hne.symm, not_false_eq_true, if_true, if_false, List.map, List.cons_append,
      List.nil_append, zoom]
    rfl

/-- The stores of `task_switch` are those of the context switch. -/
theorem taskSwitch_trace (hcur : k.current = some prevTask) (hk : nextTask k = some (i, task))
    (hne : task ≠ prevTask) :
    (taskSwitch cfg k).trace = [] ∨
      (taskSwitch cfg k).trace = (atomicRollFowardContextSwitch task prevTask i k).trace := by
  have heq : taskSwitch cfg k =
      (do
        check (cfg.debugAssertions → k.status task = .ready ∨ k.status task = .running)
        atomicRollFowardContextSwitch task prevTask i : Prog Kernel Unit) k := by
    simp only [taskSwitch, getCurrent, assoc, gets_bind_apply, hcur, pure_bind_apply, hk, ne_eq, hne,
      not_false_eq_true, if_true]
  rw [heq, check_bind_apply]
  split
  · exact Or.inr rfl
  · exact Or.inl rfl

/-- What recovery needs to know of such a state; `moved` says that the cursor has moved. -/
structure Interrupted (k : Kernel) (prevTask task : Nat) (moved : Prop) (c : Kernel) : Prop where
  microOp : Lists.getMicroOp c.lists = some .readyListNext
  taskPtr : c.taskPtr = some prevTask
  priority : c.priority = k.priority
  next : c.lists.next = k.lists.next
  cursor : moved →
    c.lists.cursor = Function.update k.lists.cursor (.ready (k.priority task)) (some (.sched task))
  cursor_of_not : ¬ moved → c.lists.cursor = k.lists.cursor
  running : ∀ u, c.status u = .running → u = task ∨ u = prevTask
  prev : moved ∨ k.status prevTask = .blocked → c.status prevTask ≠ .running

theorem interrupted_midSwitch {status : Nat → TaskState} {cursor : ListRef → Option NodeRef}
    {current : Option Nat} (hcursor : moved →
      cursor = Function.update k.lists.cursor (.ready (k.priority task)) (some (.sched task)))
    (hnot : ¬ moved → cursor = k.lists.cursor) (hrun : ∀ u, status u = .running → u = task ∨ u = prevTask)
    (hprev : moved ∨ k.status prevTask = .blocked → status prevTask ≠ .running) :
    Interrupted k prevTask task moved (midSwitch k prevTask status cursor current) :=
  ⟨getMicroOp_eq (by decide) rfl, rfl, rfl, rfl, hcursor, hnot, hrun, hprev⟩

theorem switchedStatus_prev (hne : task ≠ prevTask) : switchedStatus k prevTask task prevTask ≠ .running := by
  unfold switchedStatus
  split
  case isTrue hb =>
    rw [Function.update_of_ne hne.symm, hb]
    exact nofun
  case isFalse =>
    rw [Function.update_self]
    exact nofun

theorem switchedStatus_running (hrun : ∀ u, k.status u = .running → u = prevTask) {u : Nat}
    (hu : switchedStatus k prevTask task u = .running) : u = task := by
  by_contra hut
  unfold switchedStatus at hu
  split at hu
  case isTrue hb =>
    rw [Function.update_of_ne hut] at hu
    rw [hrun u hu, hb] at hu
    cases hu
  case isFalse =>
    by_cases hup : u = prevTask
    · rw [hup, Function.update_self] at hu
      cases hu
    · rw [Function.update_of_ne hup, Function.update_of_ne hut] at hu
      exact hup (hrun u hu)

theorem interrupted (h : Inv k) (hcur : k.current = some prevTask) (hk : nextTask k = some (i, task))
    (hne : task ≠ prevTask) (hc : (crashes (taskSwitch cfg) k)[n]? = some c) (hn : 2 ≤ n)
    (hlast : n < (taskSwitch cfg k).trace.length) :
    Interrupted k prevTask task (cursorStore k prevTask ≤ n) c := by
  obtain ⟨_, _, rfl, _, v, hv, hnext⟩ := h.nextTask hk
  have hrun : ∀ u, k.status u = .running → u = prevTask := by
    intro u hu
    have hc' := h.running u hu
    rw [hcur] at hc'
    exact (Option.some.inj hc').symm
  have hchosen : ∀ u, Function.update k.status task .running u = .running → u = task ∨ u = prevTask := by
    intro u hu
    by_cases hut : u = task
    · exact Or.inl hut
    · rw [Function.update_of_ne hut] at hu
      exact Or.inr (hrun u hu)
  have hblocked : ∀ {s : TaskState}, s = .blocked → s ≠ .running := by
    rintro _ rfl
    exact nofun
  rcases taskSwitch_trace hcur hk hne with htr | htr
  · rw [htr] at hlast
    cases hlast
  unfold crashes at hc
  rw [htr, switch_trace hv hnext hne] at hc hlast
  unfold cursorStore
  by_cases hb : k.status prevTask = .blocked
  · simp only [hb, if_true, List.append_nil, List.cons_append, List.nil_append, List.length_cons,
      List.length_nil] at hc hlast ⊢
    obtain rfl | rfl | rfl | rfl : n = 2 ∨ n = 3 ∨ n = 4 ∨ n = 5 := by omega
    · cases hc
      exact interrupted_midSwitch (by omega) (fun _ => rfl) (fun u hu => Or.inr (hrun u hu))
        fun _ => hblocked hb
    · cases hc
      refine interrupted_midSwitch (by omega) (fun _ => rfl) hchosen fun _ => ?_
      rw [Function.update_of_ne hne.symm]
      exact hblocked hb
    · cases hc
      exact interrupted_midSwitch (fun _ => rfl) (by omega)
        (fun u hu => Or.inl (switchedStatus_running hrun hu)) fun _ => switchedStatus_prev hne
    · cases hc
      exact interrupted_midSwitch (fun _ => rfl) (by omega)
        (fun u hu => Or.inl (switchedStatus_running hrun hu)) fun _ => switchedStatus_prev hne
  · simp only [hb, if_false, List.cons_append, List.nil_append, List.length_cons,
      List.length_nil] at hc hlast ⊢
    obtain rfl | rfl | rfl | rfl | rfl : n = 2 ∨ n = 3 ∨ n = 4 ∨ n = 5 ∨ n = 6 := by omega
    · cases hc
      exact interrupted_midSwitch (by omega) (fun _ => rfl) (fun u hu => Or.inr (hrun u hu))
        (fun hm => absurd hm (by simp [hb]))
    · cases hc
      exact interrupted_midSwitch (by omega) (fun _ => rfl) hchosen (fun hm => absurd hm (by simp [hb]))
    · cases hc
      exact interrupted_midSwitch (by omega) (fun _ => rfl)
        (fun u hu => Or.inl (switchedStatus_running hrun hu)) fun _ => switchedStatus_prev hne
    · cases hc
      exact interrupted_midSwitch (fun _ => rfl) (by omega)
        (fun u hu => Or.inl (switchedStatus_running hrun hu)) fun _ => switchedStatus_prev hne
    · cases hc
      exact interrupted_midSwitch (fun _ => rfl) (by omega)
        (fun u hu => Or.inl (switchedStatus_running hrun hu)) fun _ => switchedStatus_prev hne

/-! ## Recovery -/

/-- `recover_and_roll_forward_context_switch` where the switch is logged. -/
theorem Interrupted.ends_recover (hi : Interrupted k prevTask task moved c) {Q : Unit → Kernel → Prop} :
    Ends recoverAndRollForwardContextSwitch Q c ↔
      match c.lists.cursor (.ready (k.priority prevTask)) with
      | none => False
      | some w =>
          if w.task = prevTask then
            match k.lists.next w with
            | none => False
            | some x => Q () { c with
                status := Function.update (Function.update c.status prevTask .ready) x.task .running
                current := some x.task
                lists := { c.lists with
                  cursor := Function.update c.lists.cursor (.ready (k.priority prevTask)) (some x)
                  microOpOldLen := 0 } }
          else Q () { c with
            status := Function.update c.status w.task .running
            current := some w.task
            lists := { c.lists with microOpOldLen := 0 } } := by
  conv_lhs =>
    simp only [recoverAndRollForwardContextSwitch, getMicroOp, getTask, ends_bind, ends_gets, hi.microOp,
      ends_pure, hi.taskPtr, hi.priority]
  cases hc : c.lists.cursor (.ready (k.priority prevTask)) with
  | none => rfl
  | some w =>
      dsimp only
      split
      case isTrue hw =>
        conv_lhs =>
          simp only [ends_bind, setStatus, ends_store, onLists, ends_zoom, nextItem, setCursor, ends_gets, hc,
            Function.update_self]
        rw [hi.next]
        cases k.lists.next w with
        | none => rfl
        | some x =>
            simp only [ends_bind, ends_store, setCurrent, setMicroOp, onLists, ends_zoom, setMicroOpOldLen]
            rfl
      case isFalse hw =>
        simp only [ends_bind, setStatus, ends_store, setCurrent, setMicroOp, onLists, ends_zoom,
          setMicroOpOldLen]
        rfl

/-- A ring whose cursor is followed by itself has no other node. -/
theorem Inv.eq_of_next_self (h : Inv k) {v x : NodeRef} (hv : k.lists.cursor (.ready i) = some v)
    (hnext : k.lists.next v = some v) (hx : k.lists.list x = some (.ready i)) : x = v := by
  obtain ⟨y, hy, hr⟩ := h.inList_iff.mpr hx
  rw [entry, hv] at hy
  cases hy
  clear hx
  induction hr with
  | refl => rfl
  | tail _ hab ih =>
      rw [ih, hnext] at hab
      exact (Option.some.inj hab).symm

theorem SwitchedTo.of_update {k' : Kernel} {status : Nat → TaskState} (hcur : k'.current = some task)
    (hcursor : k'.lists.cursor (.ready (k'.priority task)) = some (.sched task))
    (hstatus : k'.status = Function.update status task .running)
    (hrun : ∀ u, status u = .running → u = task) : SwitchedTo task k' := by
  refine ⟨hcur, hcursor, ?_, fun u hu => ?_⟩
  · rw [hstatus, Function.update_self]
  · by_contra hut
    rw [hstatus, Function.update_of_ne hut] at hu
    exact hut (hrun u hu)

/-- The cursor is on the chosen task: recovery takes it as moved. -/
theorem Interrupted.recovers_of_cursor (hi : Interrupted k prevTask task moved c) (hne : task ≠ prevTask)
    (hprio : k.priority prevTask = k.priority task)
    (hc : c.lists.cursor (.ready (k.priority task)) = some (.sched task))
    (hprev : c.status prevTask ≠ .running) :
    Ends recoverAndRollForwardContextSwitch (fun _ => SwitchedTo task) c := by
  rw [hi.ends_recover, hprio, hc]
  simp only [NodeRef.task, hne, if_false]
  refine SwitchedTo.of_update rfl ?_ rfl fun u hu => ?_
  · rw [← hc, hi.priority]
  · rcases hi.running u hu with hut | hup
    · exact hut
    · rw [hup] at hu
      exact absurd hu hprev

/-- The cursor is on the previous task, and moves to the next one. -/
theorem Interrupted.recovers_of_prev (hi : Interrupted k prevTask task moved c)
    (hprio : k.priority prevTask = k.priority task)
    (hc : c.lists.cursor (.ready (k.priority task)) = some (.sched prevTask))
    (hnext : k.lists.next (.sched prevTask) = some (.sched task)) :
    Ends recoverAndRollForwardContextSwitch (fun _ => SwitchedTo task) c := by
  rw [hi.ends_recover, hprio, hc]
  simp only [NodeRef.task, if_true, hnext]
  refine SwitchedTo.of_update rfl ?_ rfl fun u hu => ?_
  · rw [hi.priority]
    exact Function.update_self _ _ _
  · by_cases hup : u = prevTask
    · rw [hup, Function.update_self] at hu
      cases hu
    · rw [Function.update_of_ne hup] at hu
      exact (hi.running u hu).resolve_right hup

/-- After the switch is logged, recovery completes it exactly if the previous task has the priority of the
chosen one, and the cursor of the ring is on one of them or has moved. -/
theorem Interrupted.recovers_iff (h : Inv k) (hi : Interrupted k prevTask task moved c) (hne : task ≠ prevTask)
    (hcur : k.current = some prevTask) (hk : nextTask k = some (i, task)) :
    Ends recoverAndRollForwardContextSwitch (fun _ => SwitchedTo task) c ↔
      k.priority prevTask = k.priority task ∧
        (k.lists.cursor (.ready (k.priority task)) = some (.sched prevTask) ∨
          k.lists.cursor (.ready (k.priority task)) = some (.sched task) ∨ moved) := by
  obtain ⟨_, ht, rfl, hb, v, hv, hnext⟩ := h.nextTask hk
  obtain ⟨hsched, _⟩ := h.unblocked ht hb
  have hring : ListRef.IsReady (.ready (k.priority prevTask)) := trivial
  constructor
  · intro hend
    rw [hi.ends_recover] at hend
    -- the node that recovery makes current is in the ring of the previous task's priority
    have hsame : ∀ w, k.lists.cursor (.ready (k.priority prevTask)) = some w →
        k.lists.list w = some (.ready (k.priority prevTask)) := fun w hw =>
      h.linked.list_of_cursor hring hw
    by_cases hprio : k.priority prevTask = k.priority task
    · refine ⟨hprio, ?_⟩
      by_cases hm : moved
      · exact Or.inr (Or.inr hm)
      · rw [hi.cursor_of_not hm, hprio, hv] at hend
        rw [hv]
        have hvs := (h.of_list (h.linked.list_of_cursor (by trivial) hv)).2.1
        by_cases hvp : v.task = prevTask
        · rw [hvs, hvp]
          exact Or.inl rfl
        · simp only [hvp, if_false] at hend
          have hvt : v.task = task := Option.some.inj hend.current
          rw [hvs, hvt]
          exact Or.inr (Or.inl rfl)
    · have hcursor : c.lists.cursor (.ready (k.priority prevTask)) =
          k.lists.cursor (.ready (k.priority prevTask)) := by
        by_cases hm : moved
        · rw [hi.cursor hm, Function.update_of_ne]
          simpa using hprio
        · rw [hi.cursor_of_not hm]
      have hother : ∀ w : NodeRef, k.lists.list w = some (.ready (k.priority prevTask)) → w.task ≠ task := by
        intro w hw hwt
        obtain ⟨_, _, hp, _⟩ := h.of_list hw
        rw [hwt] at hp
        exact hprio hp
      rw [hcursor] at hend
      cases hw : k.lists.cursor (.ready (k.priority prevTask)) with
      | none =>
          rw [hw] at hend
          exact hend.elim
      | some w =>
          rw [hw] at hend
          dsimp only at hend
          split at hend
          · cases hx : k.lists.next w with
            | none =>
                rw [hx] at hend
                exact hend.elim
            | some x =>
                rw [hx] at hend
                have hpeek : peekNext k.lists (.ready (k.priority prevTask)) = some x := by
                  unfold peekNext
                  rw [hw]
                  exact hx
                obtain ⟨_, _, _, hxl⟩ := h.linked.list_of_peekNext hring hpeek
                exact absurd (Option.some.inj hend.current) (hother x hxl)
          · exact absurd (Option.some.inj hend.current) (hother w (hsame w hw))
  · rintro ⟨hprio, hcase⟩
    by_cases hm : moved
    · refine hi.recovers_of_cursor hne hprio ?_ (hi.prev (Or.inl hm))
      rw [hi.cursor hm, Function.update_self]
    · have hcursor := hi.cursor_of_not hm
      rcases hcase with hc | hc | hmoved
      · rw [hv] at hc
        cases hc
        exact hi.recovers_of_prev hprio (by rw [hcursor]; exact hv) hnext
      · rw [hv] at hc
        cases hc
        refine hi.recovers_of_cursor hne hprio (by rw [hcursor]; exact hv) (hi.prev (Or.inr ?_))
        -- the chosen task is alone in its ring, so the previous one has left it
        by_contra hready
        obtain ⟨hp, _⟩ := h.unblocked (h.current prevTask hcur) hready
        rw [hprio] at hp
        have heq := h.eq_of_next_self hv hnext hp
        cases heq
        exact hne rfl
      · exact absurd hmoved hm

theorem recoverListTransaction_idle (hop : c.op = .invalid) (hmicro : c.lists.microOpOldLen = 0) :
    (recoverListTransaction cfg) c = ⟨[], some ((), c)⟩ := by
  have hm : Lists.getMicroOp c.lists = some .invalid := getMicroOp_zero hmicro
  simp only [recoverListTransaction, gets_bind_apply, hop, pure_bind_apply, recoverAndRollForwardContextSwitch,
    getMicroOp, assoc, hm, pure_apply]

/-- Until the switch is logged only `task_ptr` is stored. -/
theorem crashes_taskSwitch_one (h : Inv k) (hcur : k.current = some prevTask) (hk : nextTask k = some (i, task))
    (hne : task ≠ prevTask) (hc : (crashes (taskSwitch cfg) k)[1]? = some c)
    (hlast : 1 < (taskSwitch cfg k).trace.length) : c = { k with taskPtr := some prevTask } := by
  obtain ⟨_, _, rfl, _, v, hv, hnext⟩ := h.nextTask hk
  rcases taskSwitch_trace hcur hk hne with htr | htr
  · rw [htr] at hlast
    cases hlast
  · rw [crashes, htr, switch_trace hv hnext hne] at hc
    cases hc
    rfl

/-- A switch that is not logged is not repeated: recovery changes nothing. -/
theorem switch_undone (h : Inv k) (hcur : k.current = some prevTask) (hk : nextTask k = some (i, task))
    (hne : task ≠ prevTask) (hc : (crashes (taskSwitch cfg) k)[1]? = some c)
    (hlast : 1 < (taskSwitch cfg k).trace.length) :
    (recoverListTransaction cfg) c = ⟨[], some ((), c)⟩ ∧ (recoverAndRollForwardContextSwitch) c = ⟨[], some ((), c)⟩ ∧
      c.current = some prevTask := by
  have hidle := crashes_taskSwitch_one h hcur hk hne hc hlast
  have hop : c.op = .invalid := hidle ▸ h.op
  have hmicro : c.lists.microOpOldLen = 0 := hidle ▸ h.microOp
  have hm : Lists.getMicroOp c.lists = some .invalid := getMicroOp_zero hmicro
  refine ⟨recoverListTransaction_idle hop hmicro, ?_, hidle ▸ hcur⟩
  simp only [recoverAndRollForwardContextSwitch, getMicroOp, assoc, gets_bind_apply, hm, pure_bind_apply,
    pure_apply]

/-- Recovery completes a switch exactly if the failure strikes once `ReadyListNext` is logged, the two tasks have
one priority, and the cursor of their ring is on one of them or has moved. -/
theorem context_switch_survives_iff (h : Reachable cfg k) (hcur : k.current = some prevTask)
    (hk : nextTask k = some (i, task)) (hne : task ≠ prevTask) (hc : (crashes (taskSwitch cfg) k)[n]? = some c)
    (hfirst : 1 ≤ n) (hlast : n < (taskSwitch cfg k).trace.length) :
    Ends recoverAndRollForwardContextSwitch (fun _ => SwitchedTo task) c ↔
      2 ≤ n ∧ k.priority prevTask = k.priority task ∧
        (k.lists.cursor (.ready (k.priority task)) = some (.sched prevTask) ∨
          k.lists.cursor (.ready (k.priority task)) = some (.sched task) ∨ cursorStore k prevTask ≤ n) := by
  have hinv := h.inv
  by_cases hn : 2 ≤ n
  · rw [(interrupted hinv hcur hk hne hc hn hlast).recovers_iff hinv hne hcur hk]
    exact (and_iff_right hn).symm
  · obtain rfl : n = 1 := by omega
    obtain ⟨_, hrun, hold⟩ := switch_undone hinv hcur hk hne hc hlast
    constructor
    · intro hend
      rw [Ends, hrun] at hend
      have hswitched : SwitchedTo task c := hend
      have hnew := hswitched.current
      rw [hold] at hnew
      exact absurd (Option.some.inj hnew).symm hne
    · rintro ⟨htwo, _⟩
      exact absurd htwo hn

/-- Two tasks of one priority. -/
def paired : Kernel :=
  Op.startKernel.exec qemuDebug ((Op.createTask 0).exec qemuDebug ((Op.createTask 0).exec qemuDebug
    (new qemuDebug)))

theorem reachable_paired : Reachable qemuDebug paired := by
  have hinit : Reachable qemuDebug (new qemuDebug) := .init
  exact ((hinit.exec (.createTask 0) trivial rfl).exec (.createTask 0) trivial rfl).exec .startKernel trivial rfl

theorem context_switch_survives_iff_paired : ∃ c, (crashes (taskSwitch qemuDebug) paired)[2]? = some c ∧
    Ends recoverAndRollForwardContextSwitch (fun _ => SwitchedTo 1) c := by
  have hlt : 2 < (crashes (taskSwitch qemuDebug) paired).length := by decide
  have hc := List.getElem?_eq_getElem hlt
  have hiff := context_switch_survives_iff reachable_paired (i := 0) rfl rfl (by decide) hc (by decide) (by decide)
  exact ⟨_, hc, hiff.mpr ⟨by decide, rfl, Or.inl rfl⟩⟩

/-- The delayed task was alone in its ring, and power fails while the switch away from it is logged. -/
theorem switch_from_empty_ring_panics :
    Reachable qemuDebug sleeping ∧ sleeping.current = some 0 ∧ nextTask sleeping = some (7, 1) ∧
    2 < (taskSwitch qemuDebug sleeping).trace.length ∧
    (∃ c, (crashes (taskSwitch qemuDebug) sleeping)[1]? = some c ∧
      ¬ Ends recoverAndRollForwardContextSwitch (fun _ => SwitchedTo 1) c) ∧
    ∃ c, (crashes (taskSwitch qemuDebug) sleeping)[2]? = some c ∧
      ((recoverAndRollForwardContextSwitch) c).out = none :=
  ⟨reachable_sleeping, rfl, rfl, by decide, ⟨_, rfl, fun h => nomatch h.current⟩, _, rfl, rfl⟩

end Kernel

end IntOS
