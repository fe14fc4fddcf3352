import IntOS.Sched.Contents

/-!
# What the list transactions do to the order of the lists
-/

namespace IntOS

open Persist Persist.Prog IntOS.Lists

namespace Kernel

variable {cfg : Config} {k k' : Kernel} {q q' : Contents} {t u w : Nat} {Q : Unit → Kernel → Prop}

/-! ## Parts of transactions -/

theorem shows_addToReadyList (h : Shows k q) (hn : k.lists.list (.sched t) = none)
    (hQ : ∀ s, Holds ListRef.IsReady s (q.join (k.priority t) t) →
      Q () { k with lists := s, status := Function.update k.status t .ready }) :
    Ends (addToReadyList t) Q k := by
  simp only [addToReadyList, ends_bind, ends_gets]
  refine ends_onLists (ends_optimizedInsertBeforeCursor h trivial hn) ?_
  intro _ s hs
  rw [← Contents.join_eq] at hs
  exact hQ s hs

theorem shows_remove {debug : Bool} {l : ListRef} {n : NodeRef} (h : Shows k q) (hn : k.lists.list n = some l)
    (hQ : ∀ s, Holds ListRef.IsReady s (Function.update q l ((q l).erase n)) →
      s.list = Function.update k.lists.list n none → Q () { k with lists := s }) :
    Ends (onLists (optimizedRemove debug l n)) Q k := by
  have hmem := h.mem.mpr hn
  refine ends_onLists (ends_optimizedRemove h hmem) fun _ s hs => hQ s hs ?_
  exact hs.list_eq (h.owner_erase hmem fun x => (h.nodup l).mem_erase_iff)

theorem shows_insertSorted {gt : NodeRef → Bool} {op : ListOpCode} {l : ListRef} {n : NodeRef} (h : Shows k q)
    (hfree : ∀ n, k.taskCnt ≤ n.task → k.lists.list n = none) (hl : ¬ l.IsReady) (hn : k.lists.list n = none)
    (hQ : ∀ s, Holds ListRef.IsReady s (Function.update q l (Contents.insertSorted gt n (q l))) →
      s.list = Function.update k.lists.list n (some l) → Q () { k with lists := s }) :
    Ends (onLists (Lists.insertSorted cfg.debugAssertions op (nodeBound k) gt l n)) Q k := by
  have hlen := length_le hfree (h.nodup l) fun x hx => h.mem.mp hx
  refine ends_onLists (ends_insertSorted h hl hn hlen) ?_
  rintro _ s ⟨xs, ys, hxy, hxs, hys, hs⟩
  rw [← Contents.insertSorted_append hxs hys, ← hxy] at hs
  exact hQ s hs (hs.list_eq (h.owner_insert hn fun x => Contents.mem_insertSorted))

theorem shows_insertFront {n : NodeRef} (h : Shows k q) (hn : k.lists.list n = none)
    (hQ : ∀ s, Holds ListRef.IsReady s (Function.update q (.waiting w) (n :: q (.waiting w))) →
      s.list = Function.update k.lists.list n (some (.waiting w)) → Q () { k with lists := s }) :
    Ends (onLists (optimizedInsertFront cfg.debugAssertions (.waiting w) n)) Q k := by
  refine ends_onLists (ends_optimizedInsertFront h id hn) fun _ s hs => hQ s hs ?_
  exact hs.list_eq (h.owner_insert hn fun x => List.mem_cons)

theorem shows_addToDelayedList (h : Shows k q) (hfree : ∀ n, k.taskCnt ≤ n.task → k.lists.list n = none)
    (hn : k.lists.list (.sched t) = none)
    (hQ : ∀ s v, Holds ListRef.IsReady s
        (Function.update q .delayed (Contents.insertSorted (wakesLater k.wakeupTime t) (.sched t) (q .delayed))) →
      Q () { k with lists := s, status := Function.update k.status t .blocked, nextUnblockTime := v }) :
    Ends (addToDelayedList cfg t) Q k := by
  simp only [addToDelayedList, insertDelayed, ends_bind, ends_setStatus, ends_gets]
  apply shows_insertSorted (k := { k with status := Function.update k.status t .blocked }) h hfree id hn
  intro s hs _
  simp only [ends_bind, ends_gets]
  split
  · exact hQ s _ hs
  · exact hQ s _ hs

/-! ## Waking up -/

/-- The moves of a wake-up, in whatever order, are what `wake` says. -/
theorem Shows.join_eq_wake (h : Shows k q) {q₁ : Contents} (hd : q₁ .delayed = (q .delayed).erase (.sched u))
    (hr : ∀ p, q₁ (.ready p) = q (.ready p))
    (hwait : ∀ w, k.lists.list (.event u) = some (.waiting w) → q₁ (.waiting w) = (q (.waiting w)).erase (.event u))
    (hother : ∀ w, k.lists.list (.event u) ≠ some (.waiting w) → q₁ (.waiting w) = q (.waiting w)) :
    Contents.join (k.priority u) u q₁ = Contents.wake k.priority u q := by
  funext l
  cases l with
  | ready p => simp [Contents.join, Contents.wake, hr]
  | delayed => exact hd
  | waiting w =>
      by_cases hl : k.lists.list (.event u) = some (.waiting w)
      · exact hwait w hl
      · refine (hother w hl).trans (List.erase_of_not_mem ?_).symm
        rwa [h.mem]

theorem shows_makeReady {rest : Prog Kernel Unit} {s : Lists NodeRef ListRef} {p : Option NodeRef}
    {op : ListTxOpCode} (h : Shows k q) (hevent : k.lists.list (.event u) = some (.waiting w))
    (hsched : k.lists.list (.sched u) = some .delayed)
    (hs : Holds ListRef.IsReady s (Function.update q (.waiting w) ((q (.waiting w)).erase (.event u))))
    (hrest : ∀ s', Holds ListRef.IsReady s' (Contents.wake k.priority u q) →
      Ends rest Q { k with
        lists := s', blockNodePtr := p, op := op, status := Function.update k.status u .ready }) :
    Ends (do
      removeFromDelayedList cfg u
      addToReadyList u
      rest) Q { k with lists := s, blockNodePtr := p, op := op } := by
  rw [ends_bind]
  apply shows_remove
  · exact hs
  · dsimp only
    rw [hs.owner, Function.update_of_ne (by simp), h.mem]
    exact hsched
  intro s₁ hs₁ hlist
  rw [ends_bind]
  apply shows_addToReadyList
  · exact hs₁
  · dsimp only
    rw [hlist, Function.update_self]
  intro s₂ hs₂
  apply hrest
  rwa [h.join_eq_wake] at hs₂
  · simp
  · simp
  · intro w' hw'
    rw [hevent] at hw'
    cases hw'
    simp
  · intro w' hw'
    rw [hevent] at hw'
    have hne : w' ≠ w := fun he => hw' (he ▸ rfl)
    simp [hne]

/-- What the wake-up of the first waiter leaves, as far as there is one. -/
theorem Inv.popRemove_shows (h : Inv k) (hq : Shows k q) (w : Nat) (hcur : k.current = some t)
    (hdone : k.listTxDone t = false) :
    Ends (rollForwardPopRemoveFromWaitlist cfg w) (fun _ k' => Shows k' (match (q (.waiting w)).head? with
      | none => q
      | some n => q.wake k.priority n.task)) k := by
  simp only [rollForwardPopRemoveFromWaitlist, ends_bind, ends_bypass hcur hdone, Bool.false_eq_true, if_false,
    ends_gets, ends_store, ends_setTxOp]
  cases hw : q (.waiting w) with
  | nil =>
      apply ends_onLists
      · exact ends_optimizedPopFront_nil hq id hw
      rintro _ s ⟨rfl, rfl⟩
      refine (ends_commit (t := t) ?_).mpr ?_
      · exact hcur
      exact hq.setMicroOpOldLen 0
  | cons n xs =>
      have hn : k.lists.list n = some (.waiting w) := hq.mem.mp (by simp [hw])
      obtain ⟨hu, hevent, hsched⟩ := h.waiting hn
      generalize n.task = u at hu hevent hsched
      subst hevent
      apply ends_onLists
      · exact ends_optimizedPopFront hq id hw
      rintro _ s ⟨rfl, hs⟩
      apply shows_makeReady hq hn hsched
      · rwa [hw, List.erase_cons_head]
      intro s' hs'
      refine (ends_commit (t := t) ?_).mpr ?_
      · exact hcur
      exact hs'.setMicroOpOldLen 0

theorem Shows.removeFromUnsorted (hq : Shows k q) (hn : k.lists.list (.event u) = some (.waiting w))
    (hsched : k.lists.list (.sched u) = some .delayed) :
    Ends (rollForwardRemoveFromUnsortedWaitlist cfg w (.event u)) (fun _ k' => Shows k' (q.wake k.priority u) ∧
      k' = { k with
        lists := k'.lists
        blockNodePtr := some (.event u)
        op := .invalid
        status := Function.update k.status u .ready }) k := by
  simp only [rollForwardRemoveFromUnsortedWaitlist, ends_bind, ends_store, ends_setTxOp]
  apply shows_remove
  · exact hq
  · exact hn
  intro s hs _
  apply shows_makeReady hq hn hsched hs
  intro s' hs'
  rw [ends_invalidate]
  exact ⟨hs'.setMicroOpOldLen 0, rfl⟩

theorem Inv.removeFromUnsorted_shows (h : Inv k) (hq : Shows k q) (hn : k.lists.list (.event u) = some (.waiting w)) :
    Ends (rollForwardRemoveFromUnsortedWaitlist cfg w (.event u)) (fun _ k' => Shows k' (q.wake k.priority u)) k :=
  (hq.removeFromUnsorted hn (h.waiting hn).2.2).mono fun _ _ hk' => hk'.1

/-- The front task of the delayed list wakes up. -/
theorem Shows.removeFromDelaylist {xs : List NodeRef} (hq : Shows k q) (hd : q .delayed = .sched u :: xs)
    (hwait : ∀ l, k.lists.list (.event u) = some l → ∃ w, l = .waiting w) :
    Ends (rollForwardRemoveFromDelaylist cfg) (fun _ k' => Shows k' (q.wake k.priority u) ∧ k' = { k with
      lists := k'.lists
      op := .invalid
      status := Function.update k.status u .ready }) k := by
  have hn : k.lists.list (.sched u) = some .delayed := hq.mem.mp (by simp [hd])
  have herase : xs = (q .delayed).erase (.sched u) := by rw [hd, List.erase_cons_head]
  simp only [rollForwardRemoveFromDelaylist, ends_bind, setTxOp, ends_store]
  apply ends_onLists
  · exact ends_optimizedPopFront hq id hd
  rintro _ s ⟨rfl, hs⟩
  rw [herase] at hs
  have hlist := hs.list_eq (hq.owner_erase (hq.mem.mpr hn) fun x => (hq.nodup .delayed).mem_erase_iff)
  have hevent : s.list (.event u) = k.lists.list (.event u) := by
    rw [hlist, Function.update_of_ne (event_ne_sched _ _)]
  simp only [removeFromOwnWaitlist, NodeRef.task, ends_bind, ends_gets]
  rw [hevent]
  cases hl : k.lists.list (.event u) with
  | none =>
      simp only [ends_pure]
      rw [ends_bind]
      apply shows_addToReadyList
      · exact hs
      · rw [hlist, Function.update_self]
      intro s₁ hs₁
      rw [ends_invalidate]
      rw [hq.join_eq_wake] at hs₁
      · exact ⟨hs₁.setMicroOpOldLen 0, rfl⟩
      all_goals simp [hl]
  | some l =>
      obtain ⟨w, rfl⟩ := hwait l hl
      apply shows_remove
      · exact hs
      · rw [hevent, hl]
      intro s₁ hs₁ hlist₁
      rw [ends_bind]
      apply shows_addToReadyList
      · exact hs₁
      · rw [hlist₁, Function.update_of_ne (sched_ne_event _ _), hlist, Function.update_self]
      intro s₂ hs₂
      rw [ends_invalidate]
      rw [hq.join_eq_wake] at hs₂
      · exact ⟨hs₂.setMicroOpOldLen 0, rfl⟩
      · simp
      · simp
      · intro w' hw'
        rw [hl] at hw'
        cases hw'
        simp
      · intro w' hw'
        have hne : w' ≠ w := fun he => hw' (he ▸ hl)
        simp [hne]

theorem Inv.waits (h : Inv k) {l : ListRef} (hl : k.lists.list (.event u) = some l) : ∃ w, l = .waiting w := by
  obtain ⟨_, hl⟩ := h.of_list hl
  cases l with
  | ready p => cases hl.1
  | delayed => cases hl.1
  | waiting w => exact ⟨w, rfl⟩

theorem Inv.removeFromDelaylist_shows (h : Inv k) (hq : Shows k q) :
    After (rollForwardRemoveFromDelaylist cfg) (fun _ k' =>
      ∀ u, k.lists.head .delayed = some (.sched u) → Shows k' (q.wake k.priority u)) k := by
  have hhead := hq.head (l := .delayed) id
  cases hd : q .delayed with
  | nil =>
      simp only [rollForwardRemoveFromDelaylist, after_bind, setTxOp, after_store]
      exact after_zoom.mpr ((ends_optimizedPopFront_nil hq id hd).after.mono fun r s hr => by rw [hr.1]; trivial)
  | cons n xs =>
      obtain ⟨_, hsched, _⟩ := h.of_list (hq.mem.mp (show n ∈ q .delayed by simp [hd]))
      generalize n.task = u at hsched
      subst hsched
      refine (hq.removeFromDelaylist hd fun l hl => h.waits hl).after.mono ?_
      rintro _ k' ⟨hk', _⟩ v hv
      rw [hhead, hd] at hv
      cases hv
      exact hk'

/-! ## Blocking -/

/-- What putting the current task to sleep leaves. -/
theorem Shows.sleep_eq (hq : Shows k q) (hsched : k.lists.list (.sched t) = some (.ready (k.priority t)))
    {q₁ : Contents} (hr : q₁ (.ready (k.priority t)) = (q (.ready (k.priority t))).erase (.sched t))
    (hother : ∀ p, p ≠ k.priority t → q₁ (.ready p) = q (.ready p)) (hd : q₁ .delayed = q .delayed)
    (wk : Nat → Nat) (l : ListRef) :
    Function.update q₁ .delayed (Contents.insertSorted (wakesLater wk t) (.sched t) (q₁ .delayed)) l =
      match l with
      | .waiting w => q₁ (.waiting w)
      | l => q.sleep wk t l := by
  cases l with
  | ready p =>
      by_cases hp : p = k.priority t
      · subst hp
        simp [Contents.sleep, hr]
      · simp only [ne_eq, reduceCtorEq, not_false_eq_true, Function.update_of_ne, Contents.sleep]
        rw [hother p hp, List.erase_of_not_mem]
        rw [hq.mem, hsched]
        simpa using Ne.symm hp
  | delayed => simp [Contents.sleep, hd]
  | waiting w => simp

theorem Inv.insertIntoDelaylist_shows (h : Inv k) (hq : Shows k q) (hcur : k.current = some t)
    (hdone : k.listTxDone t = false) (hb : k.status t ≠ .blocked) :
    Ends (rollForwardInsertIntoDelaylist cfg) (fun _ k' => Shows k' (q.sleep k.wakeupTime t)) k := by
  have ht := h.current t hcur
  obtain ⟨hsched, _⟩ := h.unblocked ht hb
  simp only [rollForwardInsertIntoDelaylist, ends_bind, ends_bypass hcur hdone, Bool.false_eq_true, if_false,
    ends_setTxOp]
  refine (ends_getCurrent (t := t) ?_).mpr ?_
  · exact hcur
  simp only [removeFromReadyList, ends_bind, ends_gets]
  apply shows_remove
  · exact hq
  · exact hsched
  intro s hs hlist
  rw [ends_bind]
  apply shows_addToDelayedList
  · exact hs
  · dsimp only
    rw [hlist]
    exact free_update h.free ht
  · dsimp only
    rw [hlist, Function.update_self]
  intro s₁ v hs₁
  refine (ends_commit (t := t) ?_).mpr ?_
  · exact hcur
  refine Holds.setMicroOpOldLen (Eq.subst (motive := Holds _ s₁) ?_ hs₁) 0
  funext l
  rw [hq.sleep_eq hsched]
  · cases l with
    | waiting w => simp [Contents.sleep]
    | _ => rfl
  · simp
  · intro p hp
    simp [hp]
  · simp

/-- The moves of a task that blocks on a wait list, with `hinsert` for what puts its event node into it. -/
theorem Inv.blockInto_shows {m : Prog Kernel Unit} {op : ListTxOpCode} {f : List NodeRef → List NodeRef} (h : Inv k)
    (hq : Shows k q) (ht : t < k.taskCnt) (hb : k.status t ≠ .blocked)
    (hinsert : ∀ {k' : Kernel} {q' : Contents} {Q : Unit → Kernel → Prop}, Shows k' q' →
      (∀ n, k'.taskCnt ≤ n.task → k'.lists.list n = none) → k'.lists.list (.event t) = none →
      k'.priority = k.priority →
      (∀ s, Holds ListRef.IsReady s (Function.update q' (.waiting w) (f (q' (.waiting w)))) →
        s.list = Function.update k'.lists.list (.event t) (some (.waiting w)) → Q () { k' with lists := s }) →
      Ends m Q k') :
    Ends (do
      store fun k => { k with waitListPtr := some w }
      setTxOp op
      removeFromReadyList cfg t
      m
      addToDelayedList cfg t
      invalidate) (fun _ k' => Shows k'
        (Function.update (q.sleep k.wakeupTime t) (.waiting w) (f (q (.waiting w))))) k := by
  obtain ⟨hsched, hevent⟩ := h.unblocked ht hb
  simp only [ends_bind, ends_store, ends_setTxOp, removeFromReadyList, ends_gets]
  apply shows_remove
  · exact hq
  · exact hsched
  intro s hs hlist
  have hfree : ∀ n, k.taskCnt ≤ n.task → s.list n = none := by
    rw [hlist]
    exact free_update h.free ht
  rw [ends_bind]
  apply hinsert
  · exact hs
  · exact hfree
  · dsimp only
    rw [hlist, Function.update_of_ne (event_ne_sched _ _)]
    exact hevent
  · rfl
  intro s₁ hs₁ hlist₁
  rw [ends_bind]
  apply shows_addToDelayedList
  · exact hs₁
  · dsimp only
    rw [hlist₁]
    exact free_update hfree ht
  · dsimp only
    rw [hlist₁, Function.update_of_ne (sched_ne_event _ _), hlist, Function.update_self]
  intro s₂ v hs₂
  rw [ends_invalidate]
  refine Holds.setMicroOpOldLen (Eq.subst (motive := Holds _ s₂) ?_ hs₂) 0
  funext l
  rw [hq.sleep_eq hsched]
  · cases l with
    | waiting w' =>
        by_cases hw : w' = w
        · subst hw
          simp
        · simp [hw, Contents.sleep]
    | _ => simp
  · simp
  · intro p hp
    simp [hp]
  · simp

theorem Inv.insertIntoWaitlist_shows (h : Inv k) (hq : Shows k q) (w : Nat) (ht : t < k.taskCnt)
    (hb : k.status t ≠ .blocked) :
    Ends (rollForwardInsertIntoWaitlist cfg w t) (fun _ k' =>
      Shows k' ((q.sleep k.wakeupTime t).wait k.priority w t)) k := by
  apply h.blockInto_shows hq ht hb
  intro k' q' Q hq' hfree hn hprio hQ
  simp only [insertWaiting, ends_bind, ends_gets, hprio]
  exact shows_insertSorted hq' hfree id hn hQ

theorem Inv.insertIntoUnsortedWaitlist_shows (h : Inv k) (hq : Shows k q) (w : Nat) (ht : t < k.taskCnt)
    (hb : k.status t ≠ .blocked) :
    Ends (rollForwardInsertIntoUnsortedWaitlist cfg w t) (fun _ k' =>
      Shows k' ((q.sleep k.wakeupTime t).waitFront w t)) k := by
  apply h.blockInto_shows hq ht hb
  intro k' q' Q hq' _ hn _ hQ
  exact shows_insertFront hq' hn hQ

/-! ## Switching -/

/-- The cursor of the ring moves to the chosen task, which runs. -/
theorem Shows.contextSwitch (hq : Shows k q) {i prevTask : Nat} (hne : t ≠ prevTask)
    (hring : q (.ready i) ≠ []) :
    Ends (atomicRollFowardContextSwitch t prevTask i) (fun _ k' => Shows k' (q.turn i) ∧ k' = { k with
      lists := k'.lists
      taskPtr := some prevTask
      status := Function.update (Function.update k.status t .running) prevTask
        (if k.status prevTask = .blocked then .blocked else .ready)
      current := some t }) k := by
  obtain ⟨c, xs, hc⟩ := List.exists_cons_of_ne_nil hring
  have hready' : ListRef.IsReady (.ready i) := trivial
  simp only [atomicRollFowardContextSwitch, setCurrent, ends_bind, ends_store, ends_setMicroOp, ends_setStatus,
    ends_gets, Function.update_of_ne hne.symm]
  have hturn : Function.update q (.ready i) (xs ++ [c]) = q.turn i := by simp [Contents.turn, hc]
  split
  case isTrue hready =>
    rw [ends_bind, ends_setStatus, ends_bind]
    apply ends_onLists
    · exact ends_nextItem (hq.setMicroOpOldLen _) hready' hc
    rintro _ s ⟨_, hs⟩
    rw [ends_bind, ends_store, ends_setMicroOp]
    rw [hturn] at hs
    exact ⟨hs.setMicroOpOldLen _, rfl⟩
  case isFalse hblocked =>
    rw [not_not] at hblocked
    rw [ends_bind]
    apply ends_onLists
    · exact ends_nextItem (hq.setMicroOpOldLen _) hready' hc
    rintro _ s ⟨_, hs⟩
    rw [ends_bind, ends_store, ends_setMicroOp]
    rw [hturn] at hs
    refine ⟨hs.setMicroOpOldLen _, ?_⟩
    have hstatus : Function.update (Function.update k.status t .running) prevTask .blocked =
        Function.update k.status t .running := by
      rw [← hblocked, Function.update_comm hne, Function.update_eq_self]
    rw [if_pos hblocked, hstatus]

/-! ## Creation -/

theorem shows_resetNode {n : NodeRef} (h : Shows k q) (hn : k.lists.list n = none)
    (hQ : ∀ s, Holds ListRef.IsReady s q → s.list = k.lists.list → Q () { k with lists := s }) :
    Ends (onLists (resetNode n)) Q k := by
  have hne : ∀ m, k.lists.list m ≠ none → m ≠ n := fun m hm he => hm (he ▸ hn)
  have hlist : Function.update k.lists.list n none = k.lists.list := by rw [← hn, Function.update_eq_self]
  refine ends_onLists (P := fun _ s => Holds ListRef.IsReady s q ∧ s.list = k.lists.list) ?_ fun _ s hs =>
    hQ s hs.1 hs.2
  simp only [Lists.resetNode, setPrev, setNext, setList, ends_bind, ends_store]
  refine ⟨h.frame hlist rfl rfl rfl ?_ ?_, hlist⟩
  · exact fun m hm => Function.update_of_ne (hne m hm) _ _
  · exact fun m hm => Function.update_of_ne (hne m hm) _ _

theorem Inv.createTaskStatic_shows (h : Inv k) (hq : Shows k q) (prio : Nat) :
    Ends (Kernel.createTaskStatic cfg prio) (fun _ k' => Rests k k' ∧ Shows k' q ∨
      Creates k prio k' ∧ Shows k' (q.join prio k.taskCnt)) k := by
  have hsame : Rests k k := ⟨rfl, rfl, rfl, rfl⟩
  have hnone : ∀ n : NodeRef, n.task = k.taskCnt → k.lists.list n = none := fun n hn =>
    h.free n (Nat.le_of_eq hn.symm)
  simp only [Kernel.createTaskStatic, ends_bind, ends_gets]
  split
  · exact Or.inl ⟨hsame, hq⟩
  split
  · exact Or.inl ⟨hsame, hq⟩
  rename_i hprio
  have hlt := Nat.lt_of_not_le hprio
  simp only [initializeTask, ends_bind, ends_store]
  apply shows_resetNode
  · exact hq
  · exact hnone _ rfl
  intro s hs hlist
  rw [ends_bind]
  apply shows_resetNode
  · exact hs
  · dsimp only
    rw [hlist]
    exact hnone _ rfl
  intro s₁ hs₁ hlist₁
  dsimp only at hlist₁
  simp only [ends_bind, ends_setWakeupTime, ends_store, ends_setStatus, ends_gets, setCurrent,
    rollForwardInsertIntoReadylist]
  split
  case isTrue hfirst =>
    rw [ends_bind, ends_store, ends_bind, ends_store]
    simp only [ends_bind, ends_store, ends_setTxOp]
    apply shows_addToReadyList
    · exact hs₁
    · dsimp only
      rw [hlist₁, hlist]
      exact hnone _ rfl
    intro s₂ hs₂
    rw [ends_invalidate, ends_pure]
    refine Or.inr ⟨⟨hlt, rfl, rfl, ?_, Or.inr ⟨Bool.eq_false_iff.mpr hfirst.1, rfl⟩⟩, ?_⟩
    · exact Function.update_idem _ _ _
    · dsimp only at hs₂
      rw [Function.update_self] at hs₂
      exact hs₂.setMicroOpOldLen 0
  case isFalse =>
    simp only [ends_bind, ends_store, ends_setTxOp]
    apply shows_addToReadyList
    · exact hs₁
    · dsimp only
      rw [hlist₁, hlist]
      exact hnone _ rfl
    intro s₂ hs₂
    rw [ends_invalidate, ends_pure]
    refine Or.inr ⟨⟨hlt, rfl, rfl, ?_, Or.inl rfl⟩, ?_⟩
    · exact Function.update_idem _ _ _
    · dsimp only at hs₂
      rw [Function.update_self] at hs₂
      exact hs₂.setMicroOpOldLen 0

/-! ## Operations -/

theorem Woke.turns (h : Woke k t k') : Turns k t .ready k' :=
  ⟨h.frame.taskCnt, h.frame.priority, h.status, h.frame.current⟩

theorem Slept.turns {v : Option ListRef} {wk : Nat → Nat} (h : Slept { k with wakeupTime := wk } t v k') :
    Turns k t .blocked k' :=
  ⟨h.frame.taskCnt, h.frame.priority, h.status, h.frame.current⟩

theorem Inv.taskDelay_effect (h : Inv k) (hq : Shows k q) (ho : Executing k) (nticks : Nat) :
    After (Kernel.taskDelay cfg nticks) (fun _ k' => ∃ q', Shows k' q' ∧ Effect (.taskDelay nticks) k q k' q') k := by
  simp only [Kernel.taskDelay, addTime, after_bind, after_getCurrent, after_gets, after_check, after_pure,
    after_setWakeupTime]
  intro t hcur _
  obtain ⟨ht, hsched⟩ := h.executing hcur ho
  have h' := h.setWakeupTime hsched (k.tickCounter + nticks)
  by_cases hdone : k.listTxDone t = true
  · simp only [rollForwardInsertIntoDelaylist, after_bind, after_bypass]
    intro u hu _
    obtain rfl : t = u := by
      rw [hcur] at hu
      cases hu
      rfl
    rw [hdone]
    exact ⟨q, hq, .wakes (.rest ⟨rfl, rfl, rfl, rfl⟩)⟩
  · have hdone' := Bool.eq_false_iff.mpr hdone
    refine ((h'.insertIntoDelaylist hcur hdone' (ho t hcur)).after.and
      (h'.insertIntoDelaylist_shows hq hcur hdone' (ho t hcur)).after).mono ?_
    rintro _ k' ⟨⟨_, _, hs⟩, hq'⟩
    refine ⟨_, hq', ?_⟩
    rw [← hs.frame.wakeupTime]
    exact .delay hcur (ho t hcur) hs.turns

theorem Inv.blockOnWaitlist_effect (h : Inv k) (hq : Shows k q) (ho : Executing k) (w wakeupTime : Nat) :
    After (Kernel.blockOnWaitlist cfg w wakeupTime)
      (fun _ k' => ∃ q', Shows k' q' ∧ Effect (.block w wakeupTime) k q k' q') k := by
  simp only [Kernel.blockOnWaitlist, after_bind, after_getCurrent, after_setWakeupTime]
  intro t hcur
  obtain ⟨ht, hsched⟩ := h.executing hcur ho
  have h' := h.setWakeupTime hsched wakeupTime
  refine ((h'.insertIntoWaitlist w ht (ho t hcur)).after.and
    (h'.insertIntoWaitlist_shows hq w ht (ho t hcur)).after).mono ?_
  rintro _ k' ⟨⟨_, _, hs⟩, hq'⟩
  refine ⟨_, hq', ?_⟩
  rw [← hs.frame.wakeupTime]
  exact .block hcur (ho t hcur) hs.turns

theorem Inv.blockOnUnsortedWaitlist_effect (h : Inv k) (hq : Shows k q) (ho : Executing k) (w wakeupTime : Nat) :
    After (Kernel.blockOnUnsortedWaitlist cfg w wakeupTime)
      (fun _ k' => ∃ q', Shows k' q' ∧ Effect (.blockUnsorted w wakeupTime) k q k' q') k := by
  simp only [Kernel.blockOnUnsortedWaitlist, after_bind, after_getCurrent, after_setWakeupTime]
  intro t hcur
  obtain ⟨ht, hsched⟩ := h.executing hcur ho
  have h' := h.setWakeupTime hsched wakeupTime
  refine ((h'.insertIntoUnsortedWaitlist w ht (ho t hcur)).after.and
    (h'.insertIntoUnsortedWaitlist_shows hq w ht (ho t hcur)).after).mono ?_
  rintro _ k' ⟨⟨_, _, hs⟩, hq'⟩
  refine ⟨_, hq', ?_⟩
  rw [← hs.frame.wakeupTime]
  exact .blockUnsorted hcur (ho t hcur) hs.turns

theorem Inv.wakeFirst_wakes (h : Inv k) (hq : Shows k q) (w : Nat) :
    After (rollForwardPopRemoveFromWaitlist cfg w) (fun _ k' => ∃ q', Shows k' q' ∧ Wakes k q k' q') k := by
  cases hcur : k.current with
  | none =>
      simp only [rollForwardPopRemoveFromWaitlist, after_bind, after_bypass, hcur]
      exact nofun
  | some t =>
      by_cases hdone : k.listTxDone t = true
      · simp only [rollForwardPopRemoveFromWaitlist, after_bind, after_bypass]
        intro u hu _
        rw [hcur] at hu
        cases hu
        rw [hdone]
        exact ⟨q, hq, .rest ⟨rfl, rfl, rfl, rfl⟩⟩
      · have hdone' := Bool.eq_false_iff.mpr hdone
        refine ((h.popRemoveFromWaitlist w hcur hdone').after.and (h.popRemove_shows hq w hcur hdone').after).mono ?_
        rintro _ k' ⟨⟨_, _, hcase⟩, hq'⟩
        refine ⟨_, hq', ?_⟩
        rw [← hq.head (l := .waiting w) id]
        rcases hcase with ⟨hhead, hk⟩ | ⟨u, hhead, _, hu, hw⟩
        · rw [hhead]
          exact .rest ⟨hk.frame.taskCnt, hk.frame.priority, hk.status, hk.frame.current⟩
        · rw [hhead]
          exact .wake (hq.mem.mpr (h.waiting hu).2.2) hw.turns (.rest ⟨rfl, rfl, rfl, rfl⟩)

theorem Inv.wakeDue_wakes (h : Inv k) (hq : Shows k q) (curTicks fuel : Nat) :
    After (Kernel.wakeDue cfg curTicks fuel) (fun _ k' => Inv k' ∧ ∃ q', Shows k' q' ∧ Wakes k q k' q') k := by
  induction fuel generalizing k q with
  | zero => trivial
  | succ fuel ih =>
      have hrest : Wakes k q k q := .rest ⟨rfl, rfl, rfl, rfl⟩
      simp only [Kernel.wakeDue, after_bind, after_gets]
      cases k.lists.head .delayed with
      | none => exact ⟨h, q, hq, hrest⟩
      | some item =>
          simp only [after_bind, after_gets]
          split
          · exact ⟨h, q, hq, hrest⟩
          · rw [after_bind]
            refine (h.removeFromDelaylist.and (h.removeFromDelaylist_shows hq)).mono ?_
            rintro _ k₁ ⟨⟨h₁, _, u, hhead, hw⟩, hq₁⟩
            refine (ih h₁ (hq₁ u hhead)).mono ?_
            rintro _ k' ⟨h', q', hq', hwakes⟩
            rw [hq.head id] at hhead
            exact ⟨h', q', hq', .wake (List.mem_of_head? hhead) hw.turns hwakes⟩

theorem Rests.trans {k₁ : Kernel} (h : Rests k k₁) (h' : Rests k₁ k') : Rests k k' :=
  ⟨h'.taskCnt.trans h.taskCnt, h'.priority.trans h.priority, h'.status.trans h.status, h'.current.trans h.current⟩

theorem Wakes.before {k₀ : Kernel} (h : Wakes k q k' q') (hr : Rests k₀ k) : Wakes k₀ q k' q' := by
  cases h with
  | rest hr' => exact .rest (hr.trans hr')
  | wake hd ht hw =>
      rw [hr.priority] at hw
      refine .wake hd ⟨ht.taskCnt.trans hr.taskCnt, ht.priority.trans hr.priority, ?_, ht.current.trans hr.current⟩ hw
      rw [ht.status, hr.status]

theorem Wakes.after (h : Wakes k q k' q') {k'' : Kernel} (hr : Rests k' k'') : Wakes k q k'' q' := by
  induction h with
  | rest hr' => exact .rest (hr'.trans hr)
  | wake hd ht _ ih => exact .wake hd ht (ih hr)

theorem Inv.processTick_wakes (h : Inv k) (hq : Shows k q) :
    After (Kernel.processTick cfg) (fun _ k' => ∃ q', Shows k' q' ∧ Wakes k q k' q') k := by
  simp only [Kernel.processTick, incTick, after_bind, after_gets, after_check, after_store, after_pure]
  intro _
  split
  · simp only [after_bind, after_gets]
    have hinv : Inv { k with tickCounter := (k.tickCounter + 1) % 2 ^ cfg.timeBits } :=
      ⟨h.linked, h.timely, h.placed, h.free, h.current, h.running, h.stopped, h.op, h.microOp⟩
    refine (hinv.wakeDue_wakes hq _ _).mono ?_
    rintro _ k' ⟨_, q', hq', hwakes⟩
    have hwakes' : Wakes k q _ q' := hwakes.before ⟨rfl, rfl, rfl, rfl⟩
    exact ⟨q', hq', hwakes'.after ⟨rfl, rfl, rfl, rfl⟩⟩
  · exact ⟨q, hq, .rest ⟨rfl, rfl, rfl, rfl⟩⟩

/-- The task after the cursor of the first ring is chosen: it runs already, or the cursor moves on. -/
theorem Inv.taskSwitch_chooses (h : Inv k) (hq : Shows k q) :
    After (Kernel.taskSwitch cfg) (fun _ k' => ∃ prevTask i t, k.current = some prevTask ∧
      Kernel.nextTask k = some (i, t) ∧
      (t = prevTask ∧ k' = k ∨ Switches k i prevTask t k' ∧ Shows k' (q.turn i))) k := by
  simp only [Kernel.taskSwitch, after_bind, after_getCurrent, after_gets]
  intro prevTask hcur
  cases hk : Kernel.nextTask k with
  | none => trivial
  | some p =>
      obtain ⟨i, task⟩ := p
      obtain ⟨_, _, _, _, c, hc, _⟩ := h.nextTask hk
      by_cases hne : task = prevTask
      · simp only [hne, ne_eq, not_true_eq_false, if_false, after_bind, after_gets, after_check]
        exact fun _ => ⟨prevTask, i, prevTask, hcur, rfl, Or.inl ⟨rfl, trivial⟩⟩
      · simp only [ne_eq, hne, not_false_eq_true, if_true, after_bind, after_gets, after_check]
        intro _
        have hring : q (.ready i) ≠ [] := by
          rw [hq.cursor] at hc
          exact List.ne_nil_of_mem (List.mem_of_head? hc)
        refine (hq.contextSwitch hne hring).after.mono ?_
        rintro _ k' ⟨hq', hk'⟩
        rw [hk'] at hq' ⊢
        exact ⟨prevTask, i, task, hcur, rfl, Or.inr ⟨⟨hne, hk, hcur, rfl, rfl, rfl, rfl⟩, hq'⟩⟩

theorem Inv.effect (h : Inv k) (hq : Shows k q) {op : Op} (ho : op.Enabled k) :
    After (op.prog cfg) (fun _ k' => ∃ q', Shows k' q' ∧ Effect op k q k' q') k := by
  cases op with
  | createTask prio =>
      simp only [Op.prog, after_bind]
      refine (h.createTaskStatic_shows hq prio).after.mono ?_
      rintro _ k' (⟨hr, hq'⟩ | ⟨hc, hq'⟩)
      · exact ⟨q, hq', .wakes (.rest hr)⟩
      · exact ⟨_, hq', .create hc⟩
  | startKernel => exact ⟨q, hq, .wakes (.rest ⟨rfl, rfl, rfl, rfl⟩)⟩
  | taskDelay nticks => exact h.taskDelay_effect hq ho nticks
  | block w wakeupTime => exact h.blockOnWaitlist_effect hq ho w wakeupTime
  | blockUnsorted w wakeupTime => exact h.blockOnUnsortedWaitlist_effect hq ho w wakeupTime
  | wake w =>
      refine (h.wakeFirst_wakes hq w).mono ?_
      rintro _ k' ⟨q', hq', hw⟩
      exact ⟨q', hq', .wakes hw⟩
  | wakeNode w n =>
      have hn := h.inList_iff.mp ho
      obtain ⟨_, hevent, hsched⟩ := h.waiting hn
      simp only [Op.prog]
      rw [hevent] at hn ⊢
      refine ((h.removeFromUnsortedWaitlist hn).after.and (h.removeFromUnsorted_shows hq hn).after).mono ?_
      rintro _ k' ⟨⟨_, _, hw⟩, hq'⟩
      exact ⟨_, hq', .wakes (.wake (hq.mem.mpr hsched) hw.turns (.rest ⟨rfl, rfl, rfl, rfl⟩))⟩
  | processTick =>
      refine h.processTick_wakes hq |>.mono ?_
      rintro _ k' ⟨q', hq', hw⟩
      exact ⟨q', hq', .wakes hw⟩
  | taskSwitch =>
      refine (h.taskSwitch_chooses hq).mono ?_
      rintro _ k' ⟨prevTask, i, t, _, _, ⟨_, rfl⟩ | ⟨hs, hq'⟩⟩
      · exact ⟨q, hq, .wakes (.rest ⟨rfl, rfl, rfl, rfl⟩)⟩
      · exact ⟨_, hq', .switch hs⟩
  | syscallEnd =>
      simp only [Op.prog, after_bind, after_getCurrent, after_store]
      exact fun t _ => ⟨q, hq, .wakes (.rest ⟨rfl, rfl, rfl, rfl⟩)⟩

end Kernel

end IntOS
