import IntOS.Sched.Schedule

/-!
# The kernel is the scheduler on sequences

Whatever operations come, the kernel with its linked lists does what `Schedule.step` does, and panics where it has no
step.
-/

namespace IntOS

open Persist Persist.Prog IntOS.Lists

namespace Kernel

variable {cfg : Config} {k k' : Kernel} {q q' : Contents} {s : Schedule} {t u w : Nat} {Q : Unit → Kernel → Prop}
  {ops : List Op} {s' : Schedule}

/-! ## List transactions -/

theorem Inv.popRemove_refines (h : Inv k) (hq : Shows k q) (w : Nat) (hcur : k.current = some t)
    (hdone : k.listTxDone t = false) :
    Ends (rollForwardPopRemoveFromWaitlist cfg w) (fun _ k' => Refines k'
      { Schedule.wakeFirst w (Schedule.of k q) with listTxDone := Function.update k.listTxDone t true }) k := by
  simp only [rollForwardPopRemoveFromWaitlist, ends_bind, ends_bypass hcur hdone, Bool.false_eq_true, if_false,
    ends_gets, ends_store, ends_setTxOp, Schedule.wakeFirst, Schedule.of]
  cases hw : q (.waiting w) with
  | nil =>
      apply ends_onLists
      · exact ends_optimizedPopFront_nil hq id hw
      rintro _ s ⟨rfl, rfl⟩
      refine (ends_commit (t := t) ?_).mpr ⟨?_, ?_⟩
      · exact hcur
      · exact hq.setMicroOpOldLen 0
      · rfl
  | cons n xs =>
      have hn : k.lists.list n = some (.waiting w) := hq.mem.mp (by simp [hw])
      obtain ⟨hu, hevent, hsched⟩ := h.waiting hn
      generalize n.task = u at hu hevent hsched
      subst hevent
      apply ends_onLists
      · exact ends_optimizedPopFront hq id hw
      rintro _ s ⟨rfl, hs⟩
      apply shows_makeReady hq hn hsched
      · rwa [hw, List.erase_cons_head]
      intro s' hs'
      refine (ends_commit (t := t) ?_).mpr ⟨?_, ?_⟩
      · exact hcur
      · exact hs'.setMicroOpOldLen 0
      · rfl

theorem Inv.removeFromUnsorted_refines (h : Inv k) (hq : Shows k q) (hn : k.lists.list (.event u) = some (.waiting w)) :
    Ends (rollForwardRemoveFromUnsortedWaitlist cfg w (.event u))
      (fun _ k' => Refines k' ((Schedule.of k q).wake u)) k := by
  refine (hq.removeFromUnsorted hn (h.waiting hn).2.2).mono ?_
  rintro _ k' ⟨hk', heq⟩
  refine ⟨hk', ?_⟩
  rw [heq]
  rfl

/-- What `add_to_delayed_list` leaves, which may bring the next wake-up forward. -/
theorem refines_addToDelayedList (h : Shows k q) (hfree : ∀ n, k.taskCnt ≤ n.task → k.lists.list n = none)
    (hn : k.lists.list (.sched t) = none)
    (hQ : ∀ s, Holds ListRef.IsReady s
        (Function.update q .delayed (Contents.insertSorted (wakesLater k.wakeupTime t) (.sched t) (q .delayed))) →
      Q () { k with
        lists := s
        status := Function.update k.status t .blocked
        nextUnblockTime := if k.wakeupTime t < k.nextUnblockTime then k.wakeupTime t else k.nextUnblockTime }) :
    Ends (addToDelayedList cfg t) Q k := by
  simp only [addToDelayedList, insertDelayed, ends_bind, ends_setStatus, ends_gets]
  apply shows_insertSorted (k := { k with status := Function.update k.status t .blocked }) h hfree id hn
  intro s hs _
  have hrest := hQ s hs
  simp only [ends_bind, ends_gets]
  split
  · next hlt =>
      rw [if_pos hlt] at hrest
      exact hrest
  · next hge =>
      rw [if_neg hge] at hrest
      exact hrest

theorem Inv.insertIntoDelaylist_refines (h : Inv k) (hq : Shows k q) (hcur : k.current = some t)
    (hdone : k.listTxDone t = false) (hb : k.status t ≠ .blocked) :
    Ends (rollForwardInsertIntoDelaylist cfg) (fun _ k' => Refines k'
      { (Schedule.of k q).sleep t with listTxDone := Function.update k.listTxDone t true }) k := by
  have ht := h.current t hcur
  obtain ⟨hsched, _⟩ := h.unblocked ht hb
  simp only [rollForwardInsertIntoDelaylist, ends_bind, ends_bypass hcur hdone, Bool.false_eq_true, if_false,
    ends_setTxOp]
  refine (ends_getCurrent (t := t) ?_).mpr ?_
  · exact hcur
  simp only [removeFromReadyList, ends_bind, ends_gets]
  apply shows_remove
  · exact hq
  · exact hsched
  intro s hs hlist
  rw [ends_bind]
  apply refines_addToDelayedList
  · exact hs
  · dsimp only
    rw [hlist]
    exact free_update h.free ht
  · dsimp only
    rw [hlist, Function.update_self]
  intro s₁ hs₁
  refine (ends_commit (t := t) ?_).mpr ⟨?_, rfl⟩
  · exact hcur
  refine Holds.setMicroOpOldLen (Eq.subst (motive := Holds _ s₁) ?_ hs₁) 0
  funext l
  rw [hq.sleep_eq hsched]
  · cases l with
    | waiting w => simp [Contents.sleep, Schedule.sleep, Schedule.of]
    | _ => rfl
  · simp
  · intro p hp
    simp [hp]
  · simp

/-- The moves of a task that blocks on a wait list, with `hinsert` for what puts its event node into it. -/
theorem Inv.blockInto_refines {m : Prog Kernel Unit} {op : ListTxOpCode} {f : List NodeRef → List NodeRef} (h : Inv k)
    (hq : Shows k q) (ht : t < k.taskCnt) (hb : k.status t ≠ .blocked)
    (hinsert : ∀ {k' : Kernel} {q' : Contents} {Q : Unit → Kernel → Prop}, Shows k' q' →
      (∀ n, k'.taskCnt ≤ n.task → k'.lists.list n = none) → k'.lists.list (.event t) = none →
      k'.priority = k.priority →
      (∀ s, Holds ListRef.IsReady s (Function.update q' (.waiting w) (f (q' (.waiting w)))) →
        s.list = Function.update k'.lists.list (.event t) (some (.waiting w)) → Q () { k' with lists := s }) →
      Ends m Q k') :
    Ends (do
      store fun k => { k with waitListPtr := some w }
      setTxOp op
      removeFromReadyList cfg t
      m
      addToDelayedList cfg t
      invalidate) (fun _ k' => Refines k' { (Schedule.of k q).sleep t with
        contents := Function.update (q.sleep k.wakeupTime t) (.waiting w) (f (q (.waiting w))) }) k := by
  obtain ⟨hsched, hevent⟩ := h.unblocked ht hb
  simp only [ends_bind, ends_store, ends_setTxOp, removeFromReadyList, ends_gets]
  apply shows_remove
  · exact hq
  · exact hsched
  intro s hs hlist
  have hfree : ∀ n, k.taskCnt ≤ n.task → s.list n = none := by
    rw [hlist]
    exact free_update h.free ht
  rw [ends_bind]
  apply hinsert
  · exact hs
  · exact hfree
  · dsimp only
    rw [hlist, Function.update_of_ne (event_ne_sched _ _)]
    exact hevent
  · rfl
  intro s₁ hs₁ hlist₁
  rw [ends_bind]
  apply refines_addToDelayedList
  · exact hs₁
  · dsimp only
    rw [hlist₁]
    exact free_update hfree ht
  · dsimp only
    rw [hlist₁, Function.update_of_ne (sched_ne_event _ _), hlist, Function.update_self]
  intro s₂ hs₂
  rw [ends_invalidate]
  refine ⟨?_, rfl⟩
  refine Holds.setMicroOpOldLen (Eq.subst (motive := Holds _ s₂) ?_ hs₂) 0
  funext l
  rw [hq.sleep_eq hsched]
  · cases l with
    | waiting w' =>
        by_cases hw : w' = w
        · subst hw
          simp
        · simp [hw, Contents.sleep]
    | _ => simp
  · simp
  · intro p hp
    simp [hp]
  · simp

theorem Inv.insertIntoWaitlist_refines (h : Inv k) (hq : Shows k q) (w : Nat) (ht : t < k.taskCnt)
    (hb : k.status t ≠ .blocked) :
    Ends (rollForwardInsertIntoWaitlist cfg w t) (fun _ k' => Refines k' { (Schedule.of k q).sleep t with
      contents := (q.sleep k.wakeupTime t).wait k.priority w t }) k := by
  apply h.blockInto_refines hq ht hb
  intro k' q' Q hq' hfree hn hprio hQ
  simp only [insertWaiting, ends_bind, ends_gets, hprio]
  exact shows_insertSorted hq' hfree id hn hQ

theorem Inv.insertIntoUnsortedWaitlist_refines (h : Inv k) (hq : Shows k q) (w : Nat) (ht : t < k.taskCnt)
    (hb : k.status t ≠ .blocked) :
    Ends (rollForwardInsertIntoUnsortedWaitlist cfg w t) (fun _ k' => Refines k' { (Schedule.of k q).sleep t with
      contents := (q.sleep k.wakeupTime t).waitFront w t }) k := by
  apply h.blockInto_refines hq ht hb
  intro k' q' Q hq' _ hn _ hQ
  exact shows_insertFront hq' hn hQ

/-! ## Operations -/

/-- The operation ends in what refines the state, if there is one, and panics otherwise. -/
def Does (p : Prog Kernel Unit) (k : Kernel) : Option Schedule → Prop
  | some s => Ends p (fun _ k' => Refines k' s) k
  | none => After p (fun _ _ => False) k

/-- The front task of the delayed list wakes up, in its turn. -/
theorem Inv.removeFromDelaylist_refines (h : Inv k) (hr : Refines k s) {n : NodeRef} {xs : List NodeRef}
    (hd : s.contents .delayed = n :: xs) :
    Ends (rollForwardRemoveFromDelaylist cfg) (fun _ k' => Inv k' ∧ Refines k' (s.wake n.task)) k := by
  have hn : k.lists.list n = some .delayed := hr.shows.mem.mp (by simp [hd])
  obtain ⟨_, hsched, _⟩ := h.of_list hn
  have hhead : k.lists.head .delayed ≠ none := by
    rw [hr.shows.head id, hd]
    exact Option.some_ne_none n
  rw [hsched] at hd
  refine ((h.removeFromDelaylist_ends hhead).and (hr.shows.removeFromDelaylist hd fun _ hl => h.waits hl)).mono ?_
  rintro _ k' ⟨⟨h', _⟩, hshows, heq⟩
  refine ⟨h', ?_, ?_⟩
  · rw [hr.same]
    exact hshows
  · rw [heq, hr.same]
    rfl

theorem Inv.wakeDue_refines (h : Inv k) (hr : Refines k s) (now : Nat) {fuel : Nat}
    (hfuel : (s.contents .delayed).length < fuel) :
    Ends (Kernel.wakeDue cfg now fuel) (fun _ k' => Refines k' (s.wakeDue now)) k := by
  induction fuel generalizing k s with
  | zero => exact absurd hfuel (Nat.not_lt_zero _)
  | succ fuel ih =>
      have hwakeup : k.wakeupTime = s.wakeupTime := by rw [hr.same]; rfl
      simp only [Kernel.wakeDue, ends_bind, ends_gets]
      rw [hr.shows.head id]
      cases hd : s.contents .delayed with
      | nil =>
          rw [Schedule.wakeDue, Schedule.due, hd]
          exact hr
      | cons n xs =>
          simp only [List.head?_cons, ends_bind, ends_gets, hwakeup]
          split
          · next hlate =>
              rw [Schedule.wakeDue, Schedule.due, hd, List.map_cons, List.takeWhile_cons_of_neg (by simpa using hlate)]
              exact hr
          · next hdue =>
              rw [ends_bind]
              refine (h.removeFromDelaylist_refines hr hd).mono ?_
              rintro _ k₁ ⟨h₁, hr₁⟩
              have hsched : n = .sched n.task :=
                (h.of_list (hr.shows.mem.mp (show n ∈ s.contents .delayed by simp [hd]))).2.1
              have hrest : (s.wake n.task).contents .delayed = xs := by
                change (s.contents .delayed).erase (.sched n.task) = xs
                rw [← hsched, hd, List.erase_cons_head]
              have hfold : s.wakeDue now = (s.wake n.task).wakeDue now := by
                rw [Schedule.wakeDue, Schedule.wakeDue, Schedule.due, hd, List.map_cons,
                  List.takeWhile_cons_of_pos (by simpa using hdue), List.foldl_cons, Schedule.due, hrest]
                rfl
              rw [hfold]
              refine ih h₁ hr₁ ?_
              rw [hrest]
              rw [hd, List.length_cons] at hfuel
              omega

theorem Refines.length_delayed (hr : Refines k s) (h : Inv k) : (s.contents .delayed).length ≤ nodeBound k :=
  length_le h.free (hr.shows.nodup .delayed) fun _ hx => hr.shows.mem.mp hx

theorem Refines.setNextUnblockTime (hr : Refines k s) : Refines { k with
    nextUnblockTime := ((k.lists.head .delayed).map fun n => k.wakeupTime n.task).getD cfg.maxDelayTime }
    (s.setNextUnblockTime cfg) := by
  obtain ⟨hshows, hsame⟩ := hr
  refine ⟨hshows, ?_⟩
  rw [hshows.head id]
  generalize s.contents = q at hsame hshows
  subst hsame
  rfl

theorem Inv.processTick_does (h : Inv k) (hq : Shows k q) :
    Does (Kernel.processTick cfg) k ((Schedule.of k q).processTick cfg) := by
  unfold Schedule.processTick
  by_cases hover : cfg.debugAssertions ∧ 2 ^ cfg.timeBits ≤ (Schedule.of k q).tickCounter + 1
  · rw [if_pos (by simpa using hover)]
    change After _ _ _
    simp only [Kernel.processTick, incTick, after_bind, after_gets, after_check]
    intro hroom
    exact absurd (hroom hover.1) (Nat.not_lt_of_le hover.2)
  · rw [if_neg (by simpa using hover)]
    have hroom : cfg.debugAssertions → k.tickCounter + 1 < 2 ^ cfg.timeBits := fun hd =>
      Nat.lt_of_not_le fun hle => hover ⟨hd, hle⟩
    have hinv : Inv { k with tickCounter := (k.tickCounter + 1) % 2 ^ cfg.timeBits } :=
      ⟨h.linked, h.timely, h.placed, h.free, h.current, h.running, h.stopped, h.op, h.microOp⟩
    have hr : Refines { k with tickCounter := (k.tickCounter + 1) % 2 ^ cfg.timeBits }
        { Schedule.of k q with tickCounter := (k.tickCounter + 1) % 2 ^ cfg.timeBits } := ⟨hq, rfl⟩
    dsimp only
    split
    · next hdue =>
        have hdue' : (k.tickCounter + 1) % 2 ^ cfg.timeBits ≥ k.nextUnblockTime := hdue
        change Ends _ _ _
        simp only [Kernel.processTick, incTick, ends_bind, ends_gets, ends_check, ends_store, ends_pure, if_pos hdue']
        refine ⟨hroom, ?_⟩
        refine (hinv.wakeDue_refines hr _ (Nat.lt_succ_of_le (hr.length_delayed hinv))).mono ?_
        exact fun _ k' hr' => hr'.setNextUnblockTime
    · next hearly =>
        have hearly' : ¬ (k.tickCounter + 1) % 2 ^ cfg.timeBits ≥ k.nextUnblockTime := hearly
        change Ends _ _ _
        simp only [Kernel.processTick, incTick, ends_bind, ends_gets, ends_check, ends_store, ends_pure, if_neg hearly']
        exact ⟨hroom, hr⟩

/-! ### Switching -/

theorem Shows.nextTask_eq (hq : Shows k q) : (Schedule.of k q).nextTask = Kernel.nextTask k := by
  unfold Schedule.nextTask Kernel.nextTask
  refine congrArg (fun f => List.findSome? f _) ?_
  funext i
  rw [hq.peekNext]
  rfl

/-- The cursor of the ring moves to the chosen task, which runs. -/
theorem Shows.contextSwitch_refines (hq : Shows k q) {i prevTask : Nat} (hne : t ≠ prevTask)
    (hring : q (.ready i) ≠ []) :
    Ends (atomicRollFowardContextSwitch t prevTask i) (fun _ k' => Refines k' { Schedule.of k q with
      contents := q.turn i
      status := Function.update (Function.update k.status t .running) prevTask
        (if k.status prevTask = .blocked then .blocked else .ready)
      current := some t }) k := by
  refine (hq.contextSwitch hne hring).mono ?_
  rintro _ k' ⟨hq', hk'⟩
  refine ⟨hq', ?_⟩
  rw [hk']
  rfl

theorem Inv.taskSwitch_does (h : Inv k) (hq : Shows k q) :
    Does (Kernel.taskSwitch cfg) k ((Schedule.of k q).taskSwitch cfg) := by
  unfold Schedule.taskSwitch
  cases hcur : k.current with
  | none =>
      rw [show (Schedule.of k q).current = none from hcur]
      change After _ _ _
      simp only [Kernel.taskSwitch, after_bind, after_getCurrent, hcur]
      exact fun _ hnone => by cases hnone
  | some prevTask =>
      rw [show (Schedule.of k q).current = some prevTask from hcur, Option.bind_eq_bind, Option.bind_some,
        hq.nextTask_eq, Option.bind_eq_bind]
      cases hk : Kernel.nextTask k with
      | none =>
          change After _ _ _
          simp only [Kernel.taskSwitch, after_bind, after_getCurrent, after_gets, hk, after_fail, implies_true]
      | some p =>
          obtain ⟨i, t⟩ := p
          obtain ⟨_, _, _, _, c, hc, _⟩ := h.nextTask hk
          have hring : q (.ready i) ≠ [] := by
            rw [hq.cursor] at hc
            exact List.ne_nil_of_mem (List.mem_of_head? hc)
          have hlen : k.lists.len (.ready i) = (q (.ready i)).length := hq.len _
          rw [Option.bind_some, Schedule.switchTo]
          by_cases hne : t = prevTask
          · rw [if_neg (not_not.mpr hne)]
            by_cases halone : cfg.debugAssertions ∧ (q (.ready i)).length ≠ 1
            · rw [if_pos (by simpa using halone)]
              change After _ _ _
              simp only [Kernel.taskSwitch, after_bind, after_getCurrent, after_gets, hk, hcur]
              rintro u hu
              cases hu
              rw [if_neg (not_not.mpr hne), after_bind, after_gets, after_check, hlen]
              exact fun hone => halone.2 (hone halone.1)
            · rw [if_neg (by simpa using halone)]
              change Ends _ _ _
              simp only [Kernel.taskSwitch, ends_bind, ends_getCurrent hcur, ends_gets, hk]
              rw [if_neg (not_not.mpr hne), ends_bind, ends_gets, ends_check, hlen]
              exact ⟨fun hd => not_not.mp fun hone => halone ⟨hd, hone⟩, hq, rfl⟩
          · rw [if_pos hne]
            by_cases hbad : cfg.debugAssertions ∧ k.status t ≠ .ready ∧ k.status t ≠ .running
            · rw [if_pos (by simpa [and_assoc] using hbad)]
              change After _ _ _
              simp only [Kernel.taskSwitch, after_bind, after_getCurrent, after_gets, hk, hcur]
              rintro u hu
              cases hu
              rw [if_pos hne, after_bind, after_gets, after_bind, after_check]
              intro hgood
              rcases hgood hbad.1 with hready | hruns
              · exact absurd hready hbad.2.1
              · exact absurd hruns hbad.2.2
            · rw [if_neg (by simpa [and_assoc] using hbad)]
              change Ends _ _ _
              simp only [Kernel.taskSwitch, ends_bind, ends_getCurrent hcur, ends_gets, hk]
              rw [if_pos hne, ends_bind, ends_gets, ends_bind, ends_check]
              refine ⟨fun hd => ?_, hq.contextSwitch_refines hne hring⟩
              by_contra hnone
              exact hbad ⟨hd, not_or.mp hnone⟩

/-! ### Creation -/

theorem Inv.createTask_refines (h : Inv k) (hq : Shows k q) (prio : Nat) :
    Ends (Kernel.createTaskStatic cfg prio) (fun _ k' => Refines k' ((Schedule.of k q).createTask cfg prio)) k := by
  have hnone : ∀ n : NodeRef, n.task = k.taskCnt → k.lists.list n = none := fun n hn =>
    h.free n (Nat.le_of_eq hn.symm)
  simp only [Kernel.createTaskStatic, ends_bind, ends_gets, Schedule.createTask, Schedule.of_taskCnt,
    Schedule.of_schedulerStarted, Schedule.of_curMaxPriority]
  by_cases hfull : k.taskCnt ≥ cfg.taskNumLimit
  · rw [if_pos hfull, if_pos (Or.inl hfull)]
    exact ⟨hq, rfl⟩
  by_cases hprio : prio ≥ numPriorityLevels
  · rw [if_neg hfull, if_pos hprio, if_pos (Or.inr hprio)]
    exact ⟨hq, rfl⟩
  rw [if_neg hfull, if_neg hprio, if_neg (not_or.mpr ⟨hfull, hprio⟩)]
  simp only [initializeTask, ends_bind, ends_store]
  apply shows_resetNode
  · exact hq
  · exact hnone _ rfl
  intro s hs hlist
  rw [ends_bind]
  apply shows_resetNode
  · exact hs
  · dsimp only
    rw [hlist]
    exact hnone _ rfl
  intro s₁ hs₁ hlist₁
  dsimp only at hlist₁
  simp only [ends_bind, ends_setWakeupTime, ends_store, ends_setStatus, ends_gets, setCurrent,
    rollForwardInsertIntoReadylist]
  by_cases hfirst : ¬ k.schedulerStarted ∧ prio < k.curMaxPriority
  · rw [if_pos hfirst, ends_bind, ends_store, ends_bind, ends_store]
    simp only [ends_bind, ends_store, ends_setTxOp]
    apply shows_addToReadyList
    · exact hs₁
    · dsimp only
      rw [hlist₁, hlist]
      exact hnone _ rfl
    intro s₂ hs₂
    rw [ends_invalidate, ends_pure]
    dsimp only at hs₂
    rw [Function.update_self] at hs₂
    refine ⟨hs₂.setMicroOpOldLen 0, ?_⟩
    rw [if_pos hfirst, if_pos hfirst]
    simp [Schedule.of]
  · rw [if_neg hfirst]
    simp only [ends_bind, ends_store, ends_setTxOp]
    apply shows_addToReadyList
    · exact hs₁
    · dsimp only
      rw [hlist₁, hlist]
      exact hnone _ rfl
    intro s₂ hs₂
    rw [ends_invalidate, ends_pure]
    dsimp only at hs₂
    rw [Function.update_self] at hs₂
    refine ⟨hs₂.setMicroOpOldLen 0, ?_⟩
    rw [if_neg hfirst, if_neg hfirst]
    simp [Schedule.of]

/-! ### What the current task does -/

/-- Without a current task the operation panics. -/
theorem does_current {op : Op} {f : Nat → Option Schedule}
    (hnone : k.current = none → After (op.prog cfg) (fun _ _ => False) k)
    (hsome : ∀ t, k.current = some t → Does (op.prog cfg) k (f t)) : Does (op.prog cfg) k (k.current.bind f) := by
  cases hcur : k.current with
  | none => exact hnone hcur
  | some t => exact hsome t hcur

theorem Does.before {p p' : Prog Kernel Unit} {k₁ : Kernel} {o : Option Schedule} (h : Does p' k₁ o)
    (hends : ∀ Q, Ends p' Q k₁ → Ends p Q k) (hafter : ∀ Q, After p' Q k₁ → After p Q k) : Does p k o := by
  cases o with
  | none => exact hafter _ h
  | some s => exact hends _ h

/-- A list transaction that a syscall does once: the second time it is bypassed. -/
theorem does_once {m p : Prog Kernel Unit} {f : Schedule → Schedule} (hcur : k.current = some t)
    (hp : p = do
      if ← bypass cfg then
        pure ()
      else
        m) (hq : Shows k q)
    (hm : k.listTxDone t = false → Ends p (fun _ k' => Refines k'
      { f (Schedule.of k q) with listTxDone := Function.update (f (Schedule.of k q)).listTxDone t true }) k) :
    Does p k ((Schedule.of k q).once cfg t f) := by
  rw [Schedule.once, Schedule.of_listTxDone]
  by_cases hdone : k.listTxDone t = true
  · rw [if_pos hdone]
    by_cases hrecover : cfg.debugAssertions ∧ k.recoveryMode t = false
    · rw [if_pos (by simpa using hrecover)]
      change After _ _ _
      simp only [hp, after_bind, after_bypass]
      rintro u hu hok
      rw [hcur] at hu
      cases hu
      have hmode := hok hrecover.1 hdone
      rw [hrecover.2] at hmode
      cases hmode
    · rw [if_neg (by simpa using hrecover)]
      change Ends _ _ _
      simp only [hp, ends_bind, bypass, ends_getCurrent hcur, ends_gets, ends_check, hdone, if_true, ends_pure]
      refine ⟨fun hd _ => ?_, hq, rfl⟩
      by_contra hmode
      exact hrecover ⟨hd, Bool.eq_false_iff.mpr hmode⟩
  · rw [if_neg hdone]
    exact hm (Bool.eq_false_iff.mpr hdone)

theorem Inv.wake_does (h : Inv k) (hq : Shows k q) (w : Nat) :
    Does ((Op.wake w).prog cfg) k ((Schedule.of k q).step cfg (.wake w)) := by
  refine does_current (f := fun t => (Schedule.of k q).once cfg t (Schedule.wakeFirst w)) ?_ ?_
  · intro hcur
    simp only [Op.prog, rollForwardPopRemoveFromWaitlist, after_bind, after_bypass, hcur]
    exact fun _ hnone => by cases hnone
  · intro t hcur
    refine does_once hcur rfl hq fun hdone => ?_
    refine (h.popRemove_refines hq w hcur hdone).mono fun _ k' hr => ?_
    have hsame : (Schedule.wakeFirst w (Schedule.of k q)).listTxDone = k.listTxDone := by
      unfold Schedule.wakeFirst
      split <;> rfl
    rw [hsame]
    exact hr

theorem Inv.taskDelay_does (h : Inv k) (hq : Shows k q) (ho : Executing k) (nticks : Nat) :
    Does ((Op.taskDelay nticks).prog cfg) k ((Schedule.of k q).step cfg (.taskDelay nticks)) := by
  refine does_current (f := fun t => if k.tickCounter + nticks < 2 ^ cfg.timeBits then
    ((Schedule.of k q).setWakeupTime t (k.tickCounter + nticks)).once cfg t (Schedule.sleep t) else none) ?_ ?_
  · intro hcur
    simp only [Op.prog, Kernel.taskDelay, after_bind, after_getCurrent, hcur]
    exact fun _ hnone => by cases hnone
  · intro t hcur
    obtain ⟨ht, hsched⟩ := h.executing hcur ho
    have h' := h.setWakeupTime hsched (k.tickCounter + nticks)
    by_cases hroom : k.tickCounter + nticks < 2 ^ cfg.timeBits
    · rw [if_pos hroom]
      have hrest : Does (rollForwardInsertIntoDelaylist cfg)
          { k with wakeupTime := Function.update k.wakeupTime t (k.tickCounter + nticks) }
          (((Schedule.of k q).setWakeupTime t (k.tickCounter + nticks)).once cfg t (Schedule.sleep t)) :=
        does_once hcur rfl hq fun hdone => h'.insertIntoDelaylist_refines hq hcur hdone (ho t hcur)
      refine hrest.before (fun Q hends => ?_) fun Q hafter => ?_
      · simp only [Op.prog, Kernel.taskDelay, addTime, ends_bind, ends_getCurrent hcur, ends_gets, ends_check,
          ends_pure,
          ends_setWakeupTime]
        exact ⟨hroom, hends⟩
      · simp only [Op.prog, Kernel.taskDelay, addTime, after_bind, after_getCurrent, after_gets, after_check,
          after_pure,
          after_setWakeupTime]
        rintro u hu _
        rw [hcur] at hu
        cases hu
        exact hafter
    · rw [if_neg hroom]
      change After _ _ _
      simp only [Op.prog, Kernel.taskDelay, addTime, after_bind, after_getCurrent, after_gets, after_check]
      exact fun _ _ hlt => absurd hlt hroom

theorem Inv.block_does (h : Inv k) (hq : Shows k q) (ho : Executing k) (w wakeupTime : Nat) :
    Does ((Op.block w wakeupTime).prog cfg) k ((Schedule.of k q).step cfg (.block w wakeupTime)) := by
  refine does_current ?_ ?_
  · intro hcur
    simp only [Op.prog, Kernel.blockOnWaitlist, after_bind, after_getCurrent, hcur]
    exact fun _ hnone => by cases hnone
  · intro t hcur
    obtain ⟨ht, hsched⟩ := h.executing hcur ho
    have h' := h.setWakeupTime hsched wakeupTime
    change Ends _ _ _
    simp only [Op.prog, Kernel.blockOnWaitlist, ends_bind, ends_getCurrent hcur, ends_setWakeupTime]
    exact h'.insertIntoWaitlist_refines hq w ht (ho t hcur)

theorem Inv.blockUnsorted_does (h : Inv k) (hq : Shows k q) (ho : Executing k) (w wakeupTime : Nat) :
    Does ((Op.blockUnsorted w wakeupTime).prog cfg) k ((Schedule.of k q).step cfg (.blockUnsorted w wakeupTime)) := by
  refine does_current ?_ ?_
  · intro hcur
    simp only [Op.prog, Kernel.blockOnUnsortedWaitlist, after_bind, after_getCurrent, hcur]
    exact fun _ hnone => by cases hnone
  · intro t hcur
    obtain ⟨ht, hsched⟩ := h.executing hcur ho
    have h' := h.setWakeupTime hsched wakeupTime
    change Ends _ _ _
    simp only [Op.prog, Kernel.blockOnUnsortedWaitlist, ends_bind, ends_getCurrent hcur, ends_setWakeupTime]
    exact h'.insertIntoUnsortedWaitlist_refines hq w ht (ho t hcur)

/-- An operation that may come does what it does on the sequences. -/
theorem Inv.does (h : Inv k) (hq : Shows k q) {op : Op} (ho : op.Enabled k) :
    Does (op.prog cfg) k ((Schedule.of k q).step cfg op) := by
  cases op with
  | createTask prio =>
      change Ends _ _ _
      simp only [Op.prog, ends_bind]
      exact h.createTask_refines hq prio
  | startKernel => exact ⟨hq, rfl⟩
  | taskDelay nticks => exact h.taskDelay_does hq ho nticks
  | block w wakeupTime => exact h.block_does hq ho w wakeupTime
  | blockUnsorted w wakeupTime => exact h.blockUnsorted_does hq ho w wakeupTime
  | wake w => exact h.wake_does hq w
  | wakeNode w n =>
      have hn := h.inList_iff.mp ho
      obtain ⟨_, hevent, _⟩ := h.waiting hn
      rw [hevent] at hn ⊢
      exact h.removeFromUnsorted_refines hq hn
  | processTick => exact h.processTick_does hq
  | taskSwitch => exact h.taskSwitch_does hq
  | syscallEnd =>
      refine does_current ?_ ?_
      · intro hcur
        simp only [Op.prog, after_bind, after_getCurrent, hcur]
        exact fun _ hnone => by cases hnone
      · intro t hcur
        change Ends _ _ _
        simp only [Op.prog, ends_bind, ends_getCurrent hcur, ends_store]
        exact ⟨hq, rfl⟩

theorem Inv.enabled_iff (h : Inv k) (hq : Shows k q) (op : Op) :
    (Schedule.of k q).enabled op = true ↔ op.Enabled k := by
  have hexec : (k.current.all fun t => k.status t != .blocked) = true ↔ Executing k := by
    unfold Executing
    cases k.current <;> simp
  cases op with
  | taskDelay nticks => exact hexec
  | block w wakeupTime => exact hexec
  | blockUnsorted w wakeupTime => exact hexec
  | wakeNode w n =>
      simp only [Schedule.enabled, decide_eq_true_eq, Op.Enabled, h.inList_iff]
      exact hq.mem
  | taskSwitch => exact Iff.rfl
  | _ => exact iff_of_true rfl trivial

/-! ## Runs -/

/-- The run of some operations. -/
inductive Performs (cfg : Config) : List Op → Kernel → Kernel → Prop
  | nil {k : Kernel} : Performs cfg [] k k
  | cons {op : Op} {ops : List Op} {k k₁ k' : Kernel} : op.Enabled k → (op.prog cfg k).out = some ((), k₁) →
      Performs cfg ops k₁ k' → Performs cfg (op :: ops) k k'

theorem Refines.does (hr : Refines k s) (h : Inv k) {op : Op} (ho : op.Enabled k) :
    Does (op.prog cfg) k (s.step cfg op) := by
  rw [hr.same]
  exact h.does hr.shows ho

theorem Refines.enabled_iff (hr : Refines k s) (h : Inv k) (op : Op) : s.enabled op = true ↔ op.Enabled k := by
  rw [hr.same]
  exact h.enabled_iff hr.shows op

theorem Performs.refines (h : Performs cfg ops k k') (hinv : Inv k) (hr : Refines k s) :
    ∃ s', s.run cfg ops = some s' ∧ Refines k' s' := by
  induction h generalizing s with
  | nil => exact ⟨s, rfl, hr⟩
  | @cons op ops k k₁ k' ho hout _ ih =>
      have hdoes : Does (op.prog cfg) k (s.step cfg op) := hr.does hinv ho
      rw [Schedule.run, if_pos ((hr.enabled_iff hinv op).mpr ho)]
      cases hs : s.step cfg op with
      | none =>
          rw [hs] at hdoes
          exact (After.post hdoes hout).elim
      | some s₁ =>
          rw [hs] at hdoes
          exact ih ((hinv.step ho).post hout) (Ends.post hdoes hout)

theorem Inv.performs (hinv : Inv k) (hr : Refines k s) (hs : s.run cfg ops = some s') :
    ∃ k', Performs cfg ops k k' ∧ Refines k' s' := by
  induction ops generalizing k s with
  | nil =>
      cases hs
      exact ⟨k, .nil, hr⟩
  | cons op ops ih =>
      rw [Schedule.run] at hs
      split at hs
      · next hen =>
          have ho := (hr.enabled_iff hinv op).mp hen
          obtain ⟨s₁, hs₁, hrest⟩ := Option.bind_eq_some_iff.mp hs
          have hdoes : Does (op.prog cfg) k (s.step cfg op) := hr.does hinv ho
          rw [hs₁] at hdoes
          obtain ⟨_, k₁, hout, hr₁⟩ := Ends.returns hdoes
          obtain ⟨k', hperforms, hr'⟩ := ih ((hinv.step ho).post hout) hr₁ hrest
          exact ⟨k', .cons ho hout hperforms, hr'⟩
      · cases hs

/-- Whatever operations come, in whatever order: the kernel with its linked lists goes through them without a panic if
and only if the scheduler on sequences does, and it ends in a state whose lists hold the sequences and whose other
fields are the same. -/
theorem kernel_is_schedule (cfg : Config) (ops : List Op) :
    (∀ k, Performs cfg ops (new cfg) k → ∃ s, (Schedule.new cfg).run cfg ops = some s ∧ Refines k s) ∧
    ∀ s, (Schedule.new cfg).run cfg ops = some s → ∃ k, Performs cfg ops (new cfg) k ∧ Refines k s := by
  have hr : Refines (new cfg) (Schedule.new cfg) := ⟨holds_new _, rfl⟩
  exact ⟨fun k hk => hk.refines (inv_new cfg) hr, fun s hs => (inv_new cfg).performs hr hs⟩

-- The task of the higher priority sleeps for a tick, the other one runs, and the first one preempts it.
example : ((Schedule.new qemuDebug).run qemuDebug
    [.createTask 7, .createTask 0, .startKernel, .taskDelay 1, .taskSwitch, .syscallEnd, .processTick]).map
      (fun s => (s.current, s.nextTask)) = some (some 0, some (0, 1)) := by decide

end Kernel

end IntOS
