import IntOS.List.Lemmas.CrashInsert
import IntOS.Sched.Recover
import IntOS.Sched.Runs

/-!
# Power failures during the moves of a task
-/

namespace IntOS

open Persist Persist.Prog IntOS.Lists

/-- The log has room for the length of every list: the boards have 3 to 8 tasks. -/
structure Target extends Config where
  fits : 2 * taskNumLimit < 2 ^ opCodeShift

namespace Lists

variable {N L : Type} [DecidableEq N] [DecidableEq L]

/-- What `optimized_remove` leaves. -/
def unlisted (s : Lists N L) (l : L) (n : N) : Lists N L := removed (logged s .remove l) l n

/-- What `optimized_insert_before_cursor` leaves. -/
def relisted (s : Lists N L) (l : L) (n : N) : Lists N L := readied (logged s .insertBeforeCursor l) l n

end Lists

namespace Kernel

variable {α : Type} {cfg : Config} {k c : Kernel} {t m : Nat} {Q : Unit → Kernel → Prop} {E : Prop}
  {C : Kernel → Prop} {wk : Nat → Nat} {s : Lists NodeRef ListRef}

def qemuTarget : Target := ⟨qemuDebug, by decide⟩

theorem wpc_onLists {m : Prog (Lists NodeRef ListRef) α} {Q : α → Kernel → Prop}
    (h : wpc m (fun a s => Q a { k with lists := s }) E (fun s => C { k with lists := s }) k.lists) :
    wpc (onLists m) Q E C k := wpc_zoom rfl h

theorem ends_onLists_iff {m : Prog (Lists NodeRef ListRef) Unit} (h : Ends m (fun _ r => r = s) k.lists) :
    Ends (onLists m) Q k ↔ Q () { k with lists := s } :=
  Ends.iff (ends_onLists h fun _ _ he => by rw [he])

/-! ## The log -/

theorem ends_getMicroOp {Q : ListOpCode → Kernel → Prop} {op : ListOpCode}
    (h : k.lists.microOpOldLen = microOpOldLenOf op m) (hm : m < 2 ^ opCodeShift) :
    Ends getMicroOp Q k ↔ Q op k := by
  simp only [getMicroOp, ends_bind, ends_gets, Lists.getMicroOp_eq hm h, ends_pure]

theorem ends_getOldLen {Q : Nat → Kernel → Prop} {op : ListOpCode}
    (h : k.lists.microOpOldLen = microOpOldLenOf op m) (hm : m < 2 ^ opCodeShift) :
    Ends getOldLen Q k ↔ Q m k := by
  simp only [getOldLen, ends_gets, Lists.getOldLen_eq hm h]

theorem ends_getBlockNode {Q : NodeRef → Kernel → Prop} {n : NodeRef} (h : k.blockNodePtr = some n) :
    Ends getBlockNode Q k ↔ Q n k := by
  simp only [getBlockNode, ends_bind, ends_gets, h, ends_pure]

theorem ends_getWaitList {Q : Nat → Kernel → Prop} {w : Nat} (h : k.waitListPtr = some w) :
    Ends getWaitList Q k ↔ Q w k := by
  simp only [getWaitList, ends_bind, ends_gets, h, ends_pure]

/-- No context switch was interrupted. -/
theorem ends_recoverContextSwitch (h : k.lists.microOpOldLen = 0) :
    Ends recoverAndRollForwardContextSwitch Q k ↔ Q () k := by
  unfold recoverAndRollForwardContextSwitch
  have hinvalid : k.lists.microOpOldLen = microOpOldLenOf .invalid 0 := h
  rw [ends_bind, ends_getMicroOp hinvalid (by decide), ends_pure]

/-- A recovery that leaves the micro-operation invalid is the whole recovery. -/
theorem ends_then_contextSwitch {m : Prog Kernel Unit} (h : Ends m (fun _ r => r.lists.microOpOldLen = 0 ∧ Q () r) k) :
    Ends m (fun _ => Ends recoverAndRollForwardContextSwitch Q) k := by
  refine h.mono ?_
  rintro _ r ⟨hm, hr⟩
  exact (ends_recoverContextSwitch hm).mpr hr

/-! ## The commit of a list transaction -/

/-- What `commit` leaves. -/
def committed (k : Kernel) (t : Nat) : Kernel :=
  { k with
    lists := { k.lists with microOpOldLen := 0 }
    listTxDone := Function.update k.listTxDone t true
    op := .invalid }

/-- How far `commit` is. -/
inductive Committing (k : Kernel) (t : Nat) : Kernel → Prop
  | cleared {done : Nat → Bool} : done = k.listTxDone ∨ done = Function.update k.listTxDone t true →
      Committing k t { k with lists := { k.lists with microOpOldLen := 0 }, listTxDone := done }
  | done : Committing k t (committed k t)

theorem wpc_getCurrent {Q : Nat → Kernel → Prop} (hcur : k.current = some t) (hC : C k) (hQ : Q t k) :
    wpc getCurrent Q E C k := by
  unfold getCurrent
  refine wpc_bind (wpc_gets hC ?_)
  rw [hcur]
  exact wpc_pure hC hQ

theorem wpc_commit (hcur : k.current = some t) (hk : C k) (hC : ∀ c, Committing k t c → C c)
    (hQ : Q () (committed k t)) : wpc commit Q E C k := by
  have h₁ := hC _ (.cleared (Or.inl rfl))
  have h₂ := hC _ (.cleared (Or.inr rfl))
  refine wpc_bind (wpc_onLists (wpc_store hk h₁ (wpc_bind ?_)))
  apply wpc_getCurrent (t := t)
  · exact hcur
  · exact h₁
  · exact wpc_bind (wpc_store h₁ h₂ (wpc_store h₂ (hC _ .done) hQ))

/-- The transaction was not done before. -/
theorem wpc_bypass {Q : Bool → Kernel → Prop} (hcur : k.current = some t) (hdone : k.listTxDone t = false) (hC : C k)
    (hQ : Q false k) : wpc (bypass cfg) Q E C k := by
  refine wpc_bind (wpc_getCurrent hcur hC (wpc_bind (wpc_gets hC (wpc_bind (wpc_gets hC ?_)))))
  refine wpc_bind (wpc_check hC (fun hne => absurd ?_ hne) fun _ => wpc_pure hC ?_)
  · simp [hdone]
  · rwa [hdone]

/-- Whether it was done or not, nothing is stored yet. -/
theorem wpc_bypass_any {Q : Bool → Kernel → Prop} (hC : C k) (hQ : ∀ b, Q b k) : wpc (bypass cfg) Q True C k := by
  unfold bypass getCurrent
  refine wpc_bind (wpc_bind (wpc_gets hC ?_))
  cases k.current with
  | none => exact wpc_fail hC trivial
  | some t =>
      refine wpc_pure hC (wpc_bind (wpc_gets hC (wpc_bind (wpc_gets hC (wpc_bind ?_)))))
      exact wpc_check hC (fun _ => trivial) fun _ => wpc_pure hC (hQ _)

theorem wpc_invalidate (hk : C k)
    (hC : C { k with lists := { k.lists with microOpOldLen := 0 } })
    (hC' : C { k with lists := { k.lists with microOpOldLen := 0 }, op := .invalid })
    (hQ : Q () { k with lists := { k.lists with microOpOldLen := 0 }, op := .invalid }) :
    wpc invalidate Q E C k :=
  wpc_bind (wpc_onLists (wpc_store hk hC (wpc_store hC hC' hQ)))

theorem ends_recover_idle (hop : k.op = .invalid) (h : k.lists.microOpOldLen = 0) :
    Ends (recoverListTransaction cfg) Q k ↔ Q () k := by
  simp only [recoverListTransaction, ends_bind, ends_gets, hop, ends_recoverContextSwitch h]

/-- Every list fits the log. -/
theorem len_lt {cfg : Target} {cnt : Nat} {l : ListRef} (h : WellOrdered wk s)
    (hfree : ∀ n, cnt ≤ n.task → s.list n = none) (hcnt : cnt ≤ cfg.taskNumLimit) :
    s.len l < 2 ^ opCodeShift := by
  obtain ⟨seq, h, _⟩ := h
  have hle := length_le hfree (h.nodup l) fun x hx => (h.owner l x).mpr hx
  rw [h.len]
  have hfits := cfg.fits
  omega

/-! ## Removal from the null-terminated lists -/

theorem wpc_remove {debug : Bool} {l : ListRef} {n : NodeRef} (h : WellOrdered wk k.lists) (hl : ¬ l.IsReady)
    (hn : k.lists.list n = some l) (hk : C k)
    (hC : ∀ s, Removing (logged k.lists .remove l) l n s → C { k with lists := s })
    (hQ : Q () { k with lists := unlisted k.lists l n }) : wpc (onLists (optimizedRemove debug l n)) Q E C k := by
  obtain ⟨hlen, hone, _⟩ := (h.setMicroOpOldLen (microOpOldLenOf .remove (k.lists.len l))).linear hl hn
  have hsome : k.lists.list n ≠ none := fun he => Option.some_ne_none _ (hn.symm.trans he)
  refine wpc_onLists (wpc_bind (wpc_startOpLog hk (hC _ (.start _ _ _)) ?_))
  refine wpc_mono (wpc_optimizedRemoveImpl hsome hlen hone) ?_ hC
  rintro _ _ rfl
  exact hQ

theorem ends_remove_iff {debug : Bool} {l : ListRef} {n : NodeRef} (h : WellOrdered wk k.lists)
    (hl : ¬ l.IsReady) (hn : k.lists.list n = some l) :
    Ends (onLists (optimizedRemove debug l n)) Q k ↔ Q () { k with lists := unlisted k.lists l n } :=
  Ends.iff (wpc_remove (C := fun _ => True) h hl hn trivial (fun _ _ => trivial) rfl).ends

theorem unlisted_wellOrdered {l : ListRef} {n : NodeRef} (h : WellOrdered wk s) (hl : ¬ l.IsReady)
    (hn : s.list n = some l) : WellOrdered wk (unlisted s l n) :=
  WellLinked.removed (h.setMicroOpOldLen _) hl hn

/-! ## Waking a task -/

theorem enterable_ready (h : WellOrdered wk s) (hn : s.list (.sched t) = none) (prio : Nat) :
    Enterable s (.ready prio) (.sched t) := by
  have hring : ListRef.IsReady (.ready prio) := trivial
  exact h.enterable hring hn

theorem wpc_addToReadyList (henter : Enterable k.lists (.ready (k.priority t)) (.sched t))
    (hn : k.lists.list (.sched t) = none) (hk : C k)
    (hC : ∀ s status,
      Readying (logged k.lists .insertBeforeCursor (.ready (k.priority t))) (.ready (k.priority t)) (.sched t) s →
      status = k.status ∨ status = Function.update k.status t .ready → C { k with lists := s, status := status })
    (hQ : Q () { k with
      lists := relisted k.lists (.ready (k.priority t)) (.sched t)
      status := Function.update k.status t .ready }) :
    wpc (addToReadyList t) Q E C k := by
  unfold relisted at hQ
  replace henter : Enterable (logged k.lists .insertBeforeCursor (.ready (k.priority t)))
    (.ready (k.priority t)) (.sched t) := henter.congr rfl rfl rfl
  replace hn : (logged k.lists .insertBeforeCursor (.ready (k.priority t))).list (.sched t) = none := hn
  refine wpc_bind (wpc_gets hk (wpc_bind (wpc_onLists (wpc_bind (wpc_startOpLog hk ?_ ?_)))))
  all_goals generalize logged k.lists .insertBeforeCursor (.ready (k.priority t)) = s at *
  · exact hC _ _ (wpc_optimizedInsertBeforeCursorImpl (E := E) hn henter).start (Or.inl rfl)
  refine wpc_mono (wpc_optimizedInsertBeforeCursorImpl hn henter) ?_ fun s hs => hC s _ hs (Or.inl rfl)
  rintro _ _ rfl
  have hfin := Readying.finish henter
  exact wpc_store (hC _ _ hfin (Or.inl rfl)) (hC _ _ hfin (Or.inr rfl)) hQ

theorem ends_addToReadyList_iff (henter : Enterable k.lists (.ready (k.priority t)) (.sched t))
    (hn : k.lists.list (.sched t) = none) :
    Ends (addToReadyList t) Q k ↔ Q () { k with
      lists := relisted k.lists (.ready (k.priority t)) (.sched t)
      status := Function.update k.status t .ready } :=
  Ends.iff (wpc_addToReadyList (C := fun _ => True) henter hn trivial (fun _ _ _ _ => trivial) rfl).ends

/-- What the moves of a waiting task from the delayed list to its ready list leave. -/
def woken (k : Kernel) (t : Nat) : Kernel :=
  { k with
    lists := relisted (unlisted k.lists .delayed (.sched t)) (.ready (k.priority t)) (.sched t)
    status := Function.update k.status t .ready }

/-- How far these moves are. -/
inductive Waking (k : Kernel) (t : Nat) : Kernel → Prop
  | start : Waking k t k
  | removing {s : Lists NodeRef ListRef} :
      Removing (logged k.lists .remove .delayed) .delayed (.sched t) s → Waking k t { k with lists := s }
  | readying {s : Lists NodeRef ListRef} {status : Nat → TaskState} :
      Readying (logged (unlisted k.lists .delayed (.sched t)) .insertBeforeCursor (.ready (k.priority t)))
        (.ready (k.priority t)) (.sched t) s →
      status = k.status ∨ status = Function.update k.status t .ready →
      Waking k t { k with lists := s, status := status }

theorem waking_woken (h : WellOrdered wk k.lists) (hn : k.lists.list (.sched t) = some .delayed) :
    Waking k t (woken k t) := by
  have henter := enterable_ready (unlisted_wellOrdered h id hn) (Function.update_self _ _ _) (k.priority t)
  exact .readying (.finish (henter.congr rfl rfl rfl)) (Or.inr rfl)

theorem wpc_makeReady {rest : Prog Kernel Unit} (h : WellOrdered wk k.lists)
    (hn : k.lists.list (.sched t) = some .delayed) (hC : ∀ c, Waking k t c → C c)
    (hrest : wpc rest Q E C (woken k t)) :
    wpc (do
      removeFromDelayedList cfg t
      addToReadyList t
      rest) Q E C k := by
  have hnone : (unlisted k.lists .delayed (.sched t)).list (.sched t) = none := Function.update_self _ _ _
  apply wpc_bind
  apply wpc_remove h id hn
  · exact hC _ .start
  · exact fun _ hs => hC _ (.removing hs)
  apply wpc_bind
  apply wpc_addToReadyList
  · exact enterable_ready (unlisted_wellOrdered h id hn) hnone _
  · exact hnone
  · exact hC _ (.removing (.finish _ _ _))
  · exact fun _ _ hs hstatus => hC _ (.readying hs hstatus)
  · exact hrest

theorem ends_makeReady_iff {rest : Prog Kernel Unit} (h : WellOrdered wk k.lists)
    (hn : k.lists.list (.sched t) = some .delayed) :
    Ends (do
      removeFromDelayedList cfg t
      addToReadyList t
      rest) Q k ↔ Ends rest Q (woken k t) := by
  have hnone : (unlisted k.lists .delayed (.sched t)).list (.sched t) = none := Function.update_self _ _ _
  have henter := enterable_ready (unlisted_wellOrdered h id hn) hnone (k.priority t)
  rw [ends_bind, removeFromDelayedList, ends_remove_iff h id hn, ends_bind, ends_addToReadyList_iff henter hnone]
  exact Iff.rfl

theorem relisted_setLen {N L : Type} [DecidableEq N] [DecidableEq L] {s : Lists N L} {d l : L} {n : N} (hdl : l ≠ d)
    (v : Nat) :
    relisted { s with len := Function.update s.len d v } l n =
      { relisted s l n with len := Function.update (relisted s l n).len d v } := by
  have hlen : Function.update s.len d v l = s.len l := Function.update_of_ne hdl _ _
  have hcomm : Function.update (Function.update s.len d v) l (s.len l + 1) =
      Function.update (Function.update s.len l (s.len l + 1)) d v := Function.update_comm hdl.symm _ _ _
  simp only [relisted, logged, hlen]
  rcases Option.eq_none_or_eq_some (s.cursor l) with hc | ⟨x, hc⟩
  · simp only [readied, hc, hlen, hcomm]
  · simp only [readied, hc, hlen, hcomm]

theorem relisted_len {N L : Type} [DecidableEq N] [DecidableEq L] (s : Lists N L) (l : L) (n : N) :
    (relisted s l n).len = Function.update s.len l (s.len l + 1) := by
  rcases Option.eq_none_or_eq_some (s.cursor l) with hc | ⟨x, hc⟩
  · simp only [relisted, readied, logged, hc]
  · simp only [relisted, readied, logged, hc]

/-- Recovery of the first move gives the delayed list the logged length. -/
theorem ends_recoverRemoveFromDelayed {v : Nat} (h : WellOrdered wk k.lists)
    (hn : k.lists.list (.sched t) = some .delayed)
    (hs : Removing { k.lists with microOpOldLen := v } .delayed (.sched t) s) (hm : 0 < m) :
    Ends (do
      onLists (recoverFromFailedRemove .delayed (.sched t) m)
      addToReadyList t) Q { k with lists := s } ↔
    Q () { woken k t with
      lists := { (woken k t).lists with len := Function.update (woken k t).lists.len .delayed (m - 1) } } := by
  obtain ⟨_, _, hnext⟩ := h.linear id hn
  have hnone : (unlisted k.lists .delayed (.sched t)).list (.sched t) = none := Function.update_self _ _ _
  have henter := enterable_ready (unlisted_wellOrdered h id hn) hnone (k.priority t)
  have hne : ListRef.ready (k.priority t) ≠ .delayed := nofun
  have hrec : Ends (recoverFromFailedRemove .delayed (.sched t) m) (fun _ r =>
      r = { unlisted k.lists .delayed (.sched t) with
        len := Function.update (unlisted k.lists .delayed (.sched t)).len .delayed (m - 1)
        microOpOldLen := v }) s := by
    refine (hs.recover hnext hm).mono ?_
    rintro _ _ rfl
    exact congrArg (fun len => { unlisted k.lists .delayed (.sched t) with len := len, microOpOldLen := v })
      (Function.update_idem _ _ _).symm
  rw [ends_bind, ends_onLists_iff hrec, ends_addToReadyList_iff]
  · have hlists := relisted_setLen (s := unlisted k.lists .delayed (.sched t)) (n := NodeRef.sched t) hne (m - 1)
    dsimp only [woken]
    rw [← hlists]
    exact Iff.rfl
  · refine henter.congr rfl rfl ?_
    dsimp only
    rw [Function.update_of_ne hne]
  · exact hnone

theorem woken_len (k : Kernel) (t : Nat) : (woken k t).lists.len .delayed = k.lists.len .delayed - 1 := by
  have hne : ListRef.delayed ≠ .ready (k.priority t) := nofun
  simp only [woken, relisted_len, Function.update_of_ne hne, unlisted, removed, logged, Function.update_self]

/-- With the right length, it completes the moves. -/
theorem ends_recoverMakeReady (h : WellOrdered wk k.lists) (hn : k.lists.list (.sched t) = some .delayed)
    (hs : Removing (logged k.lists .remove .delayed) .delayed (.sched t) s) :
    Ends (do
      onLists (recoverFromFailedRemove .delayed (.sched t) (k.lists.len .delayed))
      addToReadyList t) Q { k with lists := s } ↔ Q () (woken k t) := by
  rw [ends_recoverRemoveFromDelayed h hn hs (h.linear id hn).1, ← woken_len, Function.update_eq_self]

/-- The lists of `f`, but for the fields `list`. -/
def withList (f : Kernel) (list : NodeRef → Option ListRef) : Kernel :=
  { f with lists := { f.lists with list := list } }

/-- Recovery of the second move. -/
theorem ends_recoverInsertIntoReadyList {status : Nat → TaskState} (h : WellOrdered wk k.lists)
    (hn : k.lists.list (.sched t) = none)
    (hs : Readying (logged k.lists .insertBeforeCursor (.ready (k.priority t))) (.ready (k.priority t)) (.sched t) s)
    (hstatus : status = k.status ∨ status = Function.update k.status t .ready) :
    Ends (recoverInsertIntoReadyList t (k.lists.len (.ready (k.priority t)))) Q
        { k with lists := s, status := status } ↔
      Q () { k with
        lists := { relisted k.lists (.ready (k.priority t)) (.sched t) with list := s.list }
        status := Function.update k.status t .ready } := by
  have henter : Enterable (logged k.lists .insertBeforeCursor (.ready (k.priority t))) (.ready (k.priority t))
    (.sched t) := (enterable_ready h hn _).congr rfl rfl rfl
  have hset : Function.update status t .ready = Function.update k.status t .ready := by
    rcases hstatus with rfl | rfl
    · rfl
    · exact Function.update_idem _ _ _
  simp only [recoverInsertIntoReadyList, ends_bind, ends_gets]
  rw [ends_onLists_iff (hs.recover henter), ends_setStatus, hset]
  exact Iff.rfl

end Kernel

end IntOS
