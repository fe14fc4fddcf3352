import IntOS.Sched.Lemmas.Sound
import IntOS.Sched.Recover

/-!
# What a power failure leaves of a list transaction

A transaction moves one task. `Pending cfg c` says how far: between two stores of a move, the lists are those in which
the move began, with some of its stores done.
-/

namespace IntOS

open Persist Persist.Prog IntOS.Lists

namespace Kernel

variable {cfg : Target} {k c : Kernel} {t w : Nat} {a b : Option ListRef} {p q : Option NodeRef}
  {s : Lists NodeRef ListRef} {m : Prog Kernel Unit} {E : Prop}

/-- The transaction of the log wakes the task `t`. -/
inductive Rouses (k : Kernel) (t : Nat) : Prop
  | waitlist : k.op = .waitListPopRemoval → k.blockNodePtr = some (.event t) → k.current ≠ none → Rouses k t
  | unsorted : k.op = .waitListRemoval → k.blockNodePtr = some (.event t) → Rouses k t

/-- It makes the task ready. -/
inductive Readies (k : Kernel) (t : Nat) : Prop
  | woken : Rouses k t → Readies k t
  | created : k.op = .readyListInsert → k.taskPtr = some t → Readies k t
  /-- The removal from the delayed list does not log the task. -/
  | due : k.op = .delayListRemoval → Readies k t

/-- It blocks the task `t`. -/
structure Blocks (k : Kernel) (t : Nat) : Prop where
  current : k.current = some t
  op : k.op = .delayListInsert ∨ k.op = .waitListInsert ∨ k.op = .unsortedWaitListInsert
  wait : k.op = .delayListInsert ∨ ∃ w, k.waitListPtr = some w

/-- No list transaction runs. -/
structure Rested (cfg : Target) (k : Kernel) : Prop where
  sound : Sound cfg none k
  op : k.op = .invalid
  micro : k.lists.microOpOldLen = 0

theorem Rested.alike (h : Rested cfg k) (ha : Alike k c) (hop : c.op = k.op) : Rested cfg c := by
  refine ⟨h.sound.alike ha, hop.trans h.op, ?_⟩
  rw [ha.lists]
  exact h.micro

/-- The context switch is logged. -/
structure Switching (cfg : Target) (c : Kernel) : Prop where
  sound : Sound cfg none c
  op : c.op = .invalid
  micro : c.lists.microOpOldLen = microOpOldLenOf .readyListNext 0

/-- What a failure leaves. -/
inductive Pending (cfg : Target) : Kernel → Prop
  /-- No move has begun, or all are made. -/
  | resting {c : Kernel} : Sound cfg none c → c.lists.microOpOldLen = 0 → Pending cfg c
  | switching {c : Kernel} : Switching cfg c → Pending cfg c
  | duePopping {k : Kernel} {t oldLen : Nat} {b : Option ListRef} {s : Lists NodeRef ListRef} :
      Moving cfg t (some .delayed) b k → k.op = .delayListRemoval → oldLen < 2 ^ opCodeShift →
      s.microOpOldLen = microOpOldLenOf .popFront oldLen → s.list = k.lists.list → Pending cfg { k with lists := s }
  | duePopped {k : Kernel} {t oldLen : Nat} {b : Option ListRef} : Moving cfg t none b k → k.op = .delayListRemoval →
      oldLen < 2 ^ opCodeShift → k.lists.microOpOldLen = microOpOldLenOf .popFront oldLen → Pending cfg k
  | dueLeaving {k : Kernel} {t w : Nat} {s : Lists NodeRef ListRef} :
      Moving cfg t none (some (.waiting w)) k → k.op = .delayListRemoval →
      Removing (logged k.lists .remove (.waiting w)) (.waiting w) (.event t) s → s.list = k.lists.list →
      Pending cfg { k with lists := s }
  | dueLeft {k : Kernel} {t oldLen : Nat} : Moving cfg t none none k → k.op = .delayListRemoval →
      oldLen < 2 ^ opCodeShift → k.lists.microOpOldLen = microOpOldLenOf .remove oldLen → Pending cfg k
  | popping {k : Kernel} {t w : Nat} {s : Lists NodeRef ListRef} :
      Moving cfg t (some .delayed) (some (.waiting w)) k → k.op = .waitListPopRemoval → Rouses k t →
      k.lists.head (.waiting w) = some (.event t) →
      Popping (logged k.lists .popFront (.waiting w)) (.waiting w) (.event t) s → s.list = k.lists.list →
      Pending cfg { k with lists := s }
  | popped {k : Kernel} {t oldLen : Nat} : Moving cfg t (some .delayed) none k → k.op = .waitListPopRemoval →
      Rouses k t → oldLen < 2 ^ opCodeShift → k.lists.microOpOldLen = microOpOldLenOf .popFront oldLen → Pending cfg k
  | leavingWait {k : Kernel} {t w : Nat} {s : Lists NodeRef ListRef} :
      Moving cfg t (some .delayed) (some (.waiting w)) k → k.op = .waitListRemoval → Rouses k t →
      Removing (logged k.lists .remove (.waiting w)) (.waiting w) (.event t) s → s.list = k.lists.list →
      Pending cfg { k with lists := s }
  | leftWait {k : Kernel} {t oldLen : Nat} : Moving cfg t (some .delayed) none k → k.op = .waitListRemoval →
      Rouses k t → oldLen < 2 ^ opCodeShift → k.lists.microOpOldLen = microOpOldLenOf .remove oldLen → Pending cfg k
  | waking {k : Kernel} {t : Nat} {s : Lists NodeRef ListRef} : Moving cfg t (some .delayed) none k → Rouses k t →
      Removing (logged k.lists .remove .delayed) .delayed (.sched t) s → Pending cfg { k with lists := s }
  /-- The move into the ready list is logged, but `list` of the node is not stored. -/
  | entering {k : Kernel} {t : Nat} : Moving cfg t none none k → Readies k t → Pending cfg { k with
      lists := logged k.lists .insertBeforeCursor (.ready (k.priority t)) }
  | readying {k : Kernel} {t : Nat} {s : Lists NodeRef ListRef} : Moving cfg t none none k → Readies k t →
      Readying (logged k.lists .insertBeforeCursor (.ready (k.priority t))) (.ready (k.priority t)) (.sched t) s →
      s.list = Function.update k.lists.list (.sched t) (some (.ready (k.priority t))) →
      Pending cfg { k with lists := s }
  | leavingReady {k : Kernel} {t : Nat} {s : Lists NodeRef ListRef} :
      Moving cfg t (some (.ready (k.priority t))) none k → Blocks k t → LeavingReady k t s →
      Pending cfg { k with lists := s }
  | sorting {k : Kernel} {t w : Nat} {p q : Option NodeRef} {s : Lists NodeRef ListRef} :
      Moving cfg t none none k → Blocks k t → k.op ≠ .delayListInsert → k.waitListPtr = some w →
      WaitPlace k t w k.lists p q →
      Sorting (logged k.lists .insertSortedWaitList (.waiting w)) (.waiting w) (.event t) p q s →
      Pending cfg { k with lists := s }
  | fronting {k : Kernel} {t w : Nat} {s : Lists NodeRef ListRef} :
      Moving cfg t none none k → Blocks k t → k.op = .unsortedWaitListInsert → k.waitListPtr = some w →
      Fronting (logged k.lists .insertFront (.waiting w)) (.waiting w) (.event t) s → Pending cfg { k with lists := s }
  | delaying {k : Kernel} {t : Nat} {b : Option ListRef} {p q : Option NodeRef} {s : Lists NodeRef ListRef} :
      Moving cfg t none b k → (∀ l, b = some l → ∃ w, l = .waiting w) → Blocks k t → DelayPlace k t k.lists p q →
      Delaying k.lists t p q s → Pending cfg { k with lists := s }

theorem Rouses.congr (h : Rouses k t) (hop : c.op = k.op) (hb : c.blockNodePtr = k.blockNodePtr)
    (hc : c.current = k.current) : Rouses c t := by
  cases h with
  | waitlist h₁ h₂ h₃ => exact .waitlist (hop.trans h₁) (hb.trans h₂) (hc ▸ h₃)
  | unsorted h₁ h₂ => exact .unsorted (hop.trans h₁) (hb.trans h₂)

theorem Readies.congr (h : Readies k t) (hop : c.op = k.op) (hb : c.blockNodePtr = k.blockNodePtr)
    (ht : c.taskPtr = k.taskPtr) (hc : c.current = k.current) : Readies c t := by
  cases h with
  | woken h => exact .woken (h.congr hop hb hc)
  | created h₁ h₂ => exact .created (hop.trans h₁) (ht.trans h₂)
  | due h => exact .due (hop.trans h)

theorem Rouses.blockNodePtr (h : Rouses k t) : k.blockNodePtr = some (.event t) := by
  cases h with
  | waitlist _ h => exact h
  | unsorted _ h => exact h

/-- Some stores of the pop are done, or all. -/
theorem Moving.pending_popping (h : Moving cfg t (some .delayed) (some (.waiting w)) k)
    (hop : k.op = .waitListPopRemoval) (hw : Rouses k t) (hhead : k.lists.head (.waiting w) = some (.event t))
    (hs : Popping (logged k.lists .popFront (.waiting w)) (.waiting w) (.event t) s) :
    Pending cfg { k with lists := s } := by
  rcases hs.list with hl | rfl
  · exact .popping h hop hw hhead hs hl
  · exact .popped (h.pop hhead) hop (hw.congr rfl rfl rfl) (h.sound.len_lt (.waiting w)) rfl

/-- Some stores of the removal from the wait list are done, or all. -/
theorem Moving.pending_leavingWait (h : Moving cfg t (some .delayed) (some (.waiting w)) k)
    (hop : k.op = .waitListRemoval) (hw : Rouses k t)
    (hs : Removing (logged k.lists .remove (.waiting w)) (.waiting w) (.event t) s) :
    Pending cfg { k with lists := s } := by
  rcases hs.list with hl | rfl
  · exact .leavingWait h hop hw hs hl
  · exact .leftWait h.leaveWait hop (hw.congr rfl rfl rfl) (h.sound.len_lt (.waiting w)) rfl

/-! ## The end of a transaction -/

theorem wpc_noCurrent {C : Kernel → Prop} {Q : Nat → Kernel → Prop} (hcur : k.current = none) (hC : C k) (hE : E) :
    wpc getCurrent Q E C k := by
  refine wpc_bind (wpc_gets hC ?_)
  rw [hcur]
  exact wpc_fail hC hE

/-- The last stores of a transaction, where the current task is `c`. -/
def Concludes (cfg : Target) (c : Option Nat) (E : Prop) (m : Prog Kernel Unit) : Prop :=
  ∀ {k : Kernel}, k.current = c → Sound cfg none k → Pending cfg k → wpc m (fun _ => Rested cfg) E (Pending cfg) k

theorem concludes_invalidate {u : Option Nat} : Concludes cfg u E invalidate := by
  intro k _ h hk
  have hclear := h.clearLog
  have hdone : Sound cfg none { k with lists := { k.lists with microOpOldLen := 0 }, op := .invalid } :=
    hclear.alike ⟨rfl, rfl, rfl, rfl, rfl, rfl⟩
  exact wpc_invalidate hk (.resting hclear rfl) (.resting hdone rfl) ⟨hdone, rfl, rfl⟩

theorem concludes_commit {u : Option Nat} (hE : u = none → E) : Concludes cfg u E commit := by
  intro k hcur h hk
  have hclear := h.clearLog
  cases u with
  | none =>
      refine wpc_bind (wpc_onLists (wpc_store hk (.resting hclear rfl) (wpc_bind ?_)))
      exact wpc_noCurrent hcur (.resting hclear rfl) (hE rfl)
  | some t =>
      have hdone : Sound cfg none (committed k t) := hclear.alike ⟨rfl, rfl, rfl, rfl, rfl, rfl⟩
      apply wpc_commit hcur hk
      · intro c hc
        cases hc with
        | cleared => exact .resting (hclear.alike ⟨rfl, rfl, rfl, rfl, rfl, rfl⟩) rfl
        | done => exact .resting hdone rfl
      · exact ⟨hdone, rfl, rfl⟩

/-! ## Moves and what comes after them -/

/-- Into the ready list. -/
theorem Moving.wpc_ready (h : Moving cfg t none none k) (hr : Readies k t) (hk : Pending cfg k)
    (hm : Concludes cfg k.current E m) :
    wpc (addToReadyList t >>= fun _ => m) (fun _ => Rested cfg) E (Pending cfg) k := by
  have henter : Enterable (logged k.lists .insertBeforeCursor (.ready (k.priority t))) (.ready (k.priority t))
      (.sched t) :=
    (enterable_ready h.sound.linked h.sched _).congr rfl rfl rfl
  have hlist : (relisted k.lists (.ready (k.priority t)) (.sched t)).list =
      Function.update k.lists.list (.sched t) (some (.ready (k.priority t))) := readied_list _ _ _
  have hfin : Pending cfg { k with lists := relisted k.lists (.ready (k.priority t)) (.sched t) } :=
    .readying h hr (.finish henter) hlist
  have hset : Pending cfg { k with
      lists := relisted k.lists (.ready (k.priority t)) (.sched t), status := Function.update k.status t .ready } :=
    .readying (h.setStatus .ready) (hr.congr rfl rfl rfl rfl) (.finish henter) hlist
  have hready : Sound cfg none { k with
      lists := relisted k.lists (.ready (k.priority t)) (.sched t), status := Function.update k.status t .ready } := by
    refine (h.ready.setStatus .ready).arrive (Or.inr (Or.inl ⟨rfl, rfl, ?_⟩))
    simp
  refine wpc_bind (wpc_bind (wpc_gets hk (wpc_bind (wpc_onLists (wpc_bind (wpc_startOpLog hk ?_ ?_))))))
  · exact .entering h hr
  refine wpc_insertBeforeCursor h.sched henter ?_ ?_ ?_
  · exact .entering h hr
  · exact fun s hs hl => .readying h hr hs hl
  · exact wpc_store hfin hset (hm rfl hready hset)

/-- Out of the delayed list and into the ready list. -/
theorem Moving.wpc_wake (h : Moving cfg t (some .delayed) none k) (hw : Rouses k t) (hk : Pending cfg k)
    (hm : Concludes cfg k.current E m) :
    wpc (do
      removeFromDelayedList cfg.toConfig t
      addToReadyList t
      m) (fun _ => Rested cfg) E (Pending cfg) k := by
  apply wpc_bind
  apply wpc_remove h.sound.linked id h.sched hk
  · exact fun s hs => .waking h hw hs
  · exact h.wake.wpc_ready (.woken (hw.congr rfl rfl rfl)) (.waking h hw (.finish _ _ _)) hm

/-- Into the delayed list. -/
theorem Moving.wpc_delay (h : Moving cfg t none b k) (hb : ∀ l, b = some l → ∃ w, l = .waiting w) (hr : Blocks k t)
    (hk : Pending cfg k) (hset : Pending cfg { k with status := Function.update k.status t .blocked })
    (hm : Concludes cfg k.current E m) :
    wpc (addToDelayedList cfg.toConfig t >>= fun _ => m) (fun _ => Rested cfg) E (Pending cfg) k := by
  obtain ⟨p, q, hp⟩ := h.exists_delayPlace
  have hu : ∀ u, Moving cfg t none b
      { k with status := Function.update k.status t .blocked, nextUnblockTime := u } := fun u =>
    ⟨(h.setStatus .blocked).sound.alike ⟨rfl, rfl, rfl, rfl, rfl, rfl⟩, h.lt, h.sched, h.event⟩
  have hin : ∀ s u, Delaying k.lists t p q s → Pending cfg
      { k with lists := s, status := Function.update k.status t .blocked, nextUnblockTime := u } := fun s u hs =>
    .delaying (hu u) hb ⟨hr.current, hr.op, hr.wait⟩ hp hs
  have hfin : Delaying k.lists t p q (delayedLists k.lists t p q) := .linking (.finish hp)
  apply wpc_bind
  apply wpc_addToDelayedList h.sched hp hk hset
  · exact fun s u hs _ => hin s u hs
  have hdone : Sound cfg none (slept k t p q) := by
    refine ((hu _).delay hp).arrive (Or.inr (Or.inr ⟨rfl, hb, ?_⟩))
    simp
  exact hm rfl hdone (hin _ _ hfin)

/-- Into a sorted wait list and the delayed list. -/
theorem Moving.wpc_wait (h : Moving cfg t none none k) (hr : Blocks k t) (hop : k.op ≠ .delayListInsert)
    (hw : k.waitListPtr = some w) (hk : Pending cfg k) (hm : Concludes cfg k.current E m) :
    wpc (do
      insertWaiting cfg.toConfig w t
      addToDelayedList cfg.toConfig t
      m) (fun _ => Rested cfg) E (Pending cfg) k := by
  obtain ⟨p, q, hp⟩ := h.exists_waitPlace w
  have hfin : Sorting (logged k.lists .insertSortedWaitList (.waiting w)) (.waiting w) (.event t) p q
    (waitingLists k.lists t w p q) := .linking (.finish hp)
  refine wpc_bind (wpc_bind (wpc_gets hk (wpc_bind (wpc_gets hk (wpc_onLists ?_)))))
  apply wpc_insertSorted h.event hp hk
  · exact fun s hs => .sorting h hr hop hw hp hs
  refine (h.wait hp).wpc_delay ?_ ⟨hr.current, hr.op, hr.wait⟩ ?_ ?_ hm
  · rintro _ ⟨⟩
    exact ⟨w, rfl⟩
  · exact .sorting h hr hop hw hp hfin
  · exact .sorting (h.setStatus .blocked) ⟨hr.current, hr.op, hr.wait⟩ hop hw hp hfin

/-- Into an unsorted wait list and the delayed list. -/
theorem Moving.wpc_front (h : Moving cfg t none none k) (hr : Blocks k t) (hop : k.op = .unsortedWaitListInsert)
    (hw : k.waitListPtr = some w) (hk : Pending cfg k) (hm : Concludes cfg k.current E m) :
    wpc (do
      onLists (optimizedInsertFront cfg.debugAssertions (.waiting w) (.event t))
      addToDelayedList cfg.toConfig t
      m) (fun _ => Rested cfg) E (Pending cfg) k := by
  have hfin : Fronting (logged k.lists .insertFront (.waiting w)) (.waiting w) (.event t)
    (fronted (logged k.lists .insertFront (.waiting w)) (.waiting w) (.event t)) := .linked (Or.inr rfl) (Or.inr rfl)
  refine wpc_bind (wpc_onLists ?_)
  apply wpc_optimizedInsertFront h.event hk
  · exact fun s hs => .fronting h hr hop hw hs
  refine (h.front w).wpc_delay ?_ ⟨hr.current, hr.op, hr.wait⟩ ?_ ?_ hm
  · rintro _ ⟨⟩
    exact ⟨w, rfl⟩
  · exact .fronting h hr hop hw hfin
  · exact .fronting (h.setStatus .blocked) ⟨hr.current, hr.op, hr.wait⟩ hop hw hfin

/-- Out of the ready list. -/
theorem Moving.wpc_leaveReady (h : Moving cfg t (some (.ready (k.priority t))) none k) (hr : Blocks k t)
    (hk : Pending cfg k) (hrest : Moving cfg t none none { k with lists := leftReady k t } →
      (∀ status, status = k.status ∨ status = Function.update k.status t .blocked →
        Pending cfg { k with lists := leftReady k t, status := status }) →
      wpc m (fun _ => Rested cfg) E (Pending cfg) { k with lists := leftReady k t }) :
    wpc (removeFromReadyList cfg.toConfig t >>= fun _ => m) (fun _ => Rested cfg) E (Pending cfg) k := by
  apply wpc_bind
  apply wpc_removeFromReadyList h.sound.linked h.sched hk
  · exact fun s hs => .leavingReady h hr hs
  refine hrest h.leaveReady ?_
  rintro _ (rfl | rfl)
  · exact .leavingReady h hr .finish
  · have hset := h.setStatus .blocked
    generalize Function.update k.status t .blocked = status at hset ⊢
    exact Pending.leavingReady (k := { k with status := status }) hset ⟨hr.current, hr.op, hr.wait⟩ LeavingRing.finish

/-! ## The transactions -/

theorem Rested.pending (h : Rested cfg k) : Pending cfg k := .resting h.sound h.micro

/-- A node of a wait list is that of a waiter. -/
theorem Sound.waiter (h : Sound cfg none k) {n : NodeRef} (hn : k.lists.list n = some (.waiting w)) :
    ∃ t, n = .event t ∧ Moving cfg t (some .delayed) (some (.waiting w)) k := by
  obtain ⟨hlt, hevent, hsched⟩ := h.of_list hn
  refine ⟨n.task, hevent, h.but _, hlt, hsched, ?_⟩
  rw [← hevent]
  exact hn

theorem Rested.wpc_popRemove (h : Rested cfg k) (hcur : k.current = some t) :
    wpc (do
      let head ← gets (·.lists.head (.waiting w))
      store fun k => { k with blockNodePtr := head }
      setTxOp .waitListPopRemoval
      match ← onLists (optimizedPopFront (.waiting w)) with
      | none => pure ()
      | some node => do
          removeFromDelayedList cfg.toConfig node.task
          addToReadyList node.task
      commit) (fun _ => Rested cfg) E (Pending cfg) k := by
  have hcommit : Concludes cfg k.current E commit := concludes_commit fun he => by cases hcur.symm.trans he
  have hidle : ∀ p, Rested cfg { k with blockNodePtr := p } := fun _ => h.alike ⟨rfl, rfl, rfl, rfl, rfl, rfl⟩ rfl
  have hlogged : ∀ p, Sound cfg none { k with blockNodePtr := p, op := .waitListPopRemoval } := fun _ =>
    h.sound.alike ⟨rfl, rfl, rfl, rfl, rfl, rfl⟩
  refine wpc_bind (wpc_gets h.pending (wpc_bind (wpc_store h.pending (hidle _).pending ?_)))
  have hpend : ∀ p, Pending cfg { k with blockNodePtr := p, op := .waitListPopRemoval } := fun p =>
    .resting (hlogged p) h.micro
  refine wpc_bind (wpc_store (hidle _).pending (hpend _) (wpc_bind (wpc_onLists ?_)))
  rcases hhead : k.lists.head (.waiting w) with _ | n
  · unfold optimizedPopFront
    refine wpc_bind (wpc_gets (hpend _) ?_)
    rw [hhead]
    exact wpc_pure (hpend _) (hcommit rfl (hlogged _) (hpend _))
  · obtain ⟨hn, hnone, hlen, _, _⟩ := h.sound.linked.popped id hhead
    obtain ⟨u, rfl, hwaiter⟩ := h.sound.waiter hn
    have hmoving : Moving cfg u (some .delayed) (some (.waiting w))
      { k with blockNodePtr := some (.event u), op := .waitListPopRemoval } :=
        hwaiter.alike ⟨rfl, rfl, rfl, rfl, rfl, rfl⟩
    have hrouses : Rouses { k with blockNodePtr := some (.event u), op := .waitListPopRemoval } u :=
      .waitlist rfl rfl fun he => by cases hcur.symm.trans he
    apply wpc_optimizedPopFront hhead hnone hlen (hpend _)
    · exact fun s hs => hmoving.pending_popping rfl hrouses hhead hs
    · have hpopped := hmoving.pending_popping rfl hrouses hhead .done
      exact (hmoving.pop hhead).wpc_wake (hrouses.congr rfl rfl rfl) hpopped hcommit

theorem Rested.wpc_unsortedRemove {n : NodeRef} (h : Rested cfg k) (hn : k.lists.list n = some (.waiting w)) :
    wpc (rollForwardRemoveFromUnsortedWaitlist cfg.toConfig w n) (fun _ => Rested cfg) E (Pending cfg) k := by
  obtain ⟨u, rfl, hwaiter⟩ := h.sound.waiter hn
  have hidle : Rested cfg { k with blockNodePtr := some (.event u) } := h.alike ⟨rfl, rfl, rfl, rfl, rfl, rfl⟩ rfl
  have hmoving : Moving cfg u (some .delayed) (some (.waiting w))
    { k with blockNodePtr := some (.event u), op := .waitListRemoval } := hwaiter.alike ⟨rfl, rfl, rfl, rfl, rfl, rfl⟩
  have hlogged : Pending cfg { k with blockNodePtr := some (.event u), op := .waitListRemoval } :=
    .resting (h.sound.alike ⟨rfl, rfl, rfl, rfl, rfl, rfl⟩) h.micro
  have hrouses : Rouses { k with blockNodePtr := some (.event u), op := .waitListRemoval } u := .unsorted rfl rfl
  refine wpc_bind (wpc_store h.pending hidle.pending (wpc_bind (wpc_store hidle.pending hlogged (wpc_bind ?_))))
  apply wpc_remove hmoving.sound.linked id hn hlogged
  · exact fun s hs => hmoving.pending_leavingWait rfl hrouses hs
  · have hleft := hmoving.pending_leavingWait rfl hrouses (.finish _ _ _)
    exact hmoving.leaveWait.wpc_wake (hrouses.congr rfl rfl rfl) hleft concludes_invalidate

/-- The current task is in its ready list. -/
theorem Sound.executing (h : Sound cfg none k) (hn : k.lists.list (.sched t) = some (.ready (k.priority t))) :
    Moving cfg t (some (.ready (k.priority t))) none k := by
  obtain ⟨hlt, _, _, hevent, _⟩ := h.of_list hn
  exact ⟨h.but t, hlt, hn, hevent⟩

theorem Rested.wpc_waitInsert (h : Rested cfg k) (hcur : k.current = some t)
    (hn : k.lists.list (.sched t) = some (.ready (k.priority t))) :
    wpc (rollForwardInsertIntoWaitlist cfg.toConfig w t) (fun _ => Rested cfg) E (Pending cfg) k := by
  have hidle : Rested cfg { k with waitListPtr := some w } := h.alike ⟨rfl, rfl, rfl, rfl, rfl, rfl⟩ rfl
  have hlogged : Pending cfg { k with waitListPtr := some w, op := .waitListInsert } :=
    .resting (h.sound.alike ⟨rfl, rfl, rfl, rfl, rfl, rfl⟩) h.micro
  have hmoving : Moving cfg t (some (.ready (k.priority t))) none
    { k with waitListPtr := some w, op := .waitListInsert } :=
      (h.sound.executing hn).alike ⟨rfl, rfl, rfl, rfl, rfl, rfl⟩
  refine wpc_bind (wpc_store h.pending hidle.pending (wpc_bind (wpc_store hidle.pending hlogged ?_)))
  refine hmoving.wpc_leaveReady ⟨hcur, Or.inr (Or.inl rfl), Or.inr ⟨_, rfl⟩⟩ hlogged fun hleft hpend => ?_
  exact hleft.wpc_wait ⟨hcur, Or.inr (Or.inl rfl), Or.inr ⟨_, rfl⟩⟩
    nofun rfl (hpend _ (Or.inl rfl)) concludes_invalidate

theorem Rested.wpc_unsortedInsert (h : Rested cfg k) (hcur : k.current = some t)
    (hn : k.lists.list (.sched t) = some (.ready (k.priority t))) :
    wpc (rollForwardInsertIntoUnsortedWaitlist cfg.toConfig w t) (fun _ => Rested cfg) E (Pending cfg) k := by
  have hidle : Rested cfg { k with waitListPtr := some w } := h.alike ⟨rfl, rfl, rfl, rfl, rfl, rfl⟩ rfl
  have hlogged : Pending cfg { k with waitListPtr := some w, op := .unsortedWaitListInsert } :=
    .resting (h.sound.alike ⟨rfl, rfl, rfl, rfl, rfl, rfl⟩) h.micro
  have hmoving : Moving cfg t (some (.ready (k.priority t))) none
    { k with waitListPtr := some w, op := .unsortedWaitListInsert } :=
      (h.sound.executing hn).alike ⟨rfl, rfl, rfl, rfl, rfl, rfl⟩
  refine wpc_bind (wpc_store h.pending hidle.pending (wpc_bind (wpc_store hidle.pending hlogged ?_)))
  refine hmoving.wpc_leaveReady ⟨hcur, Or.inr (Or.inr rfl), Or.inr ⟨_, rfl⟩⟩ hlogged fun hleft hpend => ?_
  exact hleft.wpc_front ⟨hcur, Or.inr (Or.inr rfl), Or.inr ⟨_, rfl⟩⟩ rfl rfl (hpend _ (Or.inl rfl)) concludes_invalidate

theorem Rested.wpc_delayInsert (h : Rested cfg k) (hcur : k.current = some t)
    (hn : k.lists.list (.sched t) = some (.ready (k.priority t))) :
    wpc (do
      setTxOp .delayListInsert
      let t ← getCurrent
      removeFromReadyList cfg.toConfig t
      addToDelayedList cfg.toConfig t
      commit) (fun _ => Rested cfg) E (Pending cfg) k := by
  have hlogged : Pending cfg { k with op := .delayListInsert } :=
    .resting (h.sound.alike ⟨rfl, rfl, rfl, rfl, rfl, rfl⟩) h.micro
  have hmoving : Moving cfg t (some (.ready (k.priority t))) none { k with op := .delayListInsert } :=
    (h.sound.executing hn).alike ⟨rfl, rfl, rfl, rfl, rfl, rfl⟩
  refine wpc_bind (wpc_store h.pending hlogged (wpc_bind (wpc_getCurrent hcur hlogged ?_)))
  refine hmoving.wpc_leaveReady ⟨hcur, Or.inl rfl, Or.inl rfl⟩ hlogged fun hleft hpend => ?_
  have hcommit : Concludes cfg k.current E commit := concludes_commit fun he => by cases hcur.symm.trans he
  exact hleft.wpc_delay nofun ⟨hcur, Or.inl rfl, Or.inl rfl⟩ (hpend _ (Or.inl rfl)) (hpend _ (Or.inr rfl)) hcommit

theorem Rested.wpc_readyInsert (h : Rested cfg k) (ht : t < k.taskCnt) (hs : k.lists.list (.sched t) = none)
    (he : k.lists.list (.event t) = none) :
    wpc (rollForwardInsertIntoReadylist t) (fun _ => Rested cfg) E (Pending cfg) k := by
  have hidle : Rested cfg { k with taskPtr := some t } := h.alike ⟨rfl, rfl, rfl, rfl, rfl, rfl⟩ rfl
  have hsound : Sound cfg none { k with taskPtr := some t, op := .readyListInsert } :=
    h.sound.alike ⟨rfl, rfl, rfl, rfl, rfl, rfl⟩
  have hlogged := Pending.resting hsound h.micro
  have hmoving : Moving cfg t none none { k with taskPtr := some t, op := .readyListInsert } :=
    ⟨hsound.but t, ht, hs, he⟩
  refine wpc_bind (wpc_store h.pending hidle.pending (wpc_bind (wpc_store hidle.pending hlogged ?_)))
  exact hmoving.wpc_ready (.created rfl rfl) hlogged concludes_invalidate

/-- The removal from its own wait list is logged and some of its stores are done, or all. -/
theorem Moving.pending_dueLeaving (h : Moving cfg t none (some (.waiting w)) k) (hop : k.op = .delayListRemoval)
    (hs : Removing (logged k.lists .remove (.waiting w)) (.waiting w) (.event t) s) :
    Pending cfg { k with lists := s } := by
  rcases hs.list with hl | rfl
  · exact .dueLeaving h hop hs hl
  · exact .dueLeft h.leaveWait hop (h.sound.len_lt (.waiting w)) rfl

/-- Moving the task to its ready list leaves the delayed list alone. -/
theorem Moving.wpc_makeDue (h : Moving cfg t none none k) (hop : k.op = .delayListRemoval) (hk : Pending cfg k) :
    wpc (do
      addToReadyList t
      invalidate) (fun _ k' => Rested cfg k' ∧ k'.lists.len .delayed = k.lists.len .delayed) E (Pending cfg) k := by
  have henter := enterable_ready h.sound.linked h.sched (k.priority t)
  have hlen : Ends (do
      addToReadyList t
      invalidate) (fun _ k' => k'.lists.len .delayed = k.lists.len .delayed) k := by
    simp [ends_addToReadyList_iff henter h.sched, invalidate, relisted_len]
  have hw := h.wpc_ready (E := True) (.due hop) hk concludes_invalidate
  exact wpc_mono (wpc_and_of_ends hlen hw) (fun _ _ h => h.symm) fun _ hc => hc

/-- One round of `process_tick`. -/
theorem Rested.wpc_delayRemoval {n : NodeRef} (h : Rested cfg k) (hhead : k.lists.head .delayed = some n) :
    wpc (rollForwardRemoveFromDelaylist cfg.toConfig)
      (fun _ k' => Rested cfg k' ∧ k'.lists.len .delayed = k.lists.len .delayed - 1) E (Pending cfg) k := by
  obtain ⟨hn, hnone, hlen, _, _⟩ := h.sound.linked.popped id hhead
  obtain ⟨hlt, hsched, hevent, _⟩ := h.sound.of_list hn
  obtain ⟨u, rfl⟩ : ∃ u, n = .sched u := ⟨_, hsched⟩
  have hlogged : Pending cfg { k with op := .delayListRemoval } :=
    .resting (h.sound.alike ⟨rfl, rfl, rfl, rfl, rfl, rfl⟩) h.micro
  have hmoving : Moving cfg u (some .delayed) (k.lists.list (.event u)) { k with op := .delayListRemoval } :=
    (Moving.mk (h.sound.but u) hlt hn rfl).alike ⟨rfl, rfl, rfl, rfl, rfl, rfl⟩
  have hpop := hmoving.popDelayed hhead
  have hpopping : ∀ s, Popping (logged k.lists .popFront .delayed) .delayed (.sched u) s →
      Pending cfg { k with lists := s, op := .delayListRemoval } := by
    intro s hs
    have hmicro : s.microOpOldLen = microOpOldLenOf .popFront (k.lists.len .delayed) := by cases hs <;> rfl
    rcases hs.list with hl | rfl
    · exact .duePopping hmoving rfl (h.sound.len_lt .delayed) hmicro hl
    · exact .duePopped hpop rfl (h.sound.len_lt .delayed) rfl
  refine wpc_bind (wpc_store h.pending hlogged (wpc_bind (wpc_onLists ?_)))
  apply wpc_optimizedPopFront hhead hnone hlen hlogged hpopping
  have hlen' : (popped (logged k.lists .popFront .delayed) .delayed (.sched u)).len .delayed =
      k.lists.len .delayed - 1 := by simp [popped, logged]
  rw [← hlen']
  refine wpc_bind (wpc_bind (wpc_gets (hpopping _ .done) ?_))
  have hpopped := hpop.event
  dsimp only [NodeRef.task] at hpopped ⊢
  rcases hb : k.lists.list (.event u) with _ | l
  · rw [hb] at hpop hpopped
    rw [hpopped]
    exact wpc_pure (hpopping _ .done) (hpop.wpc_makeDue rfl (hpopping _ .done))
  · obtain ⟨w, rfl⟩ := hevent l hb
    rw [hb] at hpop hpopped
    rw [hpopped]
    apply wpc_remove hpop.sound.linked id hpop.event (hpopping _ .done)
    · exact fun s hs => hpop.pending_dueLeaving rfl hs
    · exact hpop.leaveWait.wpc_makeDue rfl (hpop.pending_dueLeaving rfl (.finish _ _ _))

/-! ## The context switch -/

theorem Switching.pending (h : Switching cfg k) : Pending cfg k := .switching h

/-- A task that is not blocked turns to another state. -/
theorem Switching.turn (h : Switching cfg k) (ht : k.status t ≠ .blocked) {v : TaskState} (hv : v ≠ .blocked) :
    Switching cfg { k with status := Function.update k.status t v } := ⟨h.sound.turn ht hv, h.op, h.micro⟩

theorem Switching.setCurrent (h : Switching cfg k) (ht : t < k.taskCnt) : Switching cfg { k with current := some t } :=
  ⟨h.sound.setCurrent ht, h.op, h.micro⟩

/-- The last store of the context switch. -/
theorem Switching.wpc_done (h : Switching cfg k) :
    wpc (setMicroOp .invalid 0) (fun _ => Rested cfg) E (Pending cfg) k := by
  have hclear := h.sound.clearLog
  exact wpc_onLists (wpc_store h.pending (.resting hclear rfl) ⟨hclear, h.op, rfl⟩)

theorem Sound.ready (h : Sound cfg none k) {prio : Nat} {n : NodeRef} (hn : k.lists.peekNext (.ready prio) = some n) :
    k.status n.task ≠ .blocked ∧ n.task < k.taskCnt := by
  have hring : ListRef.IsReady (.ready prio) := trivial
  obtain ⟨_, _, _, hlist⟩ := h.linked.list_of_peekNext hring hn
  obtain ⟨hlt, _, _, _, hb⟩ := h.of_list hlist
  exact ⟨hb, hlt⟩

/-- The cursor moves on, to a task that is not blocked. -/
theorem Switching.wpc_nextItem {prio : Nat} {Q : Option NodeRef → Kernel → Prop} (h : Switching cfg k)
    (hQ : ∀ r s, Switching cfg { k with lists := s } →
      (∀ n, r = some n → k.status n.task ≠ .blocked ∧ n.task < k.taskCnt) → Q r { k with lists := s }) :
    wpc (onLists (nextItem (.ready prio))) Q E (Pending cfg) k := by
  apply wpc_onLists
  unfold nextItem
  refine wpc_bind (wpc_gets h.pending ?_)
  rcases hc : k.lists.cursor (.ready prio) with _ | c
  · exact wpc_pure h.pending (hQ none k.lists h nofun)
  · have hmoved : Switching cfg { k with lists := { k.lists with
        cursor := Function.update k.lists.cursor (.ready prio) (k.lists.next c) } } :=
      ⟨h.sound.rotate hc, h.op, h.micro⟩
    refine wpc_bind (wpc_gets h.pending (wpc_bind (wpc_store h.pending hmoved.pending (wpc_gets hmoved.pending ?_))))
    refine hQ _ _ hmoved fun n hn => ?_
    have hnext : k.lists.peekNext (.ready prio) = some n := by
      dsimp only at hn
      rw [Function.update_self] at hn
      rw [peekNext, hc]
      exact hn
    exact h.sound.ready hnext

theorem Switching.wpc_switched {prio : Nat} (h : Switching cfg k) (ht : t < k.taskCnt) :
    wpc (do
      let _ ← onLists (nextItem (.ready prio))
      Kernel.setCurrent t
      setMicroOp .invalid 0) (fun _ => Rested cfg) E (Pending cfg) k := by
  apply wpc_bind
  apply h.wpc_nextItem
  intro _ s hs _
  have hcur := hs.setCurrent ht
  exact wpc_bind (wpc_store hs.pending hcur.pending hcur.wpc_done)

theorem Rested.wpc_contextSwitch {i prevTask : Nat} (h : Rested cfg k) (hnext : nextTask k = some (i, t)) :
    wpc (atomicRollFowardContextSwitch t prevTask i) (fun _ => Rested cfg) E (Pending cfg) k := by
  obtain ⟨j, _, hn⟩ := List.exists_of_findSome?_eq_some hnext
  rw [Option.map_eq_some_iff] at hn
  obtain ⟨n, hn, hit⟩ := hn
  cases hit
  obtain ⟨hready, hlt⟩ := h.sound.ready hn
  have hidle : Rested cfg { k with taskPtr := some prevTask } := h.alike ⟨rfl, rfl, rfl, rfl, rfl, rfl⟩ rfl
  have hlogged : Switching cfg { k with
      taskPtr := some prevTask, lists := { k.lists with microOpOldLen := microOpOldLenOf .readyListNext 0 } } :=
    ⟨⟨h.sound.linked.setMicroOpOldLen _, h.sound.housed, h.sound.free, h.sound.current, h.sound.limit⟩, h.op, rfl⟩
  have hrunning := hlogged.turn (v := .running) hready nofun
  refine wpc_bind (wpc_store h.pending hidle.pending
    (wpc_bind (wpc_onLists (wpc_store hidle.pending hlogged.pending ?_))))
  refine wpc_bind (wpc_store hlogged.pending hrunning.pending (wpc_bind (wpc_gets hrunning.pending ?_)))
  split
  case isTrue hb =>
    have hprev := hrunning.turn (v := .ready) hb nofun
    exact wpc_bind (wpc_store hrunning.pending hprev.pending (hprev.wpc_switched hlt))
  case isFalse => exact hrunning.wpc_switched hlt

end Kernel

end IntOS
