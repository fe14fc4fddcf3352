import IntOS.EventGroup.Lemmas.Release

/-!
# The scheduler while tasks use an event group

Without power failures the calls of an event group leave the scheduler's lists well formed.
-/

namespace IntOS

open Persist Persist.Prog IntOS.Lists

namespace EventGroup

open Kernel (Quiet Listed Inv Typed)

variable {width : PtrWidth} {α : Type} {cfg : Config} {port : Port} {waitList t u : Nat} {xs ps ys : List Nat}
  {m m' c : Machine width} {bits bitsSet : EventBits width} {a : Activity width} {call : Call width} {k k' : Kernel}

structure Intact (k : Kernel) : Prop where
  inv : Inv k
  typed : Typed k.lists

/-- The task executes on a kernel that is intact. -/
structure Alive (t : Nat) (k : Kernel) : Prop extends Intact k where
  current : k.current = some t
  awake : k.status t ≠ .blocked

theorem Intact.of_eq (h : Intact k) (he : k' = k) : Intact k' := he ▸ h

theorem intact_new : Intact (Kernel.new cfg) := ⟨Kernel.inv_new cfg, Kernel.typed_new⟩

theorem Intact.prog {op : Kernel.Op} (h : Intact k) (ho : op.Enabled k) (hout : (op.prog cfg k).out = some ((), k')) :
    Intact k' :=
  ⟨((h.inv.events ho).post hout).inv, ((Kernel.keepsKinds_prog h.inv ho k h.typed).post hout).1⟩

theorem Alive.not_listed (h : Alive t k) : ¬ Listed waitList k t := by
  intro hl
  have hdelayed := (h.inv.waiting hl).2.2
  exact h.awake (h.inv.of_list hdelayed).2.2

theorem Alive.orderly (h : Alive t k) (waitList : Nat) : Orderly waitList t k := by
  obtain ⟨xs, hxs⟩ := h.inv.chained h.typed waitList
  exact ⟨xs, ⟨hxs, h.inv.op, h.inv.microOp, h.current⟩, fun ht => h.not_listed ((hxs.list t).mpr ht)⟩

/-- A waiter is unblocked. -/
theorem Alive.unblock (h : Alive t k) (hu : Listed waitList k u) :
    Ends (Kernel.rollForwardRemoveFromUnsortedWaitlist cfg waitList (.event u)) (fun _ => Alive t) k := by
  have htyped : After (Kernel.rollForwardRemoveFromUnsortedWaitlist cfg waitList (.event u))
      (fun _ r => Typed r.lists ∧ True) k := (Kernel.keepsKinds_removeUnsorted k h.typed).2
  refine ((h.inv.removeFromUnsortedWaitlist hu).and_after htyped).mono ?_
  rintro _ r ⟨⟨hinv, _, hw⟩, hr, _⟩
  refine ⟨⟨hinv, hr⟩, hw.frame.current.trans h.current, ?_⟩
  rw [hw.status]
  by_cases hut : t = u
  · simp [hut]
  · rw [Function.update_of_ne hut]
    exact h.awake

/-- The loop over the waiters has rounds enough. -/
theorem Alive.fits (h : Alive t k) (hq : Quiet t waitList xs k) : xs.length ≤ k.nodeBound := by
  have hlist : ∀ x ∈ xs.map NodeRef.event, k.lists.list x = some (.waiting waitList) := by
    intro x hx
    obtain ⟨u, hu, rfl⟩ := List.mem_map.mp hx
    exact (hq.chained.list u).mpr hu
  have hle := Kernel.length_le h.inv.free (Kernel.nodup_map_event hq.chained.nodup) hlist
  rwa [List.length_map] at hle

/-- The task blocks. -/
theorem Alive.block (h : Alive t k) (wakeupTime : Nat) :
    After (Kernel.blockOnUnsortedWaitlist cfg waitList wakeupTime) (fun _ r => Intact r ∧
      r.lists.list (.event t) = some (.waiting waitList) ∧
      ∀ u, u ≠ t → r.lists.list (.event u) = k.lists.list (.event u)) k := by
  have hexec : Kernel.Executing k := fun v hv => Option.some.inj (h.current.symm.trans hv) ▸ h.awake
  have hop : (Kernel.Op.blockUnsorted waitList wakeupTime).Enabled k := hexec
  have htyped : After (Kernel.blockOnUnsortedWaitlist cfg waitList wakeupTime) (fun _ r => Typed r.lists ∧ True) k :=
    (Kernel.keepsKinds_prog h.inv hop k h.typed).2
  refine (After.and (h.inv.blockOnUnsortedWaitlist hexec waitList wakeupTime) htyped).mono ?_
  rintro _ r ⟨⟨hinv, _, v, hv, hs⟩, hr, _⟩
  cases h.current.symm.trans hv
  exact ⟨⟨hinv, hr⟩, hs.event, fun u hu => hs.others hu⟩

/-! ## The segments of a call -/

theorem SameItems.alive (h : SameItems m c) (hm : Alive t m.kernel) : Alive t c.kernel := h.kernel ▸ hm

theorem ends_unblockWaiters_alive {fuel : Nat} {bitsToClear : EventBits width} {yldToHigherPrio : Bool}
    (hm : Alive t m.kernel) (h : Quiet t waitList (ps ++ ys) m.kernel) (hfuel : ys.length ≤ fuel) :
    Ends (unblockWaiters cfg waitList bitsSet fuel (ys.head?.map .event) bitsToClear yldToHigherPrio)
      (fun _ c => Alive t c.kernel) m := by
  induction ys generalizing m ps fuel bitsToClear yldToHigherPrio with
  | nil => cases fuel <;> exact hm
  | cons y ys ih =>
      obtain ⟨fuel, rfl⟩ := Nat.exists_eq_succ_of_ne_zero (Nat.ne_zero_of_lt (Nat.lt_of_succ_le hfuel))
      have hle : ys.length ≤ fuel := Nat.le_of_succ_le_succ hfuel
      have hnext := Quiet.next h
      rw [List.head?_cons, Option.map_some]
      unfold unblockWaiters
      rw [ends_bind, ends_gets, ends_bind, ends_gets, hnext]
      split
      · have hps : y ∉ ps := fun hy => (List.nodup_append.mp h.chained.nodup).2.2 y hy y (by simp) rfl
        rw [ends_bind, ends_onKernel, Kernel.ends_getCurrent hm.current]
        rw [ends_bind, ends_gets, ends_bind, setBlockItemValue, ends_store, ends_bind, ends_onKernel]
        have hy : Listed waitList m.kernel y := (Quiet.listed h).mpr (by simp)
        refine ((hm.unblock hy).and_after (h.wpc_unlink (u := y) (by simp)).2).mono ?_
        rintro _ k ⟨hk, hq⟩
        rw [List.erase_append_right _ hps, List.erase_cons_head] at hq
        exact ih hk hq hle
      · have h' : Quiet t waitList ((ps ++ [y]) ++ ys) m.kernel := by
          rw [List.append_assoc]
          exact h
        exact ih hm h' hle

theorem after_set_alive (hm : Alive t m.kernel) :
    After (setEventGroupBits cfg waitList bits) (fun _ c => Alive t c.kernel) m := by
  obtain ⟨xs, hq, _⟩ := hm.orderly waitList
  unfold setEventGroupBits
  rw [after_bind]
  refine After.mono (wpc_setEventBits_items hm.current).2 fun _ m₁ h₁ => ?_
  have hq₁ : Quiet t waitList ([] ++ xs) m₁.kernel := h₁.kernel ▸ hq
  have hm₁ := h₁.alive hm
  rw [after_bind, after_gets, after_bind, after_gets, after_bind, after_gets, after_bind, hq₁.chained.linear.head,
    List.head?_map]
  refine (ends_unblockWaiters_alive hm₁ hq₁ (hm₁.fits hq₁)).after.mono ?_
  rintro ⟨bitsToClear, yld⟩ m₂ hm₂
  rw [after_bind]
  exact After.mono (wpc_clear_items hm₂.current).2 fun _ _ h => h.alive hm₂

theorem after_blockFor_alive (hm : Alive t m.kernel) (v : EventBits width) (waitTicks : Nat) :
    After (blockFor cfg waitList v waitTicks) (fun _ c => Intact c.kernel) m := by
  unfold blockFor
  rw [after_bind, after_onKernel, Kernel.after_getCurrent]
  intro w _
  rw [after_bind, setBlockItemValue, after_store, after_bind, after_gets, after_bind, after_onKernel]
  unfold Kernel.addTime
  rw [after_bind, after_check]
  intro _
  rw [after_pure, after_onKernel]
  exact (hm.block _).mono fun _ _ h => h.1

/-! ## What leaves the kernel alone -/

theorem keeps_kernel_getCurrent : Keeps (Machine.kernel : Machine width → Kernel) (onKernel Kernel.getCurrent) := by
  have hread : Keeps id Kernel.getCurrent := by
    refine (keeps_gets _).bind fun r => ?_
    cases r with
    | none => exact keeps_fail
    | some t => exact keeps_pure _
  exact fun m => wpc_onKernel (wpc_mono (hread m.kernel) (fun _ _ hk => hk) fun _ hk => hk)

theorem keeps_kernel_run {f : EventBits width → EventBits width × EventBits width} :
    Keeps Machine.kernel (run cfg f) := by
  refine keeps_kernel_getCurrent.bind fun t => (keeps_gets _).bind fun ptr => (keeps_gets _).bind fun results => ?_
  cases results[ptr]? with
  | some res =>
      exact (keeps_gets _).bind fun _ => (keeps_gets _).bind fun _ => (keeps_check _).bind fun _ =>
        Keeps.bind (keeps_store fun _ => rfl) fun _ => keeps_pure _
  | none =>
      exact (keeps_gets _).bind fun _ => Keeps.bind (keeps_store fun _ => rfl) fun _ =>
        Keeps.bind (keeps_store fun _ => rfl) fun _ => keeps_pure _

theorem keeps_kernel_clear : Keeps Machine.kernel (clearEventBits cfg bits) :=
  keeps_kernel_run.bind fun _ => keeps_pure _

theorem keeps_kernel_lastLook (eventBits : EventBits width) (all : Bool) :
    Keeps Machine.kernel (lastLook cfg bits all eventBits) := by
  unfold lastLook
  split
  · refine Keeps.bind (keeps_gets _) fun ok => ?_
    dsimp only
    split
    · exact keeps_kernel_clear.bind fun _ => keeps_pure _
    · exact keeps_pure _
  · exact keeps_pure _

theorem keeps_kernel_waitAwoken (all : Bool) : Keeps Machine.kernel (waitAwoken cfg bits all) :=
  keeps_kernel_getCurrent.bind fun _ => (keeps_gets _).bind fun _ => keeps_kernel_lastLook _ _

theorem keeps_kernel_syncAwoken : Keeps Machine.kernel (syncAwoken cfg bits) :=
  keeps_kernel_getCurrent.bind fun _ => (keeps_gets _).bind fun _ => Keeps.bind (keeps_store fun _ => rfl) fun _ =>
    keeps_kernel_lastLook _ _

theorem keeps_kernel_epilogue : Keeps Machine.kernel (epilogue t call) := by
  cases call with
  | wait bits clear all waitTicks => exact keeps_store fun _ => rfl
  | _ => exact keeps_pure _

/-! ## A task goes on -/

theorem after_syncTest_intact (hm : Alive t m.kernel) (bitsToWaitFor originalBits : EventBits width) (waitTicks : Nat) :
    After (syncTest cfg waitList bits bitsToWaitFor waitTicks originalBits) (fun _ c => Intact c.kernel) m := by
  unfold syncTest
  split
  · rw [after_bind]
    exact After.mono (keeps_kernel_clear m).2 fun _ c hc => hm.toIntact.of_eq hc
  · split
    · rw [after_bind]
      exact (after_blockFor_alive hm _ _).mono fun _ _ h => h
    · exact hm.toIntact

theorem after_wait_intact (hm : Alive t m.kernel) (clear all : Bool) (waitTicks : Nat) :
    After (waitForEventGroupBits cfg waitList bits clear all waitTicks) (fun _ c => Intact c.kernel) m := by
  unfold waitForEventGroupBits
  rw [after_bind, after_onKernel, Kernel.after_getCurrent]
  intro v _
  rw [after_bind, after_gets]
  split
  · exact hm.toIntact
  · rw [after_bind, after_gets]
    split
    · rw [after_bind, after_gets]
      split
      · rw [after_bind]
        exact After.mono (keeps_kernel_clear m).2 fun _ c hc => hm.toIntact.of_eq hc
      · exact hm.toIntact
    · split
      · rw [after_bind]
        exact (after_blockFor_alive hm _ _).mono fun _ _ h => h
      · exact hm.toIntact

theorem after_begin_intact (hm : Alive t m.kernel) :
    After (begin cfg port waitList call) (fun _ c => Intact c.kernel) m := by
  cases call with
  | wait bits clear all waitTicks =>
      unfold begin
      rw [after_bind]
      exact (after_wait_intact hm clear all waitTicks).mono fun _ _ h => h
  | set bits =>
      unfold begin
      rw [after_bind]
      exact (after_set_alive hm).mono fun _ _ h => h.toIntact
  | sync bits bitsToWaitFor waitTicks =>
      unfold begin syncSet
      rw [after_bind, after_bind]
      refine After.mono (keeps_kernel_run m).2 fun orig m₁ h₁ => ?_
      rw [after_bind]
      refine (after_set_alive (h₁ ▸ hm)).mono fun yld m₂ h₂ => ?_
      rw [after_pure]
      dsimp only
      split
      · exact h₂.toIntact
      · rw [after_bind]
        exact (after_syncTest_intact h₂ _ _ _).mono fun _ _ h => h

theorem Intact.listTxDone (h : Intact k) (f : Nat → Bool) : Intact { k with listTxDone := f } :=
  ⟨⟨h.inv.linked, h.inv.timely, h.inv.placed, h.inv.free, h.inv.current, h.inv.running, h.inv.stopped, h.inv.op,
    h.inv.microOp⟩, h.typed⟩

theorem after_syscallEnd_intact (hm : Intact m.kernel) (call : Call width) (r : Outcome width) :
    After (syscallEnd call r) (fun _ c => Intact c.kernel) m := by
  unfold syscallEnd
  rw [after_bind, after_onKernel, Kernel.after_getCurrent]
  intro v _
  rw [after_bind, after_store, after_bind, after_store, after_bind, after_onKernel, after_store, after_bind]
  exact After.mono (keeps_kernel_epilogue _).2 fun _ c hc => (hm.listTxDone _).of_eq hc

/-- Whatever the task does next. -/
theorem after_prog_intact (hm : Alive t m.kernel) :
    After (a.prog cfg port waitList) (fun _ c => Intact c.kernel) m := by
  have hkept : ∀ {α : Type} {p : Prog (Machine width) α}, Keeps Machine.kernel p →
      After p (fun _ c => Intact c.kernel) m := fun hp => After.mono (hp m).2 fun _ c hc => hm.toIntact.of_eq hc
  cases a with
  | idle => exact hm.toIntact
  | calling call =>
      unfold Activity.prog attempt
      rw [after_bind, after_onKernel, Kernel.after_getCurrent]
      intro v _
      rw [after_bind, after_gets]
      dsimp only
      cases m.entry v with
      | some r =>
          exact hkept ((keeps_gets _).bind fun _ => (keeps_check _).bind fun _ => keeps_kernel_epilogue.bind fun _ =>
            keeps_pure _)
      | none =>
          dsimp only
          rw [after_bind, setTxPtr, after_store]
          exact after_begin_intact hm
  | inSet bits bitsToWaitFor waitTicks originalBits =>
      unfold Activity.prog
      rw [after_bind]
      exact (after_syncTest_intact hm _ _ _).mono fun _ _ h => h
  | ending call r => exact after_syscallEnd_intact hm.toIntact _ _
  | elsewhere => exact after_syscallEnd_intact hm.toIntact _ _
  | yielding call =>
      cases call with
      | set bits => exact hm.toIntact
      | wait bits clear all waitTicks => exact hkept ((keeps_kernel_waitAwoken _).bind fun _ => keeps_pure _)
      | sync bits bitsToWaitFor waitTicks => exact hkept (keeps_kernel_syncAwoken.bind fun _ => keeps_pure _)

/-! ## Runs without power failures -/

variable {s s' : System width} {e : System.Event}

theorem Intact.alive (h : Intact s.kernel) (ht : s.Executes t) : Alive t s.kernel := ⟨h, ht.1, ht.2⟩

theorem Intact.step (h : Intact s.kernel) (hstep : System.Step cfg port waitList e s s') (he : ∀ t, e ≠ .fail t) :
    Intact s'.kernel := by
  cases hstep with
  | call c ht hidle => exact h
  | run ht hact hout => exact (after_prog_intact (h.alive ht)).post hout
  | bypass ht hcalling => exact h
  | syscallBegin ht hidle => exact h
  | other ho hother hout => exact h.prog ho hout
  | fail ht hc hr => exact absurd rfl (he _)
  | failOther ho hother hk hr => exact absurd rfl (he _)

/-- Without power failures the wait list is in order where a task goes on. -/
theorem intact_reachable {Ok : System.Event → System width → System width → Prop}
    (hok : ∀ e s s', Ok e s s' → ∀ t, e ≠ .fail t) (h : System.Reachable cfg port waitList Ok s) : Intact s.kernel := by
  induction h with
  | start => exact intact_new
  | step _ hstep he ih => exact ih.step hstep (hok _ _ _ he)

end EventGroup

end IntOS
