import IntOS.EventGroup.Lemmas.Bits
import IntOS.EventGroup.System
import IntOS.Sched.Lemmas.Unlisted

/-!
# What a task leaves to the others

A call writes the results, the place in them and the entry of its own task only, and of the block items of others it
writes those of tasks that it unblocks.
-/

namespace IntOS

open Persist Persist.Prog

namespace Kernel

variable {α : Type} {cfg : Config} {t w : Nat}

theorem keeps_current_onLists (m : Prog (Lists NodeRef ListRef) α) : Keeps Kernel.current (onLists m) :=
  keeps_zoom fun _ _ => rfl

theorem keeps_current_invalidate : Keeps Kernel.current invalidate :=
  (keeps_current_onLists _).bind fun _ => keeps_store fun _ => rfl

theorem keeps_current_addToReadyList : Keeps Kernel.current (addToReadyList t) :=
  (keeps_gets _).bind fun _ => (keeps_current_onLists _).bind fun _ => keeps_store fun _ => rfl

theorem keeps_current_addToDelayedList : Keeps Kernel.current (addToDelayedList cfg t) := by
  refine Keeps.bind (keeps_store fun _ => rfl) fun _ => ?_
  refine Keeps.bind ((keeps_gets _).bind fun _ => (keeps_gets _).bind fun _ => keeps_current_onLists _) fun _ => ?_
  refine (keeps_gets _).bind fun _ => (keeps_gets _).bind fun _ => ?_
  split
  · exact keeps_store fun _ => rfl
  · exact keeps_pure _

theorem keeps_current_removeUnsorted {n : NodeRef} :
    Keeps Kernel.current (rollForwardRemoveFromUnsortedWaitlist cfg w n) := by
  refine Keeps.bind (keeps_store fun _ => rfl) fun _ => Keeps.bind (keeps_store fun _ => rfl) fun _ => ?_
  exact (keeps_current_onLists _).bind fun _ => (keeps_current_onLists _).bind fun _ =>
    keeps_current_addToReadyList.bind fun _ => keeps_current_invalidate

theorem keeps_current_insertUnsorted : Keeps Kernel.current (rollForwardInsertIntoUnsortedWaitlist cfg w t) := by
  refine Keeps.bind (keeps_store fun _ => rfl) fun _ => Keeps.bind (keeps_store fun _ => rfl) fun _ => ?_
  refine Keeps.bind ((keeps_gets _).bind fun _ => keeps_current_onLists _) fun _ => ?_
  exact (keeps_current_onLists _).bind fun _ => keeps_current_addToDelayedList.bind fun _ => keeps_current_invalidate

theorem keeps_current_addTime (x y : Nat) : Keeps Kernel.current (addTime cfg x y) :=
  (keeps_check _).bind fun _ => keeps_pure _

end Kernel

namespace EventGroup

variable {width : PtrWidth} {α : Type} {cfg : Config} {port : Port} {waitList u : Nat} {m c : Machine width}

open Kernel (Listed)

/-- What a task keeps through its calls: it stays the one that runs, it changes its own results and its own block
item, and it lets no other task into a wait list. -/
structure Frame (u : Nat) (P : Machine width → Prop) : Prop where
  current : ∀ {c}, P c → c.kernel.current = some u
  kernel : ∀ {c k}, P c → k.current = some u → (∀ t w, t ≠ u → Listed w k t → Listed w c.kernel t) →
    P { c with kernel := k }
  txPtr : ∀ {c} (ptr : Nat), P c → P { c with txPtr := Function.update c.txPtr u ptr }
  value : ∀ {c} (v : EventBits width), P c → P { c with blockItemValue := Function.update c.blockItemValue u v }
  applied : ∀ {c} {f : EventBits width → EventBits width × EventBits width},
    (∀ b, eventsOf b = b → eventsOf (f b).2 = (f b).2) → P c → P (applied f u c)

/-- It may also tell any task that it is unblocked. -/
def Tells (P : Machine width → Prop) : Prop :=
  ∀ {c} (t : Nat) (bitsSet : EventBits width), P c →
    P { c with blockItemValue := Function.update c.blockItemValue t (unblocked bitsSet) }

section
variable {P : Machine width → Prop}

theorem frame_gets (g : Machine width → α) : Stays P (gets g) fun _ => True := stays_gets fun _ _ => trivial

/-- The other tasks come into no wait list. -/
def OfOthers (u : Nat) (n : NodeRef) (_ : ListRef) : Prop := ∃ t, t ≠ u ∧ n = .event t

theorem not_ofOthers_sched (t : Nat) (l : ListRef) : ¬ OfOthers u (.sched t) l := by
  rintro ⟨_, _, ht⟩
  cases ht

theorem not_ofOthers (l : ListRef) : ¬ OfOthers u (.event u) l := by
  rintro ⟨t, htu, ht⟩
  cases ht
  exact htu rfl

/-- The task runs, and the others have come into no wait list. -/
structure Aside (u : Nat) (k c : Kernel) : Prop where
  current : c.current = some u
  lists : Lists.Unlisting (OfOthers u) k.lists c.lists

theorem aside_of_keeps {k : Kernel} {p : Prog Kernel α} (hcur : Keeps Kernel.current p)
    (hlists : Kernel.Unlists (OfOthers u) k p) : Stays (Aside u k) p fun _ => True := by
  intro c hc
  refine wpc_mono (wpc_and (hcur c) (hlists c hc.lists)) ?_ ?_
  · exact fun _ r hr => ⟨⟨hr.1.trans hc.current, hr.2.1⟩, trivial⟩
  · exact fun r hr => ⟨hr.1.trans hc.current, hr.2⟩

/-- The task is the one that runs. -/
theorem aside_getCurrent {k : Kernel} : Stays (Aside u k) Kernel.getCurrent (· = u) := fun _ hc =>
  Kernel.wpc_getCurrent hc.current hc ⟨hc, rfl⟩

namespace Frame

theorem stays_onKernel (F : Frame u P) {p : Prog Kernel α} {Q : α → Prop} (hp : ∀ k, Stays (Aside u k) p Q) :
    Stays P (onKernel p) Q := by
  intro c hc
  have hkept : ∀ k, Aside u c.kernel k → P { c with kernel := k } := fun k hk =>
    F.kernel hc hk.current fun t _ ht => hk.lists _ _ ⟨t, ht, rfl⟩
  refine wpc_onKernel (wpc_mono (hp c.kernel c.kernel ⟨F.current hc, .refl⟩) ?_ hkept)
  exact fun _ k hk => ⟨hkept k hk.1, hk.2⟩

/-- The task is the one that runs. -/
theorem stays_getCurrent (F : Frame u P) : Stays P (onKernel Kernel.getCurrent) (· = u) := fun _ hc =>
  wpc_onKernel (Kernel.wpc_getCurrent (F.current hc) hc ⟨hc, rfl⟩)

theorem stays_setTxPtr (F : Frame u P) (ptr : Nat) : Stays P (setTxPtr u ptr) fun _ => True :=
  stays_store fun _ => F.txPtr ptr

theorem stays_setBlockItemValue (F : Frame u P) (v : EventBits width) : Stays P (setBlockItemValue u v) fun _ => True :=
  stays_store fun _ => F.value v

theorem stays_run (F : Frame u P) {f : EventBits width → EventBits width × EventBits width}
    (hf : ∀ b, eventsOf b = b → eventsOf (f b).2 = (f b).2) : Stays P (run cfg f) fun _ => True := by
  intro c hc
  have hcur := F.current hc
  cases hres : (c.txResults u)[c.txPtr u]? with
  | some res => exact wpc_run_cached res hcur hres hc (F.txPtr _ hc) ⟨F.txPtr _ hc, trivial⟩
  | none =>
      have hnew := F.applied hf hc
      exact wpc_run_new hcur hres hc hnew (F.txPtr _ hnew) ⟨F.txPtr _ hnew, trivial⟩

theorem stays_clearEventBits (F : Frame u P) (bits : EventBits width) :
    Stays P (clearEventBits cfg bits) fun _ => True := by
  refine (F.stays_run fun b hb => ?_).bind fun _ _ => stays_pure trivial
  change eventsOf (b &&& ~~~bits) = b &&& ~~~bits
  conv_rhs => rw [← hb]
  rw [eventsOf, eventsOf, BitVec.and_assoc, BitVec.and_assoc, BitVec.and_comm (~~~bits)]

theorem stays_setEventBits (F : Frame u P) (bits : EventBits width) :
    Stays P (setEventBits cfg (eventsOf bits)) fun _ => True := by
  refine (F.stays_run fun b hb => ?_).bind fun _ _ => stays_pure trivial
  rw [eventsOf_or, eventsOf_eventsOf, hb]

theorem stays_unblockWaiters (F : Frame u P) (htell : Tells P) {bitsSet : EventBits width} {fuel : Nat}
    {item : Option NodeRef} {bitsToClear : EventBits width} {yldToHigherPrio : Bool} :
    Stays P (unblockWaiters cfg waitList bitsSet fuel item bitsToClear yldToHigherPrio) fun _ => True := by
  induction fuel generalizing item bitsToClear yldToHigherPrio with
  | zero =>
      cases item with
      | none => exact stays_pure trivial
      | some node => exact stays_fail
  | succ fuel ih =>
      cases item with
      | none => exact stays_pure trivial
      | some node =>
          refine (frame_gets _).bind fun _ _ => (frame_gets _).bind fun _ _ => ?_
          split
          · refine F.stays_getCurrent.bind fun _ _ => (frame_gets _).bind fun _ _ => ?_
            refine Stays.bind (stays_store fun _ => htell node.task bitsSet) fun _ _ => ?_
            refine Stays.bind (Q := fun _ => True) (F.stays_onKernel fun _ => ?_) fun _ _ => ih
            exact aside_of_keeps Kernel.keeps_current_removeUnsorted (Kernel.unlists_removeUnsorted not_ofOthers_sched)
          · exact ih

theorem stays_setEventGroupBits (F : Frame u P) (htell : Tells P) (bits : EventBits width) :
    Stays P (setEventGroupBits cfg waitList bits) fun _ => True := by
  refine (F.stays_setEventBits bits).bind fun _ _ => (frame_gets _).bind fun _ _ => (frame_gets _).bind fun _ _ => ?_
  refine (frame_gets _).bind fun _ _ => (F.stays_unblockWaiters htell).bind fun _ _ => ?_
  exact (F.stays_clearEventBits _).bind fun _ _ => stays_pure trivial

theorem stays_blockFor (F : Frame u P) (v : EventBits width) (waitTicks : Nat) :
    Stays P (blockFor cfg waitList v waitTicks) fun _ => True := by
  refine F.stays_getCurrent.bind fun t ht => ?_
  subst ht
  refine (F.stays_setBlockItemValue _).bind fun _ _ => (frame_gets _).bind fun _ _ => ?_
  refine Stays.bind (Q := fun _ => True) (F.stays_onKernel fun _ => ?_) fun _ _ => F.stays_onKernel fun _ => ?_
  · exact aside_of_keeps (Kernel.keeps_current_addTime _ _) (Kernel.unlists_addTime _ _)
  · refine aside_getCurrent.bind fun v hv => ?_
    subst hv
    refine aside_of_keeps (Keeps.bind (keeps_store fun _ => rfl) fun _ => Kernel.keeps_current_insertUnsorted) ?_
    exact Stays.bind (Kernel.unlists_store fun _ => rfl) fun _ _ =>
      Kernel.unlists_insertUnsorted not_ofOthers_sched (not_ofOthers _)

theorem stays_lastLook (F : Frame u P) (bits eventBits : EventBits width) (all : Bool) :
    Stays P (lastLook cfg bits all eventBits) fun _ => True := by
  unfold lastLook
  split
  · refine Stays.bind (frame_gets _) fun ok _ => ?_
    dsimp only
    by_cases hclear : (ok && eventBits &&& clearEventsOnExitBit width != 0) = true
    · rw [if_pos hclear]
      exact (F.stays_clearEventBits _).bind fun _ _ => stays_pure trivial
    · rw [if_neg hclear]
      exact stays_pure trivial
  · exact stays_pure trivial

theorem stays_syncTest (F : Frame u P) (bitsToSet bitsToWaitFor originalBits : EventBits width) (waitTicks : Nat) :
    Stays P (syncTest cfg waitList bitsToSet bitsToWaitFor waitTicks originalBits) fun _ => True := by
  unfold syncTest
  split
  · exact (F.stays_clearEventBits _).bind fun _ _ => stays_pure trivial
  · split
    · exact (F.stays_blockFor _ _).bind fun _ _ => stays_pure trivial
    · exact (frame_gets _).bind fun _ _ => stays_pure trivial

theorem stays_syncAwoken (F : Frame u P) (bitsToWaitFor : EventBits width) :
    Stays P (syncAwoken cfg bitsToWaitFor) fun _ => True := by
  refine F.stays_getCurrent.bind fun t ht => ?_
  subst ht
  exact (frame_gets _).bind fun _ _ => (F.stays_setBlockItemValue _).bind fun _ _ => F.stays_lastLook _ _ _

theorem stays_waitForEventGroupBits (F : Frame u P) (bits : EventBits width) (clear all : Bool) (waitTicks : Nat) :
    Stays P (waitForEventGroupBits cfg waitList bits clear all waitTicks) fun _ => True := by
  refine F.stays_getCurrent.bind fun _ _ => (frame_gets _).bind fun _ _ => ?_
  split
  · exact stays_pure trivial
  · refine (frame_gets _).bind fun _ _ => ?_
    split
    · refine (frame_gets _).bind fun _ _ => ?_
      split
      · exact (F.stays_clearEventBits _).bind fun _ _ => stays_pure trivial
      · exact stays_pure trivial
    · split
      · exact (F.stays_blockFor _ _).bind fun _ _ => stays_pure trivial
      · exact (frame_gets _).bind fun _ _ => stays_pure trivial

theorem stays_waitAwoken (F : Frame u P) (bitsToWaitFor : EventBits width) (all : Bool) :
    Stays P (waitAwoken cfg bitsToWaitFor all) fun _ => True :=
  F.stays_getCurrent.bind fun _ _ => (frame_gets _).bind fun _ _ => F.stays_lastLook _ _ _

theorem stays_syncSet (F : Frame u P) (htell : Tells P) (bits : EventBits width) :
    Stays P (syncSet cfg waitList bits) fun _ => True :=
  (F.stays_run fun _ hb => hb).bind fun _ _ => (F.stays_setEventGroupBits htell _).bind fun _ _ => stays_pure trivial

theorem stays_begin (F : Frame u P) (htell : Tells P) (call : Call width) :
    Stays P (begin cfg port waitList call) fun _ => True := by
  cases call with
  | wait bits clear all waitTicks => exact (F.stays_waitForEventGroupBits _ _ _ _).bind fun _ _ => stays_pure trivial
  | set bits => exact (F.stays_setEventGroupBits htell _).bind fun _ _ => stays_pure trivial
  | sync bits bitsToWaitFor waitTicks =>
      refine (F.stays_syncSet htell bits).bind fun r _ => ?_
      dsimp only
      split
      · exact stays_pure trivial
      · exact (F.stays_syncTest _ _ _ _).bind fun _ _ => stays_pure trivial

theorem stays_epilogue (F : Frame u P) (call : Call width) : Stays P (epilogue u call) fun _ => True := by
  cases call with
  | wait bits clear all waitTicks => exact F.stays_setBlockItemValue _
  | _ => exact stays_pure trivial

end Frame

end

/-- What the segment of the task `u` from `m` on has left in `c`. -/
structure Spares (u : Nat) (m c : Machine width) : Prop where
  current : c.kernel.current = some u
  eventBits : eventsOf c.eventBits = c.eventBits
  txResults : ∀ t, t ≠ u → c.txResults t = m.txResults t
  txPtr : ∀ t, t ≠ u → c.txPtr t = m.txPtr t
  entry : ∀ t, t ≠ u → c.entry t = m.entry t
  value : ∀ t, t ≠ u → c.blockItemValue t = m.blockItemValue t ∨ c.blockItemValue t &&& unblockedDueToBitSet width ≠ 0
  listed : ∀ t w, t ≠ u → Listed w c.kernel t → Listed w m.kernel t

theorem Spares.start (hcur : m.kernel.current = some u) (hbits : eventsOf m.eventBits = m.eventBits) : Spares u m m :=
  ⟨hcur, hbits, fun _ _ => rfl, fun _ _ => rfl, fun _ _ => rfl, fun _ _ => Or.inl rfl, fun _ _ _ => id⟩

theorem frame_spares : Frame u (Spares u m) where
  current := fun h => h.current
  kernel := fun h hk hl => ⟨hk, h.eventBits, h.txResults, h.txPtr, h.entry, h.value, fun t w ht hc =>
    h.listed t w ht (hl t w ht hc)⟩
  txPtr := fun _ h => ⟨h.current, h.eventBits, h.txResults,
    fun t ht => (Function.update_of_ne ht _ _).trans (h.txPtr t ht), h.entry, h.value, h.listed⟩
  value := by
    intro c v h
    refine ⟨h.current, h.eventBits, h.txResults, h.txPtr, h.entry, fun t ht => ?_, h.listed⟩
    dsimp only
    rw [Function.update_of_ne ht]
    exact h.value t ht
  applied := fun hf h => ⟨h.current, hf _ h.eventBits,
    fun t ht => (Function.update_of_ne ht _ _).trans (h.txResults t ht), h.txPtr, h.entry, h.value, h.listed⟩

theorem tells_spares : Tells (Spares u m) := by
  intro c n bitsSet h
  refine ⟨h.current, h.eventBits, h.txResults, h.txPtr, h.entry, fun t ht => ?_, h.listed⟩
  by_cases htn : t = n
  · subst htn
    right
    dsimp only
    rw [Function.update_self]
    exact unblocked_told bitsSet
  · dsimp only
    rw [Function.update_of_ne htn]
    exact h.value t ht

theorem spares_syscallEnd (call : Call width) (r : Outcome width) :
    Stays (Spares u m) (syscallEnd call r) fun _ => True := by
  refine frame_spares.stays_getCurrent.bind fun t ht => ?_
  subst ht
  refine Stays.bind (stays_store fun c h => ?_) fun _ _ => Stays.bind (stays_store fun c h => ?_) fun _ _ => ?_
  · exact ⟨h.current, h.eventBits, h.txResults, h.txPtr,
      fun v hv => (Function.update_of_ne hv _ _).trans (h.entry v hv), h.value, h.listed⟩
  · exact ⟨h.current, h.eventBits, fun v hv => (Function.update_of_ne hv _ _).trans (h.txResults v hv),
      h.txPtr, h.entry, h.value, h.listed⟩
  · refine Stays.bind (Q := fun _ => True) ?_ fun _ _ => ?_
    · exact frame_spares.stays_onKernel fun _ => aside_of_keeps (keeps_store fun _ => rfl)
        (Kernel.unlists_store fun _ => rfl)
    · exact (frame_spares.stays_epilogue _).bind fun _ _ => stays_pure trivial

theorem spares_attempt (call : Call width) : Stays (Spares u m) (attempt cfg port waitList call) fun _ => True := by
  refine frame_spares.stays_getCurrent.bind fun t ht => ?_
  subst ht
  refine (frame_gets _).bind fun entry _ => ?_
  cases entry with
  | some r =>
      exact (frame_gets _).bind fun _ _ => (stays_check _).bind fun _ _ =>
        (frame_spares.stays_epilogue _).bind fun _ _ => stays_pure trivial
  | none => exact (frame_spares.stays_setTxPtr _).bind fun _ _ => frame_spares.stays_begin tells_spares _

/-- Whatever the task does next. -/
theorem spares_prog (a : Activity width) : Stays (Spares u m) (a.prog cfg port waitList) fun _ => True := by
  cases a with
  | idle => exact stays_pure trivial
  | calling call => exact spares_attempt call
  | inSet bits bitsToWaitFor waitTicks originalBits =>
      exact (frame_spares.stays_syncTest _ _ _ _).bind fun _ _ => stays_pure trivial
  | ending call r => exact spares_syscallEnd call r
  | elsewhere => exact spares_syscallEnd _ _
  | yielding call =>
      cases call with
      | set bits => exact stays_pure trivial
      | wait bits clear all waitTicks => exact (frame_spares.stays_waitAwoken _ _).bind fun _ _ => stays_pure trivial
      | sync bits bitsToWaitFor waitTicks => exact (frame_spares.stays_syncAwoken _).bind fun _ _ => stays_pure trivial

/-! ## What a task leaves to itself -/

variable {t : Nat} {call : Call width} {r : Outcome width} {a : Activity width}

/-- What a failure in `syscall_end!` leaves. -/
structure Recorded (t : Nat) (r : Outcome width) (m c : Machine width) : Prop where
  entry : c.entry t = m.entry t ∨ c.entry t = some r
  results : c.entry t = none → c.txResults t = m.txResults t
  short : c.txResults t = m.txResults t ∨ c.txResults t = []

theorem wpc_syscallEnd_results (hcur : m.kernel.current = some t) :
    wpc (syscallEnd call r) (fun a c => a = .idle ∧ c.txResults t = [] ∧ c.entry t = some r) True
      (Recorded t r m) m := by
  have hm : Recorded t r m m := ⟨Or.inl rfl, fun _ => rfl, Or.inl rfl⟩
  have hentry : ∀ {c : Machine width}, c.entry t = some r → c.txResults t = m.txResults t ∨ c.txResults t = [] →
      Recorded t r m c := fun hc hr => ⟨Or.inr hc, fun hn => by simp [hc] at hn, hr⟩
  have hend : ∀ {c : Machine width}, c.entry t = some r → c.txResults t = [] →
      wpc (epilogue t call >>= fun _ => pure (Activity.idle : Activity width))
        (fun a c => a = .idle ∧ c.txResults t = [] ∧ c.entry t = some r) True (Recorded t r m) c := by
    intro c hc hr
    have hC := hentry hc (Or.inr hr)
    cases call with
    | wait bits clear all waitTicks =>
        exact wpc_bind (wpc_store hC (hentry hc (Or.inr hr)) (wpc_pure (hentry hc (Or.inr hr)) ⟨rfl, hr, hc⟩))
    | _ => exact wpc_bind (wpc_pure hC (wpc_pure hC ⟨rfl, hr, hc⟩))
  have hnew : Function.update m.entry t (some r) t = some r := Function.update_self _ _ _
  have hnil : Function.update m.txResults t [] t = [] := Function.update_self _ _ _
  unfold syscallEnd
  refine wpc_bind (wpc_onKernel (Kernel.wpc_getCurrent hcur hm ?_))
  refine wpc_bind (wpc_store hm (hentry hnew (Or.inl rfl)) ?_)
  refine wpc_bind (wpc_store (hentry hnew (Or.inl rfl)) (hentry hnew (Or.inr hnil)) ?_)
  refine wpc_bind (wpc_onKernel (wpc_store (hentry hnew (Or.inr hnil)) (hentry hnew (Or.inr hnil)) ?_))
  exact hend hnew hnil

/-- A call that has an entry is over at once. -/
theorem wpc_bypass (hcur : m.kernel.current = some t) (he : m.entry t = some r) :
    wpc (attempt cfg port waitList call)
      (fun a c => a = .idle ∧ c.entry = m.entry ∧ c.txResults = m.txResults ∧
        c.blockItemValue t ∈ [m.blockItemValue t, 0])
      True
      (fun c => c.entry = m.entry ∧ c.txResults = m.txResults ∧ c.blockItemValue t ∈ [m.blockItemValue t, 0])
      m := by
  have hm : m.entry = m.entry ∧ m.txResults = m.txResults ∧ m.blockItemValue t ∈ [m.blockItemValue t, 0] :=
    ⟨rfl, rfl, by simp⟩
  unfold attempt
  refine wpc_bind (wpc_onKernel (Kernel.wpc_getCurrent hcur hm (wpc_bind (wpc_gets hm ?_))))
  dsimp only
  rw [he]
  refine wpc_bind (wpc_gets hm (wpc_bind (wpc_check hm (fun _ => trivial) fun _ => wpc_bind ?_)))
  cases call with
  | wait bits clear all waitTicks =>
      have hreset : Function.update m.blockItemValue t 0 t ∈ [m.blockItemValue t, 0] := by simp
      exact wpc_store hm ⟨rfl, rfl, hreset⟩ (wpc_pure ⟨rfl, rfl, hreset⟩ ⟨rfl, rfl, rfl, hreset⟩)
  | _ => exact wpc_pure hm (wpc_pure hm ⟨rfl, hm⟩)

theorem after_true (p : Prog (Machine width) α) : After p (fun _ _ => True) m := (wpc_trivial p m).2

theorem call_returnOrYield (c : Call width) (o : Option (Outcome width)) :
    (returnOrYield c o).call = some c ∧ ∀ x, returnOrYield c o ≠ .calling x := by
  cases o <;> exact ⟨rfl, fun _ => nofun⟩

theorem after_begin : After (begin cfg port waitList call) (fun a _ => a.call = some call ∧ ∀ x, a ≠ .calling x) m := by
  cases call with
  | wait bits clear all waitTicks =>
      unfold begin
      rw [after_bind]
      exact (after_true _).mono fun o _ _ => call_returnOrYield _ o
  | set bits =>
      unfold begin
      rw [after_bind]
      exact (after_true _).mono fun _ _ _ => ⟨rfl, fun _ => nofun⟩
  | sync bits bitsToWaitFor waitTicks =>
      unfold begin
      rw [after_bind]
      refine (after_true _).mono fun p _ _ => ?_
      dsimp only
      split
      · exact ⟨rfl, fun _ => nofun⟩
      · rw [after_bind]
        exact (after_true _).mono fun o _ _ => call_returnOrYield _ o

/-- A task stays in its call until the call is over, and then it has no results left. -/
theorem after_prog (hcur : m.kernel.current = some t) (ha : a ≠ .idle)
    (hdone : ∀ c, a = .calling c → m.entry t ≠ none → m.txResults t = []) :
    After (a.prog cfg port waitList) (fun a' c => (∃ call, a.call = some call ∧ a'.call = some call ∧
      ∀ x, a' ≠ .calling x) ∨ a' = .idle ∧ c.txResults t = []) m := by
  cases a with
  | idle => exact absurd rfl ha
  | calling c =>
      cases he : m.entry t with
      | some r =>
          have hnil := hdone c rfl (by simp [he])
          exact After.mono (wpc_bypass hcur he).2 fun a' c hc => Or.inr ⟨hc.1, hc.2.2.1 ▸ hnil⟩
      | none =>
          change After (attempt cfg port waitList c) _ m
          unfold attempt
          rw [after_bind, after_onKernel, Kernel.after_getCurrent]
          intro u hu
          cases hcur.symm.trans hu
          rw [after_bind, after_gets]
          dsimp only
          rw [he]
          simp only [setTxPtr, after_bind, after_store]
          exact after_begin.mono fun _ _ h => Or.inl ⟨c, rfl, h⟩
  | inSet bits bitsToWaitFor waitTicks originalBits =>
      simp only [Activity.prog, after_bind]
      exact (after_true _).mono fun o _ _ => Or.inl ⟨_, rfl, call_returnOrYield _ o⟩
  | ending c r => exact After.mono (wpc_syscallEnd_results hcur).2 fun _ _ hc => Or.inr ⟨hc.1, hc.2.1⟩
  | elsewhere => exact After.mono (wpc_syscallEnd_results hcur).2 fun _ _ hc => Or.inr ⟨hc.1, hc.2.1⟩
  | yielding c =>
      cases c with
      | set bits => exact Or.inl ⟨_, rfl, rfl, fun _ h => by cases h⟩
      | wait bits clear all waitTicks =>
          simp only [Activity.prog, after_bind]
          exact (after_true _).mono fun o _ _ => Or.inl ⟨_, rfl, rfl, fun _ h => by cases h⟩
      | sync bits bitsToWaitFor waitTicks =>
          simp only [Activity.prog, after_bind]
          exact (after_true _).mono fun o _ _ => Or.inl ⟨_, rfl, rfl, fun _ h => by cases h⟩

/-- What the restart leaves of the tasks that were in a call. -/
structure Restarted (c m : Machine width) : Prop where
  eventBits : m.eventBits = c.eventBits
  value : m.blockItemValue = c.blockItemValue
  entry : m.entry = c.entry
  txResults : ∀ t, c.entry t = none → m.txResults t = c.txResults t
  ended : ∀ t, c.entry t ≠ none → m.txResults t = []

theorem restarted_reboot {m : Machine width} (h : (reboot cfg c).out = some ((), m)) : Restarted c m := by
  have hafter : After (reboot cfg) (fun _ => Restarted c) c := by
    simp only [reboot, after_bind, after_onKernel, after_store]
    refine After.mono (wpc_trivial _ _).2 fun _ k _ => ⟨rfl, rfl, rfl, fun t ht => ?_, fun t ht => ?_⟩
    · simp [ht]
    · simp [ht]
  exact hafter.post h

end EventGroup

end IntOS
