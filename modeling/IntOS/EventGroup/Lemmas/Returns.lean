import IntOS.EventGroup.Lemmas.Release
import IntOS.EventGroup.Wait

/-!
# What a call comes to

Each part of a wait and of a `sync`, for every number of ticks: whether it returns, and with what. A set goes through
a state in which the event bits are those that it judges the waiters on.
-/

namespace IntOS

open Persist Persist.Prog IntOS.Lists

namespace EventGroup

open Kernel (Quiet Listed)

variable {width : PtrWidth} {α : Type} {cfg : Config} {port : Port} {waitList t u : Nat} {xs : List Nat}
  {m m' c : Machine width} {b bits x y orig : EventBits width} {clear all : Bool} {waitTicks : Nat} {a : Activity width}
  {P : Machine width → Prop}

/-! ## Bits that satisfy a wait -/

/-- The block item of a task that waits for `b`. -/
def itemOf (b : EventBits width) (clear all : Bool) : EventBits width :=
  b ||| ((if clear then clearEventsOnExitBit width else 0) ||| if all then waitForAllBits width else 0)

theorem waitConditionOk_eq : waitConditionOk b all m = satisfies b all m.eventBits := rfl

/-- Event bits have no control bits. -/
theorem and_control {k : EventBits width} (hb : eventsOf b = b)
    (hk : ~~~eventBitsControlBytes width &&& k = BitVec.ofNat width.bits 0) : b &&& k = BitVec.ofNat width.bits 0 := by
  rw [← hb, eventsOf, BitVec.and_assoc, hk, BitVec.and_zero]

theorem eventsOf_itemOf (hb : eventsOf b = b) : eventsOf (itemOf b clear all) = b := by
  have hcontrol : ((if clear then clearEventsOnExitBit width else 0) ||| if all then waitForAllBits width else 0) &&&
      ~~~eventBitsControlBytes width = BitVec.ofNat width.bits 0 := by
    cases width <;> cases clear <;> cases all <;> decide
  rw [itemOf, eventsOf, BitVec.and_or_distrib_right, hcontrol, BitVec.or_zero]
  exact hb

/-- A task that goes into the wait list has not been told that it is unblocked. -/
theorem itemOf_told (hb : eventsOf b = b) : itemOf b clear all &&& unblockedDueToBitSet width = 0 := by
  have hcontrol : ((if clear then clearEventsOnExitBit width else 0) ||| if all then waitForAllBits width else 0) &&&
      unblockedDueToBitSet width = BitVec.ofNat width.bits 0 := by
    cases width <;> cases clear <;> cases all <;> decide
  have hevents : b &&& unblockedDueToBitSet width = BitVec.ofNat width.bits 0 :=
    and_control hb (by cases width <;> decide)
  rw [itemOf, BitVec.and_or_distrib_right, hcontrol, hevents, BitVec.or_zero]
  rfl

theorem itemOf_all (hb : eventsOf b = b) : (itemOf b clear all &&& waitForAllBits width != 0) = all := by
  have hevents : b &&& waitForAllBits width = BitVec.ofNat width.bits 0 := and_control hb (by cases width <;> decide)
  rw [itemOf, BitVec.and_or_distrib_right, hevents, BitVec.zero_or]
  cases width <;> cases clear <;> cases all <;> decide

/-- A set unblocks the tasks whose wait its bits satisfy. -/
theorem unblocks_itemOf (hb : eventsOf b = b) : unblocks (itemOf b clear all) x = satisfies b all x := by
  unfold unblocks satisfies
  rw [itemOf_all hb, eventsOf_itemOf hb, BitVec.and_comm]
  cases all <;> rfl

theorem satisfies_mono (hb : eventsOf b = b) (hle : ∀ i, x.getLsbD i → y.getLsbD i) (h : satisfies b all x) :
    satisfies b all y := by
  have hitem : ∀ z, unblocks (itemOf b false all) z = satisfies b all z := fun _ => unblocks_itemOf hb
  rw [← hitem] at h ⊢
  exact unblocks_mono hle h

theorem satisfies_eventsOf (hb : eventsOf b = b) : satisfies b all (eventsOf x) = satisfies b all x := by
  have hevents : eventsOf x &&& b = x &&& b := by
    rw [eventsOf, BitVec.and_assoc, BitVec.and_comm _ b]
    exact congrArg _ hb
  unfold satisfies
  rw [hevents]

/-- The bits that are waited for satisfy the wait if any do. -/
theorem satisfies_self (h : satisfies b all x) : satisfies b all b := by
  cases all with
  | true => simp [satisfies]
  | false =>
      have hne : b ≠ BitVec.ofNat width.bits 0 := by
        rintro rfl
        simp [satisfies] at h
      simpa [satisfies] using hne

theorem satisfies_all : satisfies b true x ↔ x &&& b = b := by simp [satisfies]

/-- `original_bits | bits_to_set` has what the event bits have after the set. -/
theorem covers_iff (hb : eventsOf b = b) :
    (getEventBits m ||| bits) &&& b = b ↔ satisfies b true (m.eventBits ||| eventsOf bits) := by
  have hevents : eventsOf (getEventBits m ||| bits) = eventsOf (m.eventBits ||| eventsOf bits) := by
    simp only [eventsOf_or, getEventBits, eventsOf_eventsOf]
  rw [← satisfies_all, ← satisfies_eventsOf hb, hevents, satisfies_eventsOf hb]

/-! ## A set -/

theorem meets_run {f : EventBits width → EventBits width × EventBits width} :
    Meets P (run cfg f) (fun _ c => ¬ P c) m := by
  refine meets_then fun v m => meets_then fun ptr m => meets_then fun results m => ?_
  cases results[ptr]? with
  | some res =>
      refine meets_then fun _ _ => meets_then fun _ _ => meets_then fun _ _ => meets_bind (meets_store fun hp => ?_)
      exact After.meets hp
  | none => exact meets_then fun _ _ => meets_then fun _ _ => meets_bind (meets_store fun hp => After.meets hp)

theorem meets_setEventBits : Meets P (setEventBits cfg bits) (fun _ c => ¬ P c) m :=
  meets_bind (meets_run.mono fun _ _ hp => After.meets hp)

/-- The state in which a set judges the waiters is one that it goes through. -/
theorem meets_set (h : Quiet u waitList xs m.kernel) :
    Meets P (setEventGroupBits cfg waitList bits) (fun _ c => ∃ m₁ bitsToClear m₂, ¬ P m₁ ∧
      (setEventBits cfg (eventsOf bits) m).out = some ((), m₁) ∧
      Swept u waitList (getEventBits m₁) [] xs 0 m₁ bitsToClear m₂ ∧
      (clearEventBits cfg bitsToClear m₂).out = some ((), c)) m := by
  refine (after_setEventGroupBits h).mono ?_
  rintro _ c ⟨m₁, bitsToClear, m₂, hset, hswept, hclear⟩
  rcases meets_setEventBits.post hset with ⟨c', hc', hp⟩ | hp
  · exact Or.inl ⟨c', mem_trace_bind_left hc', hp⟩
  · exact Or.inr ⟨m₁, bitsToClear, m₂, hp, hset, hswept, hclear⟩

/-- A set that tells a task so goes through a state in which the wait condition of the task holds. -/
theorem meets_set_kept (hb : eventsOf b = b) (hv : m.blockItemValue t = itemOf b clear all)
    (h : Quiet u waitList xs m.kernel) :
    Meets (fun c => waitConditionOk b all c = true) (setEventGroupBits cfg waitList bits)
      (fun _ c => c.kernel.current = some u ∧ c.blockItemValue t = itemOf b clear all) m := by
  refine (meets_set h).mono ?_
  rintro _ c ⟨m₁, bitsToClear, m₂, hp, hset, hswept, hclear⟩
  have h₁ := (wpc_setEventBits_items h.current).post hset
  have h₂ := (wpc_clear_items hswept.quiet.current).post hclear
  rw [waitConditionOk_eq] at hp
  refine ⟨h₂.kernel ▸ hswept.quiet.current, ?_⟩
  rw [h₂.value, hswept.value, h₁.value, hv, unblocks_itemOf hb, getEventBits, satisfies_eventsOf hb]
  simp [hp]

/-- The task `u` runs, and the block item of the task `t` is `v`. -/
structure HasItem (u t : Nat) (v : EventBits width) (c : Machine width) : Prop where
  current : c.kernel.current = some u
  value : c.blockItemValue t = v

theorem frame_hasItem {v : EventBits width} (ht : t ≠ u) : Frame u (HasItem u t v) where
  current := fun h => h.current
  kernel := fun h hk _ => ⟨hk, h.value⟩
  txPtr := fun _ h => ⟨h.current, h.value⟩
  value := fun _ h => ⟨h.current, (Function.update_of_ne ht _ _).trans h.value⟩
  applied := fun _ h => ⟨h.current, h.value⟩

/-- Another task goes on. -/
theorem meets_prog_kept (ht : t ≠ u) (hb : eventsOf b = b) (hv : m.blockItemValue t = itemOf b clear all)
    (h : Orderly waitList u m.kernel) :
    Meets (fun c => waitConditionOk b all c = true) (a.prog cfg port waitList)
      (fun _ c => c.blockItemValue t = itemOf b clear all) m := by
  have hset : ∀ {xs bits c}, HasItem u t (itemOf b clear all) c → Quiet u waitList xs c.kernel →
      Meets (fun c => waitConditionOk b all c = true) (setEventGroupBits cfg waitList bits)
        (fun _ => HasItem u t (itemOf b clear all)) c := fun hc hq =>
    (meets_set_kept hb hc.value hq).mono fun _ _ hs => ⟨hs.1, hs.2⟩
  refine ((frame_hasItem ht).meets_prog hset (fun _ h => ⟨h.current, h.value⟩) (fun _ h => ⟨h.current, h.value⟩)
    ⟨h.current, hv⟩ h).mono fun _ _ hc => hc.value

/-! ## A wait -/

theorem after_blockFor (hcur : m.kernel.current = some t) (v : EventBits width) (waitTicks : Nat) :
    After (blockFor cfg waitList v waitTicks) (fun _ c => c.blockItemValue t = v) m := by
  unfold blockFor
  rw [after_bind, after_onKernel, Kernel.after_getCurrent]
  intro w hw
  cases hcur.symm.trans hw
  rw [after_bind, setBlockItemValue, after_store, after_bind, after_gets, after_bind, after_onKernel]
  refine After.of_forall fun _ k => ?_
  rw [after_onKernel]
  exact After.of_forall fun _ _ => Function.update_self _ _ _

/-- A call that has no entry begins. -/
theorem meets_attempt_begins {call : Call width} {Q : Activity width → Machine width → Prop}
    (hcur : m.kernel.current = some t) (he : m.entry t = none)
    (h : Meets P (begin cfg port waitList call) Q { m with txPtr := Function.update m.txPtr t 0 }) :
    Meets P (attempt cfg port waitList call) Q m := by
  unfold attempt
  refine meets_bind (After.meets ?_)
  rw [after_onKernel, Kernel.after_getCurrent]
  intro v hv
  cases hcur.symm.trans hv
  refine meets_bind (After.meets (after_gets.mpr ?_))
  dsimp only
  rw [he]
  exact meets_bind (After.meets (after_store.mpr h))

theorem after_attempt_begins {call : Call width} {Q : Activity width → Machine width → Prop}
    (hcur : m.kernel.current = some t) (he : m.entry t = none)
    (h : After (begin cfg port waitList call) Q { m with txPtr := Function.update m.txPtr t 0 }) :
    After (attempt cfg port waitList call) Q m :=
  (meets_attempt_begins hcur he h.meets).after

/-- What a wait comes to that begins in `m`. -/
inductive Waited (t : Nat) (b : EventBits width) (clear all : Bool) (waitTicks : Nat) (m c : Machine width) :
    Activity width → Prop
  | told : m.blockItemValue t &&& unblockedDueToBitSet width ≠ 0 →
      Waited t b clear all waitTicks m c (.ending (.wait b clear all waitTicks) (.ok (eventsOf (m.blockItemValue t))))
  | found : m.blockItemValue t &&& unblockedDueToBitSet width = 0 → waitConditionOk b all m →
      Waited t b clear all waitTicks m c (.ending (.wait b clear all waitTicks) (.ok (getEventBits m)))
  | waiting : m.blockItemValue t &&& unblockedDueToBitSet width = 0 → 0 < waitTicks →
      c.blockItemValue t = itemOf b clear all →
      Waited t b clear all waitTicks m c (.yielding (.wait b clear all waitTicks))
  | refused : m.blockItemValue t &&& unblockedDueToBitSet width = 0 → ¬ waitConditionOk b all m → ¬ 0 < waitTicks →
      Waited t b clear all waitTicks m c (.ending (.wait b clear all waitTicks) (.ok (getEventBits m)))

theorem after_attempt_wait (hcur : m.kernel.current = some t) (he : m.entry t = none) :
    After (attempt cfg port waitList (.wait b clear all waitTicks))
      (fun a c => Waited t b clear all waitTicks m c a) m := by
  refine after_attempt_begins hcur he ?_
  unfold begin waitForEventGroupBits
  rw [after_bind, after_bind, after_onKernel, Kernel.after_getCurrent]
  intro v hv
  cases hcur.symm.trans hv
  rw [after_bind, after_gets]
  by_cases htold : m.blockItemValue t &&& unblockedDueToBitSet width = 0
  · rw [if_neg (by simpa using htold), after_bind, after_gets]
    by_cases hok : waitConditionOk b all m = true
    · have hok' : waitConditionOk b all { m with txPtr := Function.update m.txPtr t 0 } = true := hok
      rw [if_pos hok', after_bind, after_gets]
      split
      · rw [after_bind]
        exact After.of_forall fun _ _ => .found htold hok
      · exact .found htold hok
    · have hok' : ¬ waitConditionOk b all { m with txPtr := Function.update m.txPtr t 0 } = true := hok
      rw [if_neg hok']
      by_cases hticks : 0 < waitTicks
      · rw [if_pos hticks, after_bind]
        have hcur' : { m with txPtr := Function.update m.txPtr t 0 }.kernel.current = some t := hcur
        exact (after_blockFor hcur' _ _).mono fun _ c hc => .waiting htold hticks hc
      · rw [if_neg hticks]
        exact .refused htold hok hticks
  · rw [if_pos (by simpa using htold)]
    exact .told htold

/-- A wait that its block item answers looks at nothing else. -/
theorem wpc_attempt_told (htold : m.blockItemValue t &&& unblockedDueToBitSet width ≠ 0)
    (hcur : m.kernel.current = some t) (he : m.entry t = none) :
    wpc (attempt cfg port waitList (.wait b clear all waitTicks)) (fun _ _ => True) True
      (fun c => c.eventBits = m.eventBits) m := by
  unfold attempt
  refine wpc_bind (wpc_onKernel (Kernel.wpc_getCurrent hcur rfl (wpc_bind (wpc_gets rfl ?_))))
  dsimp only
  rw [he]
  refine wpc_bind (wpc_store rfl rfl ?_)
  unfold begin waitForEventGroupBits
  refine wpc_bind (wpc_bind (wpc_onKernel (Kernel.wpc_getCurrent hcur rfl (wpc_bind (wpc_gets rfl ?_)))))
  rw [if_pos (by simpa using htold)]
  exact wpc_pure rfl (wpc_pure rfl trivial)

/-! ## A `sync` -/

/-- What the test of a `sync` in `m` comes to. -/
inductive Tested (t : Nat) (bits b : EventBits width) (waitTicks : Nat) (orig : EventBits width) (m c : Machine width) :
    Activity width → Prop
  | found : (orig ||| bits) &&& b = b → c.kernel = m.kernel →
      Tested t bits b waitTicks orig m c (.ending (.sync bits b waitTicks) (.ok (orig ||| bits)))
  | waiting : (orig ||| bits) &&& b ≠ b → 0 < waitTicks → c.blockItemValue t = itemOf b true true →
      Tested t bits b waitTicks orig m c (.yielding (.sync bits b waitTicks))
  | refused : (orig ||| bits) &&& b ≠ b → ¬ 0 < waitTicks →
      Tested t bits b waitTicks orig m c (.ending (.sync bits b waitTicks) (.ok (getEventBits m)))

theorem after_test (hcur : m.kernel.current = some t) :
    After (do
      let r ← syncTest cfg waitList bits b waitTicks orig
      pure (returnOrYield (.sync bits b waitTicks) r)) (fun a c => Tested t bits b waitTicks orig m c a) m := by
  unfold syncTest
  rw [after_bind]
  by_cases hcover : (orig ||| bits) &&& b = b
  · rw [if_pos (by simpa using hcover), after_bind]
    exact After.mono (wpc_clear_items hcur).2 fun _ _ hc => .found hcover hc.kernel
  · rw [if_neg (by simpa using hcover)]
    by_cases hticks : 0 < waitTicks
    · rw [if_pos hticks, after_bind]
      refine (after_blockFor hcur _ _).mono fun _ c hc => .waiting hcover hticks ?_
      rw [hc, itemOf, if_pos rfl, if_pos rfl, BitVec.or_assoc]
    · rw [if_neg hticks]
      exact .refused hcover hticks

/-- A kernel transaction of a call that is not begun again. -/
theorem after_run_new {f : EventBits width → EventBits width × EventBits width} (hcur : m.kernel.current = some t)
    (hfresh : (m.txResults t).length ≤ m.txPtr t) :
    After (run cfg f) (fun r c => r = (f m.eventBits).1 ∧ c = advanced t (applied f t m)) m :=
  (wpc_run_new (C := fun _ => True) hcur (List.getElem?_eq_none hfresh) trivial trivial trivial ⟨rfl, rfl⟩).2

theorem fresh_advanced {f : EventBits width → EventBits width × EventBits width}
    (hfresh : (m.txResults t).length ≤ m.txPtr t) :
    ((advanced t (applied f t m)).txResults t).length ≤ (advanced t (applied f t m)).txPtr t := by
  simpa [advanced, applied] using hfresh

theorem after_setEventBits_new (hcur : m.kernel.current = some t) (hfresh : (m.txResults t).length ≤ m.txPtr t) :
    After (setEventBits cfg bits) (fun _ c => c = advanced t (applied (fun b => (0, b ||| bits)) t m)) m := by
  unfold setEventBits
  rw [after_bind]
  exact (after_run_new hcur hfresh).mono fun _ _ hc => hc.2

theorem after_clearEventBits_new (hcur : m.kernel.current = some t) (hfresh : (m.txResults t).length ≤ m.txPtr t) :
    After (clearEventBits cfg bits) (fun _ c => c = advanced t (applied (fun b => (0, b &&& ~~~bits)) t m)) m := by
  unfold clearEventBits
  rw [after_bind]
  exact (after_run_new hcur hfresh).mono fun _ _ hc => hc.2

/-- The set of a `sync` that is not begun again. -/
theorem after_set_bits (h : Quiet t waitList xs m.kernel) (hfresh : (m.txResults t).length ≤ m.txPtr t) :
    After (setEventGroupBits cfg waitList bits) (fun _ c => c.kernel.current = some t ∧
      ∀ i, c.eventBits.getLsbD i → (m.eventBits ||| eventsOf bits).getLsbD i) m := by
  refine (after_setEventGroupBits h).mono ?_
  rintro _ c ⟨m₁, bitsToClear, m₂, hset, hswept, hclear⟩
  have hq := hswept.quiet
  have h₁ := (after_setEventBits_new h.current hfresh).post hset
  have hfresh₂ : (m₂.txResults t).length ≤ m₂.txPtr t := by
    rw [hswept.same.txResults, hswept.same.txPtr, h₁]
    exact fresh_advanced hfresh
  have h₂ := (after_clearEventBits_new hq.current hfresh₂).post hclear
  refine ⟨?_, fun i hi => ?_⟩
  · rw [h₂]
    exact hq.current
  · rw [h₂] at hi
    simp only [advanced, applied, BitVec.getLsbD_and, Bool.and_eq_true] at hi
    have hbit := hi.1
    rw [hswept.same.eventBits, h₁] at hbit
    exact hbit

/-- What a `sync` comes to that begins in `m`. -/
inductive Opened (t : Nat) (bits b : EventBits width) (waitTicks : Nat) (m c : Machine width) (a : Activity width) :
    Prop
  | inSet : a = .inSet bits b waitTicks (getEventBits m) → Opened t bits b waitTicks m c a
  | tested {m₁ : Machine width} : (∀ i, m₁.eventBits.getLsbD i → (m.eventBits ||| eventsOf bits).getLsbD i) →
      Tested t bits b waitTicks (getEventBits m) m₁ c a → Opened t bits b waitTicks m c a

/-- The first transaction of a `sync`, and what follows. -/
theorem after_originalBits_new (hcur : m.kernel.current = some t) (hnil : m.txResults t = []) :
    After (run cfg fun b => (eventsOf b, b)) (fun orig c => orig = getEventBits m ∧ c.kernel = m.kernel ∧
      c.eventBits = m.eventBits ∧ (c.txResults t).length ≤ c.txPtr t)
      { m with txPtr := Function.update m.txPtr t 0 } := by
  have hcur' : { m with txPtr := Function.update m.txPtr t 0 }.kernel.current = some t := hcur
  have hfresh : (Machine.txResults { m with txPtr := Function.update m.txPtr t 0 } t).length ≤
      Machine.txPtr { m with txPtr := Function.update m.txPtr t 0 } t := by simp [hnil]
  refine (after_run_new hcur' hfresh).mono ?_
  rintro orig c ⟨rfl, rfl⟩
  exact ⟨rfl, rfl, rfl, fresh_advanced hfresh⟩

theorem after_attempt_opened (h : Orderly waitList t m.kernel) (he : m.entry t = none) (hnil : m.txResults t = []) :
    After (attempt cfg port waitList (.sync bits b waitTicks)) (fun a c => Opened t bits b waitTicks m c a) m := by
  refine after_attempt_begins h.current he ?_
  obtain ⟨xs, hq, _⟩ := h
  unfold begin syncSet
  rw [after_bind, after_bind]
  refine (after_originalBits_new hq.current hnil).mono ?_
  rintro orig m₁ ⟨rfl, hk₁, hbits₁, hfresh₁⟩
  have hq₁ : Quiet t waitList xs m₁.kernel := hk₁ ▸ hq
  rw [after_bind]
  refine (after_set_bits hq₁ hfresh₁).mono ?_
  rintro yld m₂ ⟨hcur₂, hbits₂⟩
  rw [after_pure]
  dsimp only
  split
  · exact .inSet rfl
  · refine (after_test hcur₂).mono fun a c hc => .tested (fun i hi => ?_) hc
    rw [← hbits₁]
    exact hbits₂ i hi

/-- A `sync` that finds all bits itself goes through a state in which they are set. -/
theorem meets_attempt_covered (hb : eventsOf b = b) (h : Orderly waitList t m.kernel) (he : m.entry t = none)
    (hnil : m.txResults t = []) :
    Meets (fun c => waitConditionOk b true c = true) (attempt cfg port waitList (.sync bits b waitTicks))
      (fun _ _ => (getEventBits m ||| bits) &&& b ≠ b) m := by
  have hcur := h.current
  obtain ⟨xs, hq, _⟩ := h
  refine meets_attempt_begins hcur he ?_
  unfold begin syncSet
  refine meets_bind (meets_bind (After.meets ((after_originalBits_new hcur hnil).mono ?_)))
  rintro orig m₁ ⟨rfl, hk₁, hbits₁, hfresh₁⟩
  have hq₁ : Quiet t waitList xs m₁.kernel := hk₁ ▸ hq
  refine meets_bind ((meets_set hq₁).mono ?_)
  rintro yld c ⟨m₂, bitsToClear, m₃, hp, hset, -, -⟩
  have hbits₂ : m₂.eventBits = m.eventBits ||| eventsOf bits := by
    rw [(after_setEventBits_new hq₁.current hfresh₁).post hset, ← hbits₁]
    rfl
  have hcover : (getEventBits m ||| bits) &&& b ≠ b := by rwa [Ne, covers_iff hb, ← hbits₂]
  exact After.meets (After.of_forall fun _ _ => After.meets (After.of_forall fun _ _ => hcover))

/-! ## After the yield -/

/-- What a task returns that has slept in its call, with the block item that it finds. -/
def awokenWith (b : EventBits width) (all : Bool) (item : EventBits width) (m : Machine width) : Outcome width :=
  if item &&& unblockedDueToBitSet width ≠ 0 ∨ waitConditionOk b all m then .ok (eventsOf item)
  else .error (eventsOf item)

theorem after_lastLook : After (lastLook cfg b all x) (fun r _ => r = awokenWith b all x m) m := by
  unfold lastLook awokenWith
  by_cases htold : x &&& unblockedDueToBitSet width = 0
  · rw [if_pos (by simpa using htold), after_bind, after_gets]
    have hreturn : (if waitConditionOk b all m = true then .ok (eventsOf x) else .error (eventsOf x) : Outcome width) =
        if x &&& unblockedDueToBitSet width ≠ 0 ∨ waitConditionOk b all m = true then .ok (eventsOf x)
        else .error (eventsOf x) := by simp [htold]
    dsimp only
    split
    · rw [after_bind]
      exact After.of_forall fun _ _ => hreturn
    · exact hreturn
  · rw [if_neg (by simpa using htold), if_pos (Or.inl htold)]
    exact rfl

theorem after_wait_awoken (hcur : m.kernel.current = some t) :
    After ((Activity.yielding (.wait b clear all waitTicks)).prog cfg port waitList)
      (fun a _ => a = .ending (.wait b clear all waitTicks) (awokenWith b all (m.blockItemValue t) m)) m := by
  unfold Activity.prog waitAwoken
  rw [after_bind, after_bind, after_onKernel, Kernel.after_getCurrent]
  intro v hv
  cases hcur.symm.trans hv
  rw [after_bind, after_gets]
  exact after_lastLook.mono fun _ _ hr => congrArg _ hr

theorem after_sync_awoken (hcur : m.kernel.current = some t) :
    After ((Activity.yielding (.sync bits b waitTicks)).prog cfg port waitList)
      (fun a _ => a = .ending (.sync bits b waitTicks) (awokenWith b true (m.blockItemValue t) m)) m := by
  unfold Activity.prog syncAwoken
  rw [after_bind, after_bind, after_onKernel, Kernel.after_getCurrent]
  intro v hv
  cases hcur.symm.trans hv
  rw [after_bind, after_gets, after_bind, setBlockItemValue, after_store]
  exact after_lastLook.mono fun _ _ hr => congrArg _ hr

end EventGroup

end IntOS
