import IntOS.EventGroup.EventGroup
import IntOS.Sched.Lemmas.Crash

/-!
# Event bits, and the kernel transactions on them
-/

namespace IntOS

open Persist Persist.Prog

namespace EventGroup

variable {width : PtrWidth} {α : Type} {cfg : Config} {t : Nat} {m : Machine width} {x b bitsSet : EventBits width}
  {i : Nat}

/-! ## Control bits -/

theorem eventsOf_getLsbD : (eventsOf x).getLsbD i = (x.getLsbD i && (~~~eventBitsControlBytes width).getLsbD i) := by
  rw [eventsOf, BitVec.getLsbD_and]

theorem eventsOf_eventsOf (x : EventBits width) : eventsOf (eventsOf x) = eventsOf x := by
  rw [eventsOf, eventsOf, BitVec.and_assoc, BitVec.and_self]

theorem eventsOf_or (x y : EventBits width) : eventsOf (x ||| y) = eventsOf x ||| eventsOf y := by
  rw [eventsOf, eventsOf, eventsOf, BitVec.and_or_distrib_right]

/-- The block item of a task that a set has unblocked. -/
def unblocked (bitsSet : EventBits width) : EventBits width := bitsSet ||| unblockedDueToBitSet width

theorem eventsOf_unblocked : eventsOf (unblocked bitsSet) = eventsOf bitsSet := by
  have hcontrol : unblockedDueToBitSet width &&& ~~~eventBitsControlBytes width = BitVec.ofNat width.bits 0 := by
    cases width <;> decide
  rw [unblocked, eventsOf, BitVec.and_or_distrib_right, hcontrol, BitVec.or_zero, eventsOf]

/-- It has no other control bit. -/
theorem clears_unblocked : clears (unblocked (eventsOf b)) = 0 := by
  have hevents : ~~~eventBitsControlBytes width &&& clearEventsOnExitBit width = BitVec.ofNat width.bits 0 := by
    cases width <;> decide
  have hother : unblockedDueToBitSet width &&& clearEventsOnExitBit width = BitVec.ofNat width.bits 0 := by
    cases width <;> decide
  have hclear : unblocked (eventsOf b) &&& clearEventsOnExitBit width = BitVec.ofNat width.bits 0 := by
    rw [unblocked, eventsOf, BitVec.and_or_distrib_right, BitVec.and_assoc, hevents, hother, BitVec.and_zero,
      BitVec.or_zero]
  unfold clears
  rw [hclear]
  rfl

/-- Every waiter that is unblocked is told so. -/
theorem unblocked_told (bitsSet : EventBits width) : unblocked bitsSet &&& unblockedDueToBitSet width ≠ 0 := by
  have hsome : unblockedDueToBitSet width ≠ BitVec.ofNat width.bits 0 := by cases width <;> decide
  intro h
  refine hsome (BitVec.eq_of_getLsbD_eq fun i hi => ?_)
  have hbit := congrArg (·.getLsbD i) h
  simp only [unblocked, BitVec.getLsbD_and, BitVec.getLsbD_or, BitVec.ofNat_eq_ofNat, BitVec.getLsbD_zero] at hbit ⊢
  grind

theorem unblocks_mono {b b' v : EventBits width} (hle : ∀ i, b'.getLsbD i → b.getLsbD i) (h : unblocks v b') :
    unblocks v b := by
  unfold unblocks at h ⊢
  split
  case isTrue hall =>
    rw [if_pos hall, beq_iff_eq] at h
    rw [beq_iff_eq]
    refine BitVec.eq_of_getLsbD_eq fun i hi => ?_
    have hbit := congrArg (·.getLsbD i) h
    simp only [BitVec.getLsbD_and] at hbit ⊢
    have := hle i
    grind
  case isFalse hall =>
    rw [if_neg hall, bne_iff_ne] at h
    rw [bne_iff_ne]
    intro hzero
    refine h (BitVec.eq_of_getLsbD_eq fun i hi => ?_)
    have hbit := congrArg (·.getLsbD i) hzero
    simp only [BitVec.getLsbD_and, BitVec.ofNat_eq_ofNat, BitVec.getLsbD_zero] at hbit ⊢
    have := hle i
    grind

theorem unblocked_waitForAll : unblocked (eventsOf b) &&& waitForAllBits width = 0 := by
  have hevents : ~~~eventBitsControlBytes width &&& waitForAllBits width = BitVec.ofNat width.bits 0 := by
    cases width <;> decide
  have hother : unblockedDueToBitSet width &&& waitForAllBits width = BitVec.ofNat width.bits 0 := by
    cases width <;> decide
  rw [unblocked, eventsOf, BitVec.and_or_distrib_right, BitVec.and_assoc, hevents, hother, BitVec.and_zero,
    BitVec.or_zero]
  rfl

/-- A waiter that has been told so is unblocked again, as it waits for the bits that it was told. -/
theorem unblocks_unblocked {b v : EventBits width} (h : unblocks v (eventsOf b)) (hi : (clears v).getLsbD i) :
    unblocks (unblocked (eventsOf b)) (eventsOf b) := by
  have hall : unblocked (eventsOf b) &&& waitForAllBits width = BitVec.ofNat width.bits 0 := unblocked_waitForAll
  have hclears : eventsOf v ≠ BitVec.ofNat width.bits 0 := by
    intro hv
    simp [clears, hv] at hi
  have hsome : eventsOf b ≠ BitVec.ofNat width.bits 0 := by
    intro hb
    rw [hb] at h
    simp [unblocks, BitVec.and_zero, Ne.symm hclears] at h
  unfold unblocks
  rw [hall, eventsOf_unblocked, eventsOf_eventsOf, BitVec.and_self]
  simpa using hsome

/-! ## Kernel transactions -/

theorem wpc_onKernel {p : Prog Kernel α} {Q : α → Machine width → Prop} {E : Prop} {C : Machine width → Prop}
    (h : wpc p (fun a k => Q a { m with kernel := k }) E (fun k => C { m with kernel := k }) m.kernel) :
    wpc (onKernel p) Q E C m := wpc_zoom rfl h

/-- The results of the call up to the next one. -/
def advanced (t : Nat) (m : Machine width) : Machine width :=
  { m with txPtr := Function.update m.txPtr t (m.txPtr t + 1) }

def applied (f : EventBits width → EventBits width × EventBits width) (t : Nat) (m : Machine width) : Machine width :=
  { m with
    eventBits := (f m.eventBits).2
    txResults := Function.update m.txResults t (m.txResults t ++ [(f m.eventBits).1]) }

section
variable {f : EventBits width → EventBits width × EventBits width} {Q : EventBits width → Machine width → Prop}
  {E : Prop} {C : Machine width → Prop}

/-- A result that is there is read again; debug builds want the task to recover then. -/
theorem wpc_run_again (res : EventBits width) (hcur : m.kernel.current = some t)
    (hres : (m.txResults t)[m.txPtr t]? = some res) (hE : m.kernel.recoveryMode t = false → E) (hC : C m)
    (hC' : C (advanced t m)) (hQ : Q res (advanced t m)) : wpc (run cfg f) Q E C m := by
  unfold run
  refine wpc_bind (wpc_onKernel (Kernel.wpc_getCurrent hcur hC ?_))
  refine wpc_bind (wpc_gets hC (wpc_bind (wpc_gets hC ?_)))
  dsimp only
  rw [hres]
  refine wpc_bind (wpc_gets hC (wpc_bind (wpc_gets hC (wpc_bind (wpc_check hC (fun hn => hE ?_) fun _ => ?_)))))
  · by_contra hmode
    exact hn fun _ _ => by simpa using hmode
  · exact wpc_bind (wpc_store hC hC' (wpc_pure hC' hQ))

theorem wpc_run_cached (res : EventBits width) (hcur : m.kernel.current = some t)
    (hres : (m.txResults t)[m.txPtr t]? = some res) (hC : C m) (hC' : C (advanced t m)) (hQ : Q res (advanced t m)) :
    wpc (run cfg f) Q True C m := wpc_run_again res hcur hres (fun _ => trivial) hC hC' hQ

theorem wpc_run_new (hcur : m.kernel.current = some t) (hres : (m.txResults t)[m.txPtr t]? = none) (hC : C m)
    (hC' : C (applied f t m)) (hC'' : C (advanced t (applied f t m)))
    (hQ : Q (f m.eventBits).1 (advanced t (applied f t m))) : wpc (run cfg f) Q E C m := by
  unfold run
  refine wpc_bind (wpc_onKernel (Kernel.wpc_getCurrent hcur hC ?_))
  refine wpc_bind (wpc_gets hC (wpc_bind (wpc_gets hC ?_)))
  dsimp only
  rw [hres]
  refine wpc_bind (wpc_gets hC (wpc_bind (wpc_store hC hC' ?_)))
  exact wpc_bind (wpc_store hC' hC'' (wpc_pure hC'' hQ))

end

theorem ends_onKernel {p : Prog Kernel α} {Q : α → Machine width → Prop} :
    Ends (onKernel p) Q m ↔ Ends p (fun a k => Q a { m with kernel := k }) m.kernel := ends_zoom

theorem after_onKernel {p : Prog Kernel α} {Q : α → Machine width → Prop} :
    After (onKernel p) Q m ↔ After p (fun a k => Q a { m with kernel := k }) m.kernel := after_zoom

end EventGroup

end IntOS
