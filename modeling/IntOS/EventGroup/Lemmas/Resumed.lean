import IntOS.EventGroup.Lemmas.Returns

/-!
# A `sync` that is begun again

Where it has found its bits it goes on to its end, through the set of its own bits and without going into the wait
list.
-/

namespace IntOS

open Persist Persist.Prog IntOS.Lists

namespace EventGroup

open Kernel (Quiet Listed Confined)

variable {width : PtrWidth} {α : Type} {cfg : Config} {port : Port} {waitList n t u : Nat} {mode : Nat → Bool}
  {m m' c : Machine width} {bits b bitsSet orig : EventBits width} {waitTicks : Nat}

/-! ## The set -/

/-- A kernel transaction of a task that recovers, where there is a result to read. -/
theorem wpc_run_resumed {f : EventBits width → EventBits width × EventBits width} (hcur : m.kernel.current = some t)
    (hmode : ¬ Fresh t m → m.kernel.recoveryMode t = true) :
    wpc (run cfg f) (fun _ => SameItems m) False (SameItems m) m := by
  cases hres : (m.txResults t)[m.txPtr t]? with
  | some res =>
      refine wpc_run_again res hcur hres (fun hn => ?_) .refl ⟨rfl, rfl, rfl⟩ ⟨rfl, rfl, rfl⟩
      have hlt : m.txPtr t < (m.txResults t).length := (List.getElem?_eq_some_iff.mp hres).1
      simp [hmode (Nat.not_le_of_gt hlt)] at hn
  | none => exact wpc_run_new hcur hres .refl ⟨rfl, rfl, rfl⟩ ⟨rfl, rfl, rfl⟩ ⟨rfl, rfl, rfl⟩

theorem wpc_clear_resumed (hcur : m.kernel.current = some t) (hmode : ¬ Fresh t m → m.kernel.recoveryMode t = true) :
    wpc (clearEventBits cfg bits) (fun _ => SameItems m) False (SameItems m) m :=
  wpc_bind (wpc_mono (wpc_run_resumed hcur hmode) (fun _ _ hc => wpc_pure hc hc) fun _ hc => hc)

theorem ends_set_resumed (hm : Alive t m.kernel) (hconf : Confined n mode m.kernel) (hmode : mode t = true) :
    Ends (setEventGroupBits cfg waitList bits) (fun _ c => Alive t c.kernel) m := by
  have hmodes : ∀ {c : Machine width}, Confined n mode c.kernel → ¬ Fresh t c → c.kernel.recoveryMode t = true :=
    fun hc _ => (congrFun hc.recoveryMode t).trans hmode
  obtain ⟨xs, hq, _⟩ := hm.orderly waitList
  have hset : wpc (setEventBits cfg (eventsOf bits)) (fun _ => SameItems m) False (SameItems m) m :=
    wpc_bind (wpc_mono (wpc_run_resumed hm.current (hmodes hconf)) (fun _ _ hc => wpc_pure hc hc) fun _ hc => hc)
  unfold setEventGroupBits
  rw [ends_bind]
  refine hset.ends.mono fun _ m₁ h₁ => ?_
  have hq₁ : Quiet t waitList ([] ++ xs) m₁.kernel := h₁.kernel ▸ hq
  have hm₁ := h₁.alive hm
  have hconf₁ : Confined n mode m₁.kernel := h₁.kernel ▸ hconf
  have hhead := hconf₁.lists.closed.head (.waiting waitList) trivial
  rw [ends_bind, ends_gets, ends_bind, ends_gets, ends_bind, ends_gets, ends_bind]
  rw [hq₁.chained.linear.head, List.head?_map] at hhead ⊢
  refine ((ends_unblockWaiters_alive hm₁ hq₁ (hm₁.fits hq₁)).and_after
    (confines_unblockWaiters hhead m₁ hconf₁).2).mono ?_
  rintro ⟨bitsToClear, yld⟩ m₂ ⟨hm₂, hconf₂, -⟩
  rw [ends_bind]
  exact (wpc_clear_resumed hm₂.current (hmodes hconf₂)).ends.mono fun _ _ h => h.alive hm₂

/-- The task does not come into the wait list. -/
def Outside (waitList t : Nat) (p : Prog (Machine width) α) : Prop :=
  Stays (fun c : Machine width => ¬ Listed waitList c.kernel t) p fun _ => True

theorem outside_keeps {p : Prog (Machine width) α} (hp : Keeps Machine.kernel p) : Outside waitList t p :=
  hp.stays fun k => ¬ Listed waitList k t

theorem outside_unlink {node : NodeRef} :
    Outside waitList t (onKernel (Kernel.rollForwardRemoveFromUnsortedWaitlist cfg waitList node) :
      Prog (Machine width) Unit) := by
  intro m hm
  have hsched : ∀ v l, ¬ (NodeRef.sched v = .event t ∧ l = ListRef.waiting waitList) := fun _ _ h => by cases h.1
  have hkept : ∀ k : Kernel, Unlisting (fun x l => x = .event t ∧ l = .waiting waitList) m.kernel.lists k.lists →
      ¬ Listed waitList k t := fun k hk hl => hm (hk _ _ ⟨rfl, rfl⟩ hl)
  refine wpc_onKernel (wpc_mono (Kernel.unlists_removeUnsorted hsched m.kernel .refl) ?_ hkept)
  exact fun _ k hk => ⟨hkept k hk.1, trivial⟩

theorem outside_unblockWaiters {fuel : Nat} {item : Option NodeRef} {bitsToClear : EventBits width}
    {yldToHigherPrio : Bool} :
    Outside waitList t (unblockWaiters cfg waitList bitsSet fuel item bitsToClear yldToHigherPrio) := by
  induction fuel generalizing item bitsToClear yldToHigherPrio with
  | zero =>
      cases item with
      | none => exact stays_pure trivial
      | some node => exact stays_fail
  | succ fuel ih =>
      cases item with
      | none => exact stays_pure trivial
      | some node =>
          refine (outside_keeps (keeps_gets _)).bind fun _ _ => (outside_keeps (keeps_gets _)).bind fun _ _ => ?_
          split
          · refine (outside_keeps keeps_kernel_getCurrent).bind fun _ _ =>
              (outside_keeps (keeps_gets _)).bind fun _ _ => ?_
            refine Stays.bind (outside_keeps (keeps_store fun _ => rfl)) fun _ _ => ?_
            exact outside_unlink.bind fun _ _ => ih
          · exact ih

theorem outside_set : Outside waitList t (setEventGroupBits cfg waitList bits : Prog (Machine width) Bool) := by
  refine (outside_keeps (keeps_kernel_run.bind fun _ => keeps_pure _)).bind fun _ _ => ?_
  refine (outside_keeps (keeps_gets _)).bind fun _ _ => (outside_keeps (keeps_gets _)).bind fun _ _ => ?_
  refine (outside_keeps (keeps_gets _)).bind fun _ _ => outside_unblockWaiters.bind fun _ _ => ?_
  exact (outside_keeps keeps_kernel_clear).bind fun _ _ => stays_pure trivial

theorem wpc_set_resumed (hm : Alive t m.kernel) (hconf : Confined n mode m.kernel) (hmode : mode t = true) :
    wpc (setEventGroupBits cfg waitList bits) (fun _ c => Alive t c.kernel ∧ Confined n mode c.kernel) False
      (fun c => ¬ Listed waitList c.kernel t) m := by
  have halive : Ends (setEventGroupBits cfg waitList bits) (fun _ c => Alive t c.kernel) m :=
    ends_set_resumed hm hconf hmode
  have hends := halive.and_after (confines_setEventGroupBits m hconf).2
  refine wpc_mono (wpc_and_of_ends hends (outside_set m hm.not_listed)) ?_ fun _ hc => hc
  rintro _ c ⟨⟨hc, hconf', -⟩, -⟩
  exact ⟨hc, hconf'⟩

/-! ## The test, and what comes after the yield -/

theorem wpc_test_resumed (hcur : m.kernel.current = some t) (hmode : ¬ Fresh t m → m.kernel.recoveryMode t = true)
    (hl : ¬ Listed waitList m.kernel t) (hcover : (orig ||| bits) &&& b = b) :
    wpc (do
      let r ← syncTest cfg waitList bits b waitTicks orig
      pure (returnOrYield (.sync bits b waitTicks) r))
      (fun a _ => a = .ending (.sync bits b waitTicks) (.ok (orig ||| bits))) False
      (fun c => ¬ Listed waitList c.kernel t) m := by
  have hstay : ∀ c, SameItems m c → ¬ Listed waitList c.kernel t := fun c hc => hc.kernel.symm ▸ hl
  unfold syncTest
  rw [if_pos (by simpa using hcover)]
  refine wpc_bind (wpc_bind (wpc_mono (wpc_clear_resumed hcur hmode) (fun _ c hc => ?_) hstay))
  exact wpc_pure (hstay c hc) (wpc_pure (hstay c hc) rfl)

/-- A task that has been told that it is unblocked returns. -/
theorem wpc_awoken_told (hcur : m.kernel.current = some t) (hl : ¬ Listed waitList m.kernel t)
    (htold : m.blockItemValue t &&& unblockedDueToBitSet width ≠ 0) :
    wpc ((Activity.yielding (.sync bits b waitTicks)).prog cfg port waitList)
      (fun a _ => a = .ending (.sync bits b waitTicks) (.ok (eventsOf (m.blockItemValue t)))) False
      (fun c => ¬ Listed waitList c.kernel t) m := by
  unfold Activity.prog syncAwoken
  refine wpc_bind (wpc_bind (wpc_onKernel (Kernel.wpc_getCurrent hcur hl (wpc_bind (wpc_gets hl ?_)))))
  refine wpc_bind (wpc_store hl hl ?_)
  unfold lastLook
  rw [if_neg (by simpa using htold)]
  exact wpc_pure hl (wpc_pure hl rfl)

/-! ## The whole -/

/-- The set, and then the test, which on the MSP430 may have to wait for the yield of the set. -/
theorem wpc_attempt_resumed (hm : Alive t m.kernel) (hconf : Confined n mode m.kernel) (hmode : mode t = true)
    (he : m.entry t = none) (hhead : (m.txResults t).head? = some orig) (hcover : (orig ||| bits) &&& b = b) :
    wpc (attempt cfg port waitList (.sync bits b waitTicks)) (fun a _ => a = .inSet bits b waitTicks orig ∨
      a = .ending (.sync bits b waitTicks) (.ok (orig ||| bits))) False (fun c => ¬ Listed waitList c.kernel t) m := by
  have hcur := hm.current
  have hl : ¬ Listed waitList m.kernel t := hm.not_listed
  have hcur' : { m with txPtr := Function.update m.txPtr t 0 }.kernel.current = some t := hcur
  have hfirst : (m.txResults t)[Function.update m.txPtr t 0 t]? = some orig := by
    rwa [Function.update_self, ← List.head?_eq_getElem?]
  unfold attempt
  refine wpc_bind (wpc_onKernel (Kernel.wpc_getCurrent hcur hl (wpc_bind (wpc_gets hl ?_))))
  dsimp only
  rw [he]
  refine wpc_bind (wpc_store hl hl ?_)
  unfold begin syncSet
  refine wpc_bind (wpc_bind (wpc_run_again (t := t) orig hcur' hfirst (fun hn => ?_) hl hl ?_))
  · simp [hconf.recoveryMode, hmode] at hn
  have hconf' : Confined n mode (advanced t { m with txPtr := Function.update m.txPtr t 0 }).kernel := hconf
  have hm' : Alive t (advanced t { m with txPtr := Function.update m.txPtr t 0 }).kernel := hm
  refine wpc_bind (wpc_mono (wpc_set_resumed hm' hconf' hmode) ?_ fun _ hc => hc)
  rintro yld m₂ ⟨hm₂, hconf₂⟩
  have hl₂ : ¬ Listed waitList m₂.kernel t := hm₂.not_listed
  refine wpc_pure hl₂ ?_
  dsimp only
  split
  · exact wpc_pure hl₂ (Or.inl rfl)
  · have hmode₂ : m₂.kernel.recoveryMode t = true := (congrFun hconf₂.recoveryMode t).trans hmode
    exact wpc_mono (wpc_test_resumed hm₂.current (fun _ => hmode₂) hl₂ hcover) (fun _ _ => Or.inr) fun _ hc => hc

end EventGroup

end IntOS
