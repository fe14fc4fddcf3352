import IntOS.EventGroup.Lemmas.Calls
import IntOS.EventGroup.Lemmas.Unblock

/-!
# What a set does to another task

A task either has been told that it is unblocked and is out of the wait list, or nothing has happened to it.
-/

namespace IntOS

open Persist Persist.Prog IntOS.Lists

namespace EventGroup

open Kernel (Quiet Listed)

variable {width : PtrWidth} {α : Type} {cfg : Config} {port : Port} {waitList t u : Nat} {xs : List Nat}
  {m m' c : Machine width} {bits : EventBits width} {a : Activity width} {call : Call width}

/-- No list transaction is pending, and the wait list is linked and does not hold the task that runs. -/
def Orderly (waitList u : Nat) (k : Kernel) : Prop := ∃ xs, Quiet u waitList xs k ∧ u ∉ xs

theorem Orderly.current {k : Kernel} (h : Orderly waitList u k) : k.current = some u := by
  obtain ⟨_, hq, _⟩ := h
  exact hq.current

theorem Orderly.not_listed (h : Orderly waitList u m.kernel) : ¬ Listed waitList m.kernel u := by
  obtain ⟨xs, hq, hu⟩ := h
  exact fun hl => hu ((Quiet.listed hq).mp hl)

/-! ## A set -/

/-- A kernel transaction leaves the kernel and the block items alone. -/
structure SameItems (m c : Machine width) : Prop where
  kernel : c.kernel = m.kernel
  value : c.blockItemValue = m.blockItemValue
  entry : c.entry = m.entry

theorem SameItems.refl : SameItems m m := ⟨rfl, rfl, rfl⟩

theorem wpc_run_items {f : EventBits width → EventBits width × EventBits width} (hcur : m.kernel.current = some u) :
    wpc (run cfg f) (fun _ => SameItems m) True (SameItems m) m := by
  cases hres : (m.txResults u)[m.txPtr u]? with
  | some res => exact wpc_run_cached res hcur hres .refl ⟨rfl, rfl, rfl⟩ ⟨rfl, rfl, rfl⟩
  | none => exact wpc_run_new hcur hres .refl ⟨rfl, rfl, rfl⟩ ⟨rfl, rfl, rfl⟩ ⟨rfl, rfl, rfl⟩

theorem wpc_clear_items (hcur : m.kernel.current = some u) :
    wpc (clearEventBits cfg bits) (fun _ => SameItems m) True (SameItems m) m :=
  wpc_bind (wpc_mono (wpc_run_items hcur) (fun _ _ hc => wpc_pure hc hc) fun _ hc => hc)

theorem wpc_setEventBits_items (hcur : m.kernel.current = some u) :
    wpc (setEventBits cfg bits) (fun _ => SameItems m) True (SameItems m) m :=
  wpc_bind (wpc_mono (wpc_run_items hcur) (fun _ _ hc => wpc_pure hc hc) fun _ hc => hc)

/-- A set sets its bits, unblocks waiters and clears bits. -/
theorem after_setEventGroupBits (h : Quiet u waitList xs m.kernel) :
    After (setEventGroupBits cfg waitList bits) (fun _ c => ∃ m₁ bitsToClear m₂,
      (setEventBits cfg (eventsOf bits) m).out = some ((), m₁) ∧
      Swept u waitList (getEventBits m₁) [] xs 0 m₁ bitsToClear m₂ ∧
      (clearEventBits cfg bitsToClear m₂).out = some ((), c)) m := by
  unfold setEventGroupBits
  rw [after_bind]
  refine ((after_out _ m).and (wpc_setEventBits_items h.current).2).mono ?_
  rintro ⟨⟩ m₁ ⟨hset, hsame⟩
  have h₁ : Quiet u waitList ([] ++ xs) m₁.kernel := hsame.kernel ▸ h
  rw [after_bind, after_gets, after_bind, after_gets, after_bind, after_gets, after_bind, h₁.chained.linear.head,
    List.head?_map]
  refine After.mono (wpc_unblockWaiters h₁ (Nat.lt_succ_self _)).2 ?_
  rintro ⟨bitsToClear, yld⟩ m₂ hswept
  rw [after_bind]
  refine (after_out _ m₂).mono ?_
  rintro ⟨⟩ c hclear
  exact ⟨m₁, bitsToClear, m₂, hset, hswept, hclear⟩

/-- The waiters that are to be unblocked by the bits that are set are told so and have left the wait list. -/
theorem after_set_waiters (h : Quiet u waitList xs m.kernel) :
    After (setEventGroupBits cfg waitList bits) (fun _ c => ∃ b : EventBits width,
      Quiet u waitList (left (eventsOf b) m xs) c.kernel ∧
      ∀ v, c.blockItemValue v = if v ∈ xs ∧ unblocks (m.blockItemValue v) (eventsOf b)
        then unblocked (eventsOf b) else m.blockItemValue v) m := by
  refine (after_setEventGroupBits h).mono ?_
  rintro _ c ⟨m₁, bitsToClear, m₂, hset, hswept, hclear⟩
  have h₁ := (wpc_setEventBits_items h.current).post hset
  have hq := hswept.quiet
  have h₂ := (wpc_clear_items hq.current).post hclear
  rw [List.nil_append, getEventBits, left_congr fun v _ => congrFun h₁.value v] at hq
  refine ⟨m₁.eventBits, h₂.kernel ▸ hq, fun v => ?_⟩
  rw [h₂.value, hswept.value v, h₁.value]
  rfl

/-! ## Another task -/

/-- What has become of the task `t`. -/
inductive Fate (waitList t : Nat) (m c : Machine width) : Prop
  | kept : c.blockItemValue t = m.blockItemValue t → (Listed waitList c.kernel t → Listed waitList m.kernel t) →
      Fate waitList t m c
  | told (b : EventBits width) : Listed waitList m.kernel t → unblocks (m.blockItemValue t) (eventsOf b) →
      c.blockItemValue t = unblocked (eventsOf b) → ¬ Listed waitList c.kernel t → Fate waitList t m c

theorem Fate.refl : Fate waitList t m m := .kept rfl id

/-- The task `u` runs, and nothing happens to the task `t`. -/
structure Kept (u waitList t : Nat) (m c : Machine width) : Prop where
  current : c.kernel.current = some u
  value : c.blockItemValue t = m.blockItemValue t
  listed : Listed waitList c.kernel t → Listed waitList m.kernel t

theorem Kept.refl (h : m.kernel.current = some u) : Kept u waitList t m m := ⟨h, rfl, id⟩

theorem frame_kept (ht : t ≠ u) : Frame u (Kept u waitList t m) where
  current := fun h => h.current
  kernel := fun h hk hl => ⟨hk, h.value, fun hc => h.listed (hl t waitList ht hc)⟩
  txPtr := fun _ h => ⟨h.current, h.value, h.listed⟩
  value := fun _ h => ⟨h.current, (Function.update_of_ne ht _ _).trans h.value, h.listed⟩
  applied := fun _ h => ⟨h.current, h.value, h.listed⟩

theorem Fate.then (h : Fate waitList t m m') (h' : Kept u waitList t m' c) : Fate waitList t m c := by
  cases h with
  | kept hv hl => exact .kept (h'.value.trans hv) fun hc => hl (h'.listed hc)
  | told b hl hb hv hn => exact .told b hl hb (h'.value.trans hv) fun hc => hn (h'.listed hc)

theorem after_set_fate (h : Quiet u waitList xs m.kernel) :
    After (setEventGroupBits cfg waitList bits) (fun _ c => c.kernel.current = some u ∧ Fate waitList t m c) m := by
  refine (after_set_waiters h).mono ?_
  rintro _ c ⟨b, hq, hvalue⟩
  refine ⟨hq.current, ?_⟩
  by_cases ht : t ∈ xs ∧ unblocks (m.blockItemValue t) (eventsOf b)
  · refine .told b ((Quiet.listed h).mpr ht.1) ht.2 ?_ fun hl => ?_
    · rw [hvalue, if_pos ht]
    · exact (mem_left.mp ((Quiet.listed hq).mp hl)).2 ht.2
  · refine .kept ?_ fun hl => ?_
    · rw [hvalue, if_neg ht]
    · exact (Quiet.listed h).mpr (mem_left.mp ((Quiet.listed hq).mp hl)).1

/-! ## What a task does next -/

section
variable {I P : Machine width → Prop}

theorem Frame.stays_syscallEnd (F : Frame u I) (hentry : ∀ {c} f, I c → I { c with entry := f })
    (hresults : ∀ {c} f, I c → I { c with txResults := f }) (call : Call width) (r : Outcome width) :
    Stays I (syscallEnd call r) fun _ => True := by
  refine F.stays_getCurrent.bind fun v hv => ?_
  subst hv
  refine Stays.bind (stays_store fun c => hentry _) fun _ _ => ?_
  refine Stays.bind (stays_store fun c => hresults _) fun _ _ => ?_
  refine Stays.bind (Q := fun _ => True) ?_ fun _ _ => (F.stays_epilogue _).bind fun _ _ => stays_pure trivial
  exact F.stays_onKernel fun _ => aside_of_keeps (keeps_store fun _ => rfl) (Kernel.unlists_store fun _ => rfl)

/-- What a task keeps through a set it keeps through its call. -/
theorem Frame.meets_attempt (F : Frame u I)
    (hset : ∀ {xs bits c}, I c → Quiet u waitList xs c.kernel →
      Meets P (setEventGroupBits cfg waitList bits) (fun _ => I) c)
    (hm : I m) (h : Orderly waitList u m.kernel) : Meets P (attempt cfg port waitList call) (fun _ => I) m := by
  have hcur := h.current
  obtain ⟨xs, hq, _⟩ := h
  unfold attempt
  refine meets_bind (After.meets ?_)
  rw [after_onKernel, Kernel.after_getCurrent]
  intro v hv
  cases hcur.symm.trans hv
  refine meets_bind (After.meets (after_gets.mpr ?_))
  cases m.entry u with
  | some r =>
      have hpass : Stays I (do
          let recovering ← gets (·.kernel.recoveryMode u)
          check (cfg.debugAssertions → recovering)
          epilogue u call
          pure (Activity.idle : Activity width)) fun _ => True :=
        (frame_gets _).bind fun _ _ => (stays_check _).bind fun _ _ => (F.stays_epilogue _).bind fun _ _ =>
          stays_pure trivial
      exact hpass.meets hm
  | none =>
      have hm' := F.txPtr 0 hm
      have hq' : Quiet u waitList xs { m with txPtr := Function.update m.txPtr u 0 }.kernel := hq
      refine meets_bind (After.meets (after_store.mpr ?_))
      cases call with
      | wait bits clear all waitTicks =>
          exact ((F.stays_waitForEventGroupBits _ _ _ _).bind fun _ _ => stays_pure trivial).meets hm'
      | set bits => exact meets_bind ((hset hm' hq').mono fun _ _ hc => After.meets hc)
      | sync bits bitsToWaitFor waitTicks =>
          have hcur' : { m with txPtr := Function.update m.txPtr u 0 }.kernel.current = some u := hcur
          have hread : After (run cfg fun b => (eventsOf b, b))
              (fun _ c => SameItems { m with txPtr := Function.update m.txPtr u 0 } c ∧ I c ∧ True)
              { m with txPtr := Function.update m.txPtr u 0 } :=
            After.and (wpc_run_items hcur').2 (F.stays_run (fun _ hb => hb) _ hm').2
          refine meets_bind (meets_bind (After.meets (hread.mono ?_)))
          rintro originalBits m₁ ⟨hsame, hm₁, _⟩
          have hq₁ : Quiet u waitList xs m₁.kernel := hsame.kernel ▸ hq
          refine meets_bind ((hset hm₁ hq₁).mono ?_)
          rintro yld m₂ hm₂
          refine After.meets ?_
          rw [after_pure]
          dsimp only
          split
          · exact After.meets hm₂
          · exact ((F.stays_syncTest _ _ _ _).bind fun _ _ => stays_pure trivial).meets hm₂

/-- Whatever the task does next. -/
theorem Frame.meets_prog (F : Frame u I)
    (hset : ∀ {xs bits c}, I c → Quiet u waitList xs c.kernel →
      Meets P (setEventGroupBits cfg waitList bits) (fun _ => I) c)
    (hentry : ∀ {c} f, I c → I { c with entry := f }) (hresults : ∀ {c} f, I c → I { c with txResults := f })
    (hm : I m) (h : Orderly waitList u m.kernel) : Meets P (a.prog cfg port waitList) (fun _ => I) m := by
  cases a with
  | idle => exact After.meets hm
  | calling call => exact F.meets_attempt hset hm h
  | inSet bits bitsToWaitFor waitTicks originalBits =>
      exact ((F.stays_syncTest _ _ _ _).bind fun _ _ => stays_pure trivial).meets hm
  | ending call r => exact (F.stays_syscallEnd hentry hresults _ _).meets hm
  | elsewhere => exact (F.stays_syscallEnd hentry hresults _ _).meets hm
  | yielding call =>
      cases call with
      | set bits => exact After.meets hm
      | wait bits clear all waitTicks =>
          exact ((F.stays_waitAwoken _ _).bind fun _ _ => stays_pure trivial).meets hm
      | sync bits bitsToWaitFor waitTicks =>
          exact ((F.stays_syncAwoken _).bind fun _ _ => stays_pure trivial).meets hm

end

/-- The task `u` runs, and the task `t` has been told so at most once. -/
structure Fated (u waitList t : Nat) (m c : Machine width) : Prop where
  current : c.kernel.current = some u
  fate : Fate waitList t m c

theorem Fated.then (h : Fated u waitList t m m') (h' : Kept u waitList t m' c) : Fated u waitList t m c :=
  ⟨h'.current, h.fate.then h'⟩

theorem frame_fated (ht : t ≠ u) : Frame u (Fated u waitList t m) where
  current := fun h => h.current
  kernel := fun h hk hl => h.then ((frame_kept ht).kernel (.refl h.current) hk hl)
  txPtr := fun _ h => h.then ⟨h.current, rfl, id⟩
  value := fun v h => h.then ((frame_kept ht).value v (.refl h.current))
  applied := fun _ h => h.then ⟨h.current, rfl, id⟩

/-- A set tells nobody who is out of the wait list. -/
theorem Fated.set (h : Fated u waitList t m c) (hc : Fated u waitList t c m') : Fated u waitList t m m' := by
  refine ⟨hc.current, ?_⟩
  cases hc.fate with
  | kept hv hl => exact h.fate.then ⟨hc.current, hv, hl⟩
  | told b hl hb hv hn =>
      cases h.fate with
      | kept hv' hl' => exact .told b (hl' hl) (hv' ▸ hb) hv hn
      | told _ _ _ _ hn' => exact absurd hl hn'

/-- Whatever the task `u` does next. -/
theorem after_prog_fate (ht : t ≠ u) (h : Orderly waitList u m.kernel) :
    After (a.prog cfg port waitList) (fun _ => Fate waitList t m) m := by
  have hset : ∀ {xs bits c}, Fated u waitList t m c → Quiet u waitList xs c.kernel →
      Meets (fun _ => False) (setEventGroupBits cfg waitList bits) (fun _ => Fated u waitList t m) c := fun hc hq =>
    After.meets ((after_set_fate hq).mono fun _ _ hs => hc.set ⟨hs.1, hs.2⟩)
  have hprog : Meets (fun _ => False) (a.prog cfg port waitList) (fun _ => Fated u waitList t m) m :=
    (frame_fated ht).meets_prog hset (fun _ h => h.then ⟨h.current, rfl, id⟩)
      (fun _ h => h.then ⟨h.current, rfl, id⟩) ⟨h.current, .refl⟩ h
  exact hprog.after.mono fun _ _ hc => hc.fate

end EventGroup

end IntOS
