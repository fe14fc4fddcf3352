import IntOS.EventGroup.Lemmas.Unblock
import IntOS.Sched.Unblocking

/-!
# Power failures while event bits are set

`bits_to_clear` is volatile. An attempt of `event_group_set` finds the bits to clear among the waiters that are left,
and a waiter that an earlier attempt has unblocked, or has only told so, is not among them.
-/

namespace IntOS

open Persist Persist.Prog IntOS.Lists

namespace EventGroup

open Kernel (Quiet Unlinking Listed)

variable {width : PtrWidth} {α : Type} {cfg : Config} {port : Port} {waitList t u : Nat} {xs : List Nat}
  {m m₀ m' c : Machine width} {bits bitsSet : EventBits width} {cs : List (Machine width)} {i : Nat}

/-- The states in which attempts start, with those in which power has failed. -/
inductive Attempts (cfg : Config) (port : Port) (waitList : Nat) (bitsToSet : EventBits width) (m₀ : Machine width) :
    List (Machine width) → Machine width → Prop
  | first : Attempts cfg port waitList bitsToSet m₀ [] m₀
  | again {cs : List (Machine width)} {m c m' : Machine width} : Attempts cfg port waitList bitsToSet m₀ cs m →
      c ∈ crashes (sysEventGroupSet cfg port waitList bitsToSet) m → (reboot cfg c).out = some ((), m') →
      Attempts cfg port waitList bitsToSet m₀ (c :: cs) m'

/-- The task begins a call. -/
structure Begins (t : Nat) (m : Machine width) : Prop where
  current : m.kernel.current = some t
  entry : m.entry t = none
  txResults : m.txResults t = []

/-- The event bits are those from before and the ones set, but for the bits of the waiters that the call has unblocked
and that clear them. -/
def SetRight (waitList : Nat) (bitsToSet : EventBits width) (m₀ m' : Machine width) : Prop :=
  ∀ i, (getEventBits m').getLsbD i ↔ (getEventBits m₀ ||| eventsOf bitsToSet).getLsbD i ∧
    ¬ ∃ u, Listed waitList m₀.kernel u ∧ ¬ Listed waitList m'.kernel u ∧ (clears (m₀.blockItemValue u)).getLsbD i

/-- Power fails before the bits are cleared, and of the waiters that were to clear some bit that is set none is left. -/
def Forgets (waitList t : Nat) (bitsToSet : EventBits width) (m₀ c : Machine width) : Prop :=
  c.entry t = none ∧ (c.txResults t).length < 2 ∧
    ∃ i, (getEventBits m₀ ||| eventsOf bitsToSet).getLsbD i ∧
      Covers waitList (getEventBits m₀ ||| eventsOf bitsToSet) m₀ i ∧
      ¬ Covers waitList (getEventBits m₀ ||| eventsOf bitsToSet) c i

/-! ## The loop where no waiter is to be unblocked -/

theorem wpc_unblockNobody {fuel : Nat} {ps ys : List Nat} {bitsToClear : EventBits width} {yldToHigherPrio : Bool}
    (h : Quiet t waitList (ps ++ ys) m.kernel) (hys : ∀ u ∈ ys, ¬ unblocks (m.blockItemValue u) bitsSet) :
    wpc (unblockWaiters cfg waitList bitsSet fuel (ys.head?.map .event) bitsToClear yldToHigherPrio)
      (fun r m' => m' = m ∧ r.1 = bitsToClear) True (fun c => c = m) m := by
  induction ys generalizing ps fuel with
  | nil =>
      cases fuel with
      | zero => exact wpc_pure rfl ⟨rfl, rfl⟩
      | succ fuel => exact wpc_pure rfl ⟨rfl, rfl⟩
  | cons y ys ih =>
      cases fuel with
      | zero => exact wpc_fail rfl trivial
      | succ fuel =>
          have hnext := Quiet.next h
          rw [List.head?_cons, Option.map_some]
          unfold unblockWaiters
          refine wpc_bind (wpc_gets rfl (wpc_bind (wpc_gets rfl ?_)))
          have hy : ¬ unblocks (m.blockItemValue (NodeRef.event y).task) bitsSet := hys y (by simp)
          rw [hnext, if_neg hy]
          have h' : Quiet t waitList ((ps ++ [y]) ++ ys) m.kernel := by
            rw [List.append_assoc]
            exact h
          exact ih h' fun u hu => hys u (by simp [hu])

/-! ## One attempt -/

/-- The bits have been set at most. -/
def Pending (t : Nat) (old new : EventBits width) (c : Machine width) : Prop :=
  c.entry t = none ∧ (c.txResults t = [] ∧ c.eventBits = old ∨ c.txResults t = [0] ∧ c.eventBits = old ||| new)

/-- The bits `cl` have been cleared. -/
structure Done (t waitList : Nat) (bitsSet : EventBits width) (cl : Nat → Prop) (m c : Machine width) : Prop where
  later : Later waitList bitsSet m c
  quiet : ∃ xs, xs.length < 2 ^ opCodeShift ∧ Quiet t waitList xs c.kernel ∧
    ∀ u ∈ xs, ¬ unblocks (c.blockItemValue u) bitsSet
  bits : ∀ i, (getEventBits c).getLsbD i ↔ bitsSet.getLsbD i ∧ ¬ cl i
  finished : c.entry t ≠ none ∨ c.txResults t = [0, 0]

/-- What a failure leaves of an attempt that begins in `m`. -/
inductive Cut (t waitList : Nat) (old new : EventBits width) (m c : Machine width) : Prop
  | pending : Later waitList (eventsOf (old ||| new)) m c → Pending t old new c →
      (∃ xs, xs.length < 2 ^ opCodeShift ∧ (Quiet t waitList xs c.kernel ∨
        ∃ u ∈ xs, c.blockItemValue u = unblocked (eventsOf (old ||| new)) ∧ Unlinking t waitList xs u c.kernel ∧
          Listed waitList m.kernel u ∧ unblocks (m.blockItemValue u) (eventsOf (old ||| new)))) →
      Cut t waitList old new m c
  | done : Done t waitList (eventsOf (old ||| new)) (Covers waitList (eventsOf (old ||| new)) m) m c →
      Cut t waitList old new m c

variable {old new : EventBits width} {cl : Nat → Prop}

theorem Struck.cut (h : Struck t waitList (2 ^ opCodeShift) (eventsOf (old ||| new)) m c) (hp : Pending t old new m) :
    Cut t waitList old new m c := by
  refine .pending h.later ?_ h.kernel
  rw [Pending, h.same.entry, h.same.txResults, h.same.eventBits]
  exact hp

/-- What is not about the wait list, the block items and the event bits may change. -/
theorem Done.keep (h : Done t waitList bitsSet cl m c) (hl : m'.kernel.lists = c.kernel.lists)
    (ho : m'.kernel.op = c.kernel.op) (hc : m'.kernel.current = c.kernel.current)
    (hv : m'.blockItemValue = c.blockItemValue) (hb : m'.eventBits = c.eventBits)
    (hf : m'.entry t ≠ none ∨ m'.txResults t = [0, 0]) : Done t waitList bitsSet cl m m' := by
  obtain ⟨hlater, ⟨xs, hfit, hq, hxs⟩, hbits, _⟩ := h
  have hlisted : ∀ u, Listed waitList m'.kernel u ↔ Listed waitList c.kernel u := fun u => by rw [Listed, Listed, hl]
  refine ⟨⟨fun u hu => hlater.listed u ((hlisted u).mp hu), fun u hu => ?_, fun u hu hn => ?_⟩,
    ⟨xs, hfit, ⟨hl ▸ hq.chained, ho.trans hq.op, hl ▸ hq.microOp, hc.trans hq.current⟩, hv ▸ hxs⟩, ?_, hf⟩
  · rw [hv]
    exact hlater.value u ((hlisted u).mp hu)
  · exact hlater.gone u hu fun h => hn ((hlisted u).mpr h)
  · unfold getEventBits
    rw [hb]
    exact hbits

theorem Done.current (h : Done t waitList bitsSet cl m c) : c.kernel.current = some t := by
  obtain ⟨xs, _, hq, _⟩ := h.quiet
  exact hq.current

/-- `syscall_end!` of a set. -/
theorem wpc_syscallEnd (h : Done t waitList bitsSet cl m m') :
    wpc (syscallEnd (.set bits) (.ok 0)) (fun _ r => Done t waitList bitsSet cl m r ∧ r.entry t ≠ none) True
      (Done t waitList bitsSet cl m) m' := by
  have hentry : ∀ {f : Nat → Option (Outcome width)}, Function.update f t (some (.ok 0)) t ≠ none := by simp
  have hkeep : ∀ {r : Machine width}, r.kernel.lists = m'.kernel.lists → r.kernel.op = m'.kernel.op →
      r.kernel.current = m'.kernel.current → r.blockItemValue = m'.blockItemValue → r.eventBits = m'.eventBits →
      r.entry t ≠ none → Done t waitList bitsSet cl m r := fun hl ho hc hv hb he => h.keep hl ho hc hv hb (Or.inl he)
  unfold syscallEnd
  refine wpc_bind (wpc_onKernel (Kernel.wpc_getCurrent h.current h ?_))
  refine wpc_bind (wpc_store h (hkeep rfl rfl rfl rfl rfl hentry) ?_)
  refine wpc_bind (wpc_store (hkeep rfl rfl rfl rfl rfl hentry) (hkeep rfl rfl rfl rfl rfl hentry) ?_)
  refine wpc_bind (wpc_onKernel (wpc_store (hkeep rfl rfl rfl rfl rfl hentry) (hkeep rfl rfl rfl rfl rfl hentry) ?_))
  refine wpc_bind (wpc_pure (hkeep rfl rfl rfl rfl rfl hentry) (wpc_pure ?_ ⟨?_, hentry⟩))
  · exact hkeep rfl rfl rfl rfl rfl hentry
  · exact hkeep rfl rfl rfl rfl rfl hentry

/-- The bits are set, or found to have been set. -/
theorem wpc_setEventBits {Q : Unit → Machine width → Prop} {C : Machine width → Prop}
    (hcur : m.kernel.current = some t) (hp : Pending t old new m) (hptr : m.txPtr t = 0) (hC : C m)
    (hC' : ∀ r, r.kernel = m.kernel → r.blockItemValue = m.blockItemValue → Pending t old new r → C r)
    (hQ : ∀ r, r.kernel = m.kernel → r.blockItemValue = m.blockItemValue → r.entry = m.entry →
      r.txResults t = [0] → r.eventBits = old ||| new → r.txPtr t = 1 → Q () r) :
    wpc (setEventBits cfg new) Q True C m := by
  obtain ⟨he, ⟨hr, hb⟩ | ⟨hr, hb⟩⟩ := hp
  · refine wpc_bind (wpc_run_new hcur ?_ hC (hC' _ rfl rfl ⟨he, Or.inr ?_⟩) (hC' _ rfl rfl ⟨he, Or.inr ?_⟩)
      (wpc_pure ?_ ?_))
    · rw [hr, List.getElem?_nil]
    · simp [applied, hr, hb]
    · simp [advanced, applied, hr, hb]
    · exact hC' _ rfl rfl ⟨he, Or.inr (by simp [advanced, applied, hr, hb])⟩
    · exact hQ _ rfl rfl rfl (by simp [advanced, applied, hr]) (by simp [advanced, applied, hb])
        (by simp [advanced, applied, hptr])
  · refine wpc_bind (wpc_run_cached 0 hcur ?_ hC (hC' _ rfl rfl ⟨he, Or.inr ⟨hr, hb⟩⟩) (wpc_pure ?_ ?_))
    · rw [hr, hptr]
      rfl
    · exact hC' _ rfl rfl ⟨he, Or.inr ⟨hr, hb⟩⟩
    · exact hQ _ rfl rfl rfl hr hb (by simp [advanced, hptr])

/-- Only the wait list and the block items of the state before matter. -/
theorem Done.congr (h : Done t waitList bitsSet (Covers waitList bitsSet m') m' c) (hk : m'.kernel = m.kernel)
    (hv : m'.blockItemValue = m.blockItemValue) :
    Done t waitList bitsSet (Covers waitList bitsSet m) m c := by
  cases m
  cases m'
  cases hk
  cases hv
  exact ⟨⟨h.later.listed, h.later.value, h.later.gone⟩, h.quiet, h.bits, h.finished⟩

theorem Cut.congr (h : Cut t waitList old new m' c) (hk : m'.kernel = m.kernel)
    (hv : m'.blockItemValue = m.blockItemValue) : Cut t waitList old new m c := by
  cases h with
  | pending hl hp hc =>
      cases m
      cases m'
      cases hk
      cases hv
      exact .pending ⟨hl.listed, hl.value, hl.gone⟩ hp hc
  | done hd => exact .done (hd.congr hk hv)

theorem wpc_setEventGroupBits (cfg : Config) (h : Quiet t waitList xs m.kernel) (hfit : xs.length < 2 ^ opCodeShift)
    (hp : Pending t old (eventsOf bits) m) (hptr : m.txPtr t = 0) :
    wpc (setEventGroupBits cfg waitList bits) (fun _ => Done t waitList (eventsOf (old ||| eventsOf bits))
      (Covers waitList (eventsOf (old ||| eventsOf bits)) m) m) True (Cut t waitList old (eventsOf bits) m) m := by
  have hcut : ∀ {r : Machine width}, r.kernel = m.kernel → r.blockItemValue = m.blockItemValue →
      Pending t old (eventsOf bits) r → Cut t waitList old (eventsOf bits) m r := by
    intro r hk hv hp
    exact Cut.congr (.pending .refl hp ⟨xs, hfit, Or.inl (hk ▸ h)⟩) hk hv
  have hm := hcut rfl rfl hp
  unfold setEventGroupBits
  refine wpc_bind (wpc_setEventBits h.current hp hptr hm (fun r hk hv hp => hcut hk hv hp) ?_)
  intro m₁ hk hv he hr hb hptr₁
  have hp₁ : Pending t old (eventsOf bits) m₁ := ⟨by rw [he]; exact hp.1, Or.inr ⟨hr, hb⟩⟩
  have h₁ : Quiet t waitList ([] ++ xs) m₁.kernel := hk ▸ h
  have hc₁ := hcut hk hv hp₁
  refine wpc_bind (wpc_gets hc₁ (wpc_bind (wpc_gets hc₁ (wpc_bind (wpc_gets hc₁ (wpc_bind ?_))))))
  rw [h₁.chained.linear.head, List.head?_map, getEventBits, hb]
  refine wpc_mono (wpc_unblockWaiters h₁ hfit) ?_ fun c hc => (hc.cut hp₁).congr hk hv
  rintro ⟨bitsToClear, yld⟩ m₂ ⟨hlater, hsame, hq, hvalue, hbits⟩
  simp only [List.nil_append] at hq hvalue hbits
  obtain ⟨zs, hzs⟩ : ∃ zs, zs = left (eventsOf (old ||| eventsOf bits)) m₁ xs := ⟨_, rfl⟩
  rw [← hzs] at hq
  have hfit' : zs.length < 2 ^ opCodeShift := by
    rw [hzs]
    exact List.filter_sublist.length_le.trans_lt hfit
  have hzs : ∀ u ∈ zs, ¬ unblocks (m₂.blockItemValue u) (eventsOf (old ||| eventsOf bits)) := by
    intro u hu
    rw [hzs, mem_left] at hu
    rw [hvalue u, if_neg fun hb => hu.2 hb.2]
    exact hu.2
  have hstruck : Struck t waitList (2 ^ opCodeShift) (eventsOf (old ||| eventsOf bits)) m₁ m₂ :=
    ⟨hlater, hsame, zs, hfit', Or.inl hq⟩
  have hc₂ := (hstruck.cut hp₁).congr hk hv
  have hr₂ : m₂.txResults t = [0] := by rw [hsame.txResults, hr]
  have hptr₂ : m₂.txPtr t = 1 := by rw [hsame.txPtr, hptr₁]
  have hb₂ : m₂.eventBits = old ||| eventsOf bits := by rw [hsame.eventBits, hb]
  -- the bits are cleared
  have hdone : ∀ {r : Machine width}, r.kernel = m₂.kernel → r.blockItemValue = m₂.blockItemValue →
      r.txResults t = [0, 0] → r.eventBits = (old ||| eventsOf bits) &&& ~~~bitsToClear →
      Done t waitList (eventsOf (old ||| eventsOf bits))
        (Covers waitList (eventsOf (old ||| eventsOf bits)) m) m r := by
    intro r hkr hvr hrr hbr
    refine Done.congr ?_ hk hv
    refine ⟨⟨fun u hu => hlater.listed u (hkr ▸ hu), fun u hu => ?_, fun u hu hn => hlater.gone u hu (hkr ▸ hn)⟩,
      ⟨zs, hfit', hkr ▸ hq, hvr ▸ hzs⟩, fun i => ?_, Or.inr hrr⟩
    · rw [hvr]
      exact hlater.value u (hkr ▸ hu)
    · have hcov : bitsToClear.getLsbD i = true ↔ Covers waitList (eventsOf (old ||| eventsOf bits)) m₁ i := by
        rw [hbits]
        simp only [BitVec.ofNat_eq_ofNat, BitVec.getLsbD_zero, Bool.false_eq_true, false_or, Covers]
        exact exists_congr fun u => and_congr_left fun _ => (Quiet.listed h₁).symm
      rw [getEventBits, hbr, ← hcov, eventsOf_getLsbD, eventsOf_getLsbD, BitVec.getLsbD_and, BitVec.getLsbD_not]
      have hlt : (old ||| eventsOf bits).getLsbD i = true → i < width.bits := BitVec.lt_of_getLsbD
      grind
  have hd := hdone (r := applied (fun b => (0, b &&& ~~~bitsToClear)) t m₂) rfl rfl (by simp [applied, hr₂])
    (by simp [applied, hb₂])
  have hd' := hdone (r := advanced t (applied (fun b => (0, b &&& ~~~bitsToClear)) t m₂)) rfl rfl
    (by simp [advanced, applied, hr₂]) (by simp [advanced, applied, hb₂])
  refine wpc_bind (wpc_bind (wpc_run_new hq.current ?_ hc₂ (.done hd) (.done hd') (wpc_pure (.done hd') ?_)))
  · rw [hr₂, hptr₂]
    rfl
  · exact wpc_pure (.done hd') hd'

/-- An attempt before which the bits have not been cleared. -/
theorem wpc_set_pending (cfg : Config) (port : Port) (h : Quiet t waitList xs m.kernel)
    (hfit : xs.length < 2 ^ opCodeShift)
    (hp : Pending t old (eventsOf bits) m) :
    wpc (sysEventGroupSet cfg port waitList bits) (fun _ r => Done t waitList (eventsOf (old ||| eventsOf bits))
      (Covers waitList (eventsOf (old ||| eventsOf bits)) m) m r ∧ r.entry t ≠ none) True
      (Cut t waitList old (eventsOf bits) m) m := by
  have hm : Cut t waitList old (eventsOf bits) m m := .pending .refl hp ⟨xs, hfit, Or.inl h⟩
  have hm' : Cut t waitList old (eventsOf bits) m { m with txPtr := Function.update m.txPtr t 0 } :=
    .pending ⟨fun _ => id, fun _ _ => Or.inl rfl, fun _ hu hn => absurd hu hn⟩ hp ⟨xs, hfit, Or.inl h⟩
  have hset := wpc_setEventGroupBits cfg (m := { m with txPtr := Function.update m.txPtr t 0 }) h hfit hp
    (Function.update_self _ _ _)
  unfold sysEventGroupSet attempt
  refine wpc_bind (wpc_bind (wpc_onKernel (Kernel.wpc_getCurrent h.current hm (wpc_bind (wpc_gets hm ?_)))))
  dsimp only
  rw [hp.1]
  refine wpc_bind (wpc_store hm hm' (wpc_bind (wpc_mono hset ?_ fun c hc => hc.congr rfl rfl)))
  intro _ r hr
  have hd := Done.congr (m := m) hr rfl rfl
  refine wpc_pure (.done hd) (wpc_bind (wpc_mono (wpc_syscallEnd hd) ?_ fun c hc => .done hc))
  exact fun _ r hr => wpc_pure (.done hr.1) hr

/-- An attempt before which the bits have been cleared, or which is over. -/
theorem wpc_set_done (cfg : Config) (port : Port) (bits : EventBits width) (h : Done t waitList bitsSet cl m₀ m) :
    wpc (sysEventGroupSet cfg port waitList bits) (fun _ r => Done t waitList bitsSet cl m₀ r ∧ r.entry t ≠ none) True
      (Done t waitList bitsSet cl m₀) m := by
  obtain ⟨xs, _, hq, hxs⟩ := h.quiet
  have hstay : ∀ {r : Machine width}, r.kernel = m.kernel → r.blockItemValue = m.blockItemValue →
      r.eventBits = m.eventBits → r.entry = m.entry → r.txResults = m.txResults → Done t waitList bitsSet cl m₀ r :=
    fun hk hv hb he hr => h.keep (congrArg _ hk) (congrArg _ hk) (congrArg _ hk) hv hb
      (by rw [he, hr]; exact h.finished)
  unfold sysEventGroupSet attempt
  refine wpc_bind (wpc_bind (wpc_onKernel (Kernel.wpc_getCurrent h.current h (wpc_bind (wpc_gets h ?_)))))
  cases he : m.entry t with
  | some r =>
      refine wpc_bind (wpc_gets h (wpc_bind (wpc_check h (fun _ => trivial) fun _ => ?_)))
      refine wpc_bind (wpc_pure h (wpc_pure h (wpc_bind (wpc_pure h (wpc_pure h ⟨h, ?_⟩)))))
      rw [he]
      nofun
  | none =>
      have hr : m.txResults t = [0, 0] := h.finished.resolve_left fun hne => hne he
      refine wpc_bind (wpc_store h (hstay rfl rfl rfl rfl rfl) (wpc_bind ?_))
      unfold setEventGroupBits setEventBits clearEventBits
      refine wpc_bind (wpc_bind (wpc_run_cached (t := t) 0 hq.current ?_ ?_ ?_ (wpc_pure ?_ ?_)))
      · simp [hr]
      · exact hstay rfl rfl rfl rfl rfl
      · exact hstay rfl rfl rfl rfl rfl
      · exact hstay rfl rfl rfl rfl rfl
      have hm := hstay (r := advanced t { m with txPtr := Function.update m.txPtr t 0 }) rfl rfl rfl rfl rfl
      refine wpc_bind (wpc_gets hm (wpc_bind (wpc_gets hm (wpc_bind (wpc_gets hm (wpc_bind ?_))))))
      -- the bits that are set now are some of those that no waiter is to be unblocked by
      have hq' : Quiet t waitList ([] ++ xs) (advanced t { m with txPtr := Function.update m.txPtr t 0 }).kernel := hq
      rw [hq'.chained.linear.head, List.nil_append, List.head?_map]
      refine wpc_mono (wpc_unblockNobody hq' fun u hu hb => hxs u hu (unblocks_mono (fun i hi => ?_) hb)) ?_ ?_
      · exact ((h.bits i).mp hi).1
      · rintro ⟨bitsToClear, yld⟩ r ⟨rfl, _⟩
        refine wpc_bind (wpc_bind (wpc_run_cached (t := t) 0 hq.current ?_ hm ?_ (wpc_pure ?_ (wpc_pure ?_ ?_))))
        · simp [advanced, hr]
        · exact hstay rfl rfl rfl rfl rfl
        · exact hstay rfl rfl rfl rfl rfl
        · exact hstay rfl rfl rfl rfl rfl
        refine wpc_pure (hstay rfl rfl rfl rfl rfl) (wpc_bind ?_)
        refine wpc_mono (wpc_syscallEnd (hstay rfl rfl rfl rfl rfl)) ?_ fun _ hc => hc
        exact fun _ r hr => wpc_pure hr.1 hr
      · rintro c rfl
        exact hm

/-! ## Recovery -/

theorem Done.reboot (h : Done t waitList bitsSet cl m c) :
    After (reboot cfg) (fun _ => Done t waitList bitsSet cl m) c := by
  obtain ⟨xs, _, hq, _⟩ := h.quiet
  unfold EventGroup.reboot onKernel
  rw [after_bind, after_zoom]
  simp only [after_store]
  refine ((Kernel.ends_recover_idle hq.op hq.microOp).mpr ?_).after
  refine h.keep rfl rfl rfl rfl rfl ?_
  rcases h.finished with he | hr
  · exact Or.inl he
  · cases he : c.entry t with
    | none => exact Or.inr (by simpa [he] using hr)
    | some r => exact Or.inl (by simp)

/-- What an attempt starts from: recovery takes the waiter that was leaving out of the wait list, or it was not
leaving yet. -/
theorem Cut.reboot (h : Cut t waitList old new m c) :
    After (reboot cfg) (fun _ r => (Later waitList (eventsOf (old ||| new)) m r ∧ Pending t old new r ∧
        (∃ xs, xs.length < 2 ^ opCodeShift ∧ Quiet t waitList xs r.kernel) ∧
        Later waitList (eventsOf (old ||| new)) m c ∧ Pending t old new c ∧
        ∀ i, Covers waitList (eventsOf (old ||| new)) r i ↔ Covers waitList (eventsOf (old ||| new)) c i) ∨
      Done t waitList (eventsOf (old ||| new)) (Covers waitList (eventsOf (old ||| new)) m) m r ∧
        (c.entry t ≠ none ∨ c.txResults t = [0, 0])) c := by
  cases h with
  | done hd => exact hd.reboot.mono fun _ r hr => Or.inr ⟨hr, hd.finished⟩
  | pending hl hp hk =>
      obtain ⟨xs, hfit, hk⟩ := hk
      have hpend : ∀ k : Kernel, Pending t old new ({ c with
          kernel := { k with
            recoveryMode := fun _ => true
            listTxDone := fun t => k.listTxDone t && (c.entry t).isNone }
          txResults := fun t => if (c.entry t).isNone then c.txResults t else [] } : Machine width) := fun k => by
        simpa [Pending, hp.1] using hp
      unfold EventGroup.reboot onKernel
      rw [after_bind, after_zoom]
      simp only [after_store]
      rcases hk with hq | ⟨u, hu, hv, hun, hlisted, hb⟩
      · refine ((Kernel.ends_recover_idle hq.op hq.microOp).mpr ?_).after
        refine Or.inl ⟨⟨hl.listed, hl.value, hl.gone⟩, hpend _, ⟨xs, hfit, ?_⟩, hl, hp, fun _ => Iff.rfl⟩
        exact ⟨hq.chained, hq.op, hq.microOp, hq.current⟩
      · refine (hun.recovered hu hfit).mono fun _ k hk => ?_
        obtain ⟨zs, hz, hq, hsub, hothers⟩ := hk
        refine Or.inl ⟨⟨fun v hv => hl.listed v (hsub v hv), fun v hv => hl.value v (hsub v hv), fun v hv hn => ?_⟩,
          hpend _, ⟨zs, hz, hq.chained, hq.op, hq.microOp, hq.current⟩, hl, hp, fun i => ⟨?_, ?_⟩⟩
        · by_cases hvu : v = u
          · exact hvu ▸ hb
          · exact hl.gone v hv fun h => hn (hothers v hvu h)
        · rintro ⟨v, hv, hcov⟩
          exact ⟨v, hsub v hv, hcov⟩
        · rintro ⟨v, hlv, hcov⟩
          refine ⟨v, hothers v ?_ hlv, hcov⟩
          rintro rfl
          have hbit := hcov.2
          rw [hv, clears_unblocked] at hbit
          simp at hbit

theorem Done.after {m₁ : Machine width} (h : Done t waitList bitsSet cl m c) (hl : Later waitList bitsSet m₁ m) :
    Done t waitList bitsSet cl m₁ c := ⟨hl.trans h.later, h.quiet, h.bits, h.finished⟩

/-- Between attempts: the bits to clear that the failures have not lost are those of the waiters that are left, or
those that have been cleared. -/
inductive Stage (t waitList : Nat) (old new : EventBits width) (m₀ : Machine width) (kept : Prop)
    (m : Machine width) : Prop
  | pending : Later waitList (eventsOf (old ||| new)) m₀ m → Pending t old new m →
      (∃ xs, xs.length < 2 ^ opCodeShift ∧ Quiet t waitList xs m.kernel) →
      (kept ↔ ∀ i, (eventsOf (old ||| new)).getLsbD i → Covers waitList (eventsOf (old ||| new)) m₀ i →
        Covers waitList (eventsOf (old ||| new)) m i) →
      Stage t waitList old new m₀ kept m
  | done {cl : Nat → Prop} : Done t waitList (eventsOf (old ||| new)) cl m₀ m →
      (∀ i, cl i → Covers waitList (eventsOf (old ||| new)) m₀ i) →
      (kept ↔ ∀ i, (eventsOf (old ||| new)).getLsbD i → Covers waitList (eventsOf (old ||| new)) m₀ i → cl i) →
      Stage t waitList old new m₀ kept m

theorem eventsOf_before (m₀ : Machine width) (bits : EventBits width) :
    eventsOf (m₀.eventBits ||| eventsOf bits) = getEventBits m₀ ||| eventsOf bits := by
  rw [eventsOf_or, eventsOf_eventsOf, getEventBits]

theorem forgets_iff : Forgets waitList t bits m₀ c ↔ c.entry t = none ∧ (c.txResults t).length < 2 ∧
    ¬ ∀ i, (eventsOf (m₀.eventBits ||| eventsOf bits)).getLsbD i →
      Covers waitList (eventsOf (m₀.eventBits ||| eventsOf bits)) m₀ i →
      Covers waitList (eventsOf (m₀.eventBits ||| eventsOf bits)) c i := by
  rw [eventsOf_before, Forgets]
  simp only [not_forall, exists_prop]

theorem not_forgets_done (h : c.entry t ≠ none ∨ c.txResults t = [0, 0]) : ¬ Forgets waitList t bits m₀ c := by
  rintro ⟨he, hlen, _⟩
  rw [h.resolve_left fun hne => hne he] at hlen
  simp at hlen

/-- A failure and the recovery after it. -/
theorem Stage.again {kept : Prop} (h : Stage t waitList m₀.eventBits (eventsOf bits) m₀ kept m)
    (hc : c ∈ crashes (sysEventGroupSet cfg port waitList bits) m) (hr : (reboot cfg c).out = some ((), m')) :
    Stage t waitList m₀.eventBits (eventsOf bits) m₀ (¬ Forgets waitList t bits m₀ c ∧ kept) m' := by
  cases h with
  | done hd hcl hkept =>
      have hc' := (wpc_set_done cfg port bits hd).crash hc
      refine .done (hc'.reboot.post hr) hcl ?_
      rw [and_iff_right (not_forgets_done hc'.finished)]
      exact hkept
  | pending hl hp hq hkept =>
      obtain ⟨xs, hfit, hq⟩ := hq
      have hcut := (wpc_set_pending cfg port hq hfit hp).crash hc
      rcases hcut.reboot.post hr with ⟨hlr, hpr, hqr, hlc, hpc, hcov⟩ | ⟨hd, hf⟩
      · refine .pending (hl.trans hlr) hpr hqr ?_
        have hlost : ¬ Forgets waitList t bits m₀ c ↔ ∀ i, (eventsOf (m₀.eventBits ||| eventsOf bits)).getLsbD i →
            Covers waitList (eventsOf (m₀.eventBits ||| eventsOf bits)) m₀ i →
            Covers waitList (eventsOf (m₀.eventBits ||| eventsOf bits)) c i := by
          have hshort : (c.txResults t).length < 2 := by
            rcases hpc.2 with ⟨hres, _⟩ | ⟨hres, _⟩
            · simp [hres]
            · simp [hres]
          rw [forgets_iff, and_iff_right hpc.1, and_iff_right hshort, not_not]
        rw [hlost, hkept]
        constructor
        · exact fun h i hi hi' => (hcov i).mpr (h.1 i hi hi')
        · exact fun h => ⟨fun i hi hi' => (hcov i).mp (h i hi hi'), fun i hi hi' => hlr.covers (h i hi hi')⟩
      · refine .done (hd.after hl) (fun i hi => hl.covers hi) ?_
        rw [and_iff_right (not_forgets_done hf)]
        exact hkept

theorem Attempts.stage (h : Attempts cfg port waitList bits m₀ cs m)
    (hm₀ : Stage t waitList m₀.eventBits (eventsOf bits) m₀ True m₀) :
    Stage t waitList m₀.eventBits (eventsOf bits) m₀ (∀ c ∈ cs, ¬ Forgets waitList t bits m₀ c) m := by
  induction h with
  | first => simpa using hm₀
  | again _ hc hr ih =>
      simp only [List.forall_mem_cons]
      exact ih.again hc hr

/-- Which bits are left when the call is over. -/
theorem setRight_iff (h : Done t waitList (eventsOf (m₀.eventBits ||| eventsOf bits)) cl m₀ m')
    (hcl : ∀ i, cl i → Covers waitList (eventsOf (m₀.eventBits ||| eventsOf bits)) m₀ i) :
    SetRight waitList bits m₀ m' ↔ ∀ i, (eventsOf (m₀.eventBits ||| eventsOf bits)).getLsbD i →
      Covers waitList (eventsOf (m₀.eventBits ||| eventsOf bits)) m₀ i → cl i := by
  obtain ⟨xs, _, hq, hxs⟩ := h.quiet
  have hcov : ∀ i, (∃ u, Listed waitList m₀.kernel u ∧ ¬ Listed waitList m'.kernel u ∧
      (clears (m₀.blockItemValue u)).getLsbD i) ↔ Covers waitList (eventsOf (m₀.eventBits ||| eventsOf bits)) m₀ i := by
    intro i
    refine exists_congr fun u => and_congr_right fun hu => and_congr_left fun hi => ?_
    constructor
    · exact h.later.gone u hu
    · intro hb hn
      refine hxs u ((Quiet.listed hq).mp hn) ?_
      rcases h.later.value u hn with hv | ⟨hv, _⟩
      · rwa [hv]
      · rw [hv]
        exact unblocks_unblocked hb hi
  unfold SetRight
  rw [← eventsOf_before]
  refine forall_congr' fun i => ?_
  rw [h.bits, hcov]
  have := hcl i
  tauto

/-- The event bits are right exactly when no failure comes after the last of the waiters that clear some bit has been
told and before the bits are cleared. -/
theorem setRight_iff_not_forgets {cfg : Target} (h : Kernel.Reachable cfg.toConfig m₀.kernel) (hm₀ : Begins t m₀)
    (ha : Attempts cfg.toConfig port waitList bits m₀ cs m)
    (hout : (sysEventGroupSet cfg.toConfig port waitList bits m).out = some ((), m')) :
    SetRight waitList bits m₀ m' ↔ ∀ c ∈ cs, ¬ Forgets waitList t bits m₀ c := by
  obtain ⟨xs, hchain⟩ := h.inv.chained h.typed waitList
  have hfit : xs.length < 2 ^ opCodeShift := by
    have hlen := Kernel.len_lt (l := .waiting waitList) h.inv.linked h.inv.free h.limit
    rwa [hchain.linear.len, List.length_map] at hlen
  have hstart : Stage t waitList m₀.eventBits (eventsOf bits) m₀ True m₀ :=
    .pending .refl ⟨hm₀.entry, Or.inl ⟨hm₀.txResults, rfl⟩⟩
      ⟨xs, hfit, hchain, h.inv.op, h.inv.microOp, hm₀.current⟩ (by simp)
  cases ha.stage hstart with
  | pending hl hp hq hkept =>
      obtain ⟨ys, hfit, hq⟩ := hq
      have hdone := ((wpc_set_pending cfg.toConfig port hq hfit hp).post hout).1
      rw [hkept]
      exact setRight_iff (hdone.after hl) fun i hi => hl.covers hi
  | done hd hcl hkept =>
      rw [hkept]
      exact setRight_iff ((wpc_set_done cfg.toConfig port bits hd).post hout).1 hcl

/-! ## A run -/

/-- The first task waits for the bit 0 and clears it. -/
def clearingWaiter : Machine .w32 where
  kernel := Kernel.waiterAndSleeper
  eventBits := 0
  blockItemValue := fun _ => 1 ||| clearEventsOnExitBit .w32
  txResults := fun _ => []
  txPtr := fun _ => 0
  entry := fun _ => none

theorem begins_clearingWaiter : Begins 2 clearingWaiter := ⟨rfl, rfl, rfl⟩

/-- The event bits and the list of the waiter after a failure at store `i` and a second attempt. -/
def setAfterFailure (i : Nat) : Option (EventBits .w32 × Option ListRef) := do
  let c ← (sysEventGroupSet Kernel.qemuTarget.toConfig .cortexM 0 1 clearingWaiter).trace[i]?
  let (_, m) ← (reboot Kernel.qemuTarget.toConfig c).out
  let (_, m') ← (sysEventGroupSet Kernel.qemuTarget.toConfig .cortexM 0 1 m).out
  pure (m'.eventBits, m'.kernel.lists.list (.event 0))

/-- Power fails after the waiter has been told and before it leaves the wait list. -/
theorem attempts_clearingWaiter : ∃ c m m', Attempts Kernel.qemuTarget.toConfig .cortexM 0 1 clearingWaiter [c] m ∧
    (sysEventGroupSet Kernel.qemuTarget.toConfig .cortexM 0 1 m).out = some ((), m') ∧ m'.eventBits = 1 ∧
    m'.kernel.lists.list (.event 0) = none := by
  have hrun : setAfterFailure 3 = some (1, none) := by decide +kernel
  unfold setAfterFailure at hrun
  obtain ⟨c, hc, hrun⟩ := Option.bind_eq_some_iff.mp hrun
  obtain ⟨⟨_, m⟩, hm, hrun⟩ := Option.bind_eq_some_iff.mp hrun
  obtain ⟨⟨_, m'⟩, hm', hrun⟩ := Option.bind_eq_some_iff.mp hrun
  obtain ⟨hbits, hlist⟩ := Prod.mk.inj (Option.some.inj hrun)
  exact ⟨c, m, m', .again .first (List.mem_cons_of_mem _ (List.mem_of_getElem? hc)) hm, hm', hbits, hlist⟩

theorem setRight_iff_not_forgets_clearingWaiter : ∃ c m m',
    Attempts Kernel.qemuTarget.toConfig .cortexM 0 1 clearingWaiter [c] m ∧
    (SetRight 0 1 clearingWaiter m' ↔ ∀ c' ∈ [c], ¬ Forgets 0 2 1 clearingWaiter c') := by
  obtain ⟨c, m, m', ha, hout, _⟩ := attempts_clearingWaiter
  exact ⟨c, m, m', ha, setRight_iff_not_forgets Kernel.reachable_waiterAndSleeper begins_clearingWaiter ha hout⟩

/-- The bit stays set although the waiter that was to clear it has been unblocked. -/
theorem set_forgets_bits_to_clear : ¬ ∀ (m₀ m m' : Machine .w32) (cs : List (Machine .w32)) (t : Nat)
    (bits : EventBits .w32), Kernel.Reachable Kernel.qemuTarget.toConfig m₀.kernel → Begins t m₀ →
    Attempts Kernel.qemuTarget.toConfig .cortexM 0 bits m₀ cs m →
    (sysEventGroupSet Kernel.qemuTarget.toConfig .cortexM 0 bits m).out = some ((), m') →
    SetRight 0 bits m₀ m' := by
  intro h
  obtain ⟨c, m, m', ha, hout, hbits, hgone⟩ := attempts_clearingWaiter
  have hright := h clearingWaiter _ _ _ _ _ Kernel.reachable_waiterAndSleeper begins_clearingWaiter ha hout 0
  rw [getEventBits, hbits] at hright
  refine (hright.mp (by decide)).2 ⟨0, rfl, ?_, by decide⟩
  rw [Listed, hgone]
  exact nofun

end EventGroup

end IntOS
