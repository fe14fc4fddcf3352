import IntOS.User.Script
import IntOS.User.Lemmas.Ordered

/-!
# Which failures leave a loop to be ended

`jit_recovery` takes a `ptr` past `tail` as a sign that the end of a turn of `nv_for_loop!` has been interrupted, and
sets its counter. The end of a turn of `nv_loop!` passes through such positions as well, and that of a turn that has
cached no result does not.
-/

namespace IntOS

open Persist Persist.Prog UserTxInfo

namespace Script

/-- Where power fails. -/
inductive Place
  | elsewhere
  | inTx
  /-- In `exit_infinite_idempotent_loop`, after `set_tail` and before `set_ptr`. -/
  | endingInfinite
  /-- In `exit_idempotent_loop` of a loop over the counter `i`, after `set_tail` and before `set_ptr`. -/
  | endingCounted (i : Nat)
deriving DecidableEq, Repr

variable {b : Board} {u u' v s s' : UserTxInfo} {c c' : Config b} {e : Event} {fs : List (Frame b)} {f : Frame b}
  {t : Script b} {p : Place} {i cnt step : Nat} {old : UInt16}

/-- The ends of an iteration until `set_tail`. -/
def exitHead : Prog UserTxInfo UInt16 := do
  let top ← gets (·.stackTop)
  check (1 ≤ top ∧ top - 1 < defaultStackDepth)
  let oldTxTail ← gets fun s => s.tailStack (top - 1)
  onCache (TxCache.setTail oldTxTail.toNat)
  pure oldTxTail

/-- The ends of an iteration from `set_ptr` on. -/
def exitRest (oldTxTail : UInt16) : Prog UserTxInfo Unit := do
  onCache (TxCache.setPtr oldTxTail.toNat)
  store fun s => { s with stackTop := s.stackTop - 1 }

theorem exitIdempotentLoop_eq (b : Board) : exitIdempotentLoop b = (do
    let oldTxTail ← exitHead
    setLoopCnt b
    exitRest oldTxTail) := by
  unfold exitIdempotentLoop exitHead exitRest
  simp only [assoc]
  rfl

theorem exitInfiniteIdempotentLoop_eq : exitInfiniteIdempotentLoop = (do
    let oldTxTail ← exitHead
    exitRest oldTxTail) := by
  unfold exitInfiniteIdempotentLoop exitHead exitRest
  simp only [assoc]
  rfl

/-- Power fails before a step, or between two of its stores. -/
inductive Failure (b : Board) : Config b → Place → UserTxInfo → Prop
  | before {c : Config b} : Failure b c .elsewhere c.info
  | run {u s : UserTxInfo} {f : UserTx b} {k : List UInt8 → Script b} {fs : List (Frame b)} :
      s ∈ (UserTxInfo.run b f u).trace → Failure b ⟨u, .code (.run f k), fs⟩ .inTx s
  | set {u s : UserTxInfo} {i begin endv step : Nat} {body : Nat → Script b} {k : Script b} {fs : List (Frame b)} :
      s ∈ (fastRunSet b i begin u).trace → Failure b ⟨u, .code (.nvForLoop i begin endv step body k), fs⟩ .inTx s
  | enter {u s : UserTxInfo} {fs : List (Frame b)} : s ∈ (enterIdempotentLoop b u).trace →
      Failure b ⟨u, .head, fs⟩ .elsewhere s
  | log {u s : UserTxInfo} {i cnt step : Nat} {f : Frame b} {fs : List (Frame b)} : f.loop.leave = .counted i cnt step →
      s ∈ (logLoopCnt i cnt step u).trace → Failure b ⟨u, .code .done, f :: fs⟩ .elsewhere s
  | endingCounted {u v s : UserTxInfo} {i cnt step : Nat} {old : UInt16} {f : Frame b} {fs : List (Frame b)} :
      f.loop.leave = .counted i cnt step →
      ((do logLoopCnt i cnt step; exitHead : Prog UserTxInfo UInt16) u).out = some (old, v) →
      s ∈ crashes (setLoopCnt b) v → Failure b ⟨u, .code .done, f :: fs⟩ (.endingCounted i) s
  | endedCounted {u v s : UserTxInfo} {i cnt step : Nat} {old : UInt16} {f : Frame b} {fs : List (Frame b)} :
      f.loop.leave = .counted i cnt step →
      ((do logLoopCnt i cnt step; let old ← exitHead; setLoopCnt b; pure old : Prog UserTxInfo UInt16) u).out =
        some (old, v) →
      s ∈ (exitRest old v).trace → Failure b ⟨u, .code .done, f :: fs⟩ .elsewhere s
  | endingInfinite {u v : UserTxInfo} {old : UInt16} {f : Frame b} {fs : List (Frame b)} :
      f.loop.leave = .infinite → (exitHead u).out = some (old, v) →
      Failure b ⟨u, .code .done, f :: fs⟩ .endingInfinite v
  | endedInfinite {u v s : UserTxInfo} {old : UInt16} {f : Frame b} {fs : List (Frame b)} :
      f.loop.leave = .infinite → (exitHead u).out = some (old, v) → s ∈ (exitRest old v).trace →
      Failure b ⟨u, .code .done, f :: fs⟩ .elsewhere s

/-! ## The end of an iteration -/

/-- The position that the end of an iteration goes back to. -/
def slot (u : UserTxInfo) : UInt16 := u.tailStack (u.stackTop - 1)

def tailSet (u : UserTxInfo) : UserTxInfo :=
  { u with userTx := { u.userTx with cache := { u.userTx.cache with tail := (slot u).toNat } } }

def logged (i cnt step : Nat) (u : UserTxInfo) : UserTxInfo :=
  { u with loopCntPtr := some i, loopCntLog := cnt, step := step }

theorem logLoopCnt_out (i cnt step : Nat) (u : UserTxInfo) :
    (logLoopCnt i cnt step u).out = some ((), logged i cnt step u) := rfl

theorem exitHead_of_top (h : 1 ≤ u.stackTop ∧ u.stackTop - 1 < defaultStackDepth) :
    exitHead u = ⟨[tailSet u], some (slot u, tailSet u)⟩ := by
  unfold exitHead
  rw [gets_bind_apply, check_bind_apply, if_pos h]
  rfl

theorem exitHead_of_not (h : ¬ (1 ≤ u.stackTop ∧ u.stackTop - 1 < defaultStackDepth)) :
    exitHead u = ⟨[], none⟩ := by
  unfold exitHead
  rw [gets_bind_apply, check_bind_apply, if_neg h]

theorem exitHead_out (h : (exitHead u).out = some (old, v)) : old = slot u ∧ v = tailSet u := by
  by_cases htop : 1 ≤ u.stackTop ∧ u.stackTop - 1 < defaultStackDepth
  · rw [exitHead_of_top htop] at h
    cases h
    exact ⟨rfl, rfl⟩
  · rw [exitHead_of_not htop] at h
    cases h

theorem exitHead_trace (h : s ∈ (exitHead u).trace) : (exitHead u).out = some (slot u, s) := by
  by_cases htop : 1 ≤ u.stackTop ∧ u.stackTop - 1 < defaultStackDepth
  · rw [exitHead_of_top htop] at h ⊢
    rw [List.mem_singleton.mp h]
  · rw [exitHead_of_not htop] at h
    cases h

/-- No store of the end of an iteration is left out. -/
theorem failure_of_exit (h : s ∈ (f.loop.leave.run b u).trace) : ∃ p, Failure b ⟨u, .code .done, f :: fs⟩ p s := by
  cases hleave : f.loop.leave with
  | infinite =>
      rw [hleave, Leave.run, exitInfiniteIdempotentLoop_eq] at h
      rcases mem_trace_bind h with hs | ⟨old, v, hout, hs⟩
      · exact ⟨_, .endingInfinite hleave (exitHead_trace hs)⟩
      · exact ⟨_, .endedInfinite hleave hout hs⟩
  | counted i cnt step =>
      rw [hleave, Leave.run, exitIdempotentLoop_eq] at h
      rcases mem_trace_bind h with hs | ⟨_, u', hlog, hs⟩
      · exact ⟨_, .log hleave hs⟩
      · have hending : ∀ v, (exitHead u').out = some (slot u', v) →
            ((do logLoopCnt i cnt step; exitHead : Prog UserTxInfo UInt16) u).out = some (slot u', v) := by
          intro v hv
          rw [bind_of_out hlog, hv]
        rcases mem_trace_bind hs with hs | ⟨old, v, hout, hs⟩
        · exact ⟨_, .endingCounted hleave (hending s (exitHead_trace hs)) (List.mem_cons_self ..)⟩
        · obtain ⟨rfl, -⟩ := exitHead_out hout
          rcases mem_trace_bind hs with hs | ⟨_, v', hset, hs⟩
          · exact ⟨_, .endingCounted hleave (hending v hout) (List.mem_cons_of_mem _ hs)⟩
          · refine ⟨_, .endedCounted hleave ?_ hs⟩
            rw [bind_of_out hlog, bind_of_out hout, bind_of_out hset]
            rfl

/-! ## What recovery takes for the end of a turn -/

/-- The test of `jit_recovery`, after which it calls `set_loop_cnt`. -/
def CallsSetLoopCnt (b : Board) (s : UserTxInfo) : Prop :=
  s.userTx.cache.getTxIdOfTail b.width < s.userTx.cache.getTxIdOfPtr b.width

/-- Recovery from `s` finishes the turn that the failure has interrupted, and no other. -/
structure Exact (b : Board) (p : Place) (s : UserTxInfo) : Prop where
  calls : CallsSetLoopCnt b s ↔ ∃ i, p = .endingCounted i
  logged : CallsSetLoopCnt b s → s.loopCntPtr ≠ none
  counters : ∀ c ∈ crashes (jitRecovery b) s, ∀ i, c.counters i ≠ s.counters i → p = .endingCounted i

theorem keeps_setLoopCnt : Keeps (fun u : UserTxInfo => (u.userTx, u.loopCntPtr)) (setLoopCnt b) := by
  unfold setLoopCnt addUsize
  refine (keeps_gets _).bind fun r => ?_
  cases r with
  | none => exact keeps_fail
  | some i =>
      refine (keeps_gets _).bind fun _ => (keeps_gets _).bind fun _ => Keeps.bind ?_ fun _ => ?_
      · exact (keeps_check _).bind fun _ => keeps_pure _
      · exact keeps_store fun _ => rfl

/-- What an interrupted recovery leaves of a failure. -/
structure Recovering (b : Board) (s c : UserTxInfo) : Prop where
  tail : c.userTx.cache.tail = s.userTx.cache.tail
  ptr : c.userTx.cache.ptr = s.userTx.cache.ptr ∨ c.userTx.cache.ptr = 0
  loopCntPtr : c.loopCntPtr = s.loopCntPtr
  counters : ∀ i, c.counters i ≠ s.counters i → CallsSetLoopCnt b s ∧ s.loopCntPtr = some i

theorem wpc_setLoopCnt (h : CallsSetLoopCnt b s) {c : UserTxInfo} (htx : c.userTx = s.userTx)
    (hptr : c.loopCntPtr = s.loopCntPtr) (hcnt : c.counters = s.counters) :
    wpc (setLoopCnt b) (fun _ => Recovering b s) True (Recovering b s) c := by
  have hstart : Recovering b s c :=
    ⟨by rw [htx], Or.inl (by rw [htx]), hptr, fun i hi => absurd (congrFun hcnt i) hi⟩
  unfold setLoopCnt addUsize
  refine wpc_bind (wpc_gets hstart ?_)
  cases hi : c.loopCntPtr with
  | none => exact wpc_fail hstart trivial
  | some i =>
      refine wpc_bind (wpc_gets hstart (wpc_bind (wpc_gets hstart (wpc_bind (wpc_bind ?_)))))
      refine wpc_check hstart (fun _ => trivial) fun _ => wpc_pure hstart ?_
      have hset : ∀ x, Recovering b s { c with counters := Function.update c.counters i x } := by
        refine fun x => ⟨hstart.tail, hstart.ptr, hstart.loopCntPtr, fun j hj => ?_⟩
        by_cases hji : j = i
        · rw [hji, ← hptr]
          exact ⟨h, hi⟩
        · have hold : Function.update c.counters i x j = s.counters j := by rw [Function.update_of_ne hji, hcnt]
          exact absurd hold hj
      exact wpc_store hstart (hset _) (hset _)

/-- The user transaction is finished or rolled back, and the positions are those of the failure until `ptr` is
reset. -/
theorem wpc_userRecovery {c : UserTxInfo} (h : Recovering b s c) :
    wpc (userRecovery b) (fun _ c' => c'.userTx.cache.ptr = 0) True (Recovering b s) c := by
  have hC : ∀ t : Transaction, t.cache = c.userTx.cache → Recovering b s { c with userTx := t } := by
    refine fun t ht => ⟨?_, ?_, h.loopCntPtr, h.counters⟩
    · exact (congrArg TxCache.tail ht).trans h.tail
    · exact h.ptr.imp (congrArg TxCache.ptr ht).trans (congrArg TxCache.ptr ht).trans
  have hrestart : ∀ t : Transaction, t.cache = c.userTx.cache →
      wpc restart (fun _ c' => c'.userTx.cache.ptr = 0) True (Recovering b s) { c with userTx := t } := by
    intro t ht
    have hreset : ∀ n, Recovering b s
        { c with userTx := { t with cache := { t.cache with ptr := 0 } }, stackTop := n } := fun _ =>
      ⟨(congrArg TxCache.tail ht).trans h.tail, Or.inr rfl, h.loopCntPtr, h.counters⟩
    refine wpc_bind (wpc_zoom rfl (wpc_zoom rfl (wpc_store (hC t ht) (hreset c.stackTop) ?_)))
    exact wpc_store (hreset c.stackTop) (hreset 0) rfl
  have hkeeps : ∀ {α : Type} {m : Prog Pmem α} {t : Transaction}, t.cache = c.userTx.cache →
      wpc (Transaction.onPm m) (fun _ t' => t'.cache = c.userTx.cache) True (fun t' => t'.cache = c.userTx.cache)
        t := by
    intro α m t ht
    have hk : Keeps Transaction.cache (Transaction.onPm m) := keeps_zoom fun _ _ => rfl
    exact wpc_mono (hk t) (fun _ _ h => h.trans ht) fun _ h => h.trans ht
  have hcheck : wpc (Transaction.checkCommitted b) (fun _ t => t.cache = c.userTx.cache) True
      (fun t => t.cache = c.userTx.cache) c.userTx := by
    refine wpc_bind (wpc_gets rfl ?_)
    split
    · exact wpc_bind (wpc_mono (hkeeps rfl) (fun _ _ h => wpc_pure h h) fun _ h => h)
    · exact wpc_pure rfl rfl
  have hlevel : ∀ t : Transaction, t.cache = c.userTx.cache →
      wpc (onTx (store fun t => { t with nestingLevel := 0 }))
        (fun _ c' => ∃ t : Transaction, t.cache = c.userTx.cache ∧ c' = { c with userTx := t }) True (Recovering b s)
        { c with userTx := t } := fun t ht =>
    wpc_zoom rfl (wpc_store (hC t ht) (hC { t with nestingLevel := 0 } ht) ⟨{ t with nestingLevel := 0 }, ht, rfl⟩)
  unfold userRecovery
  refine wpc_bind (wpc_zoom rfl (wpc_mono hcheck (fun committed t ht => ?_) fun t ht => hC t ht))
  split
  · refine wpc_bind (wpc_mono (hlevel t ht) ?_ fun _ h => h)
    rintro _ _ ⟨t', ht', rfl⟩
    exact hrestart t' ht'
  · refine wpc_bind (wpc_zoom rfl (wpc_mono (hkeeps ht) (fun _ t₁ ht₁ => ?_) fun t ht => hC t ht))
    refine wpc_bind (wpc_mono (hlevel t₁ ht₁) ?_ fun _ h => h)
    rintro _ _ ⟨t', ht', rfl⟩
    exact hrestart t' ht'

theorem wpc_jitRecovery (s : UserTxInfo) :
    wpc (jitRecovery b) (fun _ c => c.userTx.cache.ptr = 0) True (Recovering b s) s := by
  have hstart : Recovering b s s := ⟨rfl, Or.inl rfl, rfl, fun _ h => absurd rfl h⟩
  have hmode : Recovering b s { s with recoveryMode := true } := ⟨rfl, Or.inl rfl, rfl, fun _ h => absurd rfl h⟩
  unfold jitRecovery
  refine wpc_bind (wpc_store hstart hmode (wpc_bind (wpc_gets hmode (wpc_bind (wpc_gets hmode ?_)))))
  split
  case isTrue hcalls =>
    have hset := wpc_setLoopCnt (s := s) (c := { s with recoveryMode := true }) hcalls rfl rfl rfl
    exact wpc_bind (wpc_mono hset (fun _ _ h => wpc_userRecovery h) fun _ h => h)
  case isFalse => exact wpc_userRecovery hmode

/-! ## Failures -/

/-- The iteration that is about to end has cached a result, after the position it goes back to. -/
def HasResults (b : Board) (u : UserTxInfo) : Prop :=
  txIdOf b.width (slot u).toNat < u.userTx.cache.getTxIdOfPtr b.width

/-- The failures after which recovery is exact: in a transaction that gets an id, in the end of a turn of `nv_loop!`
that has cached nothing, and in that of a turn of `nv_for_loop!` that has cached a result. -/
def Meets (b : Board) (c : Config b) : Place → Prop
  | .elsewhere => True
  | .inTx => c.info.HasId b
  | .endingInfinite => ¬ HasResults b c.info
  | .endingCounted _ => HasResults b c.info

/-- What recovery sees is what has happened. -/
def Marked (b : Board) (p : Place) (s : UserTxInfo) : Prop :=
  (s.Ordered b ∧ ∀ i, p ≠ .endingCounted i) ∨
    ∃ i, p = .endingCounted i ∧ CallsSetLoopCnt b s ∧ s.loopCntPtr = some i

theorem Marked.exact (h : Marked b p s) : Exact b p s := by
  rcases h with ⟨hordered, hp⟩ | ⟨i, rfl, hcalls, hptr⟩
  · have hnot : ¬ CallsSetLoopCnt b s := Nat.not_lt_of_le hordered
    refine ⟨⟨fun h => absurd h hnot, fun ⟨i, hi⟩ => absurd hi (hp i)⟩, fun h => absurd h hnot, fun c hc i hi => ?_⟩
    exact absurd (((wpc_jitRecovery s).crash hc).counters i hi).1 hnot
  · refine ⟨⟨fun _ => ⟨i, rfl⟩, fun _ => hcalls⟩, fun _ => by simp [hptr], fun c hc j hj => ?_⟩
    obtain ⟨-, hj⟩ := ((wpc_jitRecovery s).crash hc).counters j hj
    rw [Option.some.inj (hptr.symm.trans hj)]

/-- Recovery itself is interrupted. -/
theorem Marked.again (h : Marked b p s) (hs : s' ∈ crashes (jitRecovery b) s) :
    Marked b (if s'.userTx.cache.ptr = s.userTx.cache.ptr then p else .elsewhere) s' := by
  obtain ⟨htail, hptr, hloop, -⟩ := (wpc_jitRecovery s).crash hs
  split
  case isTrue hsame =>
    rcases h with ⟨hordered, hp⟩ | ⟨i, rfl, hcalls, hi⟩
    · refine Or.inl ⟨?_, hp⟩
      rw [UserTxInfo.Ordered, TxCache.Ordered, TxCache.getTxIdOfPtr, TxCache.getTxIdOfTail, hsame, htail]
      exact hordered
    · refine Or.inr ⟨i, rfl, ?_, hloop.trans hi⟩
      rw [CallsSetLoopCnt, TxCache.getTxIdOfPtr, TxCache.getTxIdOfTail, hsame, htail]
      exact hcalls
  case isFalse hmoved =>
    refine Or.inl ⟨?_, fun _ h => by cases h⟩
    rw [UserTxInfo.Ordered, TxCache.Ordered, TxCache.getTxIdOfPtr, hptr.resolve_left hmoved]
    simp [txIdOf]

theorem ordered_of_cache (h : u.Ordered b) (hs : s.userTx.cache = u.userTx.cache) : s.Ordered b := by
  rw [UserTxInfo.Ordered, hs]
  exact h

theorem keeps_cache_enter : Keeps (fun u : UserTxInfo => u.userTx.cache) (enterIdempotentLoop b) := by
  refine (keeps_gets _).bind fun _ => (keeps_gets _).bind fun _ => (keeps_check _).bind fun _ =>
    Keeps.bind ?_ fun _ => ?_
  · exact keeps_store fun _ => rfl
  · exact keeps_store fun _ => rfl

theorem keeps_cache_logLoopCnt : Keeps (fun u : UserTxInfo => u.userTx.cache) (logLoopCnt i cnt step) := by
  refine Keeps.bind (keeps_store fun _ => rfl) fun _ => Keeps.bind ?_ fun _ => ?_
  · exact keeps_store fun _ => rfl
  · exact keeps_store fun _ => rfl

/-- Both positions are equal when the second has been stored. -/
theorem ordered_of_exitRest (hv : v.userTx.cache.tail = old.toNat) (hs : s ∈ (exitRest old v).trace) : s.Ordered b := by
  have htrace : ∀ c ∈ (exitRest old v).trace, c.userTx.cache = { v.userTx.cache with ptr := old.toNat } :=
    List.forall_mem_cons.mpr ⟨rfl, List.forall_mem_cons.mpr ⟨rfl, nofun⟩⟩
  rw [UserTxInfo.Ordered, TxCache.Ordered, htrace s hs, TxCache.getTxIdOfPtr, TxCache.getTxIdOfTail, hv]

/-- In the window the positions are those of the test for results. -/
theorem calls_iff_hasResults (hs : s.userTx = (tailSet v).userTx) (hv : v.userTx = u.userTx)
    (hslot : slot v = slot u) : CallsSetLoopCnt b s ↔ HasResults b u := by
  rw [CallsSetLoopCnt, HasResults, hs, TxCache.getTxIdOfTail, TxCache.getTxIdOfPtr, TxCache.getTxIdOfPtr, ← hv, ← hslot]
  rfl

theorem after_setLoopCnt (i cnt step : Nat) (u : UserTxInfo) :
    After (do logLoopCnt i cnt step; let old ← exitHead; setLoopCnt b; pure old : Prog UserTxInfo UInt16)
      (fun old v => v.userTx.cache.tail = old.toNat) u := by
  rw [after_bind]
  refine (after_out _ u).mono fun _ u' _ => ?_
  rw [after_bind]
  refine (after_out _ u').mono fun old v hv => ?_
  obtain ⟨rfl, rfl⟩ := exitHead_out hv
  rw [after_bind]
  refine (after_out _ _).mono fun _ v' hv' => ?_
  obtain ⟨htx, -⟩ := Prod.mk.inj ((keeps_setLoopCnt _).post hv')
  rw [after_pure, htx]
  rfl

/-- One failure: recovery after it is exact if the condition is met, and at the end of an iteration only then. -/
theorem Failure.marked {c : Config b} (hf : Failure b c p s) (h : c.info.Ordered b) :
    (Meets b c p → Marked b p s) ∧ ((p = .endingInfinite ∨ ∃ i, p = .endingCounted i) →
      (CallsSetLoopCnt b s ↔ HasResults b c.info)) := by
  cases hf with
  | before => exact ⟨fun _ => Or.inl ⟨h, fun _ => nofun⟩, by simp⟩
  | run hs => exact ⟨fun hid => Or.inl ⟨(wpc_run_ordered _ h).trace hs hid, fun _ => nofun⟩, by simp⟩
  | set hs => exact ⟨fun hid => Or.inl ⟨(wpc_fastRunSet_ordered _ _ h).trace hs hid, fun _ => nofun⟩, by simp⟩
  | enter hs => exact ⟨fun _ => Or.inl ⟨ordered_of_cache h (keeps_cache_enter.trace hs), fun _ => nofun⟩, by simp⟩
  | log _ hs => exact ⟨fun _ => Or.inl ⟨ordered_of_cache h (keeps_cache_logLoopCnt.trace hs), fun _ => nofun⟩, by simp⟩
  | @endingCounted u v s i cnt step old f fs hleave hout hs =>
      rw [bind_of_out (logLoopCnt_out i cnt step u)] at hout
      obtain ⟨-, rfl⟩ := exitHead_out hout
      obtain ⟨htx, hptr⟩ := Prod.mk.inj ((keeps_setLoopCnt (tailSet (logged i cnt step u))).crash hs)
      have hcalls := calls_iff_hasResults (b := b) (u := u) htx rfl rfl
      exact ⟨fun hmeets => Or.inr ⟨i, rfl, hcalls.mpr hmeets, hptr⟩, fun _ => hcalls⟩
  | @endedCounted u v s i cnt step old f fs hleave hout hs =>
      have htail := (after_setLoopCnt i cnt step u).post hout
      exact ⟨fun _ => Or.inl ⟨ordered_of_exitRest htail hs, fun _ => nofun⟩, by simp⟩
  | @endingInfinite u v old f fs hleave hout =>
      obtain ⟨-, rfl⟩ := exitHead_out hout
      have hcalls := calls_iff_hasResults (b := b) (s := tailSet u) (u := u) rfl rfl rfl
      refine ⟨fun hmeets => Or.inl ⟨Nat.le_of_not_lt fun hlt => ?_, fun _ => nofun⟩, fun _ => hcalls⟩
      exact hmeets (hcalls.mp hlt)
  | @endedInfinite u v s old f fs hleave hout hs =>
      obtain ⟨rfl, rfl⟩ := exitHead_out hout
      exact ⟨fun _ => Or.inl ⟨ordered_of_exitRest rfl hs, fun _ => nofun⟩, by simp⟩

/-! ## Runs -/

/-- The task runs, or power has failed. -/
inductive Phase (b : Board)
  | up (c : Config b)
  | down (p : Place) (s : UserTxInfo)

/-- Runs of the task from `u` on, in which power fails where `ok` allows it, and in recovery at any time. Until
recovery has reset `ptr` the place of the failure counts. -/
inductive Reached (b : Board) (ok : Config b → Place → Prop) (t : Script b) (u : UserTxInfo) : Phase b → Prop
  | start : Reached b ok t u (.up ⟨u, .code t, []⟩)
  | step {c c' : Config b} {e : Event} : Reached b ok t u (.up c) → Step b c e c' → Reached b ok t u (.up c')
  | fail {c : Config b} {p : Place} {s : UserTxInfo} : Reached b ok t u (.up c) → Failure b c p s → ok c p →
      Reached b ok t u (.down p s)
  | failAgain {p : Place} {s s' : UserTxInfo} : Reached b ok t u (.down p s) → s' ∈ crashes (jitRecovery b) s →
      Reached b ok t u (.down (if s'.userTx.cache.ptr = s.userTx.cache.ptr then p else .elsewhere) s')
  | recover {p : Place} {s s' : UserTxInfo} : Reached b ok t u (.down p s) → (jitRecovery b s).out = some ((), s') →
      Reached b ok t u (.up ⟨s', .code t, []⟩)

theorem Step.ordered (hs : Step b c e c') (h : c.info.Ordered b) : c'.info.Ordered b := by
  cases hs with
  | run hout => exact (wpc_run_ordered _ h).post hout
  | nvLoop => exact h
  | nvForLoop hout => exact (wpc_fastRunSet_ordered _ _ h).post hout
  | enterInfinite hout => exact ordered_of_cache h ((keeps_cache_enter _).post hout)
  | enterCounted _ hout => exact ordered_of_cache h ((keeps_cache_enter _).post hout)
  | leave => exact h
  | exit hout =>
      obtain ⟨htx, -⟩ := (wpc_leave (Or.inr trivial) (Or.inr trivial)).post hout
      rw [UserTxInfo.Ordered, htx]
      exact Nat.le_refl _
  | brk => exact h
  | brkOuter => exact h

/-- What holds of a phase. -/
def Phase.Inv : Phase b → Prop
  | .up c => c.info.Ordered b
  | .down p s => Marked b p s

theorem Reached.inv {ph : Phase b} (h : Reached b (Meets b) t u ph) (hu : u.Ordered b) : ph.Inv := by
  induction h with
  | start => exact hu
  | step _ hs ih => exact hs.ordered ih
  | fail _ hf hok ih => exact (hf.marked ih).1 hok
  | failAgain _ hs ih => exact ih.again hs
  | @recover p s s' _ hout _ =>
      have hptr := (wpc_jitRecovery s).post hout
      rw [Phase.Inv, UserTxInfo.Ordered, TxCache.Ordered, TxCache.getTxIdOfPtr, hptr]
      simp [txIdOf]

/-- In runs whose failures so far meet the condition, recovery is exact after every failure that meets it, also when
it is interrupted itself; and at the end of an iteration only after those, which are all that can strike there. -/
theorem loop_end_detected {ph : Phase b} (hu : u.Ordered b) (h : Reached b (Meets b) t u ph) :
    match ph with
    | .up c => (∀ p s, Failure b c p s → (Meets b c p → Exact b p s) ∧
        ((p = .endingInfinite ∨ ∃ i, p = .endingCounted i) → Exact b p s → Meets b c p)) ∧
        ∀ f fs, c = ⟨c.info, .code .done, f :: fs⟩ → ∀ s ∈ (f.loop.leave.run b c.info).trace, ∃ p, Failure b c p s
    | .down p s => Exact b p s := by
  have hinv := h.inv hu
  cases ph with
  | down p s => exact Marked.exact hinv
  | up c =>
      refine ⟨fun p s hf => ?_, fun f fs hc s hs => by rw [hc]; exact failure_of_exit hs⟩
      obtain ⟨hmarked, hcalls⟩ := hf.marked hinv
      refine ⟨fun hmeets => (hmarked hmeets).exact, fun hp hexact => ?_⟩
      have hiff := hexact.calls
      rw [hcalls hp] at hiff
      rcases hp with rfl | ⟨i, rfl⟩
      · exact fun hresults => by simpa using hiff.mp hresults
      · exact hiff.mpr ⟨i, rfl⟩

theorem ordered_of_init (h : (UserTxInfo.init u).out = some ((), u')) : u'.Ordered b := by
  cases h
  exact Nat.le_refl _

/-- Power fails at the end of the first turn of a loop with one transaction. -/
theorem loop_end_detected_inc : ∃ s, Reached msp430Debug (Meets msp430Debug)
      (.nvForLoop 0 0 1 1 (fun _ => .run incByte fun _ => .done) .done) zeroedInfo (.down (.endingCounted 0) s) ∧
    Exact msp430Debug (.endingCounted 0) s := by
  have h₀ : Reached msp430Debug (Meets msp430Debug)
    (.nvForLoop 0 0 1 1 (fun _ => .run incByte fun _ => .done) .done) zeroedInfo _ := .start
  have h₁ := h₀.step (.nvForLoop rfl)
  have h₂ := h₁.step (.enterCounted (by decide) rfl)
  have h₃ := h₂.step (.run rfl)
  have h₄ := h₃.fail (.endingCounted rfl rfl (List.mem_cons_self ..)) (by change _ < _; decide)
  exact ⟨_, h₄, loop_end_detected (ordered_of_init (u := zeroedInfo) rfl) h₄⟩

/-- At the end of a turn of `nv_loop!` with one transaction `set_loop_cnt` is called, with no counter logged. -/
theorem infinite_loop_end_taken : ¬ ∀ (b : Board) (t : Script b) (u u' : UserTxInfo) (c : Config b) (p : Place)
    (s : UserTxInfo), (UserTxInfo.init u).out = some ((), u') → Reached b (fun _ _ => True) t u' (.up c) →
    Failure b c p s → Exact b p s := by
  intro h
  have h₀ : Reached msp430Debug (fun _ _ => True) (.nvLoop (fun _ => .run incByte fun _ => .done) .done) zeroedInfo _ :=
    .start
  have h₁ := h₀.step .nvLoop
  have h₂ := h₁.step (.enterInfinite rfl)
  have h₃ := h₂.step (.run rfl)
  have hall := fun s => h _ _ zeroedInfo _ _ .endingInfinite s rfl h₃
  have hexact := hall _ (.endingInfinite rfl rfl)
  exact absurd rfl (hexact.logged (by change _ < _; decide))

end Script

end IntOS
