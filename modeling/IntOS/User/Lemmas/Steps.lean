import IntOS.User.Lemmas.Positions

/-!
# The steps of user code

One lemma for each step: what it returns, and what a failure inside it leaves.
-/

namespace IntOS

open Persist Persist.Prog Transaction

variable {b : Board} {pre rest rs : List (List UInt8)} {x y : Data} {u : UserTxInfo} {depth : Nat}

namespace UserTxInfo

/-! ## Transactions -/

theorem wpc_checkLevel {E : Prop} {C : UserTxInfo → Prop} {Q : Unit → UserTxInfo → Prop}
    (h : u.userTx.nestingLevel = 0) (hC : C u) (hQ : Q () u) : wpc (checkLevel b) Q E C u :=
  wpc_bind (wpc_gets hC (wpc_check hC (fun hn => absurd (fun _ => h) hn) fun _ => hQ))

theorem wpc_checkBypass {E : Prop} {C : UserTxInfo → Prop} {Q : Unit → UserTxInfo → Prop}
    (h : u.recoveryMode = true) (hC : C u) (hQ : Q () u) : wpc (checkBypass b) Q E C u :=
  wpc_bind (wpc_gets hC (wpc_check hC (fun hn => absurd (fun _ => h) hn) fun _ => hQ))

/-- The result of a user transaction in memory `m`. -/
abbrev res (f : UserTx b) (x : Data) : List UInt8 := (f.body.eval x.mem).1

/-- The data after a user transaction. -/
abbrev next (f : UserTx b) (x : Data) : Data := { x with mem := (f.body.eval x.mem).2 }

theorem wpc_run_fresh {f : UserTx b} (h : ReadyAt b depth rs [] x u) (hf : Fits b (rs ++ [res f x])) :
    wpc (run b f)
      (fun a u' => a = res f x ∧ ReadyAt b depth (rs ++ [res f x]) [] (next f x) u' ∧
        u'.tailStack = u.tailStack) False
      (fun c => Left b rs x c ∨ Left b (rs ++ [res f x]) (next f x) c) u := by
  have hleft := h.left_nil hf.of_append
  have hst : ∀ t, Stable b rs x.mem t → Left b rs x { u with userTx := t } :=
    fun t ht => Left.of_stable ht hf.of_append h.counters
  unfold run
  refine wpc_bind (wpc_checkLevel h.tx.nestingLevel (Or.inl hleft) ?_)
  refine wpc_bind (wpc_zoom rfl (wpc_mono (wpc_replay_none f.size h.tx hf.of_append) ?_ ?_))
  case refine_2 => exact fun t ht => Or.inl (hst t ht)
  rintro _ t ⟨rfl, rfl⟩
  have hcompletes : (f.body.run b u.userTx.pm).out ≠ none := f.completes _ h.tx.wellFormed h.tx.tail
  refine wpc_zoom rfl (wpc_mono (wpc_run h.tx (f.logged _) hcompletes hf) ?_ ?_)
  · rintro a t ⟨rfl, ht⟩
    exact ⟨rfl, ⟨ht, h.counters, h.stackTop, Or.inl rfl⟩, rfl⟩
  · rintro t (ht | ht)
    · exact Or.inl (hst t ht)
    · exact Or.inr (Left.of_stable ht hf h.counters)

theorem wpc_run_replay {f : UserTx b} {r : List UInt8} (h : ReadyAt b depth pre (r :: rest) y u)
    (hf : Fits b (pre ++ r :: rest)) (hr : r.length = f.size) :
    wpc (run b f)
      (fun a u' => a = r ∧ ReadyAt b depth (pre ++ [r]) rest y u' ∧ u'.tailStack = u.tailStack) False
      (Left b (pre ++ r :: rest) y) u := by
  have hrec : u.recoveryMode = true := h.recovering.resolve_left (by simp)
  unfold run
  refine wpc_bind (wpc_checkLevel h.tx.nestingLevel (h.left hf) ?_)
  rw [← hr]
  refine wpc_bind (wpc_zoom rfl (wpc_mono (wpc_replay h.tx hf) ?_ ?_))
  · rintro _ t ⟨rfl, ht⟩
    have h₁ : ReadyAt b depth (pre ++ [r]) rest y { u with userTx := t } :=
      ⟨ht, h.counters, h.stackTop, Or.inr hrec⟩
    have hl := h₁.left (by rw [← List.append_cons]; exact hf)
    rw [← List.append_cons] at hl
    exact wpc_bind (wpc_checkBypass hrec hl (wpc_pure hl ⟨rfl, h₁, rfl⟩))
  · exact fun t ht => Left.of_stable ht hf h.counters

theorem wpc_fastRunSet_fresh {i v : Nat} (h : ReadyAt b depth rs [] x u) (hf : Fits b (rs ++ [[]])) :
    wpc (fastRunSet b i v)
      (fun _ u' => ReadyAt b depth (rs ++ [[]]) [] (x.setCounter i v) u' ∧ u'.tailStack = u.tailStack)
      False
      (fun c => Left b rs x c ∨ Left b rs (x.setCounter i v) c ∨
        Left b (rs ++ [[]]) (x.setCounter i v) c) u := by
  have hleft := h.left_nil hf.of_append
  have hst : ∀ t, Stable b rs x.mem t → Left b rs x { u with userTx := t } :=
    fun t ht => Left.of_stable ht hf.of_append h.counters
  have hn : (b.debugAssertions → u.userTx.nestingLevel = 0) ∨ False := Or.inl fun _ => h.tx.nestingLevel
  unfold fastRunSet
  refine wpc_bind (wpc_checkLevel h.tx.nestingLevel (Or.inl hleft) ?_)
  refine wpc_bind (wpc_zoom rfl (wpc_mono (wpc_replay_none 0 h.tx hf.of_append) ?_ ?_))
  case refine_2 => exact fun t ht => Or.inl (hst t ht)
  rintro _ t₀ ⟨rfl, rfl⟩
  refine wpc_bind (wpc_zoom rfl (wpc_mono (wpc_begin h.tx.wellFormed h.tx.tail hn) ?_ ?_))
  case refine_2 =>
    rintro t (rfl | ht)
    · exact Or.inl hleft
    · exact Or.inl (hst t (ht.stable h.tx hf.of_append))
  rintro _ t ⟨hrun, hpm⟩
  have hset : ∀ t', Stable b rs x.mem t' → Left b rs (x.setCounter i v)
      { u with userTx := t', counters := Function.update u.counters i v } := by
    intro t' ht'
    refine Left.of_stable ht' hf.of_append ?_
    rw [h.counters]
    rfl
  have htst : Stable b rs x.mem t := hrun.notYet.stable h.tx hf.of_append
  refine wpc_bind (wpc_store (Or.inl (hst t htst)) (Or.inr (Or.inl (hset t htst))) ?_)
  have hcache := wpc_cacheResult [] hrun.unmoved hrun.tail (Or.inl (h.tx.fits_cache hf) : _ ∨ False)
  refine wpc_zoom rfl (wpc_mono (wpc_commitCache hrun (fun _ h => TxCache.Advanced.isCommitted h) hn
    hcache) ?_ ?_)
  · rintro _ r ⟨hpast, hptr, hpm', hnest⟩
    have hmem : t.pm.mem = x.mem := by rw [hpm, h.tx.mem]
    have hst' := hpast.stable h.tx hf
    have hc := h.tx.committed
    rw [List.append_nil] at hc
    refine ⟨⟨⟨?_, ?_, ?_, ?_, ?_, hnest.trans h.tx.nestingLevel⟩, ?_, h.stackTop, Or.inl rfl⟩, rfl⟩
    · rw [List.append_nil]
      exact hst'.committed
    · rw [hptr]
      exact isPos_advancedPtr hc h.tx.ptr hf
    · rw [hpm']
      exact hmem
    · rw [hpm', hpm]
      exact h.tx.wellFormed
    · rw [hpm', hpm]
      exact h.tx.tail
    · rw [h.counters]
      rfl
  · rintro r (hr | hr)
    · exact Or.inr (Or.inl (hset r (hr.stable h.tx hf.of_append)))
    · have hr' := hr.stable h.tx hf
      rw [hpm, h.tx.mem] at hr'
      refine Or.inr (Or.inr (Left.of_stable hr' hf ?_))
      rw [h.counters]
      rfl

theorem wpc_fastRunSet_replay {i v : Nat} (h : ReadyAt b depth pre ([] :: rest) y u)
    (hf : Fits b (pre ++ [] :: rest)) :
    wpc (fastRunSet b i v)
      (fun _ u' => ReadyAt b depth (pre ++ [[]]) rest y u' ∧ u'.tailStack = u.tailStack) False
      (Left b (pre ++ [] :: rest) y) u := by
  have hrec : u.recoveryMode = true := h.recovering.resolve_left (by simp)
  unfold fastRunSet
  refine wpc_bind (wpc_checkLevel h.tx.nestingLevel (h.left hf) ?_)
  refine wpc_bind (wpc_zoom rfl (wpc_mono (wpc_replay (r := []) h.tx hf) ?_ ?_))
  · rintro _ t ⟨rfl, ht⟩
    have h₁ : ReadyAt b depth (pre ++ [[]]) rest y { u with userTx := t } :=
      ⟨ht, h.counters, h.stackTop, Or.inr hrec⟩
    have hl := h₁.left (by rw [← List.append_cons]; exact hf)
    rw [← List.append_cons] at hl
    exact wpc_checkBypass hrec hl ⟨h₁, rfl⟩
  · exact fun t ht => Left.of_stable ht hf h.counters

/-! ## Loops -/

/-- A position that fits a `TxTail`. -/
theorem txTail_eq {p : Nat} (hw : b.width ≠ .w32) (hf : Fits b pre) (hp : IsPos b.width p pre) :
    (UInt16.ofNat (p ||| txCommitted b.width)).toNat = position b.width pre ||| txCommitted b.width := by
  have hlt := hf.position_lt
  rw [UInt16.toNat_ofNat', hp.or_txCommitted, Nat.mod_eq_of_lt]
  rw [or_txCommitted_of_lt hlt]
  have h16 : 2 * txCommitted b.width ≤ 2 ^ 16 := by
    cases hb : b.width with
    | w16 => decide
    | w32 => exact absurd hb hw
    | w64 => decide
  omega

theorem wpc_enter (hw : b.width ≠ .w32) (h : ReadyAt b depth pre rest y u) (hf : Fits b (pre ++ rest))
    (hd : depth < defaultStackDepth) :
    wpc (enterIdempotentLoop b)
      (fun _ u' => ReadyAt b (depth + 1) pre rest y u' ∧
        (u'.tailStack depth).toNat = position b.width pre ||| txCommitted b.width ∧
        ∀ j, j < depth → u'.tailStack j = u.tailStack j) False
      (Left b (pre ++ rest) y) u := by
  have hl := h.left hf
  have hl' : ∀ stack top, Left b (pre ++ rest) y { u with tailStack := stack, stackTop := top } :=
    fun _ _ => ⟨hl.fits, hl.committed, hl.settles, hl.counter⟩
  unfold enterIdempotentLoop
  refine wpc_bind (wpc_gets hl (wpc_bind (wpc_gets hl ?_)))
  rw [h.stackTop]
  refine wpc_bind (wpc_check hl (fun hn => absurd hd hn) fun _ => ?_)
  refine wpc_bind (wpc_store hl (hl' _ _) (wpc_store (hl' _ _) (hl' _ _) ⟨⟨h.tx, h.counters, ?_, ?_⟩, ?_, ?_⟩))
  · rw [h.stackTop]
  · exact h.recovering
  · simp only [Function.update_self]
    exact txTail_eq hw hf.of_append h.tx.ptr
  · exact fun j hj => Function.update_of_ne (Nat.ne_of_lt hj) _ _

/-- The end of a round: the counter is logged, `tail` moves back to where the round began, then the counter
moves on. A failure leaves the whole round, or none of it with the counter moved on; if the round ran no
transaction, also none of it with the counter where it was. -/
theorem wpc_exit {i c step : Nat} (h : ReadyAt b (depth + 1) (pre ++ rest) [] y u)
    (hf : Fits b (pre ++ rest))
    (htop : (u.tailStack depth).toNat = position b.width pre ||| txCommitted b.width)
    (hd : depth < defaultStackDepth) (hlt : c + step < 2 ^ b.width.bits) :
    wpc (logLoopCnt i c step >>= fun _ => exitIdempotentLoop b)
      (fun _ u' => ReadyAt b depth pre [] (y.setCounter i (c + step)) u' ∧ u'.tailStack = u.tailStack)
      False
      (fun s => Left b (pre ++ rest) y s ∨ Left b pre (y.setCounter i (c + step)) s ∨
        rest = [] ∧ Left b pre y s) u := by
  have hpre : Fits b pre := hf.of_append
  have hcom := h.tx.committed
  rw [List.append_nil] at hcom
  have hidp : u.userTx.cache.getTxIdOfPtr b.width = (pre ++ rest).length := h.tx.ptr.txIdOf hf
  have hl := h.left_nil hf
  -- the round is complete, whatever the log of the counter holds
  have hlog : ∀ s : UserTxInfo, s.userTx = u.userTx → s.counters = u.counters →
      Left b (pre ++ rest) y s := by
    intro s htx hc
    refine ⟨hf, ?_, ?_, Or.inl ⟨?_, hc.trans h.counters⟩⟩
    · rw [htx]
      exact hcom
    · rw [htx]
      exact hl.settles
    · rw [htx, hidp]
  -- `tail` is back at the beginning of the round
  have hback : ∀ s : UserTxInfo, ∀ y' : Data, y'.mem = y.mem → s.userTx.pm = u.userTx.pm →
      s.userTx.cache.cache = u.userTx.cache.cache →
      s.userTx.cache.tail = position b.width pre ||| txCommitted b.width → CounterSettles b pre y' s →
      Left b pre y' s := by
    intro s y' hmem hpm hcache htail hcnt
    refine ⟨hpre, (hcom.truncate (Or.inr rfl)).congr htail fun _ _ => by rw [hcache], ?_, hcnt⟩
    rw [hmem, ← h.tx.mem, ← hpm]
    exact settles_of_empty (by rw [hpm]; exact h.tx.wellFormed) (by rw [hpm]; exact h.tx.tail)
  have hnew : (y.setCounter i (c + step)).counters = Function.update u.counters i (c + step) := by
    rw [h.counters]
    rfl
  unfold logLoopCnt exitIdempotentLoop
  refine wpc_bind (wpc_bind (wpc_store (Or.inl hl) (Or.inl (hlog _ rfl rfl)) ?_))
  refine wpc_bind (wpc_store (Or.inl (hlog _ rfl rfl)) (Or.inl (hlog _ rfl rfl)) ?_)
  refine wpc_store (Or.inl (hlog _ rfl rfl)) (Or.inl (hlog _ rfl rfl)) ?_
  refine wpc_bind (wpc_gets (Or.inl (hlog _ rfl rfl)) ?_)
  rw [h.stackTop]
  refine wpc_bind (wpc_check (Or.inl (hlog _ rfl rfl)) (fun hn => absurd ⟨by omega, hd⟩ hn) fun _ => ?_)
  refine wpc_bind (wpc_gets (Or.inl (hlog _ rfl rfl)) ?_)
  simp only [Nat.add_sub_cancel]
  rw [htop]
  -- the store of `tail`
  have h₄ : ∀ s : UserTxInfo, s.userTx.pm = u.userTx.pm →
      s.userTx.cache.cache = u.userTx.cache.cache → s.userTx.cache.ptr = u.userTx.cache.ptr →
      s.userTx.cache.tail = position b.width pre ||| txCommitted b.width →
      s.counters = u.counters → s.loopCntPtr = some i → s.loopCntLog = c → s.step = step →
      Left b (pre ++ rest) y s ∨ Left b pre (y.setCounter i (c + step)) s ∨ rest = [] ∧ Left b pre y s := by
    intro s hpm hcache hptr htail hcnt hi hc hst
    have hid : s.userTx.cache.getTxIdOfPtr b.width = (pre ++ rest).length := by
      rw [TxCache.getTxIdOfPtr, hptr]
      exact hidp
    cases rest with
    | nil =>
        refine Or.inr (Or.inr ⟨rfl, hback s y rfl hpm hcache htail (Or.inl ⟨?_, hcnt.trans h.counters⟩)⟩)
        rw [hid, List.append_nil]
    | cons r rest =>
        refine Or.inr (Or.inl (hback s _ rfl hpm hcache htail (Or.inr ⟨?_, i, hi, ?_, ?_⟩)))
        · rw [hid, List.length_append, List.length_cons]
          omega
        · rw [hc, hst]
          exact hlt
        · rw [hnew, hcnt, hc, hst]
  -- the store of the counter
  have h₅ : ∀ s : UserTxInfo, s.userTx.pm = u.userTx.pm →
      s.userTx.cache.cache = u.userTx.cache.cache →
      s.userTx.cache.tail = position b.width pre ||| txCommitted b.width →
      s.counters = Function.update u.counters i (c + step) → s.loopCntPtr = some i → s.loopCntLog = c →
      s.step = step → Left b pre (y.setCounter i (c + step)) s := by
    intro s hpm hcache htail hcnt hi hc hst
    refine hback s _ rfl hpm hcache htail ?_
    by_cases hle : s.userTx.cache.getTxIdOfPtr b.width ≤ pre.length
    · exact Or.inl ⟨hle, hcnt.trans hnew.symm⟩
    · refine Or.inr ⟨Nat.lt_of_not_le hle, i, hi, ?_, ?_⟩
      · rw [hc, hst]
        exact hlt
      · rw [hnew, hcnt, hc, hst, Function.update_idem]
  refine wpc_bind (wpc_zoom rfl (wpc_zoom rfl (wpc_store (Or.inl (hlog _ rfl rfl))
    (h₄ _ rfl rfl rfl rfl rfl rfl rfl rfl) ?_)))
  refine wpc_bind (wpc_setLoopCnt rfl hlt (h₄ _ rfl rfl rfl rfl rfl rfl rfl rfl)
    (Or.inr (Or.inl (h₅ _ rfl rfl rfl rfl rfl rfl rfl))) ?_)
  refine wpc_bind (wpc_zoom rfl (wpc_zoom rfl (wpc_store (Or.inr (Or.inl (h₅ _ rfl rfl rfl rfl rfl rfl rfl)))
    (Or.inr (Or.inl (h₅ _ rfl rfl rfl rfl rfl rfl rfl))) ?_)))
  refine wpc_store (Or.inr (Or.inl (h₅ _ rfl rfl rfl rfl rfl rfl rfl)))
    (Or.inr (Or.inl (h₅ _ rfl rfl rfl rfl rfl rfl rfl))) ⟨⟨⟨?_, Or.inr rfl, h.tx.mem, h.tx.wellFormed,
      h.tx.tail, h.tx.nestingLevel⟩, hnew.symm, rfl, Or.inl rfl⟩, rfl⟩
  rw [List.append_nil]
  exact (hcom.truncate (Or.inr rfl)).congr rfl fun _ _ => rfl

end UserTxInfo

end IntOS
