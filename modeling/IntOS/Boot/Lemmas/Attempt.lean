import IntOS.Boot.Lemmas.Registration

/-!
# One attempt to boot
-/

namespace IntOS

open Persist Persist.Prog

namespace Boot

variable {t : BootTarget} {regs : List Registration} {i old n m : Nat} {r : Registration} {s : Boot} {E : Prop}
  {C : Boot → Prop}

theorem Resumed.taskCnt (h : Resumed t regs old n m s) : s.kernel.taskCnt = n := by
  rcases h.halted.counted with ⟨hcnt, _⟩ | ⟨_, hj, _⟩
  · exact hcnt
  · exact absurd (hj.symm.trans h.journal) (List.cons_ne_nil _ _)

/-! ## One registration -/

/-- The transaction of the next task runs. -/
theorem Resumed.wpc_run {Q : Except ErrorCode Nat → Boot → Prop} (h : Resumed t regs old n n s)
    (hptr : s.bootTxCache.ptr = position t.board.width (results t n)) (hr : regs[n]? = some r)
    (hp : r.prio < numPriorityLevels) (hn : n < t.taskNumLimit) (hE : t.board.debugAssertions = true → E)
    (hC : ∀ n c, Halted t regs n c → C c)
    (hQ : ∀ s', Resumed t regs old (n + 1) n s' →
      s'.bootTxCache.ptr = position t.board.width (results t (n + 1)) → Q (.ok n) s') :
    wpc (run t (registerTask t r)) Q E C s := by
  have hfits := fits_results (t := t) (Nat.le_of_lt hn)
  have h₀ := hC n s h.halted
  refine wpc_bind (wpc_gets h₀ (wpc_bind (wpc_check h₀ (fun hne => hE (Classical.not_imp.mp hne).1) fun _ => ?_)))
  refine wpc_bind (wpc_onCache (wpc_mono
    (wpc_tryRetrieveResult_none t.size h.halted.cache hfits (Or.inl hptr) rfl) ?_ ?_))
  · rintro _ _ ⟨rfl, rfl⟩
    refine wpc_bind (wpc_incNesting hE (fun v => hC n _ (h.halted.nesting v)) fun v => ?_)
    have hclear : Halted t regs n { s with
        nestingLevel := v
        bootTxCache := { s.bootTxCache with
          tail := s.bootTxCache.tail &&& t.board.width.not (txCommitted t.board.width) } } :=
      { h.halted with
        cache := h.halted.cache.clearFlag hfits
        counted := Or.inl ⟨h.taskCnt, Or.inl h.journal⟩
        registered := fun i r hi hr => (h.halted.registered i r hi hr).frame rfl rfl rfl }
    have hflag : ¬ TxCache.isCommitted t.board.width { s.bootTxCache with
        tail := s.bootTxCache.tail &&& t.board.width.not (txCommitted t.board.width) } :=
      Transaction.not_isCommitted_of_tail (t := s.bootTxCache) rfl
    refine wpc_bind (wpc_onCache (wpc_store (hC n _ (h.halted.nesting v)) (hC n _ hclear) (wpc_bind ?_)))
    refine Opened.wpc_registerTask (n := n)
      ⟨?_, h.stacked.congr rfl rfl rfl, h.old_le, hflag, hptr, rfl, h.idle⟩ h.journal h.taskCnt (hC n _ hclear) hr hp hn
      (hC n) fun s' hs' hcnt hmade hlead => hs'.wpc_commit hcnt hr hn hmade hlead hE hC hQ
    exact { hclear with
      counted := Or.inr ⟨hflag, rfl, Or.inl h.taskCnt⟩
      registered := fun i r hi hr => (hclear.registered i r hi hr).frame rfl rfl rfl }
  · rintro _ rfl
    exact h₀

/-- The result of a committed registration comes from the cache. -/
theorem Resumed.wpc_replay {f : Prog Boot (Except ErrorCode Nat)} {Q : Except ErrorCode Nat → Boot → Prop}
    (h : Resumed t regs old n m s) (hn : n ≤ t.taskNumLimit) (hi : i < n)
    (hptr : s.bootTxCache.ptr = position t.board.width (results t i)) (hE : t.board.debugAssertions = true → E)
    (hC : ∀ n c, Halted t regs n c → C c)
    (hQ : ∀ s', Resumed t regs old n m s' → s'.bootTxCache.ptr = position t.board.width (results t (i + 1)) →
      Q (.ok i) s') : wpc (run t f) Q E C s := by
  have hfits := fits_results (t := t) hn
  have hcache := h.halted.cache
  rw [results_split hi] at hfits hcache
  have h₀ := hC n s h.halted
  refine wpc_bind (wpc_gets h₀ (wpc_bind (wpc_check h₀ (fun hne => hE (Classical.not_imp.mp hne).1) fun _ => ?_)))
  rw [← t.length_enc (.ok i)]
  have hread := wpc_tryRetrieveResult_some (E := E) (C := fun x => ∃ p, x = { s.bootTxCache with ptr := p })
    hcache hfits (Or.inl hptr) ⟨_, rfl⟩ fun p _ => ⟨p, rfl⟩
  refine wpc_bind (wpc_onCache (wpc_mono hread ?_ ?_))
  · rintro _ _ ⟨rfl, p, rfl, _, hp⟩
    have hp' : p = position t.board.width (results t (i + 1)) := by
      rw [results_succ]
      exact hp hptr
    have hs := h.halted.cachePtr p
    refine wpc_bind (wpc_bind (wpc_gets (hC n _ hs) ?_))
    rw [if_neg fun hand => absurd (h.halted.stopped.symm.trans hand.2) Bool.false_ne_true]
    refine wpc_pure (hC n _ hs) (wpc_pure (hC n _ hs) ?_)
    rw [t.dec_enc_ok i (Nat.lt_of_lt_of_le hi hn)]
    exact hQ _ ⟨hs, h.stacked.congr rfl rfl rfl, h.old_le, h.journal, h.idle, h.le_succ, h.le⟩ hp'
  · rintro _ ⟨p, rfl⟩
    exact hC n _ (h.halted.cachePtr p)

theorem lt_of_le_limit (h : n ≤ t.taskNumLimit) : n < 2 ^ opCodeShift := by
  have hfits := t.fits
  omega

theorem Struck.of_kernel {k : Kernel} (h : Halted t regs n s) (hk : Kernel.Calm n s.kernel k)
    (hl : k.Misleading ∨ Kernel.Enlisted (prioAt regs) n k) : Struck t regs { s with kernel := k } :=
  ⟨h.booting, hl.imp_right fun hl => ⟨n, h.calm hk hl⟩⟩

/-- The list transaction of a registered task. -/
theorem Resumed.wpc_insert {Q : Unit → Boot → Prop} (h : Resumed t regs old n m s) (hn : n ≤ t.taskNumLimit)
    (hi : i < n) (him : i ≤ m) (hC : ∀ c, Struck t regs c → C c)
    (hQ : ∀ s', Resumed t regs old n (max m (i + 1)) s' → s'.bootTxCache = s.bootTxCache → Q () s') :
    wpc (onKernel (Kernel.rollForwardInsertIntoReadylist i)) Q E C s := by
  have hle := h.le
  have hm := lt_of_le_limit (h.le.trans hn)
  have hcrash : ∀ k, Kernel.Calm n s.kernel k → k.Misleading ∨ Kernel.Enlisted (prioAt regs) n k →
      C { s with kernel := k } := fun k hk hl => hC _ (.of_kernel h.halted hk hl)
  have hstacked : ∀ k, Stacked t regs old n { s with kernel := k } := fun _ =>
    h.stacked.congr rfl rfl rfl
  apply wpc_onKernel
  rcases Nat.lt_or_eq_of_le him with him | rfl
  · refine h.idle.wpc_reinsert hm him (h.halted.prio hi) h.le_succ h.le hcrash fun k hk hidle => hQ _ ?_ rfl
    rw [Nat.max_eq_left him]
    exact ⟨h.halted.calm hk (hidle.listed h.le_succ h.le), hstacked k, h.old_le, h.journal, hidle, h.le_succ, h.le⟩
  · obtain rfl : n = i + 1 := Nat.le_antisymm h.le_succ hi
    refine h.idle.wpc_insert hm (h.halted.prio hi) hcrash fun k hk hidle => hQ _ ?_ rfl
    rw [Nat.max_eq_right (Nat.le_succ i)]
    exact ⟨h.halted.calm hk (hidle.listed (Nat.le_succ _) (Nat.le_refl _)), hstacked k, h.old_le, h.journal, hidle,
      Nat.le_succ _, Nat.le_refl _⟩

/-- A boot has come to the registration `i`: all before it are done, in this boot or in an earlier one. -/
def Arrived (t : BootTarget) (regs : List Registration) (old i : Nat) (s : Boot) : Prop :=
  ∃ n m, Resumed t regs old n m s ∧ s.bootTxCache.ptr = position t.board.width (results t i) ∧ i ≤ n ∧ (i = n → m = n)

theorem Arrived.wpc_create {Q : Except ErrorCode Nat → Boot → Prop} (h : Arrived t regs old i s)
    (hr : regs[i]? = some r) (hp : r.prio < numPriorityLevels) (hlimit : regs.length ≤ t.taskNumLimit)
    (hE : t.board.debugAssertions = true → E) (hC : ∀ c, Struck t regs c → C c)
    (hQ : ∀ s', Arrived t regs old (i + 1) s' → Q (.ok i) s') : wpc (createTaskStatic t r) Q E C s := by
  obtain ⟨n, m, h, hptr, hin, hm⟩ := h
  have hilt := (List.getElem?_eq_some_iff.mp hr).1
  have hlist : ∀ n m s', Resumed t regs old n m s' → s'.bootTxCache.ptr = position t.board.width (results t (i + 1)) →
      i < n → i ≤ m → wpc (do
        let allocated ← gets (·.allocated i)
        check (allocated = true)
        let _ ← onKernel (Kernel.rollForwardInsertIntoReadylist i)
        pure (.ok i)) Q E C s' := by
    intro n m s' h hptr hi him
    have hle := h.le
    have hlt : i < regs.length := Nat.lt_of_lt_of_le hi h.halted.le
    have halloc : s'.allocated i = true := (h.halted.registered i _ hi (List.getElem?_eq_getElem hlt)).allocated
    have h₀ := hC _ h.halted.struck
    refine wpc_bind (wpc_gets h₀ (wpc_bind (wpc_check h₀ (absurd halloc) fun _ => wpc_bind ?_)))
    refine h.wpc_insert (h.halted.le.trans hlimit) hi him hC fun s'' hs'' hcache => ?_
    refine wpc_pure (hC _ hs''.halted.struck) (hQ _ ⟨n, max m (i + 1), hs'', ?_, hi, fun he => ?_⟩)
    · rw [hcache, hptr]
    · omega
  have hcrash : ∀ n c, Halted t regs n c → C c := fun n c hc => hC c hc.struck
  apply wpc_bind
  rcases Nat.lt_or_eq_of_le hin with hi | rfl
  · refine h.wpc_replay (h.halted.le.trans hlimit) hi hptr hE hcrash fun s' hs' hptr' => ?_
    have hsucc := h.le_succ
    exact hlist n m s' hs' hptr' hi (by omega)
  · obtain rfl := hm rfl
    refine h.wpc_run hptr hr hp (Nat.lt_of_lt_of_le hilt hlimit) hE hcrash fun s' hs' hptr' => ?_
    exact hlist _ _ s' hs' hptr' (Nat.lt_succ_self _) (Nat.le_refl _)

end Boot

end IntOS
