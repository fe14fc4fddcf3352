import IntOS.Boot.Invariant

/-!
# Recovery of an interrupted boot
-/

namespace IntOS

open Persist Persist.Prog

namespace Boot

variable {α : Type} {t : BootTarget} {regs : List Registration} {old n m : Nat} {s : Boot} {E : Prop}
  {Q : Unit → Boot → Prop} {C : Boot → Prop}

theorem wpc_onKernel {p : Prog Kernel α} {Q : α → Boot → Prop}
    (h : wpc p (fun a k => Q a { s with kernel := k }) E (fun k => C { s with kernel := k }) s.kernel) :
    wpc (onKernel p) Q E C s := wpc_zoom rfl h

theorem wpc_onCache {p : Prog TxCache α} {Q : α → Boot → Prop}
    (h : wpc p (fun a c => Q a { s with bootTxCache := c }) E (fun c => C { s with bootTxCache := c })
      s.bootTxCache) : wpc (onCache p) Q E C s := wpc_zoom rfl h

/-- Once the number of tasks is right, the journal is not needed. -/
theorem Halted.clear (h : Halted t regs n s) (hcnt : s.kernel.taskCnt = n) :
    Halted t regs n { s with bootJournal := [] } where
  le := h.le
  cache := h.cache
  counted := Or.inl ⟨hcnt, Or.inl rfl⟩
  registered := fun i r hi hr => (h.registered i r hi hr).frame rfl rfl rfl
  led := h.led
  listed := h.listed
  booting := h.booting
  stopped := h.stopped

/-- The registration under way is undone, but for its stores that are not logged. -/
theorem Halted.wpc_rollBack (h : Halted t regs n s) (hC : ∀ c, Halted t regs n c → C c)
    (hQ : ∀ k, k = { s.kernel with taskCnt := n } → Halted t regs n { s with kernel := k, bootJournal := [] } →
      Q () { s with kernel := k, bootJournal := [] }) :
    wpc (rollBackIfUncommitted t.board) Q E C s := by
  have h₀ := hC s h
  have hclear : s.kernel.taskCnt = n → C { s with bootJournal := [] } ∧ Q () { s with bootJournal := [] } := by
    intro hcnt
    have hk : s.kernel = { s.kernel with taskCnt := n } := by rw [← hcnt]
    exact ⟨hC _ (h.clear hcnt), hQ s.kernel hk (h.clear hcnt)⟩
  refine wpc_bind (wpc_gets h₀ ?_)
  by_cases hflag : s.bootTxCache.isCommitted t.board.width
  · have hcnt : s.kernel.taskCnt = n := by
      rcases h.counted with hc | hc
      · exact hc.1
      · exact absurd hflag hc.1
    rw [decide_eq_true hflag, if_pos rfl]
    exact wpc_store h₀ (hclear hcnt).1 (hclear hcnt).2
  · rw [decide_eq_false hflag, if_neg Bool.false_ne_true]
    refine wpc_bind (wpc_gets h₀ ?_)
    rcases h.counted with ⟨hcnt, hj⟩ | ⟨_, hj, _⟩
    · rw [hj.resolve_right hflag]
      exact wpc_bind (wpc_pure h₀ (wpc_store h₀ (hclear hcnt).1 (hclear hcnt).2))
    · have hundone : Halted t regs n { s with kernel := { s.kernel with taskCnt := n } } :=
        { h with
          counted := Or.inr ⟨hflag, hj, Or.inl rfl⟩
          registered := fun i r hi hr => (h.registered i r hi hr).frame rfl rfl rfl
          listed := h.listed.frame rfl rfl rfl }
      rw [hj]
      refine wpc_bind (wpc_bind (wpc_onKernel (wpc_store h₀ (hC _ hundone) (wpc_pure (hC _ hundone) ?_))))
      exact wpc_store (hC _ hundone) (hC _ (hundone.clear rfl)) (hQ _ rfl (hundone.clear rfl))

/-- Recovery completes an insertion that is under way. It leaves the stacks alone. -/
theorem Halted.wpc_recover (h : Halted t regs n s) (hn : n < 2 ^ opCodeShift)
    (hmark : s.kernel.op = .readyListInsert → ∀ i, s.kernel.current = some i → n ≤ i)
    (hstacked : Stacked t regs old n s) (hold : old ≤ n) (hC : ∀ c, Halted t regs n c → C c)
    (hQ : ∀ m s', Resumed t regs old n m s' → Q () s') : wpc (recover t) Q E C s := by
  refine wpc_bind (h.wpc_rollBack hC fun k hk h₁ => wpc_onKernel ?_)
  have hmark₁ : k.op = .readyListInsert → ∀ i, k.current = some i → n ≤ i := by
    rw [hk]
    exact hmark
  refine h₁.listed.wpc_recover hn h₁.current hmark₁ (fun i hi => h₁.prio hi) ?_ ?_
  · exact fun k hk hl => hC _ (h₁.calm hk hl)
  · intro m k hnm hmn hk hidle
    refine hQ m _ ⟨h₁.calm hk (hidle.listed hnm hmn), ?_, hold, rfl, hidle, hnm, hmn⟩
    exact hstacked.congr rfl rfl rfl

end Boot

end IntOS
