import IntOS.Tx.Lemmas.Run
import IntOS.User.Semantics

/-!
# Positions of user code

`ReadyAt` is a state between two steps of user code, `Left` what a failure leaves, a loop being left
included: there `ptr` is past `tail`, and recovery still has to move the counter.
-/

namespace IntOS

open Persist Persist.Prog Transaction UserTxInfo

variable {b : Board} {pre rest rs : List (List UInt8)} {x y : Data} {u : UserTxInfo} {depth : Nat}

structure ReadyAt (b : Board) (depth : Nat) (pre rest : List (List UInt8)) (x : Data) (u : UserTxInfo) :
    Prop where
  tx : Ready b pre rest x.mem u.userTx
  counters : u.counters = x.counters
  stackTop : u.stackTop = depth
  recovering : rest = [] ∨ u.recoveryMode = true

/-- Either `ptr` is not past `tail` and the counters are those of `y`, or they will be when recovery has set
the logged counter. -/
def CounterSettles (b : Board) (rs : List (List UInt8)) (y : Data) (u : UserTxInfo) : Prop :=
  (u.userTx.cache.getTxIdOfPtr b.width ≤ rs.length ∧ u.counters = y.counters) ∨
    (rs.length < u.userTx.cache.getTxIdOfPtr b.width ∧ ∃ i, u.loopCntPtr = some i ∧
      u.loopCntLog + u.step < 2 ^ b.width.bits ∧
      y.counters = Function.update u.counters i (u.loopCntLog + u.step))

structure Left (b : Board) (rs : List (List UInt8)) (y : Data) (u : UserTxInfo) : Prop where
  fits : Fits b rs
  committed : Committed b rs u.userTx.cache
  settles : Settles b y.mem u.userTx
  counter : CounterSettles b rs y u

theorem Left.of_stable (h : Stable b rs y.mem u.userTx) (hf : Fits b rs)
    (hc : u.counters = y.counters) : Left b rs y u :=
  ⟨hf, h.committed, h.settles, Or.inl ⟨h.ptr_le, hc⟩⟩

theorem ReadyAt.left (h : ReadyAt b depth pre rest x u) (hf : Fits b (pre ++ rest)) :
    Left b (pre ++ rest) x u := Left.of_stable (h.tx.stable hf) hf h.counters

theorem ReadyAt.left_nil (h : ReadyAt b depth rs [] x u) (hf : Fits b rs) : Left b rs x u := by
  have hl := h.left (by rw [List.append_nil]; exact hf)
  rwa [List.append_nil] at hl

/-- Results that are not retrieved again are dropped by moving `tail` back. -/
theorem Committed.truncate {c : TxCache} {p : Nat} (h : Committed b (pre ++ rest) c)
    (hp : IsPos b.width p pre) : Committed b pre { c with tail := p } := by
  refine ⟨hp, ?_⟩
  have hst := h.stored
  rw [List.flatten_append, List.length_append, TxCache.readResult_add] at hst
  exact (List.append_inj hst (TxCache.readResult_length _ _ _)).1

/-! ## Recovery -/

theorem wpc_setLoopCnt {E : Prop} {C : UserTxInfo → Prop} {Q : Unit → UserTxInfo → Prop} {i : Nat}
    (hptr : u.loopCntPtr = some i) (hlt : u.loopCntLog + u.step < 2 ^ b.width.bits) (hC : C u)
    (hC' : C { u with counters := Function.update u.counters i (u.loopCntLog + u.step) })
    (hQ : Q () { u with counters := Function.update u.counters i (u.loopCntLog + u.step) }) :
    wpc (setLoopCnt b) Q E C u := by
  unfold setLoopCnt
  refine wpc_bind (wpc_gets hC ?_)
  rw [hptr]
  refine wpc_bind (wpc_gets hC (wpc_bind (wpc_gets hC (wpc_bind (wpc_addUsize hlt hC ?_)))))
  exact wpc_store hC hC' hQ

/-- The state of a recovery that has set the counter: `tail`, memory and counters are those of `y`. -/
structure CounterSet (b : Board) (rs : List (List UInt8)) (y : Data) (u : UserTxInfo) : Prop where
  fits : Fits b rs
  committed : Committed b rs u.userTx.cache
  settles : Settles b y.mem u.userTx
  counters : u.counters = y.counters
  recoveryMode : u.recoveryMode = true
  again : rs.length < u.userTx.cache.getTxIdOfPtr b.width → ∃ i, u.loopCntPtr = some i ∧
    u.loopCntLog + u.step < 2 ^ b.width.bits ∧ u.counters i = u.loopCntLog + u.step

theorem CounterSet.left (h : CounterSet b rs y u) : Left b rs y u := by
  refine ⟨h.fits, h.committed, h.settles, ?_⟩
  by_cases hlt : rs.length < u.userTx.cache.getTxIdOfPtr b.width
  · obtain ⟨i, hi, hw, hc⟩ := h.again hlt
    refine Or.inr ⟨hlt, i, hi, hw, ?_⟩
    rw [← hc, Function.update_eq_self, h.counters]
  · exact Or.inl ⟨Nat.le_of_not_lt hlt, h.counters⟩

/-- Only the journal and the nesting level change until `restart`. -/
theorem CounterSet.setTx (h : CounterSet b rs y u) {t : Transaction} (hs : Settles b y.mem t)
    (hc : t.cache = u.userTx.cache) : CounterSet b rs y { u with userTx := t } := by
  refine ⟨h.fits, ?_, hs, h.counters, h.recoveryMode, ?_⟩
  · simp only [hc]
    exact h.committed
  · simp only [hc]
    exact h.again

theorem wpc_restart {E : Prop} (h : CounterSet b rs y u) (hmem : u.userTx.pm.mem = y.mem)
    (hw : u.userTx.pm.journal.WellFormed) (ht : u.userTx.pm.journal.tail = 0)
    (hn : u.userTx.nestingLevel = 0) :
    wpc restart (fun _ u' => ReadyAt b 0 [] rs y u') E (Left b rs y) u := by
  have hready : ∀ top, top = 0 → ReadyAt b 0 [] rs y
      { u with userTx := { u.userTx with cache := { u.userTx.cache with ptr := 0 } }, stackTop := top } :=
    fun top htop => ⟨⟨h.committed.congr rfl fun _ _ => rfl, Or.inl (position_nil _).symm, hmem, hw, ht, hn⟩,
      h.counters, htop, Or.inr h.recoveryMode⟩
  have hl := (hready 0 rfl).left h.fits
  have hleft : Left b rs y { u with userTx := { u.userTx with cache := { u.userTx.cache with ptr := 0 } } } :=
    ⟨hl.fits, hl.committed, hl.settles, hl.counter⟩
  refine wpc_bind (wpc_zoom rfl (wpc_zoom rfl (wpc_store h.left hleft ?_)))
  exact wpc_store hleft ((hready 0 rfl).left h.fits) (hready 0 rfl)

theorem wpc_userRecovery (h : CounterSet b rs y u) :
    wpc (userRecovery b) (fun _ u' => ReadyAt b 0 [] rs y u') False (Left b rs y) u := by
  have hset : ∀ t, SettlesFrom b y.mem u.userTx t → CounterSet b rs y { u with userTx := t } :=
    fun t ht => h.setTx ht.1 ht.2.1
  -- both branches end with the nesting level at 0
  have hend : ∀ t, Settled y.mem u.userTx t →
      wpc (onTx (store fun t => { t with nestingLevel := 0 }))
        (fun _ => wpc restart (fun _ u' => ReadyAt b 0 [] rs y u') False (Left b rs y)) False (Left b rs y)
        { u with userTx := t } := by
    intro t ht
    have h₁ := hset t ht.settlesFrom
    have h₂ : CounterSet b rs y { u with userTx := { t with nestingLevel := 0 } } :=
      h.setTx ht.settlesFrom.1 ht.cache
    refine wpc_zoom rfl (wpc_store h₁.left h₂.left ?_)
    exact wpc_restart h₂ ht.mem ht.wellFormed ht.tail rfl
  unfold userRecovery
  refine wpc_bind (wpc_zoom rfl (wpc_mono (wpc_checkCommitted h.settles) ?_ fun t ht => (hset t ht).left))
  rintro a t (⟨rfl, ht⟩ | ⟨rfl, rfl, hf, hund⟩)
  · exact wpc_bind (hend t ht)
  · refine wpc_bind (wpc_zoom rfl (wpc_mono (wpc_recover hf hund) ?_ fun t ht => (hset t ht).left))
    exact fun _ t ht => wpc_bind (hend t ht)

/-- `jit_recovery` from whatever a failure left: the task starts again with the results `rs` to replay. -/
theorem wpc_jitRecovery (h : Left b rs y u) :
    wpc (jitRecovery b) (fun _ u' => ReadyAt b 0 [] rs y u') False (Left b rs y) u := by
  have h₁ : Left b rs y { u with recoveryMode := true } := ⟨h.fits, h.committed, h.settles, h.counter⟩
  unfold jitRecovery
  refine wpc_bind (wpc_store h h₁ (wpc_bind (wpc_gets h₁ (wpc_bind (wpc_gets h₁ ?_)))))
  rw [h₁.committed.txIdOf h.fits]
  split
  case isTrue hlt =>
    rcases h.counter with ⟨hle, _⟩ | ⟨_, i, hi, hw, hy⟩
    · exact absurd hlt (Nat.not_lt.mpr hle)
    · have hset : CounterSet b rs y { u with
          recoveryMode := true
          counters := Function.update u.counters i (u.loopCntLog + u.step) } :=
        ⟨h.fits, h.committed, h.settles, hy.symm, rfl, fun _ => ⟨i, hi, hw, Function.update_self _ _ _⟩⟩
      exact wpc_bind (wpc_setLoopCnt hi hw h₁ hset.left (wpc_userRecovery hset))
  case isFalse hle =>
    rcases h.counter with ⟨_, hc⟩ | ⟨hlt, _⟩
    · have hset : CounterSet b rs y { u with recoveryMode := true } :=
        ⟨h.fits, h.committed, h.settles, hc, rfl, fun hlt => absurd hlt hle⟩
      exact wpc_userRecovery hset
    · exact absurd hlt hle

end IntOS
