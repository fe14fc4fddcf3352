import IntOS.User.Info
import IntOS.Tx.Lemmas.Position

/-!
# The ids in `ptr` and in `tail`

While user code runs `ptr` is not past `tail`, except at the end of a turn of a loop.
-/

namespace IntOS

open Persist Persist.Prog UserTxInfo

variable {b : Board} {w : PtrWidth} {u : UserTxInfo} {x : TxCache}

/-! ## Ids in both positions -/

namespace TxCache

/-- `ptr` is not past `tail`. -/
def Ordered (w : PtrWidth) (x : TxCache) : Prop := x.getTxIdOfPtr w ≤ x.getTxIdOfTail w

end TxCache

theorem txIdOf_succ (w : PtrWidth) (p : Nat) : txIdOf w ((p + 1) % 2 ^ w.bits) = (txIdOf w p + 1) % idLimit w := by
  have hword : idLimit w ∣ 2 ^ w.bits := by cases w <;> decide
  rw [txIdOf_eq, txIdOf_eq, Nat.mod_mod_of_dvd _ hword, Nat.mod_add_mod]

theorem txIdOf_advanceCompositeId (w : PtrWidth) (id off n : Nat) :
    txIdOf w (TxCache.advanceCompositeId w id off n) = (id + 1) % idLimit w := by
  have hword : idLimit w ∣ 2 ^ w.bits := by cases w <;> decide
  have hlow : ((off + n) <<< txCachePtrShift w % 2 ^ w.bits) % idLimit w = 0 := by
    rw [Nat.mod_mod_of_dvd _ hword, Nat.shiftLeft_eq]
    exact Nat.mul_mod_left _ _
  rw [txIdOf_eq, TxCache.advanceCompositeId, idLimit, Nat.or_mod_two_pow, ← idLimit, hlow, Nat.or_zero]

namespace TxCache

theorem keeps_copyResult (i : Nat) (res : List UInt8) : Keeps (fun x => (x.ptr, x.tail)) (copyResult b i res) := by
  induction res generalizing i with
  | nil => exact keeps_pure _
  | cons v res ih =>
      refine (keeps_check _).bind fun _ => Keeps.bind ?_ fun _ => ih _
      exact keeps_store fun _ => rfl

/-- A commit moves both positions from one id to the next; in between `ptr` is behind, unless the ids are used up. -/
theorem wpc_cacheResult_ordered (r : List UInt8) (h : x.getTxIdOfPtr b.width = x.getTxIdOfTail b.width) :
    wpc (cacheResult b r) (fun _ y => y.Ordered b.width) True
      (fun y => x.getTxIdOfTail b.width + 1 < idLimit b.width → y.Ordered b.width) x := by
  have hsame : ∀ y : TxCache, (y.ptr, y.tail) = (x.ptr, x.tail) → y.Ordered b.width := by
    intro y hy
    obtain ⟨hptr, htail⟩ := Prod.mk.inj hy
    rw [Ordered, getTxIdOfPtr, getTxIdOfTail, hptr, htail]
    exact Nat.le_of_eq h
  have hmid : ∀ (y : TxCache) (t : Nat), y.ptr = x.ptr →
      txIdOf b.width t = (x.getTxIdOfTail b.width + 1) % idLimit b.width →
      x.getTxIdOfTail b.width + 1 < idLimit b.width → ({ y with tail := t } : TxCache).Ordered b.width := by
    intro y t hptr ht hlt
    rw [Ordered, getTxIdOfTail, ht, Nat.mod_eq_of_lt hlt, ← h, getTxIdOfPtr, hptr]
    exact Nat.le_succ _
  have hend : ∀ (y : TxCache) (t p : Nat), txIdOf b.width t = (x.getTxIdOfTail b.width + 1) % idLimit b.width →
      txIdOf b.width p = (x.getTxIdOfTail b.width + 1) % idLimit b.width →
      ({ y with tail := t, ptr := p } : TxCache).Ordered b.width := by
    intro y t p ht hp
    rw [Ordered, getTxIdOfTail, getTxIdOfPtr, ht, hp]
  unfold cacheResult
  split
  · refine wpc_bind (wpc_gets (fun _ => hsame x rfl) (wpc_bind ?_))
    refine wpc_check (fun _ => hsame x rfl) (fun _ => trivial) fun _ => wpc_bind ?_
    refine wpc_check (fun _ => hsame x rfl) (fun _ => trivial) fun _ => wpc_bind ?_
    refine wpc_mono (keeps_copyResult _ r x) (fun _ y hy => ?_) fun y hy _ => hsame y hy
    obtain ⟨hptr, htail⟩ := Prod.mk.inj hy
    refine wpc_bind (wpc_gets (fun _ => hsame y hy) (wpc_bind ?_))
    have hadv := txIdOf_advanceCompositeId b.width (y.getTxIdOfTail b.width) (x.getTxCachePtrOfTail b.width) r.length
    have hid : y.getTxIdOfTail b.width = x.getTxIdOfTail b.width := by rw [getTxIdOfTail, htail]; exact rfl
    rw [hid] at hadv ⊢
    have hflag := (txIdOf_or_txCommitted b.width _).trans hadv
    exact wpc_store (fun _ => hsame y hy) (hmid y _ hptr hflag)
      (wpc_store (hmid y _ hptr hflag) (fun _ => hend y _ _ hflag hadv) (hend y _ _ hflag hadv))
  · unfold commitNoRetValue addUsize
    have htail := (txIdOf_or_txCommitted b.width _).trans (txIdOf_succ b.width x.tail)
    have hptr : txIdOf b.width ((x.ptr + 1) % 2 ^ b.width.bits) =
        (x.getTxIdOfTail b.width + 1) % idLimit b.width := by
      rw [txIdOf_succ, ← h]
      rfl
    refine wpc_bind (wpc_gets (fun _ => hsame x rfl) (wpc_bind (wpc_bind ?_)))
    refine wpc_check (fun _ => hsame x rfl) (fun _ => trivial) fun _ => wpc_pure (fun _ => hsame x rfl) (wpc_bind ?_)
    refine wpc_store (fun _ => hsame x rfl) (hmid x _ rfl htail) (wpc_bind ?_)
    refine wpc_gets (hmid x _ rfl htail) (wpc_bind (wpc_bind ?_))
    refine wpc_check (hmid x _ rfl htail) (fun _ => trivial) fun _ => wpc_pure (hmid x _ rfl htail) ?_
    exact wpc_store (hmid x _ rfl htail) (fun _ => hend x _ _ htail hptr) (hend x _ _ htail hptr)

theorem wpc_tryRetrieveResult_ordered (n : Nat) (h : x.Ordered b.width) :
    wpc (tryRetrieveResult b n) (fun r y => y.Ordered b.width ∧
      (r = none → y = x ∧ x.getTxIdOfPtr b.width = x.getTxIdOfTail b.width)) True
      (fun y => y.Ordered b.width) x := by
  have hlt : x.getTxIdOfTail b.width < idLimit b.width := by
    rw [getTxIdOfTail, txIdOf_eq]
    exact Nat.mod_lt _ (Nat.two_pow_pos _)
  unfold tryRetrieveResult
  refine wpc_bind (wpc_gets h (wpc_bind (wpc_gets h ?_)))
  split
  case isFalse hge => exact wpc_pure h ⟨h, fun _ => ⟨rfl, Nat.le_antisymm h (Nat.le_of_not_lt hge)⟩⟩
  case isTrue hptr =>
    have hnext : ∀ p, txIdOf b.width p = (x.getTxIdOfPtr b.width + 1) % idLimit b.width →
        ({ x with ptr := p } : TxCache).Ordered b.width := by
      intro p hp
      rw [Ordered, getTxIdOfPtr, hp, Nat.mod_eq_of_lt (by omega)]
      exact hptr
    split
    · refine wpc_bind (wpc_gets h (wpc_bind (wpc_check h (fun _ => trivial) fun _ => wpc_bind ?_)))
      refine wpc_check h (fun _ => trivial) fun _ => wpc_bind (wpc_gets h (wpc_bind (wpc_gets h (wpc_bind ?_))))
      have hadv := hnext _ (txIdOf_advanceCompositeId _ _ (x.getTxCachePtrOfPtr b.width) n)
      exact wpc_store h hadv (wpc_pure hadv ⟨hadv, nofun⟩)
    · unfold advancePtrOnEmpty addUsize
      have hadv := hnext _ (txIdOf_succ _ x.ptr)
      refine wpc_bind (wpc_bind (wpc_gets h (wpc_bind (wpc_bind (wpc_check h (fun _ => trivial) fun _ => ?_)))))
      exact wpc_pure h (wpc_store h hadv (wpc_pure hadv ⟨hadv, nofun⟩))

end TxCache

/-! ## Transactions -/

namespace Transaction

variable {t : Transaction}

/-- The ids of `ptr` and of `tail`. -/
def ids (w : PtrWidth) (t : Transaction) : Nat × Nat := (t.cache.getTxIdOfPtr w, t.cache.getTxIdOfTail w)

theorem keeps_ids_onPm {α : Type} (m : Prog Pmem α) : Keeps (ids w) (onPm m) := keeps_zoom fun _ _ => rfl

theorem keeps_ids_decNesting : Keeps (ids w) (decNesting b) := by
  unfold decNesting
  split
  · refine (keeps_gets _).bind fun _ => (keeps_check _).bind fun _ => Keeps.bind ?_ fun _ => ?_
    · exact keeps_store fun _ => rfl
    · exact (keeps_gets _).bind fun _ => keeps_check _
  · exact keeps_pure _

theorem keeps_ids_begin : Keeps (ids b.width) (begin b) := by
  refine Keeps.bind ?_ fun _ t => ?_
  · unfold incNesting
    split
    · refine Keeps.bind (keeps_store fun _ => rfl) fun _ => (keeps_gets _).bind fun _ => keeps_check _
    · exact keeps_pure _
  · refine wpc_zoom rfl (wpc_store rfl ?_ ?_)
    · simp only [ids, TxCache.getTxIdOfTail, txIdOf_clear]
      rfl
    · simp only [ids, TxCache.getTxIdOfTail, txIdOf_clear]
      rfl

/-- What every failure leaves, if the ids are not used up. -/
def OrderedIfRoom (b : Board) (t t' : Transaction) : Prop :=
  t.cache.getTxIdOfTail b.width + 1 < idLimit b.width → t'.cache.Ordered b.width

theorem ordered_of_ids {t' : Transaction} (h : (ids b.width t).1 = (ids b.width t).2)
    (hids : ids b.width t' = ids b.width t) : t'.cache.Ordered b.width := by
  obtain ⟨hptr, htail⟩ := Prod.mk.inj hids
  rw [TxCache.Ordered, hptr, htail]
  exact Nat.le_of_eq h

theorem wpc_cacheResult_of_ids (r : List UInt8) {t' : Transaction} (h : (ids b.width t).1 = (ids b.width t).2)
    (hids : ids b.width t' = ids b.width t) :
    wpc (onCache (TxCache.cacheResult b r)) (fun _ t'' => t''.cache.Ordered b.width) True (OrderedIfRoom b t) t' := by
  obtain ⟨hptr, htail⟩ := Prod.mk.inj hids
  refine wpc_zoom rfl (wpc_mono (TxCache.wpc_cacheResult_ordered r (hptr.trans (h.trans htail.symm))) ?_ ?_)
  · exact fun _ _ h => h
  · exact fun y hy hroom => hy (htail ▸ hroom)

theorem wpc_run_ordered {α : Type} (f : Body b.width α) (enc : α → List UInt8)
    (h : (ids b.width t).1 = (ids b.width t).2) :
    wpc (run b f enc) (fun _ t' => t'.cache.Ordered b.width) True (OrderedIfRoom b t) t := by
  have hC : ∀ t', ids b.width t' = ids b.width t → OrderedIfRoom b t t' := fun t' ht _ => ordered_of_ids h ht
  refine wpc_bind (wpc_mono (keeps_ids_begin t) (fun _ t₁ h₁ => wpc_bind ?_) hC)
  refine wpc_mono (keeps_ids_onPm _ t₁) (fun ret t₂ h₂ => wpc_bind (wpc_bind ?_)) fun t' ht => hC t' (ht.trans h₁)
  have h₂ := h₂.trans h₁
  refine wpc_mono (keeps_ids_decNesting t₂) (fun _ t₃ h₃ => wpc_bind ?_) fun t' ht => hC t' (ht.trans h₂)
  refine wpc_mono (wpc_cacheResult_of_ids (enc ret) h (h₃.trans h₂)) (fun _ t₄ h₄ => ?_) fun _ ht => ht
  have hkeep : ∀ t', ids b.width t' = ids b.width t₄ → t'.cache.Ordered b.width := by
    intro t' ht
    obtain ⟨hptr, htail⟩ := Prod.mk.inj ht
    rw [TxCache.Ordered, hptr, htail]
    exact h₄
  refine wpc_mono (keeps_ids_onPm Journal.clear t₄) (fun _ t₅ h₅ => ?_) fun t' ht _ => hkeep t' ht
  exact wpc_pure (fun _ => hkeep t₅ h₅) (hkeep t₅ h₅)

end Transaction

namespace UserTxInfo

/-- `ptr` is not past `tail`, which `jit_recovery` would take for a turn to be ended. -/
def Ordered (b : Board) (u : UserTxInfo) : Prop := u.userTx.cache.Ordered b.width

/-- There is an id for one more result. -/
def HasId (b : Board) (u : UserTxInfo) : Prop := u.userTx.cache.getTxIdOfTail b.width + 1 < idLimit b.width

theorem wpc_run_ordered (f : UserTx b) (h : u.Ordered b) :
    wpc (run b f) (fun _ u' => u'.Ordered b) True (fun s => u.HasId b → s.Ordered b) u := by
  unfold run checkLevel
  refine wpc_bind (wpc_bind (wpc_gets (fun _ => h) (wpc_check (fun _ => h) (fun _ => trivial) fun _ => ?_)))
  refine wpc_bind (wpc_zoom rfl (wpc_zoom rfl (wpc_mono (TxCache.wpc_tryRetrieveResult_ordered f.size h) ?_ ?_)))
  · rintro (_ | r) y ⟨hy, hnone⟩
    · obtain ⟨rfl, hids⟩ := hnone rfl
      exact wpc_zoom rfl (wpc_mono (Transaction.wpc_run_ordered f.body id hids) (fun _ _ h => h) fun _ h => h)
    · unfold checkBypass
      refine wpc_bind (wpc_bind (wpc_gets (fun _ => hy) (wpc_check (fun _ => hy) (fun _ => trivial) fun _ => ?_)))
      exact wpc_pure (fun _ => hy) hy
  · exact fun y hy _ => hy

theorem wpc_fastRunSet_ordered (i v : Nat) (h : u.Ordered b) :
    wpc (fastRunSet b i v) (fun _ u' => u'.Ordered b) True (fun s => u.HasId b → s.Ordered b) u := by
  unfold fastRunSet checkLevel
  refine wpc_bind (wpc_bind (wpc_gets (fun _ => h) (wpc_check (fun _ => h) (fun _ => trivial) fun _ => ?_)))
  refine wpc_bind (wpc_zoom rfl (wpc_zoom rfl (wpc_mono (TxCache.wpc_tryRetrieveResult_ordered 0 h) ?_ ?_)))
  · rintro (_ | r) y ⟨hy, hnone⟩
    · obtain ⟨rfl, hids⟩ := hnone rfl
      have hC : ∀ t, Transaction.ids b.width t = Transaction.ids b.width u.userTx →
          Transaction.OrderedIfRoom b u.userTx t := fun t ht _ => Transaction.ordered_of_ids hids ht
      refine wpc_bind (wpc_zoom rfl (wpc_mono (Transaction.keeps_ids_begin u.userTx) (fun _ t₁ h₁ => ?_) hC))
      refine wpc_bind (wpc_store (hC t₁ h₁) (hC t₁ h₁) (wpc_zoom rfl (wpc_bind ?_)))
      refine wpc_mono (Transaction.keeps_ids_decNesting t₁) (fun _ t₂ h₂ => ?_) fun t ht => hC t (ht.trans h₁)
      exact Transaction.wpc_cacheResult_of_ids [] hids (h₂.trans h₁)
    · unfold checkBypass
      exact wpc_bind (wpc_gets (fun _ => hy) (wpc_check (fun _ => hy) (fun _ => trivial) fun _ => hy))
  · exact fun y hy _ => hy

end UserTxInfo

end IntOS
