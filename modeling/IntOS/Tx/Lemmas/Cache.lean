import IntOS.Tx.Lemmas.Position

/-!
# What the cache holds

`Committed b rs s`: the position in `tail` counts the results `rs`, and `cache` begins with their bytes.
A commit moves from `rs` to `rs ++ [res]` with its store of `tail`; a retrieval reads the next of them.
-/

namespace IntOS

open Persist Persist.Prog

variable {b : Board}

/-! ## Bytes of results -/

namespace TxCache

theorem readResult_length (cache : Nat → UInt8) (i n : Nat) : (readResult cache i n).length = n := by
  induction n generalizing i with
  | zero => rfl
  | succ n ih => simp only [readResult, List.length_cons, ih]

theorem readResult_add (cache : Nat → UInt8) (i m n : Nat) :
    readResult cache i (m + n) = readResult cache i m ++ readResult cache (i + m) n := by
  induction m generalizing i with
  | zero => simp [readResult]
  | succ m ih =>
      rw [Nat.add_right_comm m 1 n]
      simp only [readResult, List.cons_append]
      rw [ih (i + 1), Nat.add_assoc i 1 m, Nat.add_comm 1 m]

theorem readResult_congr {cache cache' : Nat → UInt8} {i n : Nat}
    (h : ∀ j, i ≤ j → j < i + n → cache j = cache' j) : readResult cache i n = readResult cache' i n := by
  induction n generalizing i with
  | zero => rfl
  | succ n ih =>
      simp only [readResult]
      rw [h i (by omega) (by omega), ih fun j h1 h2 => h j (by omega) (by omega)]

/-- Copying a result. It stops early only when the result does not fit. -/
theorem wpc_copyResult {E : Prop} {i : Nat} {res : List UInt8} (h : i + res.length ≤ b.txCacheSz ∨ E)
    (s : TxCache) :
    wpc (copyResult b i res)
      (fun _ s' => ∃ cache, s' = { s with cache := cache } ∧ readResult cache i res.length = res ∧
        ∀ j, j < i → cache j = s.cache j) E
      (fun c => ∃ cache, c = { s with cache := cache } ∧ ∀ j, j < i → cache j = s.cache j) s := by
  induction res generalizing i s with
  | nil => exact wpc_pure ⟨s.cache, rfl, fun _ _ => rfl⟩ ⟨s.cache, rfl, rfl, fun _ _ => rfl⟩
  | cons v res ih =>
      rw [List.length_cons] at h
      have hC : ∃ cache, s = { s with cache := cache } ∧ ∀ j, j < i → cache j = s.cache j :=
        ⟨s.cache, rfl, fun _ _ => rfl⟩
      have hupd : ∀ j, j < i → Function.update s.cache i v j = s.cache j :=
        fun j hj => Function.update_of_ne (Nat.ne_of_lt hj) _ _
      refine wpc_bind (wpc_check hC (fun hn => h.resolve_left (by omega)) fun _ => ?_)
      refine wpc_bind (wpc_store hC ⟨_, rfl, hupd⟩ ?_)
      refine wpc_mono (ih (h.imp_left (by omega)) _) ?_ ?_
      · rintro _ s' ⟨cache, rfl, hr, hb⟩
        refine ⟨cache, rfl, ?_, fun j hj => ?_⟩
        · have hv : cache i = v := by rw [hb i (by omega)]; exact Function.update_self _ _ _
          simp only [List.length_cons, readResult, hv, hr]
        · rw [hb j (by omega)]
          exact hupd j hj
      · rintro c ⟨cache, rfl, hb⟩
        refine ⟨cache, rfl, fun j hj => ?_⟩
        rw [hb j (by omega)]
        exact hupd j hj

theorem copyResult_trace_length {i : Nat} {res : List UInt8} (h : i + res.length ≤ b.txCacheSz)
    (s : TxCache) : (copyResult b i res s).trace.length = res.length := by
  induction res generalizing i s with
  | nil => rfl
  | cons v res ih =>
      rw [List.length_cons] at h
      rw [copyResult, check_bind_apply, if_pos (by omega), store_bind_apply, List.length_cons,
        ih (by omega), List.length_cons]

end TxCache

theorem wpc_addUsize {σ : Type} {Q : Nat → σ → Prop} {E : Prop} {C : σ → Prop} {x y : Nat} {s : σ}
    (h : x + y < 2 ^ b.width.bits) (hC : C s) (hQ : Q (x + y) s) : wpc (addUsize b x y) Q E C s := by
  refine wpc_bind (wpc_check hC (fun hn => absurd (fun _ => h) hn) fun _ => wpc_pure hC ?_)
  rw [Nat.mod_eq_of_lt h]
  exact hQ

theorem addUsize_bind_apply {σ β : Type} {x y : Nat} (h : x + y < 2 ^ b.width.bits) (f : Nat → Prog σ β)
    (s : σ) : (addUsize b x y >>= f) s = f (x + y) s := by
  have ho : (addUsize b x y s : Run σ Nat) = ⟨[], some (x + y, s)⟩ := by
    unfold addUsize
    rw [check_bind_apply, if_pos fun _ => h, pure_apply, Nat.mod_eq_of_lt h]
  rw [bind_of_out (by rw [ho]), ho, List.nil_append]

theorem CommitsAt.addUsize {σ β : Type} {R : β → σ → Prop} {C C' : σ → Prop} {s : σ} {x y n : Nat}
    {f : Nat → Prog σ β} (h : x + y < 2 ^ b.width.bits) (hf : CommitsAt (f (x + y)) n R C C' s) :
    CommitsAt (IntOS.addUsize b x y >>= f) n R C C' s := by
  constructor
  · rw [addUsize_bind_apply h]; exact hf.before
  · rw [addUsize_bind_apply h]; exact hf.after
  · rw [addUsize_bind_apply h]; exact hf.returns

theorem Board.txCacheSz_lt (b : Board) : b.txCacheSz < offLimit b.width := by
  unfold Board.txCacheSz
  cases b.width <;> split <;> decide

/-! ## Committed results -/

/-- The position after the results `rs`. -/
def position (w : PtrWidth) (rs : List (List UInt8)) : Nat := posOf w rs.length rs.flatten.length

/-- The results fit the cache and the transaction ids. -/
def Fits (b : Board) (rs : List (List UInt8)) : Prop :=
  rs.length < idLimit b.width ∧ rs.flatten.length ≤ b.txCacheSz

/-- The word stands for the position after `rs`. `tail` has the flag of its last transaction, and `ptr` that
of the loop it left. -/
def IsPos (w : PtrWidth) (x : Nat) (rs : List (List UInt8)) : Prop :=
  x = position w rs ∨ x = position w rs ||| txCommitted w

structure Committed (b : Board) (rs : List (List UInt8)) (s : TxCache) : Prop where
  tail : IsPos b.width s.tail rs
  stored : TxCache.readResult s.cache 0 rs.flatten.length = rs.flatten

section
variable {w : PtrWidth} {rs : List (List UInt8)} {res : List UInt8} {s : TxCache}

@[simp] theorem position_nil (w : PtrWidth) : position w [] = 0 := posOf_zero w

theorem Fits.off_lt (h : Fits b rs) : rs.flatten.length < offLimit b.width :=
  Nat.lt_of_le_of_lt h.2 b.txCacheSz_lt

theorem Fits.position_lt (h : Fits b rs) : position b.width rs < txCommitted b.width :=
  posOf_lt h.1 h.off_lt

theorem Fits.txIdOf (h : Fits b rs) : IntOS.txIdOf b.width (position b.width rs) = rs.length :=
  txIdOf_posOf h.1 _

theorem Fits.cachePtrOf (h : Fits b rs) :
    IntOS.cachePtrOf b.width (position b.width rs) = rs.flatten.length := cachePtrOf_posOf h.1 h.off_lt

theorem Fits.of_append {rs' : List (List UInt8)} (h : Fits b (rs ++ rs')) : Fits b rs := by
  obtain ⟨h1, h2⟩ := h
  rw [List.length_append] at h1
  rw [List.flatten_append, List.length_append] at h2
  exact ⟨by omega, by omega⟩

theorem IsPos.txIdOf {x : Nat} (h : IsPos b.width x rs) (hf : Fits b rs) :
    IntOS.txIdOf b.width x = rs.length := by
  rcases h with h | h
  · rw [h, hf.txIdOf]
  · rw [h, txIdOf_or_txCommitted, hf.txIdOf]

theorem IsPos.cachePtrOf {x : Nat} (h : IsPos b.width x rs) (hf : Fits b rs) :
    IntOS.cachePtrOf b.width x = rs.flatten.length := by
  rcases h with h | h
  · rw [h, hf.cachePtrOf]
  · rw [h, cachePtrOf_or_txCommitted, hf.cachePtrOf]

theorem Committed.txIdOf (h : Committed b rs s) (hf : Fits b rs) :
    s.getTxIdOfTail b.width = rs.length := h.tail.txIdOf hf

theorem Committed.cachePtrOf (h : Committed b rs s) (hf : Fits b rs) :
    s.getTxCachePtrOfTail b.width = rs.flatten.length := h.tail.cachePtrOf hf

theorem Committed.clear (h : Committed b rs s) (hf : Fits b rs) :
    s.tail &&& b.width.not (txCommitted b.width) = position b.width rs := by
  rcases h.tail with ht | ht
  · rw [ht, clear_of_lt hf.position_lt]
  · rw [ht, clear_or_txCommitted, clear_of_lt hf.position_lt]

/-- Only `tail` and the bytes of the results matter. -/
theorem Committed.congr {s' : TxCache} (h : Committed b rs s) (ht : s'.tail = s.tail)
    (hc : ∀ j, j < rs.flatten.length → s'.cache j = s.cache j) : Committed b rs s' := by
  refine ⟨by rw [ht]; exact h.tail, ?_⟩
  rw [TxCache.readResult_congr fun j _ hj => hc j (by omega)]
  exact h.stored

theorem Committed.clearFlag (h : Committed b rs s) (hf : Fits b rs) :
    Committed b rs { s with tail := s.tail &&& b.width.not (txCommitted b.width) } :=
  ⟨Or.inl (h.clear hf), h.stored⟩

theorem flatten_append_singleton_length (rs : List (List UInt8)) (res : List UInt8) :
    (rs ++ [res]).flatten.length = rs.flatten.length + res.length := by
  rw [List.flatten_append, List.length_append, List.flatten_singleton]

theorem Fits.offset_fits (h : Fits b (rs ++ [res])) : rs.flatten.length + res.length ≤ b.txCacheSz := by
  rw [← flatten_append_singleton_length]
  exact h.2

theorem Fits.length_succ (h : Fits b (rs ++ [res])) : rs.length + 1 < idLimit b.width := by
  have h1 := h.1
  rwa [List.length_append, List.length_singleton] at h1

theorem Fits.advance (h : Fits b (rs ++ [res])) :
    TxCache.advanceCompositeId b.width rs.length rs.flatten.length res.length =
      position b.width (rs ++ [res]) := by
  rw [TxCache.advanceCompositeId_eq h.length_succ (Nat.lt_of_le_of_lt h.offset_fits b.txCacheSz_lt),
    position, flatten_append_singleton_length, List.length_append, List.length_singleton]

theorem Fits.position_succ (h : Fits b (rs ++ [[]])) :
    position b.width rs + 1 = position b.width (rs ++ [[]]) := by
  rw [position, posOf_succ h.length_succ, position, flatten_append_singleton_length,
    List.length_append, List.length_singleton]
  rfl

theorem Fits.word_succ_lt (h : Fits b rs) :
    position b.width rs + txCommitted b.width + 1 ≤ 2 ^ b.width.bits := by
  have h1 := h.position_lt
  have h2 := two_mul_txCommitted_le b.width
  omega

/-- The new result behind the stored ones. -/
theorem Committed.snoc {s' : TxCache} (h : Committed b rs s)
    (hb : ∀ j, j < rs.flatten.length → s'.cache j = s.cache j)
    (hr : TxCache.readResult s'.cache rs.flatten.length res.length = res)
    (ht : s'.tail = position b.width (rs ++ [res]) ||| txCommitted b.width) :
    Committed b (rs ++ [res]) s' := by
  refine ⟨Or.inr ht, ?_⟩
  rw [flatten_append_singleton_length, TxCache.readResult_add, Nat.zero_add, hr,
    TxCache.readResult_congr fun j _ hj => hb j (by omega), h.stored, List.flatten_append,
    List.flatten_singleton]

/-! ## Commits -/

/-- A result of no bytes is counted by adding one. -/
theorem IsPos.succ {x : Nat} (h : IsPos b.width x rs) (hf : Fits b (rs ++ [[]])) :
    x + 1 < 2 ^ b.width.bits ∧ IsPos b.width (x + 1) (rs ++ [[]]) := by
  have hlt := hf.position_lt
  have hbits := two_mul_txCommitted_le b.width
  rcases h with h | h
  · rw [h, hf.position_succ]
    exact ⟨by omega, Or.inl rfl⟩
  · have hsucc : x + 1 = position b.width (rs ++ [[]]) ||| txCommitted b.width := by
      rw [h, or_txCommitted_of_lt hf.of_append.position_lt, or_txCommitted_of_lt hlt,
        ← hf.position_succ]
      omega
    refine ⟨?_, Or.inr hsucc⟩
    rw [hsucc, or_txCommitted_of_lt hlt]
    omega

theorem IsPos.or_txCommitted {x : Nat} (h : IsPos b.width x rs) :
    x ||| txCommitted b.width = position b.width rs ||| txCommitted b.width := by
  rcases h with h | h
  · rw [h]
  · rw [h, Nat.or_assoc, Nat.or_self]

theorem commitsAt_commitNoRetValue (h : Committed b rs s) (hp : s.ptr = position b.width rs)
    (hf : Fits b (rs ++ [[]])) :
    CommitsAt (TxCache.commitNoRetValue b) 0
      (fun _ s' => Committed b (rs ++ [[]]) s' ∧ s'.ptr = position b.width (rs ++ [[]]))
      (Committed b rs) (Committed b (rs ++ [[]])) s := by
  obtain ⟨hlt, hpos⟩ := h.tail.succ hf
  have hptr : s.ptr + 1 < 2 ^ b.width.bits := (IsPos.succ (Or.inl hp) hf).1
  have hnew : ∀ ptr, Committed b (rs ++ [[]])
      { s with tail := (s.tail + 1) ||| txCommitted b.width, ptr := ptr } :=
    fun _ => h.snoc (fun _ _ => rfl) rfl hpos.or_txCommitted
  refine CommitsAt.gets (CommitsAt.addUsize hlt (CommitsAt.commit ?_))
  refine wpc_bind (wpc_gets (hnew _) (wpc_bind (wpc_addUsize hptr (hnew _) ?_)))
  exact wpc_store (hnew _) (hnew _) ⟨hnew _, by rw [← hf.position_succ, ← hp]⟩

/-- A commit moves on with its store of `tail`, the one after the bytes of the result. -/
theorem commitsAt_cacheResult (h : Committed b rs s) (hp : s.ptr = position b.width rs)
    (hf : Fits b (rs ++ [res])) :
    CommitsAt (TxCache.cacheResult b res) res.length
      (fun _ s' => Committed b (rs ++ [res]) s' ∧ s'.ptr = position b.width (rs ++ [res]))
      (Committed b rs) (Committed b (rs ++ [res])) s := by
  unfold TxCache.cacheResult
  split
  · have hoff := hf.offset_fits
    obtain ⟨_, s₁, ho, cache, rfl, hr, hb⟩ := (TxCache.wpc_copyResult (Or.inl hoff : _ ∨ False) s).returns
    refine CommitsAt.gets ?_
    rw [h.cachePtrOf hf.of_append]
    refine CommitsAt.check (fun _ => hoff) (CommitsAt.check (by omega) ?_)
    have hid : ({ s with cache := cache } : TxCache).getTxIdOfTail b.width = rs.length :=
      h.txIdOf hf.of_append
    have hnew : ∀ ptr, Committed b (rs ++ [res])
        { cache := cache, ptr := ptr, tail := position b.width (rs ++ [res]) ||| txCommitted b.width } :=
      fun _ => h.snoc hb hr rfl
    refine CommitsAt.bind (n := 0) ho (fun c hc => ?_) (TxCache.copyResult_trace_length hoff s)
      (CommitsAt.gets ?_)
    · obtain ⟨cache', rfl, hb'⟩ := (TxCache.wpc_copyResult (Or.inl hoff : _ ∨ False) s).trace hc
      exact h.congr rfl hb'
    · simp only [hid, hf.advance]
      exact CommitsAt.commit (wpc_store (hnew _) (hnew _) ⟨hnew _, rfl⟩)
  · obtain rfl : res = [] := List.length_eq_zero_iff.mp (by omega)
    exact commitsAt_commitNoRetValue h hp hf

/-! ## Retrieval -/

theorem Committed.stored_mid {pre rest : List (List UInt8)} {r : List UInt8}
    (h : Committed b (pre ++ r :: rest) s) :
    TxCache.readResult s.cache pre.flatten.length r.length = r := by
  have hst := h.stored
  rw [List.flatten_append, List.flatten_cons, List.length_append, List.length_append,
    TxCache.readResult_add, TxCache.readResult_add] at hst
  have h1 := List.append_inj hst (TxCache.readResult_length _ _ _)
  have h2 := List.append_inj h1.2 (TxCache.readResult_length _ _ _)
  rw [Nat.zero_add] at h2
  exact h2.1

/-- With `ptr` at an earlier position, `try_retrieve_result` returns the next result and moves `ptr` past
it. -/
theorem wpc_tryRetrieveResult_some {pre rest : List (List UInt8)} {r : List UInt8} {E : Prop}
    {C : TxCache → Prop} (h : Committed b (pre ++ r :: rest) s) (hf : Fits b (pre ++ r :: rest))
    (hp : IsPos b.width s.ptr pre) (hC : C s)
    (hC' : ∀ p, IsPos b.width p (pre ++ [r]) → C { s with ptr := p }) :
    wpc (TxCache.tryRetrieveResult b r.length)
      (fun o s' => o = some r ∧ ∃ p, s' = { s with ptr := p } ∧ IsPos b.width p (pre ++ [r]) ∧
        (s.ptr = position b.width pre → p = position b.width (pre ++ [r]))) E C s := by
  have hf₁ : Fits b (pre ++ [r]) := by
    rw [List.append_cons] at hf
    exact hf.of_append
  have hidp : s.getTxIdOfPtr b.width = pre.length := hp.txIdOf hf₁.of_append
  have hptr : s.getTxCachePtrOfPtr b.width = pre.flatten.length := hp.cachePtrOf hf₁.of_append
  have hlt : pre.length < (pre ++ r :: rest).length := by
    rw [List.length_append, List.length_cons]
    omega
  have hoff := hf₁.offset_fits
  unfold TxCache.tryRetrieveResult
  refine wpc_bind (wpc_gets hC (wpc_bind (wpc_gets hC ?_)))
  rw [hidp, h.txIdOf hf, if_pos hlt]
  split
  · refine wpc_bind (wpc_gets hC ?_)
    rw [hptr]
    refine wpc_bind (wpc_check hC (fun hn => absurd (by omega) hn) fun _ => ?_)
    refine wpc_bind (wpc_check hC (fun hn => absurd hoff hn) fun _ => ?_)
    refine wpc_bind (wpc_gets hC (wpc_bind (wpc_gets hC ?_)))
    rw [hidp, hf₁.advance]
    have hC₁ := hC' _ (Or.inl rfl)
    refine wpc_bind (wpc_store hC hC₁ (wpc_pure hC₁ ⟨by rw [h.stored_mid], _, rfl, Or.inl rfl, ?_⟩))
    exact fun _ => rfl
  · obtain rfl : r = [] := List.length_eq_zero_iff.mp (by omega)
    obtain ⟨hword, hpos⟩ := hp.succ hf₁
    refine wpc_bind (wpc_bind (wpc_gets hC (wpc_bind (wpc_addUsize hword hC ?_))))
    refine wpc_store hC (hC' _ hpos) (wpc_pure (hC' _ hpos) ⟨rfl, _, rfl, hpos, fun he => ?_⟩)
    rw [he, hf₁.position_succ]

/-- With `ptr` where `tail` is, `try_retrieve_result` fails and changes nothing. -/
theorem wpc_tryRetrieveResult_none {E : Prop} {C : TxCache → Prop} (n : Nat) (h : Committed b rs s)
    (hf : Fits b rs) (hp : IsPos b.width s.ptr rs) (hC : C s) :
    wpc (TxCache.tryRetrieveResult b n) (fun o s' => o = none ∧ s' = s) E C s := by
  have hid : s.getTxIdOfPtr b.width = rs.length := hp.txIdOf hf
  unfold TxCache.tryRetrieveResult
  refine wpc_bind (wpc_gets hC (wpc_bind (wpc_gets hC ?_)))
  rw [hid, h.txIdOf hf, if_neg (Nat.lt_irrefl _)]
  exact wpc_pure hC ⟨rfl, rfl⟩

end

end IntOS
