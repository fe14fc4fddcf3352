import IntOS.Tx.Lemmas.Transaction

/-!
# Cached transactions

`Ready b pre rest m s`: between transactions, in memory `m`, with `ptr` after the results `pre` and the
results `rest` still to be replayed. `Stable b rs m c` is what every failure leaves.
-/

namespace IntOS

open Persist Persist.Prog Transaction

variable {b : Board} {α : Type} {pre rest rs : List (List UInt8)} {m : Nat → UInt8} {s c : Transaction}

/-- The cache holds `rs`, `ptr` is not past them, and recovery ends with memory `m`. -/
structure Stable (b : Board) (rs : List (List UInt8)) (m : Nat → UInt8) (c : Transaction) : Prop where
  committed : Committed b rs c.cache
  settles : Settles b m c
  ptr_le : c.cache.getTxIdOfPtr b.width ≤ rs.length

structure Ready (b : Board) (pre rest : List (List UInt8)) (m : Nat → UInt8) (s : Transaction) :
    Prop where
  committed : Committed b (pre ++ rest) s.cache
  ptr : IsPos b.width s.cache.ptr pre
  mem : s.pm.mem = m
  wellFormed : s.pm.journal.WellFormed
  tail : s.pm.journal.tail = 0
  nestingLevel : s.nestingLevel = 0

theorem Ready.stable (h : Ready b pre rest m s) (hf : Fits b (pre ++ rest)) :
    Stable b (pre ++ rest) m s := by
  refine ⟨h.committed, ?_, ?_⟩
  · rw [← h.mem]
    exact settles_of_empty h.wellFormed h.tail
  · rw [TxCache.getTxIdOfPtr, h.ptr.txIdOf hf.of_append, List.length_append]
    exact Nat.le_add_right _ _

/-! ## One transaction -/

theorem Committed.of_unmoved {t c : TxCache} (h : Committed b rs t) (hf : Fits b rs)
    (hu : TxCache.Unmoved b t c) : Committed b rs c := by
  have hpos : t.tailPos b.width = IntOS.position b.width rs := h.clear hf
  refine ⟨?_, ?_⟩
  · rcases hu.tail with ht | ht | ht
    · rw [ht]
      exact h.tail
    · rw [ht]
      exact Or.inl hpos
    · rw [ht, hpos]
      exact Or.inr rfl
  · rw [TxCache.readResult_congr fun j _ hj => hu.kept j (by rw [h.cachePtrOf hf]; omega)]
    exact h.stored

theorem Committed.of_advanced {t c : TxCache} {res : List UInt8} (h : Committed b rs t)
    (hf : Fits b (rs ++ [res])) (ha : TxCache.Advanced b t res c) : Committed b (rs ++ [res]) c := by
  have hoff : t.getTxCachePtrOfTail b.width = rs.flatten.length := h.cachePtrOf hf.of_append
  have hpos : t.tailPos b.width = IntOS.position b.width rs := h.clear hf.of_append
  refine h.snoc (fun j hj => ha.kept j (by rw [hoff]; exact hj)) ?_ ?_
  · rw [← hoff]
    exact ha.stored
  · rw [ha.tail, advancedTail, hpos, hf.of_append.txIdOf, hf.of_append.cachePtrOf]
    split
    · rw [hf.advance]
    case isFalse hlen =>
      obtain rfl : res = [] := List.length_eq_zero_iff.mp (by omega)
      obtain ⟨hlt, hsucc⟩ := IsPos.succ (Or.inl rfl) hf
      rw [Nat.mod_eq_of_lt hlt, hsucc.or_txCommitted]

/-- The new value of `ptr`, where it was at the position of `tail`. -/
theorem isPos_advancedPtr {t : TxCache} {res : List UInt8} (h : Committed b rs t)
    (hp : IsPos b.width t.ptr rs) (hf : Fits b (rs ++ [res])) :
    IsPos b.width (advancedPtr b t.tail t.ptr res.length) (rs ++ [res]) := by
  rw [advancedPtr, h.tail.txIdOf hf.of_append, h.tail.cachePtrOf hf.of_append]
  split
  · exact Or.inl hf.advance
  case isFalse hlen =>
    obtain rfl : res = [] := List.length_eq_zero_iff.mp (by omega)
    obtain ⟨hlt, hsucc⟩ := hp.succ hf
    rw [Nat.mod_eq_of_lt hlt]
    exact hsucc

theorem Transaction.NotYet.stable (h : Ready b rs [] m s) (hf : Fits b rs) (hn : NotYet b s c) : Stable b rs m c := by
  have hc := h.committed
  rw [List.append_nil] at hc
  refine ⟨hc.of_unmoved hf hn.unmoved, ?_, ?_⟩
  · rw [← h.mem]
    exact hn.settles
  · rw [TxCache.getTxIdOfPtr, hn.unmoved.ptr, h.ptr.txIdOf hf]

theorem Transaction.Past.stable {m' : Nat → UInt8} {res : List UInt8} (h : Ready b rs [] m s)
    (hf : Fits b (rs ++ [res])) (hp : Past b m' (TxCache.Advanced b s.cache res) c) :
    Stable b (rs ++ [res]) m' c := by
  have hc := h.committed
  rw [List.append_nil] at hc
  refine ⟨hc.of_advanced hf hp.advanced, hp.settles, ?_⟩
  rw [TxCache.getTxIdOfPtr]
  rcases hp.advanced.ptr with hptr | hptr
  · rw [hptr, h.ptr.txIdOf hf.of_append, List.length_append]
    exact Nat.le_add_right _ _
  · rw [hptr, (isPos_advancedPtr hc h.ptr hf).txIdOf hf]

/-- What `cache_result` needs to run through. -/
theorem Ready.fits_cache {res : List UInt8} (h : Ready b rs [] m s) (hf : Fits b (rs ++ [res])) :
    s.cache.getTxCachePtrOfTail b.width + res.length ≤ b.txCacheSz ∧
      s.cache.ptr + 1 < 2 ^ b.width.bits := by
  have hc := h.committed
  rw [List.append_nil] at hc
  rw [hc.cachePtrOf hf.of_append]
  refine ⟨hf.offset_fits, ?_⟩
  refine (h.ptr.succ ⟨?_, ?_⟩).1
  · rw [List.length_append, List.length_singleton]
    exact hf.length_succ
  · rw [flatten_append_singleton_length]
    exact hf.of_append.2

/-- A transaction with nothing left to replay. -/
theorem wpc_run {f : Body b.width α} {enc : α → List UInt8} (h : Ready b rs [] m s)
    (hl : f.Logged [] m) (ho : (f.run b s.pm).out ≠ none) (hf : Fits b (rs ++ [enc (f.eval m).1])) :
    wpc (Transaction.run b f enc)
      (fun a s' => a = (f.eval m).1 ∧ Ready b (rs ++ [enc (f.eval m).1]) [] (f.eval m).2 s') False
      (fun c => Stable b rs m c ∨ Stable b (rs ++ [enc (f.eval m).1]) (f.eval m).2 c) s := by
  have hmem := h.mem
  have hn : (b.debugAssertions → s.nestingLevel = 0) ∨ False := Or.inl fun _ => h.nestingLevel
  have hstart : Stable b rs m s := by
    have := h.stable (by rw [List.append_nil]; exact hf.of_append)
    rwa [List.append_nil] at this
  subst hmem
  unfold Transaction.run
  refine wpc_bind (wpc_mono (wpc_begin h.wellFormed h.tail hn) ?_ ?_)
  case refine_2 =>
    rintro c (rfl | hc)
    · exact Or.inl hstart
    · exact Or.inl (hc.stable h hf.of_append)
  rintro _ s₁ ⟨hrun, hpm⟩
  refine wpc_bind (wpc_mono (wpc_onPm_run hrun hpm h.wellFormed h.tail hl (Or.inl ho)) ?_
    fun c hc => Or.inl (hc.stable h hf.of_append))
  rintro a s₂ ⟨hrun₂, he⟩
  have ha : (f.eval s.pm.mem).1 = a := by rw [he]
  have hm : (f.eval s.pm.mem).2 = s₂.pm.mem := by rw [he]
  rw [ha] at hf ⊢
  rw [hm]
  have hcache := wpc_cacheResult (enc a) hrun₂.unmoved hrun₂.tail (Or.inl (h.fits_cache hf) : _ ∨ False)
  refine wpc_bind (wpc_mono (wpc_commit hrun₂ (fun _ h => TxCache.Advanced.isCommitted h) hn hcache) ?_ ?_)
  · rintro _ r ⟨hpast, hptr, hmem, hw, ht, hnest⟩
    have hst := hpast.stable h hf
    refine wpc_pure (Or.inr hst) ⟨rfl, ?_, ?_, hmem, hw, ht, hnest.trans h.nestingLevel⟩
    · rw [List.append_nil]
      exact hst.committed
    · rw [hptr]
      have hc := h.committed
      rw [List.append_nil] at hc
      exact isPos_advancedPtr hc h.ptr hf
  · rintro c (hc | hc)
    · exact Or.inl (hc.stable h hf.of_append)
    · exact Or.inr (hc.stable h hf)

/-- A result that is still to be replayed. -/
theorem wpc_replay {E : Prop} {r : List UInt8} (h : Ready b pre (r :: rest) m s)
    (hf : Fits b (pre ++ r :: rest)) :
    wpc (onCache (TxCache.tryRetrieveResult b r.length))
      (fun o s' => o = some r ∧ Ready b (pre ++ [r]) rest m s') E (Stable b (pre ++ r :: rest) m) s := by
  have hst : ∀ p, IsPos b.width p (pre ++ [r]) →
      Ready b (pre ++ [r]) rest m { s with cache := { s.cache with ptr := p } } := by
    intro p hp
    refine ⟨?_, hp, h.mem, h.wellFormed, h.tail, h.nestingLevel⟩
    rw [← List.append_cons]
    exact h.committed.congr rfl fun _ _ => rfl
  refine wpc_zoom rfl (wpc_mono (wpc_tryRetrieveResult_some (C := fun t =>
    Stable b (pre ++ r :: rest) m { s with cache := t }) h.committed hf h.ptr (h.stable hf) ?_) ?_
    fun _ h => h)
  · intro p hp
    have hs := (hst p hp).stable (by rw [← List.append_cons]; exact hf)
    rwa [← List.append_cons] at hs
  · rintro _ t ⟨rfl, p, rfl, hp, _⟩
    exact ⟨rfl, hst p hp⟩

/-- Nothing is left to replay. -/
theorem wpc_replay_none {E : Prop} (n : Nat) (h : Ready b rs [] m s) (hf : Fits b rs) :
    wpc (onCache (TxCache.tryRetrieveResult b n)) (fun o s' => o = none ∧ s' = s) E (Stable b rs m) s := by
  have hst := h.stable (by rw [List.append_nil]; exact hf)
  have hc := h.committed
  rw [List.append_nil] at hst hc
  refine wpc_zoom rfl (wpc_mono (wpc_tryRetrieveResult_none (C := fun t =>
    Stable b rs m { s with cache := t }) n hc hf h.ptr hst) ?_ fun _ h => h)
  rintro _ t ⟨rfl, rfl⟩
  exact ⟨rfl, rfl⟩

end IntOS
