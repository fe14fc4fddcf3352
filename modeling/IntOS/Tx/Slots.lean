import IntOS.Tx.Replay

/-!
# The packed position through a sequence of results

`cache_result` adds to the id and to the offset without masking, and copies a result to where the offset points. A
carry of the id goes into the offset, and only where a result starts is compared with the end of the cache.
-/

namespace IntOS

open Persist Persist.Prog

namespace TxCache

/-- `copy_nonoverlapping(res, dst, 1)`, which nothing keeps inside `cache`; returned are the offsets that it writes. -/
def copyNonoverlapping : Nat → List UInt8 → Prog TxCache (List Nat)
  | _, [] => pure []
  | i, v :: res => do
      store fun s => { s with cache := Function.update s.cache i v }
      let is ← copyNonoverlapping (i + 1) res
      pure (i :: is)

/-- `TxCache::cache_result` with `debug_assert!` compiled out. -/
def cacheResultUnasserted (b : Board) (res : List UInt8) : Prog TxCache (List Nat) :=
  if 0 < res.length then do
    let cachePtr ← gets (getTxCachePtrOfTail b.width)
    check (cachePtr < b.txCacheSz)
    let written ← copyNonoverlapping cachePtr res
    let txId ← gets (getTxIdOfTail b.width)
    let advancedTail := advanceCompositeId b.width txId cachePtr res.length
    -- atomic commit
    store fun s => { s with tail := advancedTail ||| txCommitted b.width }
    store fun s => { s with ptr := advancedTail }
    pure written
  else do
    commitNoRetValue b
    pure []

/-- Calls of `cache_result`, one after the other; returned are all offsets that they write. -/
def cacheResults (b : Board) : List (List UInt8) → Prog TxCache (List Nat)
  | [] => pure []
  | res :: rs => do
      let written ← cacheResultUnasserted b res
      let later ← cacheResults b rs
      pure (written ++ later)

end TxCache

variable {b : Board} {w : PtrWidth} {rs xs ys : List (List UInt8)} {r : List UInt8} {s s₀ : TxCache} {x n : Nat}
  {p : Nat × Nat}

/-! ## Ids and offsets -/

/-- The id and the offset after one more result of the size `size`: the id carries into the offset. -/
def slotAfter (w : PtrWidth) (p : Nat × Nat) (size : Nat) : Nat × Nat :=
  ((p.1 + 1) % idLimit w,
    (if size = 0 then p.2 + (p.1 + 1) / idLimit w else p.2 + size ||| (p.1 + 1) / idLimit w) % offLimit w)

/-- The id and the offset after results of these sizes. -/
def slotOf (w : PtrWidth) (sizes : List Nat) : Nat × Nat := sizes.foldl (slotAfter w) (0, 0)

/-- The word holds this id and this offset. -/
def Holds (w : PtrWidth) (x : Nat) (p : Nat × Nat) : Prop := txIdOf w x = p.1 ∧ cachePtrOf w x = p.2

theorem idLimit_pos (w : PtrWidth) : 0 < idLimit w := Nat.two_pow_pos _

theorem offLimit_pos (w : PtrWidth) : 0 < offLimit w := Nat.two_pow_pos _

theorem slotOf_snoc (w : PtrWidth) (sizes : List Nat) (n : Nat) :
    slotOf w (sizes ++ [n]) = slotAfter w (slotOf w sizes) n := by
  rw [slotOf, List.foldl_append]
  rfl

/-- As long as the ids last, the offset is the total size. -/
theorem slotOf_eq {sizes : List Nat} (hids : sizes.length < idLimit w) (hsize : sizes.sum < offLimit w) :
    slotOf w sizes = (sizes.length, sizes.sum) := by
  induction sizes using List.reverseRecOn with
  | nil => rfl
  | append_singleton sizes n ih =>
      simp only [List.length_append, List.length_singleton, List.sum_append, List.sum_singleton] at hids hsize ⊢
      rw [slotOf_snoc, ih (by omega) (by omega), slotAfter]
      dsimp only
      rw [Nat.mod_eq_of_lt hids, Nat.div_eq_of_lt hids, Nat.or_zero]
      by_cases hn : n = 0
      · rw [if_pos hn, hn, Nat.add_zero, Nat.add_zero, Nat.mod_eq_of_lt (by omega)]
      · rw [if_neg hn, Nat.mod_eq_of_lt hsize]

theorem Holds.bound (h : Holds w x p) : p.1 < idLimit w ∧ p.2 < offLimit w := by
  obtain ⟨hid, hoff⟩ := h
  rw [← hid, ← hoff, txIdOf_eq, cachePtrOf_eq]
  exact ⟨Nat.mod_lt _ (idLimit_pos w), Nat.mod_lt _ (offLimit_pos w)⟩

theorem Holds.flag (h : Holds w x p) : Holds w (x ||| txCommitted w) p :=
  ⟨(txIdOf_or_txCommitted w x).trans h.1, (cachePtrOf_or_txCommitted w x).trans h.2⟩

theorem Holds.clear (h : Holds w x p) : Holds w (x &&& w.not (txCommitted w)) p :=
  ⟨(txIdOf_clear w x).trans h.1, (cachePtrOf_clear w x).trans h.2⟩

/-- The word for one more, which wraps around in `usize`. -/
theorem Holds.succ (h : Holds w x p) : Holds w ((x + 1) % 2 ^ w.bits) (slotAfter w p 0) := by
  have hword : idLimit w * offLimit w ∣ 2 ^ w.bits := by cases w <;> decide
  obtain ⟨hid, hoff⟩ := h
  rw [txIdOf_eq] at hid
  rw [cachePtrOf_eq] at hoff
  have hdiv : ∀ y, y % 2 ^ w.bits / idLimit w % offLimit w = y / idLimit w % offLimit w := by
    intro y
    rw [← Nat.mod_mul_right_div_self, Nat.mod_mod_of_dvd _ hword, Nat.mod_mul_right_div_self]
  refine ⟨?_, ?_⟩
  · rw [txIdOf_eq, Nat.mod_mod_of_dvd _ (Dvd.dvd.trans (Nat.dvd_mul_right _ _) hword), slotAfter, ← hid]
    exact (Nat.mod_add_mod x _ 1).symm
  · have hx := Nat.div_add_mod x (idLimit w)
    have hs : (x + 1) / idLimit w = x / idLimit w + (x % idLimit w + 1) / idLimit w := by
      rw [show x + 1 = idLimit w * (x / idLimit w) + (x % idLimit w + 1) by omega, Nat.mul_add_div (idLimit_pos w)]
    rw [cachePtrOf_eq, hdiv, hs, slotAfter, if_pos rfl, ← hid, ← hoff]
    exact (Nat.mod_add_mod _ _ _).symm

/-- The word for a result of `n` bytes more. -/
theorem holds_advance (h : Holds w x p) (hn : 0 < n) (hoff : p.2 + n < offLimit w) :
    Holds w (TxCache.advanceCompositeId w p.1 p.2 n) (slotAfter w p n) := by
  have hid := h.bound.1
  have hfits : (p.2 + n) <<< txCachePtrShift w < 2 ^ w.bits := by
    have h1 : (p.2 + n) * idLimit w < offLimit w * idLimit w := Nat.mul_lt_mul_of_pos_right hoff (idLimit_pos w)
    have h2 := two_mul_txCommitted_le w
    rw [← txCommitted_eq_mul] at h1
    rw [Nat.shiftLeft_eq]
    change (p.2 + n) * idLimit w < 2 ^ w.bits
    omega
  rw [TxCache.advanceCompositeId, Nat.mod_eq_of_lt hfits, slotAfter, if_neg (by omega)]
  by_cases hcarry : p.1 + 1 < idLimit w
  · rw [Nat.mod_eq_of_lt hcarry, Nat.div_eq_of_lt hcarry, Nat.or_zero, Nat.mod_eq_of_lt hoff]
    exact ⟨txIdOf_posOf hcarry _, cachePtrOf_posOf hcarry hoff⟩
  · have hlast : p.1 + 1 = idLimit w := by omega
    have hone : 1 < offLimit w := by cases w <;> decide
    have hor : p.2 + n ||| 1 < offLimit w := Nat.or_lt_two_pow hoff hone
    have hword : p.1 + 1 ||| (p.2 + n) <<< txCachePtrShift w = posOf w 0 (p.2 + n ||| 1) := by
      rw [posOf, Nat.zero_or, Nat.shiftLeft_or_distrib, Nat.one_shiftLeft, Nat.or_comm, hlast]
      rfl
    rw [hword, hlast, Nat.mod_self, Nat.div_self (idLimit_pos w), Nat.mod_eq_of_lt hor]
    exact ⟨txIdOf_posOf (idLimit_pos w) _, cachePtrOf_posOf (idLimit_pos w) hor⟩

/-! ## Sequences of results -/

/-- Calls of `cache_result` from `init` on, none of which panics, have led to the state. -/
inductive Cached (b : Board) : List (List UInt8) → TxCache → Prop
  | init {s₀ s : TxCache} : (TxCache.init s₀).out = some ((), s) → Cached b [] s
  | call {rs : List (List UInt8)} {r : List UInt8} {s s' : TxCache} {written : List Nat} : Cached b rs s →
      (TxCache.cacheResultUnasserted b r s).out = some (written, s') → Cached b (rs ++ [r]) s'

/-- The position in `tail` and in `ptr` is that of the results. -/
structure Packed (b : Board) (rs : List (List UInt8)) (s : TxCache) : Prop where
  id : s.getTxIdOfTail b.width = rs.length
  offset : s.getTxCachePtrOfTail b.width = rs.flatten.length
  committed : s.isCommitted b.width
  ptr : s.ptr = s.tail &&& b.width.not (txCommitted b.width)

theorem ends_copyNonoverlapping (i : Nat) (res : List UInt8) (s : TxCache) :
    Ends (TxCache.copyNonoverlapping i res)
      (fun written s' => written = List.range' i res.length ∧ ∃ cache, s' = { s with cache := cache }) s := by
  induction res generalizing i s with
  | nil => exact ⟨rfl, s.cache, rfl⟩
  | cons v res ih =>
      unfold TxCache.copyNonoverlapping
      rw [ends_bind, ends_store, ends_bind]
      refine (ih (i + 1) _).mono ?_
      rintro _ _ ⟨rfl, cache, rfl⟩
      exact ⟨rfl, cache, rfl⟩

theorem after_cacheResultUnasserted (b : Board) (r : List UInt8) (s : TxCache) :
    After (TxCache.cacheResultUnasserted b r)
      (fun written _ => r ≠ [] → written = List.range' (s.getTxCachePtrOfTail b.width) r.length) s := by
  unfold TxCache.cacheResultUnasserted
  split
  · simp only [after_bind, after_gets, after_check]
    exact fun _ => (ends_copyNonoverlapping _ r s).after.mono fun _ _ h _ => h.1
  case isFalse hr =>
    have hnil : r = [] := List.length_eq_zero_iff.mp (by omega)
    rw [after_bind]
    exact After.of_forall fun _ _ hne => absurd hnil hne

/-- What the next call starts from. -/
structure Tracks (b : Board) (rs : List (List UInt8)) (s : TxCache) : Prop where
  tail : IsPos b.width s.tail rs
  ptr : s.ptr = position b.width rs
  committed : rs ≠ [] → s.isCommitted b.width

theorem Tracks.packed (h : Tracks b rs s) (hf : Fits b rs) (hne : rs ≠ []) : Packed b rs s where
  id := h.tail.txIdOf hf
  offset := h.tail.cachePtrOf hf
  committed := h.committed hne
  ptr := by
    rcases h.tail with ht | ht
    · rw [h.ptr, ht, clear_of_lt hf.position_lt]
    · rw [h.ptr, ht, clear_or_txCommitted, clear_of_lt hf.position_lt]

theorem Tracks.call (h : Tracks b rs s) (hf : Fits b (rs ++ [r])) :
    Ends (TxCache.cacheResultUnasserted b r) (fun written s' => Tracks b (rs ++ [r]) s' ∧
      ∀ i ∈ written, i < b.txCacheSz) s := by
  have hid : s.getTxIdOfTail b.width = rs.length := h.tail.txIdOf hf.of_append
  have hoff : s.getTxCachePtrOfTail b.width = rs.flatten.length := h.tail.cachePtrOf hf.of_append
  have hend := hf.offset_fits
  unfold TxCache.cacheResultUnasserted
  split
  · simp only [ends_bind, ends_gets, ends_check, hoff]
    refine ⟨by omega, (ends_copyNonoverlapping _ r s).mono ?_⟩
    rintro _ _ ⟨rfl, cache, rfl⟩
    have hid' : TxCache.getTxIdOfTail b.width { s with cache := cache } = rs.length := hid
    simp only [ends_bind, ends_gets, ends_store, ends_pure, hid', hf.advance]
    refine ⟨⟨Or.inr rfl, rfl, fun _ => or_and_txCommitted _ _⟩, fun i hi => ?_⟩
    have hlt := (List.mem_range'_1.mp hi).2
    omega
  case isFalse hr =>
    obtain rfl : r = [] := List.length_eq_zero_iff.mp (by omega)
    obtain ⟨htail, hpos⟩ := h.tail.succ hf
    obtain ⟨hptr, _⟩ := IsPos.succ (Or.inl h.ptr) hf
    simp only [TxCache.commitNoRetValue, addUsize, ends_bind, ends_gets, ends_check, ends_pure, ends_store,
      Nat.mod_eq_of_lt htail, Nat.mod_eq_of_lt hptr]
    refine ⟨fun _ => htail, fun _ => hptr, ⟨Or.inr hpos.or_txCommitted, ?_, fun _ => or_and_txCommitted _ _⟩,
      fun i hi => by cases hi⟩
    rw [h.ptr, hf.position_succ]

theorem Cached.tracks (h : Cached b rs s) (hf : Fits b rs) : Tracks b rs s := by
  induction h with
  | init h =>
      cases h
      exact ⟨Or.inl (position_nil _).symm, (position_nil _).symm, fun hne => absurd rfl hne⟩
  | call _ hout ih => exact (((ih hf.of_append).call hf).post hout).1

theorem Cached.split (h : Cached b rs s) (he : rs = xs ++ r :: ys) :
    ∃ s₁ written s₂, Cached b xs s₁ ∧ (TxCache.cacheResultUnasserted b r s₁).out = some (written, s₂) ∧
      Cached b (xs ++ [r]) s₂ := by
  induction h generalizing ys with
  | init => simp at he
  | @call rs r' s s' written h hout ih =>
      rcases List.eq_nil_or_concat ys with rfl | ⟨ys, y, rfl⟩
      · obtain ⟨rfl, hr⟩ := List.append_inj' he rfl
        cases hr
        exact ⟨s, written, s', h, hout, h.call hout⟩
      · have he' : rs ++ [r'] = (xs ++ r :: ys) ++ [y] := by rw [he]; simp
        exact ih (List.append_inj' he' rfl).1

/-- After every call the position is that of the results and the call has written into the cache only, if and only if
the ids last and the results fit the cache. -/
theorem packed_position_iff (h : Cached b rs s) :
    (∀ xs r ys s₁ written s₂, rs = xs ++ r :: ys → Cached b xs s₁ →
      (TxCache.cacheResultUnasserted b r s₁).out = some (written, s₂) →
      Packed b (xs ++ [r]) s₂ ∧ ∀ i ∈ written, i < b.txCacheSz) ↔
    rs.length < idLimit b.width ∧ rs.flatten.length ≤ b.txCacheSz := by
  constructor
  · intro hall
    have hfits : ∀ xs ys, rs = xs ++ ys → Fits b xs := by
      intro xs
      induction xs using List.reverseRecOn with
      | nil => exact fun _ _ => ⟨idLimit_pos b.width, Nat.zero_le _⟩
      | append_singleton xs r ih =>
          intro ys he
          rw [← List.append_cons] at he
          have hxs := ih _ he
          obtain ⟨s₁, written, s₂, h₁, hout, _⟩ := h.split he
          obtain ⟨hpacked, hwritten⟩ := hall xs r ys s₁ written s₂ he h₁ hout
          refine ⟨?_, ?_⟩
          · rw [← hpacked.id, TxCache.getTxIdOfTail, txIdOf_eq]
            exact Nat.mod_lt _ (idLimit_pos _)
          · rw [flatten_append_singleton_length]
            by_cases hr : r = []
            · rw [hr]
              exact hxs.2
            · have hpos : 0 < r.length := List.length_pos_iff.mpr hr
              have hoff := (h₁.tracks hxs).tail.cachePtrOf hxs
              have hlast := hwritten (xs.flatten.length + (r.length - 1))
              rw [(after_cacheResultUnasserted b r s₁).post hout hr, TxCache.getTxCachePtrOfTail, hoff,
                List.mem_range'_1] at hlast
              omega
    exact hfits rs [] (List.append_nil rs).symm
  · intro hf xs r ys s₁ written s₂ he h₁ hout
    subst he
    rw [List.append_cons] at hf
    have hf₁ : Fits b (xs ++ [r]) := Fits.of_append hf
    obtain ⟨h₂, hwritten⟩ := ((h₁.tracks hf₁.of_append).call hf₁).post hout
    exact ⟨h₂.packed hf₁ (by simp), hwritten⟩

theorem Cached.cacheResults {written : List Nat} (h : Cached b xs s)
    (hout : (TxCache.cacheResults b ys s).out = some (written, s₀)) : Cached b (xs ++ ys) s₀ := by
  have hafter : After (TxCache.cacheResults b ys) (fun _ s' => Cached b (xs ++ ys) s') s := by
    clear hout
    induction ys generalizing xs s with
    | nil =>
        rw [List.append_nil]
        exact h
    | cons r ys ih =>
        unfold TxCache.cacheResults
        rw [after_bind, List.append_cons]
        refine (after_out _ s).mono fun written s' hout => ?_
        rw [after_bind]
        exact (ih (h.call hout)).mono fun _ _ h => h
  exact hafter.post hout

def fr5994Release : Board := ⟨.w16, 64, true, false⟩

/-- Two results, of two bytes and of none. -/
theorem packed_position_two : ∃ s, Cached fr5994Release [[1, 2], []] s ∧ Packed fr5994Release [[1, 2], []] s := by
  have hstart : Cached fr5994Release [] TxCache.new := @Cached.init _ TxCache.new _ rfl
  have hone : Cached fr5994Release [[1, 2]] _ := hstart.call rfl
  have htwo : Cached fr5994Release [[1, 2], []] _ := hone.call rfl
  have hall := (packed_position_iff htwo).mpr ⟨by decide, by decide⟩
  exact ⟨_, htwo, (hall [[1, 2]] [] [] _ _ _ rfl hone rfl).1⟩

/-- After 256 results of no bytes the id is 0 again, and the offset is 1. -/
theorem id_carries_into_offset : ¬ ∀ (b : Board) (rs : List (List UInt8)) (s : TxCache),
    b.debugAssertions = false → Cached b rs s → rs ≠ [] → Packed b rs s := by
  intro h
  have hrun : (TxCache.cacheResults fr5994Release (List.replicate 256 []) TxCache.new).out.map
      (fun r => (r.2.getTxIdOfTail .w16, r.2.getTxCachePtrOfTail .w16)) = some (0, 1) := by decide +kernel
  obtain ⟨⟨written, s⟩, hout, hpos⟩ := Option.map_eq_some_iff.mp hrun
  have hcached : Cached fr5994Release ([] ++ List.replicate 256 []) s :=
    (@Cached.init _ TxCache.new _ rfl).cacheResults hout
  have hoff := (h _ _ _ rfl hcached nofun).offset
  have hone : s.getTxCachePtrOfTail .w16 = 1 := (Prod.mk.inj hpos).2
  rw [List.nil_append, List.flatten_replicate_nil, List.length_nil] at hoff
  exact absurd (hone.symm.trans hoff) one_ne_zero

/-! ## Addresses of results -/

/-- A transaction whose result has a type of this alignment, at most that of `usize`. -/
structure TypedTx (w : PtrWidth) extends CachedTx where
  align : Nat
  align_dvd : align ∣ w.bytes
  size_dvd : align ∣ res.length

variable {ts us vs : List (TypedTx b.width)} {t : TypedTx b.width} {c : TxCache} {base : Nat}

/-- The transactions have committed their results, from `init` on. -/
inductive Stored (b : Board) : List (TypedTx b.width) → TxCache → Prop
  | init {s₀ s : TxCache} : (TxCache.init s₀).out = some ((), s) → Stored b [] s
  | commit {ts : List (TypedTx b.width)} {t : TypedTx b.width} {s s' : TxCache} : Stored b ts s →
      (t.commit b s).out = some ((), s') → Stored b (ts ++ [t]) s'

/-- After a restart on the cache `c`, the transactions have asked for their results. -/
inductive Retrieved (b : Board) (c : TxCache) : List (TypedTx b.width) → TxCache → Prop
  | restart {s : TxCache} : (TxCache.resetPtr c).out = some ((), s) → Retrieved b c [] s
  | retrieve {ts : List (TypedTx b.width)} {t : TypedTx b.width} {s s' : TxCache} {o : Option (List UInt8)} :
      Retrieved b c ts s → (TxCache.tryRetrieveResult b t.res.length s).out = some (o, s') →
      Retrieved b c (ts ++ [t]) s'

/-- The address that `cache_result` uses as `*mut T`, with the array at `base`. -/
def cacheResultDst (b : Board) (base : Nat) (t : TypedTx b.width) (s : TxCache) : Option Nat :=
  if 0 < t.res.length then some (base + s.getTxCachePtrOfTail b.width) else none

/-- The address that `try_retrieve_result` uses as `*const T`. -/
def tryRetrieveResultSrc (b : Board) (base : Nat) (t : TypedTx b.width) (s : TxCache) : Option Nat :=
  if s.getTxIdOfPtr b.width < s.getTxIdOfTail b.width then
    some (base + if 0 < t.res.length then s.getTxCachePtrOfPtr b.width else 0)
  else
    none

/-- The offset of the next result, as the packed position counts it. -/
def offsetOf (ts : List (TypedTx w)) : Nat := (slotOf w (ts.map (·.res.length))).2

/-- As long as the ids last, the offset is the total size. -/
theorem offsetOf_eq (hids : ts.length < idLimit b.width) (hsize : (ts.map (·.res.length)).sum ≤ b.txCacheSz) :
    offsetOf ts = (ts.map (·.res.length)).sum := by
  have hlen : (ts.map (·.res.length)).length < idLimit b.width := by rwa [List.length_map]
  rw [offsetOf, slotOf_eq hlen (Nat.lt_of_le_of_lt hsize b.txCacheSz_lt)]

theorem after_copyResult (i : Nat) (res : List UInt8) (s : TxCache) :
    After (TxCache.copyResult b i res)
      (fun _ s' => s'.tail = s.tail ∧ (0 < res.length → i + res.length ≤ b.txCacheSz)) s := by
  induction res generalizing i s with
  | nil => exact ⟨rfl, fun h => absurd h (Nat.lt_irrefl 0)⟩
  | cons v res ih =>
      unfold TxCache.copyResult
      simp only [after_bind, after_check, after_store]
      refine fun hi => (ih (i + 1) _).mono fun _ s' h => ⟨h.1, fun _ => ?_⟩
      have hlen := h.2
      rw [List.length_cons]
      omega

theorem after_cacheResult (h : Holds b.width s.tail p) :
    After (TxCache.cacheResult b r) (fun _ s' => Holds b.width s'.tail (slotAfter b.width p r.length)) s := by
  have hid : s.getTxIdOfTail b.width = p.1 := h.1
  have hoff : s.getTxCachePtrOfTail b.width = p.2 := h.2
  unfold TxCache.cacheResult
  split
  case isTrue hr =>
    simp only [after_bind, after_gets, after_check, hoff]
    refine fun _ _ => (after_copyResult p.2 r s).mono ?_
    rintro _ s' ⟨htail, hend⟩
    have hid' : s'.getTxIdOfTail b.width = p.1 := by rw [TxCache.getTxIdOfTail, htail]; exact hid
    have hsz := b.txCacheSz_lt
    have hfits := hend hr
    simp only [after_bind, after_gets, after_store, hid']
    exact (holds_advance h hr (by omega)).flag
  case isFalse hr =>
    have hzero : r.length = 0 := by omega
    rw [hzero]
    simp only [TxCache.commitNoRetValue, addUsize, after_bind, after_gets, after_check, after_pure, after_store]
    exact fun _ _ => h.succ.flag

theorem Stored.holds (h : Stored b ts s) : Holds b.width s.tail (slotOf b.width (ts.map (·.res.length))) := by
  induction h with
  | init h =>
      cases h
      exact ⟨by simp [txIdOf_eq, slotOf], by simp [cachePtrOf_eq, slotOf]⟩
  | @commit ts t s s' _ hout ih =>
      rw [List.map_append, List.map_singleton, slotOf_snoc]
      have hafter : After (t.commit b) (fun _ s' => Holds b.width s'.tail
          (slotAfter b.width (slotOf b.width (ts.map (·.res.length))) t.res.length)) s := by
        unfold CachedTx.commit
        split
        · simp only [TxCache.clearCommitFlag, after_bind, after_store]
          exact after_cacheResult ih.clear
        · exact after_cacheResult ih
      exact hafter.post hout

/-- What has been asked for is the next result, or nothing is left. -/
theorem Retrieved.holds (h : Retrieved b c ts s) : s.tail = c.tail ∧
    (Holds b.width s.ptr (slotOf b.width (ts.map (·.res.length))) ∨
      ¬ s.getTxIdOfPtr b.width < s.getTxIdOfTail b.width) := by
  induction h with
  | restart h =>
      cases h
      exact ⟨rfl, Or.inl ⟨by simp [txIdOf_eq, slotOf], by simp [cachePtrOf_eq, slotOf]⟩⟩
  | @retrieve ts t s s' o _ hout ih =>
      obtain ⟨htail, hpos⟩ := ih
      have hafter : After (TxCache.tryRetrieveResult b t.res.length) (fun _ s' => s'.tail = c.tail ∧
          (Holds b.width s'.ptr (slotOf b.width ((ts ++ [t]).map (·.res.length))) ∨
            ¬ s'.getTxIdOfPtr b.width < s'.getTxIdOfTail b.width)) s := by
        unfold TxCache.tryRetrieveResult
        rw [after_bind, after_gets, after_bind, after_gets]
        split
        case isFalse hlt => exact ⟨htail, Or.inr hlt⟩
        case isTrue hlt =>
          have hptr := hpos.resolve_right (not_not.mpr hlt)
          rw [List.map_append, List.map_singleton, slotOf_snoc]
          have hid : s.getTxIdOfPtr b.width = (slotOf b.width (ts.map (·.res.length))).1 := hptr.1
          have hoff : s.getTxCachePtrOfPtr b.width = (slotOf b.width (ts.map (·.res.length))).2 := hptr.2
          split
          case isTrue hsz =>
            simp only [after_bind, after_gets, after_check, after_store, after_pure, hid, hoff]
            intro _ hend
            have hsz' := b.txCacheSz_lt
            exact ⟨htail, Or.inl (holds_advance hptr hsz (by omega))⟩
          case isFalse hsz =>
            have hzero : t.res.length = 0 := by omega
            rw [hzero]
            simp only [TxCache.advancePtrOnEmpty, addUsize, after_bind, after_gets, after_check, after_pure,
              after_store]
            exact fun _ => ⟨htail, Or.inl hptr.succ⟩
      exact hafter.post hout

theorem Stored.split (h : Stored b ts s) (he : ts = us ++ t :: vs) : ∃ s₁, Stored b us s₁ := by
  induction h generalizing vs with
  | init => simp at he
  | @commit ts t' s s' h hout ih =>
      rcases List.eq_nil_or_concat vs with rfl | ⟨vs, v, rfl⟩
      · obtain ⟨rfl, _⟩ := List.append_inj' he rfl
        exact ⟨s, h⟩
      · have he' : ts ++ [t'] = (us ++ t :: vs) ++ [v] := by rw [he]; simp
        exact ih (List.append_inj' he' rfl).1

/-- All addresses are aligned for the types of the results, if and only if each result that is not empty comes after
results whose size is a multiple of its alignment. -/
theorem slots_aligned_iff (hbase : b.width.bytes ∣ base) (h : Stored b ts c) :
    ((∀ us t vs s, ts = us ++ t :: vs → Stored b us s → ∀ a ∈ cacheResultDst b base t s, t.align ∣ a) ∧
      ∀ us t vs s, ts = us ++ t :: vs → Retrieved b c us s →
        ∀ a ∈ tryRetrieveResultSrc b base t s, t.align ∣ a) ↔
    ∀ us t vs, ts = us ++ t :: vs → t.res ≠ [] → t.align ∣ offsetOf us := by
  have hdvd : ∀ (t : TypedTx b.width) (n : Nat), t.align ∣ base + n ↔ t.align ∣ n := fun t n =>
    Nat.dvd_add_right (t.align_dvd.trans hbase)
  constructor
  · rintro ⟨hdst, _⟩ us t vs he hres
    obtain ⟨s₁, h₁⟩ := h.split he
    have hpos : 0 < t.res.length := List.length_pos_iff.mpr hres
    have ha := hdst us t vs s₁ he h₁ _ (if_pos hpos)
    have hoff : s₁.getTxCachePtrOfTail b.width = offsetOf us := h₁.holds.2
    rwa [hdvd, hoff] at ha
  · intro hall
    refine ⟨fun us t vs s he hs a ha => ?_, fun us t vs s he hs a ha => ?_⟩
    · unfold cacheResultDst at ha
      split at ha
      case isFalse => cases ha
      case isTrue hpos =>
        have hoff : s.getTxCachePtrOfTail b.width = offsetOf us := hs.holds.2
        cases ha
        rw [hdvd, hoff]
        exact hall us t vs he (List.length_pos_iff.mp hpos)
    · unfold tryRetrieveResultSrc at ha
      split at ha
      case isFalse => cases ha
      case isTrue hlt =>
        cases ha
        rw [hdvd]
        split
        case isFalse => exact Nat.dvd_zero _
        case isTrue hpos =>
          have hoff : s.getTxCachePtrOfPtr b.width = offsetOf us := (hs.holds.2.resolve_right (not_not.mpr hlt)).2
          rw [hoff]
          exact hall us t vs he (List.length_pos_iff.mp hpos)

/-- A `u8`. -/
def byteTx (v : UInt8) : TypedTx fr5994Release.width := ⟨⟨true, [v]⟩, 1, Nat.one_dvd _, Nat.one_dvd _⟩

/-- A `u16`. -/
def wordTx (lo hi : UInt8) : TypedTx fr5994Release.width :=
  ⟨⟨true, [lo, hi]⟩, 2, by decide, Nat.dvd_refl 2⟩

/-- A `u8` after a `u16`. -/
theorem slots_aligned_wordFirst : ∃ c, Stored fr5994Release [wordTx 1 2, byteTx 3] c ∧
    ∀ s, Retrieved fr5994Release c [wordTx 1 2] s →
      ∀ a ∈ tryRetrieveResultSrc fr5994Release 100 (byteTx 3) s, (byteTx 3).align ∣ a := by
  have hstart : Stored fr5994Release [] TxCache.new := @Stored.init _ TxCache.new _ rfl
  have hone := @Stored.commit fr5994Release [] (wordTx 1 2) _ _ hstart rfl
  have htwo := @Stored.commit fr5994Release [wordTx 1 2] (byteTx 3) _ _ hone rfl
  refine ⟨_, htwo, fun s hs => ?_⟩
  have hbase : fr5994Release.width.bytes ∣ 100 := by decide
  refine ((slots_aligned_iff hbase htwo).mpr ?_).2 [wordTx 1 2] (byteTx 3) [] s rfl hs
  intro us t vs he _
  rcases us with _ | ⟨u, us⟩
  · exact Nat.dvd_zero _
  · have hrest := (List.cons.inj he).2
    rcases us with _ | ⟨u, us⟩
    · rw [← (List.cons.inj hrest).1]
      exact Nat.one_dvd _
    · simp at hrest

/-- A `u16` after a `u8` is at an odd address. -/
theorem slot_misaligned : ¬ ∀ (b : Board) (base : Nat) (us : List (TypedTx b.width)) (t : TypedTx b.width)
    (s : TxCache), b.width.bytes ∣ base → Stored b us s → ∀ a ∈ cacheResultDst b base t s, t.align ∣ a := by
  intro h
  have hstart : Stored fr5994Release [] TxCache.new := @Stored.init _ TxCache.new _ rfl
  have hone := @Stored.commit fr5994Release [] (byteTx 3) _ _ hstart rfl
  have hdvd := h fr5994Release 100 [byteTx 3] (wordTx 1 2) _ (by decide) hone 101 rfl
  exact absurd hdvd (by decide)

end IntOS
