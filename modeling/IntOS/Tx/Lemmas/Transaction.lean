import IntOS.Pmem.Lemmas.Journal
import IntOS.Tx.Lemmas.Cache
import IntOS.Tx.Transaction

/-!
# What a transaction leaves

`Settles b m c`: recovery from `c` ends with memory `m`. Up to the commit point a transaction settles to
the memory it began with, from there on to the memory it computed.
-/

namespace IntOS

open Persist Persist.Prog

variable {b : Board} {α : Type}

/-! ## The cache -/

/-- `tail` without its flag. -/
def TxCache.tailPos (w : PtrWidth) (c : TxCache) : Nat := c.tail &&& w.not (txCommitted w)

/-- The word that `cache_result` stores in `tail` after `tail`, for a result of `sz` bytes. -/
def advancedTail (b : Board) (tail sz : Nat) : Nat :=
  (if 0 < sz then TxCache.advanceCompositeId b.width (txIdOf b.width tail) (cachePtrOf b.width tail) sz
    else (tail + 1) % 2 ^ b.width.bits) ||| txCommitted b.width

/-- The word that `cache_result` stores in `ptr`. -/
def advancedPtr (b : Board) (tail ptr sz : Nat) : Nat :=
  if 0 < sz then TxCache.advanceCompositeId b.width (txIdOf b.width tail) (cachePtrOf b.width tail) sz
  else (ptr + 1) % 2 ^ b.width.bits

/-- The results before `tail` are those of `t`, and both positions are those of `t`. -/
structure TxCache.Unmoved (b : Board) (t c : TxCache) : Prop where
  tail : c.tail = t.tail ∨ c.tail = t.tailPos b.width ∨ c.tail = t.tailPos b.width ||| txCommitted b.width
  ptr : c.ptr = t.ptr
  kept : ∀ j, j < t.getTxCachePtrOfTail b.width → c.cache j = t.cache j

/-- The cache `t` with one more result. -/
structure TxCache.Advanced (b : Board) (t : TxCache) (res : List UInt8) (c : TxCache) : Prop where
  tail : c.tail = advancedTail b (t.tailPos b.width) res.length
  ptr : c.ptr = t.ptr ∨ c.ptr = advancedPtr b t.tail t.ptr res.length
  stored : TxCache.readResult c.cache (t.getTxCachePtrOfTail b.width) res.length = res
  kept : ∀ j, j < t.getTxCachePtrOfTail b.width → c.cache j = t.cache j

theorem TxCache.tailPos_idem (w : PtrWidth) (c : TxCache) :
    c.tailPos w &&& w.not (txCommitted w) = c.tailPos w := by
  rw [TxCache.tailPos, Nat.and_assoc, Nat.and_self]

theorem TxCache.Unmoved.refl (b : Board) (t : TxCache) : TxCache.Unmoved b t t :=
  ⟨Or.inl rfl, rfl, fun _ _ => rfl⟩

theorem TxCache.Unmoved.pos {t c : TxCache} (h : TxCache.Unmoved b t c) :
    c.tailPos b.width = t.tailPos b.width := by
  rcases h.tail with ht | ht | ht
  · rw [TxCache.tailPos, ht, TxCache.tailPos]
  · rw [TxCache.tailPos, ht, TxCache.tailPos_idem]
  · rw [TxCache.tailPos, ht, clear_or_txCommitted, TxCache.tailPos_idem]

theorem wpc_addUsize_mod {σ : Type} {Q : Nat → σ → Prop} {E : Prop} {C : σ → Prop} {x y : Nat} {s : σ}
    (hE : x + y < 2 ^ b.width.bits ∨ E) (hC : C s) (hQ : Q ((x + y) % 2 ^ b.width.bits) s) :
    wpc (addUsize b x y) Q E C s :=
  wpc_bind (wpc_check hC (fun hn => hE.resolve_left fun h => hn fun _ => h) fun _ => wpc_pure hC hQ)

/-- `cache_result` on a cache whose flag is clear. It stops early only where the result does not fit or
`ptr` is at the end of its range. -/
theorem wpc_cacheResult {E : Prop} (res : List UInt8) {t s : TxCache} (h : TxCache.Unmoved b t s)
    (hclear : s.tail = t.tailPos b.width)
    (hE : (t.getTxCachePtrOfTail b.width + res.length ≤ b.txCacheSz ∧ t.ptr + 1 < 2 ^ b.width.bits) ∨ E) :
    wpc (TxCache.cacheResult b res)
      (fun _ c => TxCache.Advanced b t res c ∧ c.ptr = advancedPtr b t.tail t.ptr res.length) E
      (fun c => (TxCache.Unmoved b t c ∧ c.tail = s.tail) ∨ TxCache.Advanced b t res c) s := by
  have hC : (TxCache.Unmoved b t s ∧ s.tail = s.tail) ∨ TxCache.Advanced b t res s := Or.inl ⟨h, rfl⟩
  have hoff : s.getTxCachePtrOfTail b.width = t.getTxCachePtrOfTail b.width := by
    rw [TxCache.getTxCachePtrOfTail, hclear, TxCache.tailPos, cachePtrOf_clear, TxCache.getTxCachePtrOfTail]
  have hid : s.getTxIdOfTail b.width = txIdOf b.width t.tail := by
    rw [TxCache.getTxIdOfTail, hclear, TxCache.tailPos, txIdOf_clear]
  unfold TxCache.cacheResult
  split
  case isTrue hlen =>
    refine wpc_bind (wpc_gets hC ?_)
    rw [hoff]
    refine wpc_bind (wpc_check hC (fun hn => hE.resolve_left fun hf => hn fun _ => hf.1) fun _ => ?_)
    refine wpc_bind (wpc_check hC (fun hn => hE.resolve_left fun hf => hn (by omega)) fun _ => ?_)
    refine wpc_bind (wpc_mono (TxCache.wpc_copyResult (hE.imp_left And.left) s) ?_ ?_)
    · rintro _ s₁ ⟨cache, rfl, hr, hb⟩
      have hkept : ∀ j, j < t.getTxCachePtrOfTail b.width → cache j = t.cache j :=
        fun j hj => (hb j hj).trans (h.kept j hj)
      have hC₁ : (TxCache.Unmoved b t { s with cache := cache } ∧ s.tail = s.tail) ∨
          TxCache.Advanced b t res { s with cache := cache } :=
        Or.inl ⟨⟨Or.inr (Or.inl hclear), h.ptr, hkept⟩, rfl⟩
      have hnew : ∀ ptr, ptr = t.ptr ∨ ptr = advancedPtr b t.tail t.ptr res.length →
          TxCache.Advanced b t res { s with
            cache := cache
            ptr := ptr
            tail := TxCache.advanceCompositeId b.width (txIdOf b.width t.tail)
              (t.getTxCachePtrOfTail b.width) res.length ||| txCommitted b.width } := by
        intro ptr hptr
        refine ⟨?_, hptr, hr, hkept⟩
        rw [advancedTail, if_pos hlen, TxCache.tailPos, txIdOf_clear, cachePtrOf_clear]
        rfl
      have hptr : advancedPtr b t.tail t.ptr res.length = TxCache.advanceCompositeId b.width
          (txIdOf b.width t.tail) (t.getTxCachePtrOfTail b.width) res.length := if_pos hlen
      refine wpc_bind (wpc_gets hC₁ ?_)
      rw [show TxCache.getTxIdOfTail b.width { s with cache := cache } = txIdOf b.width t.tail from hid,
        ← hptr]
      have h₁ := hnew s.ptr (Or.inl h.ptr)
      have h₂ := hnew _ (Or.inr rfl)
      rw [← hptr] at h₁ h₂
      exact wpc_bind (wpc_store hC₁ (Or.inr h₁) (wpc_store (Or.inr h₁) (Or.inr h₂) ⟨h₂, rfl⟩))
    · rintro c ⟨cache, rfl, hb⟩
      exact Or.inl ⟨⟨Or.inr (Or.inl hclear), h.ptr, fun j hj => (hb j hj).trans (h.kept j hj)⟩, rfl⟩
  case isFalse hlen =>
    obtain rfl : res = [] := List.length_eq_zero_iff.mp (by omega)
    have hnew : ∀ ptr, ptr = t.ptr ∨ ptr = advancedPtr b t.tail t.ptr 0 →
        TxCache.Advanced b t [] { s with
          ptr := ptr
          tail := (s.tail + 1) % 2 ^ b.width.bits ||| txCommitted b.width } := by
      intro ptr hptr
      refine ⟨?_, hptr, rfl, h.kept⟩
      rw [advancedTail, if_neg hlen, ← hclear]
    have htail : s.tail + 1 < 2 ^ b.width.bits := by
      rw [hclear]
      exact clear_succ_lt b.width t.tail
    have hptr : (s.ptr + 1) % 2 ^ b.width.bits = advancedPtr b t.tail t.ptr 0 := by
      rw [h.ptr]
      exact (if_neg hlen).symm
    have h₁ := hnew s.ptr (Or.inl h.ptr)
    have h₂ := hnew _ (Or.inr hptr)
    refine wpc_bind (wpc_gets hC (wpc_bind (wpc_addUsize_mod (Or.inl htail) hC ?_)))
    refine wpc_bind (wpc_store hC (Or.inr h₁) (wpc_bind (wpc_gets (Or.inr h₁) ?_)))
    refine wpc_bind (wpc_addUsize_mod (hE.imp_left fun hf => by rw [h.ptr]; exact hf.2) (Or.inr h₁) ?_)
    exact wpc_store (Or.inr h₁) (Or.inr h₂) ⟨h₂, hptr⟩

/-- `commit_no_replay` sets the flag and nothing else. -/
theorem wpc_commitNoReplay {E : Prop} {t s : TxCache} (h : TxCache.Unmoved b t s)
    (hclear : s.tail = t.tailPos b.width) :
    wpc (TxCache.commitNoReplay b.width)
      (fun _ c => TxCache.Unmoved b t c ∧ c.isCommitted b.width) E
      (fun c => (TxCache.Unmoved b t c ∧ c.tail = s.tail) ∨
        (TxCache.Unmoved b t c ∧ c.isCommitted b.width)) s := by
  have hnew : TxCache.Unmoved b t { s with tail := s.tail ||| txCommitted b.width } :=
    ⟨Or.inr (Or.inr (by rw [← hclear])), h.ptr, h.kept⟩
  have hflag : TxCache.isCommitted b.width { s with tail := s.tail ||| txCommitted b.width } :=
    or_and_txCommitted b.width s.tail
  exact wpc_store (Or.inl ⟨h, rfl⟩) (Or.inr ⟨hnew, hflag⟩) ⟨hnew, hflag⟩

theorem TxCache.Advanced.isCommitted {t c : TxCache} {res : List UInt8} (h : TxCache.Advanced b t res c) :
    c.isCommitted b.width := by
  rw [TxCache.isCommitted, h.tail, advancedTail, or_and_txCommitted]

/-- Within the limits the id grows by one and the offset by the size of the result. -/
theorem TxCache.Advanced.position {t c : TxCache} {res : List UInt8} (h : TxCache.Advanced b t res c)
    (hid : t.getTxIdOfTail b.width + 1 < idLimit b.width)
    (hoff : t.getTxCachePtrOfTail b.width + res.length < offLimit b.width) :
    c.getTxIdOfTail b.width = t.getTxIdOfTail b.width + 1 ∧
      c.getTxCachePtrOfTail b.width = t.getTxCachePtrOfTail b.width + res.length := by
  rw [TxCache.getTxIdOfTail, TxCache.getTxCachePtrOfTail, h.tail, advancedTail, txIdOf_or_txCommitted,
    cachePtrOf_or_txCommitted, TxCache.tailPos, txIdOf_clear, cachePtrOf_clear]
  rw [TxCache.getTxIdOfTail] at hid ⊢
  rw [TxCache.getTxCachePtrOfTail] at hoff ⊢
  split
  · rw [TxCache.advanceCompositeId_eq hid hoff, txIdOf_posOf hid, cachePtrOf_posOf hid hoff]
    exact ⟨rfl, rfl⟩
  case isFalse hlen =>
    obtain rfl : res = [] := List.length_eq_zero_iff.mp (by omega)
    have hid' : txIdOf b.width (t.tail &&& b.width.not (txCommitted b.width)) + 1 < idLimit b.width := by
      rw [txIdOf_clear]
      exact hid
    obtain ⟨h1, h2⟩ := succ_position hid'
    rw [Nat.mod_eq_of_lt (clear_succ_lt b.width t.tail), h1, h2, txIdOf_clear, cachePtrOf_clear]
    exact ⟨rfl, rfl⟩

/-- The flag tells whether the commit of a result has reached its store of `tail`. -/
theorem wpc_cacheResult_flag {rs : List (List UInt8)} {res : List UInt8} {s : TxCache} {E : Prop}
    (h : Committed b rs s) (hp : s.ptr = position b.width rs) (hf : Fits b (rs ++ [res]))
    (hflag : ¬ s.isCommitted b.width) :
    wpc (TxCache.cacheResult b res)
      (fun _ c => Committed b (rs ++ [res]) c ∧ c.ptr = position b.width (rs ++ [res]) ∧ c.isCommitted b.width) E
      (fun c => Committed b rs c ∧ ¬ c.isCommitted b.width ∨
        Committed b (rs ++ [res]) c ∧ c.isCommitted b.width) s := by
  have hold := h.txIdOf hf.of_append
  have hlen := hf.length_succ
  have htail : s.tail = position b.width rs := by
    rcases h.tail with ht | ht
    · exact ht
    · rw [TxCache.isCommitted, ht, or_and_txCommitted] at hflag
      exact absurd rfl hflag
  have hclear : s.tail = s.tailPos b.width := by
    rw [TxCache.tailPos, htail, clear_of_lt hf.of_append.position_lt]
  have hoff : s.getTxCachePtrOfTail b.width + res.length ≤ b.txCacheSz := by
    rw [h.cachePtrOf hf.of_append]
    exact hf.offset_fits
  have hptr : s.ptr + 1 < 2 ^ b.width.bits := by
    have hpos := txCommitted_pos b.width
    have hword := hf.of_append.word_succ_lt
    omega
  have hnew : (rs ++ [res]).length = rs.length + 1 := List.length_append
  refine wpc_mono (wpc_and ((commitsAt_cacheResult h hp hf).wpc h)
    (wpc_cacheResult res (TxCache.Unmoved.refl b s) hclear (Or.inl ⟨hoff, hptr⟩))) ?_ ?_
  · rintro _ c ⟨⟨hc, hcp⟩, hadv, _⟩
    exact ⟨hc, hcp, hadv.isCommitted⟩
  · rintro c ⟨hc, ⟨_, ht⟩ | hadv⟩
    · have hsame : c.getTxIdOfTail b.width = rs.length := by rw [TxCache.getTxIdOfTail, ht, ← hold]; rfl
      refine Or.inl ⟨hc.resolve_right fun hc => ?_, ?_⟩
      · have hid := hc.txIdOf hf
        omega
      · rw [TxCache.isCommitted, ht]
        exact hflag
    · have hid := (hadv.position (by omega) (Nat.lt_of_le_of_lt hoff b.txCacheSz_lt)).1
      refine Or.inr ⟨hc.resolve_left fun hc => ?_, hadv.isCommitted⟩
      have hid' := hc.txIdOf hf.of_append
      omega

/-! ## Recovery -/

/-- Recovery from here ends with memory `m`. -/
def Settles (b : Board) (m : Nat → UInt8) (c : Transaction) : Prop :=
  (¬ c.cache.isCommitted b.width ∧ Undoable b m c.pm) ∨
    (c.cache.isCommitted b.width ∧ c.pm.mem = m ∧ c.pm.journal.WellFormed)

/-- What recovery leaves: memory `m`, an empty journal, and the cache as it was. -/
structure Settled (m : Nat → UInt8) (c r : Transaction) : Prop where
  mem : r.pm.mem = m
  wellFormed : r.pm.journal.WellFormed
  tail : r.pm.journal.tail = 0
  cache : r.cache = c.cache
  nestingLevel : r.nestingLevel = c.nestingLevel

/-- An empty journal leads back to the memory it is in, with the flag set or clear. -/
theorem settles_of_empty {c : Transaction} (hw : c.pm.journal.WellFormed) (ht : c.pm.journal.tail = 0) :
    Settles b c.pm.mem c := by
  by_cases hf : c.cache.isCommitted b.width
  · exact Or.inr ⟨hf, rfl, hw⟩
  · exact Or.inl ⟨hf, (Undoes.empty hw ht).undoable⟩

/-- The crash points of recovery: only the journal and the memory change. -/
def SettlesFrom (b : Board) (m : Nat → UInt8) (c c' : Transaction) : Prop :=
  Settles b m c' ∧ c'.cache = c.cache ∧ c'.nestingLevel = c.nestingLevel

theorem Settled.settlesFrom {m : Nat → UInt8} {c r : Transaction} (h : Settled m c r) :
    SettlesFrom b m c r := by
  refine ⟨?_, h.cache, h.nestingLevel⟩
  rw [← h.mem]
  exact settles_of_empty h.wellFormed h.tail

namespace Transaction

theorem wpc_checkCommitted {E : Prop} {m : Nat → UInt8} {c : Transaction} (h : Settles b m c) :
    wpc (checkCommitted b)
      (fun a r => (a = true ∧ Settled m c r) ∨
        (a = false ∧ r = c ∧ ¬ c.cache.isCommitted b.width ∧ Undoable b m c.pm)) E
      (SettlesFrom b m c) c := by
  have hC : SettlesFrom b m c c := ⟨h, rfl, rfl⟩
  unfold checkCommitted
  refine wpc_bind (wpc_gets hC ?_)
  rcases h with ⟨hf, hund⟩ | ⟨hf, hmem, hw⟩
  · rw [decide_eq_false hf, if_neg Bool.false_ne_true]
    exact wpc_pure hC (Or.inr ⟨rfl, rfl, hf, hund⟩)
  · rw [decide_eq_true hf, if_pos rfl]
    have hclear : SettlesFrom b m c { c with pm := { c.pm with journal.tail := 0 } } :=
      ⟨Or.inr ⟨hf, hmem, hw⟩, rfl, rfl⟩
    refine wpc_bind (wpc_zoom rfl (wpc_store hC hclear ?_))
    exact wpc_pure hclear (Or.inl ⟨rfl, hmem, hw, rfl, rfl, rfl⟩)

theorem wpc_recover {m : Nat → UInt8} {c : Transaction} (hf : ¬ c.cache.isCommitted b.width)
    (h : Undoable b m c.pm) :
    wpc (onPm (Journal.recover b)) (fun _ r => Settled m c r) False (SettlesFrom b m c) c := by
  refine wpc_zoom rfl (wpc_mono (Journal.wpc_recover h) ?_ ?_)
  · rintro _ pm rfl
    obtain ⟨_, hu⟩ := h
    exact ⟨rfl, hu.wellFormed, rfl, rfl, rfl⟩
  · exact fun pm hpm => ⟨Or.inl ⟨hf, hpm⟩, rfl, rfl⟩

theorem wpc_rollBackIfUncommitted {m : Nat → UInt8} {c : Transaction} (h : Settles b m c) :
    wpc (rollBackIfUncommitted b) (fun _ r => Settled m c r) False (SettlesFrom b m c) c := by
  refine wpc_bind (wpc_mono (wpc_checkCommitted h) ?_ fun _ h => h)
  rintro a r (⟨rfl, hr⟩ | ⟨rfl, rfl, hf, hund⟩)
  · exact wpc_pure hr.settlesFrom hr
  · exact wpc_recover hf hund

/-- Recovery returns, and any number of failures in it come to the same. -/
theorem recovery_of_settles {m : Nat → UInt8} {c : Transaction} (h : Settles b m c) :
    (∃ r, (rollBackIfUncommitted b c).out = some ((), r)) ∧
      ∀ r, Recovers (rollBackIfUncommitted b) c r → Settled m c r := by
  have hinv : ∀ c', SettlesFrom b m c c' →
      wpc (rollBackIfUncommitted b) (fun _ r => Settled m c r) False (SettlesFrom b m c) c' := by
    rintro c' ⟨hc', he, hn⟩
    refine wpc_mono (wpc_rollBackIfUncommitted hc') ?_ ?_
    · rintro _ r ⟨h1, h2, h3, h4, h5⟩
      exact ⟨h1, h2, h3, h4.trans he, h5.trans hn⟩
    · rintro c'' ⟨h1, h2, h3⟩
      exact ⟨h1, h2.trans he, h3.trans hn⟩
  constructor
  · obtain ⟨_, r, ho, _⟩ := (wpc_rollBackIfUncommitted h).returns
    exact ⟨r, ho⟩
  · exact fun r hr => Recovers.of_wpc hinv hr ⟨h, rfl, rfl⟩

/-! ## Before the commit point -/

/-- Recovery ends with the memory of `s`. The flag is clear, unless a debug build was stopped before the
store that clears it. -/
structure NotYet (b : Board) (s c : Transaction) : Prop where
  settles : Settles b s.pm.mem c
  unmoved : TxCache.Unmoved b s.cache c.cache
  flag : ¬ c.cache.isCommitted b.width ∨ b.debugAssertions ∧ c.cache.tail = s.cache.tail

/-- Between `begin` and `commit`. -/
structure Running (b : Board) (s c : Transaction) : Prop where
  undoable : Undoable b s.pm.mem c.pm
  tail : c.cache.tail = s.cache.tailPos b.width
  ptr : c.cache.ptr = s.cache.ptr
  kept : ∀ j, j < s.cache.getTxCachePtrOfTail b.width → c.cache.cache j = s.cache.cache j
  nestingLevel : c.nestingLevel = s.nestingLevel + (if b.debugAssertions then 1 else 0)

theorem not_isCommitted_of_tail {w : PtrWidth} {t c : TxCache} (h : c.tail = t.tailPos w) :
    ¬ c.isCommitted w := by
  rw [TxCache.isCommitted, h, TxCache.tailPos, clear_and_txCommitted]
  have := txCommitted_pos w
  omega

variable {s : Transaction}

theorem Running.unmoved {c : Transaction} (h : Running b s c) : TxCache.Unmoved b s.cache c.cache :=
  ⟨Or.inr (Or.inl h.tail), h.ptr, h.kept⟩

/-- Neither the tail nor the nesting level decides before the flag is set. -/
theorem notYet_of_undoable {c : Transaction} (hund : Undoable b s.pm.mem c.pm)
    (htail : c.cache.tail = s.cache.tailPos b.width) (hun : TxCache.Unmoved b s.cache c.cache) :
    NotYet b s c :=
  have hf := not_isCommitted_of_tail htail
  ⟨Or.inl ⟨hf, hund⟩, hun, Or.inl hf⟩

theorem Running.notYet {c : Transaction} (h : Running b s c) : NotYet b s c :=
  notYet_of_undoable h.undoable h.tail h.unmoved

theorem wpc_begin {E : Prop} (hw : s.pm.journal.WellFormed) (ht : s.pm.journal.tail = 0)
    (hE : (b.debugAssertions → s.nestingLevel = 0) ∨ E) :
    wpc (begin b) (fun _ c => Running b s c ∧ c.pm = s.pm) E (fun c => c = s ∨ NotYet b s c) s := by
  have hund : Undoable b s.pm.mem s.pm := (Undoes.empty hw ht).undoable
  have hclear : ∀ n, n = s.nestingLevel + (if b.debugAssertions then 1 else 0) →
      ({ s with nestingLevel := n } = s ∨ NotYet b s { s with nestingLevel := n }) →
      wpc (onCache (TxCache.clearCommitFlag b.width)) (fun _ c => Running b s c ∧ c.pm = s.pm) E
        (fun c => c = s ∨ NotYet b s c) { s with nestingLevel := n } := by
    intro n hn hC
    have hrun : Running b s
        { s with cache := { s.cache with tail := s.cache.tailPos b.width }, nestingLevel := n } :=
      ⟨hund, rfl, rfl, fun _ _ => rfl, hn⟩
    exact wpc_zoom rfl (wpc_store hC (Or.inr hrun.notYet) ⟨hrun, rfl⟩)
  unfold begin incNesting
  refine wpc_bind ?_
  split
  case isTrue hd =>
    have hn : NotYet b s { s with nestingLevel := s.nestingLevel + 1 } :=
      ⟨settles_of_empty hw ht, TxCache.Unmoved.refl b _, Or.inr ⟨hd, rfl⟩⟩
    refine wpc_bind (wpc_store (Or.inl rfl) (Or.inr hn) (wpc_bind (wpc_gets (Or.inr hn) ?_)))
    refine wpc_check (Or.inr hn) (fun hne => hE.resolve_left fun h => hne ?_) fun _ => ?_
    · simp only [h hd]
    · exact hclear _ (by rw [if_pos hd]) (Or.inr hn)
  case isFalse hd =>
    exact wpc_pure (Or.inl rfl) (hclear s.nestingLevel (by rw [if_neg hd]; rfl) (Or.inl rfl))

/-- From its first store on: in a release build that store clears the flag. -/
theorem begin_trace (hw : s.pm.journal.WellFormed) (ht : s.pm.journal.tail = 0) {c : Transaction}
    (hc : c ∈ (begin b s).trace) : NotYet b s c := by
  have hund : Undoable b s.pm.mem s.pm := (Undoes.empty hw ht).undoable
  have hclear : ∀ n, c ∈ (onCache (TxCache.clearCommitFlag b.width) { s with nestingLevel := n }).trace →
      NotYet b s c := by
    intro n hc
    rw [List.mem_singleton.mp hc]
    exact notYet_of_undoable hund rfl ⟨Or.inr (Or.inl rfl), rfl, fun _ _ => rfl⟩
  unfold begin incNesting at hc
  split at hc
  case isTrue hd =>
    rw [bind_assoc_apply, store_bind_apply, List.mem_cons] at hc
    rcases hc with rfl | hc
    · exact ⟨settles_of_empty hw ht, TxCache.Unmoved.refl b _, Or.inr ⟨hd, rfl⟩⟩
    · rw [bind_assoc_apply, gets_bind_apply, check_bind_apply] at hc
      split at hc
      · exact hclear _ hc
      · cases hc
  case isFalse =>
    rw [pure_bind_apply] at hc
    exact hclear s.nestingLevel hc

theorem wpc_onPm_run {E : Prop} {f : Body b.width α} {c : Transaction} (h : Running b s c)
    (hpm : c.pm = s.pm) (hw : s.pm.journal.WellFormed) (ht : s.pm.journal.tail = 0)
    (hl : f.Logged [] s.pm.mem) (hE : (f.run b s.pm).out ≠ none ∨ E) :
    wpc (onPm (f.run b)) (fun a c' => Running b s c' ∧ f.eval s.pm.mem = (a, c'.pm.mem)) E
      (NotYet b s) c := by
  refine wpc_zoom rfl ?_
  rw [hpm]
  refine wpc_mono (wpc_of_out (wpc_body f (Undoes.empty hw ht) hl) hE) ?_ ?_
  · rintro a pm ⟨hund, he⟩
    exact ⟨⟨hund, h.tail, h.ptr, h.kept, h.nestingLevel⟩, he⟩
  · intro pm hund
    exact notYet_of_undoable hund h.tail h.unmoved

/-! ## The commit point -/

/-- Recovery ends with memory `m`, and the cache shows the commit. -/
structure Past (b : Board) (m : Nat → UInt8) (A : TxCache → Prop) (c : Transaction) : Prop where
  settles : Settles b m c
  committed : c.cache.isCommitted b.width
  advanced : A c.cache

/-- `dec_nesting` and an update of the cache whose commit point is its store of the flag. -/
theorem wpc_commitCache {E : Prop} {A A' : TxCache → Prop} {commitCache : Prog TxCache Unit}
    {c : Transaction} (h : Running b s c) (hflag : ∀ t, A t → t.isCommitted b.width)
    (hE : (b.debugAssertions → s.nestingLevel = 0) ∨ E)
    (hcommit : wpc commitCache (fun _ t => A t ∧ A' t) E
      (fun t => (TxCache.Unmoved b s.cache t ∧ t.tail = c.cache.tail) ∨ A t) c.cache) :
    wpc (do decNesting b; onCache commitCache)
      (fun _ r => Past b c.pm.mem A r ∧ A' r.cache ∧ r.pm = c.pm ∧ r.nestingLevel = s.nestingLevel) E
      (fun r => NotYet b s r ∨ Past b c.pm.mem A r) c := by
  have hw : c.pm.journal.WellFormed := by
    obtain ⟨_, hu⟩ := h.undoable
    exact hu.wellFormed
  have hrest : wpc (onCache commitCache)
      (fun _ r => Past b c.pm.mem A r ∧ A' r.cache ∧ r.pm = c.pm ∧ r.nestingLevel = s.nestingLevel) E
      (fun r => NotYet b s r ∨ Past b c.pm.mem A r) { c with nestingLevel := s.nestingLevel } := by
    have hpast : ∀ t, A t →
        Past b c.pm.mem A { pm := c.pm, cache := t, nestingLevel := s.nestingLevel } :=
      fun t ha => ⟨Or.inr ⟨hflag t ha, rfl, hw⟩, hflag t ha, ha⟩
    refine wpc_zoom rfl (wpc_mono hcommit ?_ ?_)
    · exact fun _ t ⟨ha, ha'⟩ => ⟨hpast t ha, ha', rfl, rfl⟩
    · rintro t (⟨hun, htail⟩ | ha)
      · exact Or.inl (notYet_of_undoable h.undoable (htail.trans h.tail) hun)
      · exact Or.inr (hpast t ha)
  have hC : ∀ n, NotYet b s { c with nestingLevel := n } :=
    fun n => notYet_of_undoable h.undoable h.tail h.unmoved
  have hn := h.nestingLevel
  unfold decNesting
  refine wpc_bind ?_
  split
  case isTrue hd =>
    rw [if_pos hd] at hn
    refine wpc_bind (wpc_gets (Or.inl (hC _)) ?_)
    refine wpc_bind (wpc_check (Or.inl (hC _)) (fun hne => absurd (by omega) hne) fun _ => ?_)
    refine wpc_bind (wpc_store (Or.inl (hC _)) (Or.inl (hC _)) (wpc_bind (wpc_gets (Or.inl (hC _)) ?_)))
    rw [hn, Nat.add_sub_cancel]
    exact wpc_check (Or.inl (hC _)) (fun hne => hE.resolve_left fun h => hne (h hd)) fun _ => hrest
  case isFalse hd =>
    rw [if_neg hd, Nat.add_zero] at hn
    refine wpc_pure (Or.inl (hC c.nestingLevel)) ?_
    rw [← hn] at hrest
    rw [← hn]
    exact hrest

/-- The end of every transaction that logs: the journal is cleared past the commit point. -/
theorem wpc_commit {E : Prop} {A A' : TxCache → Prop} {commitCache : Prog TxCache Unit} {c : Transaction}
    (h : Running b s c) (hflag : ∀ t, A t → t.isCommitted b.width)
    (hE : (b.debugAssertions → s.nestingLevel = 0) ∨ E)
    (hcommit : wpc commitCache (fun _ t => A t ∧ A' t) E
      (fun t => (TxCache.Unmoved b s.cache t ∧ t.tail = c.cache.tail) ∨ A t) c.cache) :
    wpc (do decNesting b; onCache commitCache; onPm Journal.clear)
      (fun _ r => Past b c.pm.mem A r ∧ A' r.cache ∧ r.pm.mem = c.pm.mem ∧ r.pm.journal.WellFormed ∧
        r.pm.journal.tail = 0 ∧ r.nestingLevel = s.nestingLevel) E
      (fun r => NotYet b s r ∨ Past b c.pm.mem A r) c := by
  have hw : c.pm.journal.WellFormed := by
    obtain ⟨_, hu⟩ := h.undoable
    exact hu.wellFormed
  rw [← Prog.assoc]
  refine wpc_bind (wpc_mono (wpc_commitCache h hflag hE hcommit) ?_ fun _ h => h)
  rintro _ r ⟨hpast, ha', hpm, hn⟩
  have hclear : Past b c.pm.mem A { r with pm := { r.pm with journal.tail := 0 } } := by
    refine ⟨Or.inr ⟨hpast.committed, ?_, ?_⟩, hpast.committed, hpast.advanced⟩
    · rw [hpm]
    · rw [hpm]
      exact hw
  refine wpc_zoom rfl (wpc_store (Or.inr hpast) (Or.inr hclear) ⟨hclear, ha', ?_, ?_, rfl, hn⟩)
  · rw [hpm]
  · rw [hpm]
    exact hw

end Transaction

end IntOS
