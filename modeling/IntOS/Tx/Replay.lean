import IntOS.Tx.Lemmas.Cache

/-!
# Replay

A sequence of transactions commits its results to an initialised cache, power fails inside one of the
commits, and the re-executed code asks for the results again.
-/

namespace IntOS

open Persist Persist.Prog

/-- One commit through `cache_result`, with or without a `Transaction::begin` before it. -/
structure CachedTx where
  begun : Bool
  res : List UInt8

namespace CachedTx

def commit (b : Board) (t : CachedTx) : Prog TxCache Unit :=
  if t.begun then do
    TxCache.clearCommitFlag b.width
    TxCache.cacheResult b t.res
  else
    TxCache.cacheResult b t.res

/-- The stores of a commit before the one of `tail` that commits it. -/
def storesBefore (t : CachedTx) : Nat := t.res.length + t.begun.toNat

def commitAll (b : Board) : List CachedTx → Prog TxCache Unit
  | [] => pure ()
  | t :: ts => do
      t.commit b
      commitAll b ts

end CachedTx

/-- Retrieves results of the given sizes, up to the first that is not there. -/
def retrieveAll (b : Board) : List Nat → Prog TxCache (List (List UInt8))
  | [] => pure []
  | n :: ns => do
      match ← TxCache.tryRetrieveResult b n with
      | none => pure []
      | some r => do
          let rs ← retrieveAll b ns
          pure (r :: rs)

/-- The state that the next commit starts from. -/
def ReadyToCommit (b : Board) (rs : List (List UInt8)) (s : TxCache) : Prop :=
  Committed b rs s ∧ s.ptr = position b.width rs

variable {b : Board} {rs : List (List UInt8)} {s : TxCache}

theorem CachedTx.commitsAt_commit {t : CachedTx} (h : ReadyToCommit b rs s) (hf : Fits b (rs ++ [t.res])) :
    CommitsAt (t.commit b) t.storesBefore (fun _ => ReadyToCommit b (rs ++ [t.res])) (Committed b rs)
      (Committed b (rs ++ [t.res])) s := by
  obtain ⟨hc, hp⟩ := h
  obtain ⟨begun, res⟩ := t
  cases begun with
  | false => exact commitsAt_cacheResult hc hp hf
  | true =>
      have hclear := hc.clearFlag hf.of_append
      exact CommitsAt.store hclear (commitsAt_cacheResult hclear hp hf)

theorem CachedTx.wpc_commitAll {E : Prop} {ts : List CachedTx} (h : ReadyToCommit b rs s)
    (hf : Fits b (rs ++ ts.map (·.res))) :
    wpc (commitAll b ts) (fun _ => ReadyToCommit b (rs ++ ts.map (·.res))) E (fun _ => True) s := by
  induction ts generalizing rs s with
  | nil =>
      rw [List.map_nil, List.append_nil]
      exact wpc_pure trivial h
  | cons t ts ih =>
      rw [List.map_cons, List.append_cons] at hf ⊢
      refine wpc_bind (wpc_mono ((commitsAt_commit h hf.of_append).wpc h.1) ?_ fun _ _ => trivial)
      exact fun _ s' h' => ih h' hf

/-- Retrieval from an earlier position on returns the stored results that are left. -/
theorem wpc_retrieveAll {E : Prop} {pre rest : List (List UInt8)} (later : List Nat)
    (h : Committed b (pre ++ rest) s) (hf : Fits b (pre ++ rest)) (hp : s.ptr = position b.width pre) :
    wpc (retrieveAll b (rest.map List.length ++ later))
      (fun out s' => out = rest ∧ s' = { s with ptr := position b.width (pre ++ rest) }) E
      (fun _ => True) s := by
  induction rest generalizing pre s with
  | nil =>
      rw [List.append_nil] at h hf ⊢
      have hs : s = { s with ptr := position b.width pre } := by rw [← hp]
      cases later with
      | nil => exact wpc_pure trivial ⟨rfl, hs⟩
      | cons n ns =>
          refine wpc_bind (wpc_mono (wpc_tryRetrieveResult_none n h hf (Or.inl hp) trivial) ?_ fun _ h => h)
          rintro _ s' ⟨rfl, rfl⟩
          exact wpc_pure trivial ⟨rfl, hs⟩
  | cons r rest ih =>
      refine wpc_bind (wpc_mono (wpc_tryRetrieveResult_some h hf (Or.inl hp) trivial fun _ _ => trivial) ?_
        fun _ h => h)
      rintro _ s' ⟨rfl, _, rfl, _, hp'⟩
      obtain rfl := hp' hp
      rw [List.append_cons] at h hf ⊢
      refine wpc_bind (wpc_mono (ih (h.congr rfl fun _ _ => rfl) hf rfl) ?_ fun _ h => h)
      rintro _ s'' ⟨rfl, rfl⟩
      exact wpc_pure trivial ⟨rfl, rfl⟩

/-- The re-executed code after a reboot: `reset_ptr`, then its retrievals. -/
def replay (b : Board) (sizes : List Nat) : Prog TxCache (List (List UInt8)) := do
  TxCache.resetPtr
  retrieveAll b sizes

/-- The retrievals return what is committed and leave `ptr` at the position of `tail`. -/
theorem Committed.replay (h : Committed b rs s) (hf : Fits b rs) (later : List Nat) :
    (IntOS.replay b (rs.map List.length ++ later) s).out =
      some (rs, { s with ptr := s.tail &&& b.width.not (txCommitted b.width) }) := by
  have h₀ : Committed b ([] ++ rs) { s with ptr := 0 } := h.congr rfl fun _ _ => rfl
  have hp : ({ s with ptr := 0 } : TxCache).ptr = position b.width [] := (position_nil _).symm
  obtain ⟨_, _, ho, rfl, rfl⟩ := (wpc_retrieveAll later h₀ hf hp).returns
  rw [IntOS.replay, TxCache.resetPtr, store_bind_apply, ho, h.clear hf]
  rfl

/-- Transactions commit one after the other to an initialised cache, and power fails at store `i` of the
commit of `t`. The re-executed code gets back the results committed by then, in order, and no more: that
of `t` from the store of `tail` on. Then `ptr` is `tail` without `TX_COMMITTED`. -/
theorem replay_returns_committed (b : Board) (done : List CachedTx) (t : CachedTx) (later : List Nat)
    (s₀ : TxCache) (hids : done.length + 1 < idLimit b.width)
    (hsize : ((done ++ [t]).map (·.res)).flatten.length ≤ b.txCacheSz) :
    ∃ s, ((TxCache.init >>= fun _ => CachedTx.commitAll b done) s₀).out = some ((), s) ∧
      ∀ i c, (crashes (t.commit b) s)[i]? = some c →
        ∃ r, (replay b ((done ++ [t]).map (·.res.length) ++ later) c).out =
            some ((if i ≤ t.storesBefore then done else done ++ [t]).map (·.res), r) ∧
          r.tail = c.tail ∧ r.ptr = r.tail &&& b.width.not (txCommitted b.width) := by
  have hf : Fits b (done.map (·.res) ++ [t.res]) := by
    refine ⟨by simpa using hids, ?_⟩
    rwa [List.map_append] at hsize
  have hinit : ReadyToCommit b [] { s₀ with ptr := 0, tail := 0 } :=
    ⟨⟨Or.inl (position_nil _).symm, rfl⟩, (position_nil _).symm⟩
  obtain ⟨_, s, ho, hready⟩ := (CachedTx.wpc_commitAll (E := False) hinit (by exact hf.of_append)).returns
  refine ⟨s, ?_, fun i c hc => ?_⟩
  · rw [TxCache.init, bind_assoc_apply, store_bind_apply, store_bind_apply]
    exact ho
  obtain ⟨hbefore, hafter⟩ := (CachedTx.commitsAt_commit hready hf).get hready.1 hc
  refine ⟨{ c with ptr := c.tail &&& b.width.not (txCommitted b.width) }, ?_, rfl, rfl⟩
  split
  · rename_i hi
    have hsizes : (done ++ [t]).map (·.res.length) ++ later =
        (done.map (·.res)).map List.length ++ (t.res.length :: later) := by simp
    rw [hsizes]
    exact (hbefore hi).replay hf.of_append _
  · rename_i hi
    have hres : (done ++ [t]).map (·.res) = done.map (·.res) ++ [t.res] := by simp
    have hsizes : (done ++ [t]).map (·.res.length) ++ later =
        (done.map (·.res) ++ [t.res]).map List.length ++ later := by simp
    rw [hsizes, hres]
    exact (hafter (Nat.lt_of_not_le hi)).replay hf _

/-- Power fails after the store of `tail` of the second of two transactions. -/
theorem replay_returns_committed_two :
    let b : Board := ⟨.w16, 64, true, false⟩
    let done : List CachedTx := [⟨true, [1, 2]⟩]
    let t : CachedTx := ⟨true, []⟩
    ∃ s, ((TxCache.init >>= fun _ => CachedTx.commitAll b done) TxCache.new).out = some ((), s) ∧
      ∀ i c, (crashes (t.commit b) s)[i]? = some c →
        ∃ r, (replay b ((done ++ [t]).map (·.res.length) ++ [4]) c).out =
            some ((if i ≤ t.storesBefore then done else done ++ [t]).map (·.res), r) ∧
          r.tail = c.tail ∧ r.ptr = r.tail &&& b.width.not (txCommitted b.width) :=
  replay_returns_committed ⟨.w16, 64, true, false⟩ [⟨true, [1, 2]⟩] ⟨true, []⟩ [4] TxCache.new
    (by decide) (by decide)

end IntOS
