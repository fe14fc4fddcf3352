import IntOS.Tx.Lemmas.Transaction

/-!
# Transactions are all or nothing

Wherever power fails in a transaction, and however often in the recovery after it, the outcome is the state
from before the transaction or the one that it computed, with an empty journal in both cases.
-/

namespace IntOS

open Persist Persist.Prog Transaction

variable {b : Board} {α : Type}

/-- The outcome without the transaction: memory and the position of `tail` are those of `s`, and the flag is
clear. In a debug build, where `begin` counts the nesting level first, the cache may still be as it was. -/
structure RolledBack (b : Board) (s r : Transaction) : Prop where
  mem : r.pm.mem = s.pm.mem
  pos : r.cache.tailPos b.width = s.cache.tailPos b.width
  flag : ¬ r.cache.isCommitted b.width ∨ b.debugAssertions ∧ r.cache.tail = s.cache.tail

/-- The outcome with the transaction: memory `m`, the flag set, and one result more in the cache. -/
structure RolledForward (b : Board) (s : Transaction) (m : Nat → UInt8) (res : List UInt8)
    (r : Transaction) : Prop where
  mem : r.pm.mem = m
  committed : r.cache.isCommitted b.width
  advanced : TxCache.Advanced b s.cache res r.cache
  position : s.cache.getTxIdOfTail b.width + 1 < idLimit b.width →
    s.cache.getTxCachePtrOfTail b.width + res.length ≤ b.txCacheSz →
    r.cache.getTxIdOfTail b.width = s.cache.getTxIdOfTail b.width + 1 ∧
      r.cache.getTxCachePtrOfTail b.width = s.cache.getTxCachePtrOfTail b.width + res.length

/-- The outcome with a transaction that caches no result. -/
structure RolledForwardNoReplay (b : Board) (s : Transaction) (m : Nat → UInt8) (r : Transaction) :
    Prop where
  mem : r.pm.mem = m
  committed : r.cache.isCommitted b.width
  pos : r.cache.tailPos b.width = s.cache.tailPos b.width

theorem Transaction.NotYet.rolledBack {m : Nat → UInt8} {s c r : Transaction} (h : NotYet b s c)
    (hm : m = s.pm.mem) (hr : Settled m c r) : RolledBack b s r := by
  refine ⟨hr.mem.trans hm, ?_, ?_⟩
  · rw [hr.cache]
    exact h.unmoved.pos
  · rw [hr.cache]
    exact h.flag

section
variable {s c : Transaction}

/-- The crash points of a body and an end that is common to all kinds of transactions. -/
theorem Transaction.trace_cases {f : Body b.width α} {A : α → TxCache → Prop}
    {commitCache : α → Prog TxCache Unit} (hw : s.pm.journal.WellFormed) (ht : s.pm.journal.tail = 0)
    (hl : f.Logged [] s.pm.mem) (hflag : ∀ a t, A a t → t.isCommitted b.width)
    (hcommit : ∀ a t, TxCache.Unmoved b s.cache t → t.tail = s.cache.tailPos b.width →
      wpc (commitCache a) (fun _ => A a) True
        (fun t' => (TxCache.Unmoved b s.cache t' ∧ t'.tail = t.tail) ∨ A a t') t)
    (hc : c ∈ ((do
      begin b
      let ret ← onPm (f.run b)
      (do decNesting b; onCache (commitCache ret); onPm Journal.clear)
      pure ret) s).trace) :
    NotYet b s c ∨ Past b (f.eval s.pm.mem).2 (A (f.eval s.pm.mem).1) c := by
  rcases mem_trace_bind hc with hc | ⟨_, s₁, ho₁, hc⟩
  · exact Or.inl (begin_trace hw ht hc)
  obtain ⟨hrun, hpm⟩ := (wpc_begin hw ht (Or.inr trivial)).post ho₁
  have hbody := wpc_onPm_run hrun hpm hw ht hl (Or.inr trivial)
  rcases mem_trace_bind hc with hc | ⟨ret, s₂, ho₂, hc⟩
  · exact Or.inl (hbody.trace hc)
  obtain ⟨hrun₂, he⟩ := hbody.post ho₂
  rcases mem_trace_bind hc with hc | ⟨_, s₃, _, hc⟩
  · have hend := wpc_mono (hcommit ret s₂.cache hrun₂.unmoved hrun₂.tail)
      (fun _ _ ha => And.intro ha trivial) fun _ h => h
    rw [he]
    exact (wpc_commit hrun₂ (hflag ret) (Or.inr trivial) hend).trace hc
  · cases hc

end

/-- `Transaction::run` and `run_sys`, from the first store of `begin` to the last of `commit`. -/
theorem Transaction.trace_run {f : Body b.width α} {enc : α → List UInt8} {s c : Transaction}
    (hw : s.pm.journal.WellFormed) (ht : s.pm.journal.tail = 0) (hl : f.Logged [] s.pm.mem)
    (hc : c ∈ (run b f enc s).trace) :
    NotYet b s c ∨
      Past b (f.eval s.pm.mem).2 (TxCache.Advanced b s.cache (enc (f.eval s.pm.mem).1)) c := by
  refine Transaction.trace_cases (A := fun a => TxCache.Advanced b s.cache (enc a)) hw ht hl
    (fun _ _ h => h.isCommitted) (fun a t hun htail => ?_) hc
  exact wpc_mono (wpc_cacheResult (enc a) hun htail (Or.inr trivial)) (fun _ _ h => h.1) fun _ h => h

theorem Transaction.trace_runNoReplay {f : Body b.width α} {s c : Transaction}
    (hw : s.pm.journal.WellFormed) (ht : s.pm.journal.tail = 0) (hl : f.Logged [] s.pm.mem)
    (hc : c ∈ (runNoReplay b f s).trace) :
    NotYet b s c ∨ Past b (f.eval s.pm.mem).2
      (fun t => TxCache.Unmoved b s.cache t ∧ t.isCommitted b.width) c :=
  Transaction.trace_cases (A := fun _ t => TxCache.Unmoved b s.cache t ∧ t.isCommitted b.width) hw ht hl
    (fun _ _ h => h.2) (fun _ _ hun htail => wpc_commitNoReplay hun htail) hc

theorem Transaction.Past.rolledForward {m : Nat → UInt8} {res : List UInt8} {s c r : Transaction}
    (h : Past b m (TxCache.Advanced b s.cache res) c) (hr : Settled m c r) :
    RolledForward b s m res r := by
  have hadv : TxCache.Advanced b s.cache res r.cache := by
    rw [hr.cache]
    exact h.advanced
  refine ⟨hr.mem, hadv.isCommitted, hadv, fun hid hsz => ?_⟩
  exact hadv.position hid (Nat.lt_of_le_of_lt hsz b.txCacheSz_lt)

theorem Transaction.Past.rolledForwardNoReplay {m : Nat → UInt8} {s c r : Transaction}
    (h : Past b m (fun t => TxCache.Unmoved b s.cache t ∧ t.isCommitted b.width) c)
    (hr : Settled m c r) : RolledForwardNoReplay b s m r := by
  refine ⟨hr.mem, ?_, ?_⟩
  · rw [hr.cache]
    exact h.committed
  · rw [hr.cache]
    exact h.advanced.1.pos

/-- After any number of failures in recovery the journal is empty, and either nothing of the transaction
remains or all of it does. Recovery itself never fails. -/
theorem transaction_all_or_nothing (b : Board) (f : Body b.width α) (enc : α → List UInt8)
    (s c : Transaction) (hw : s.pm.journal.WellFormed) (ht : s.pm.journal.tail = 0)
    (hl : f.Logged [] s.pm.mem) :
    (c ∈ (run b f enc s).trace ∨ c ∈ (runSys b f enc s).trace →
      (∃ r, (rollBackIfUncommitted b c).out = some ((), r)) ∧
      ∀ r, Recovers (rollBackIfUncommitted b) c r →
        r.pm.journal.WellFormed ∧ r.pm.journal.tail = 0 ∧
          (RolledBack b s r ∨
            RolledForward b s (f.eval s.pm.mem).2 (enc (f.eval s.pm.mem).1) r)) ∧
    (c ∈ (runNoReplay b f s).trace →
      (∃ r, (rollBackIfUncommitted b c).out = some ((), r)) ∧
      ∀ r, Recovers (rollBackIfUncommitted b) c r →
        r.pm.journal.WellFormed ∧ r.pm.journal.tail = 0 ∧
          (RolledBack b s r ∨ RolledForwardNoReplay b s (f.eval s.pm.mem).2 r)) := by
  constructor
  · intro hc
    rcases trace_run hw ht hl (hc.elim id id) with h | h
    · obtain ⟨hout, hset⟩ := recovery_of_settles h.settles
      exact ⟨hout, fun r hr => ⟨(hset r hr).wellFormed, (hset r hr).tail,
        Or.inl (h.rolledBack rfl (hset r hr))⟩⟩
    · obtain ⟨hout, hset⟩ := recovery_of_settles h.settles
      exact ⟨hout, fun r hr => ⟨(hset r hr).wellFormed, (hset r hr).tail,
        Or.inr (h.rolledForward (hset r hr))⟩⟩
  · intro hc
    rcases trace_runNoReplay hw ht hl hc with h | h
    · obtain ⟨hout, hset⟩ := recovery_of_settles h.settles
      exact ⟨hout, fun r hr => ⟨(hset r hr).wellFormed, (hset r hr).tail,
        Or.inl (h.rolledBack rfl (hset r hr))⟩⟩
    · obtain ⟨hout, hset⟩ := recovery_of_settles h.settles
      exact ⟨hout, fun r hr => ⟨(hset r hr).wellFormed, (hset r hr).tail,
        Or.inr (h.rolledForwardNoReplay (hset r hr))⟩⟩

/-- A release build stopped after the store that clears a stale flag. -/
theorem transaction_all_or_nothing_cleared :
    let b : Board := ⟨.w32, 64, false, false⟩
    let o : Obj .w32 := ⟨100, 1, by decide, by decide⟩
    let f : Body .w32 Unit := .log o (.store 100 7 (.ret ()))
    let s : Transaction := ⟨⟨fun _ => 0, Journal.new⟩, ⟨fun _ => 0, 0, txCommitted .w32⟩, 0⟩
    let c : Transaction := ⟨⟨fun _ => 0, Journal.new⟩, ⟨fun _ => 0, 0, 0⟩, 0⟩
    (∃ r, (rollBackIfUncommitted b c).out = some ((), r)) ∧
      ∀ r, Recovers (rollBackIfUncommitted b) c r →
        r.pm.journal.WellFormed ∧ r.pm.journal.tail = 0 ∧
          (RolledBack b s r ∨ RolledForward b s (f.eval s.pm.mem).2 [] r) :=
  (transaction_all_or_nothing ⟨.w32, 64, false, false⟩
    (.log ⟨100, 1, by decide, by decide⟩ (.store 100 7 (.ret ()))) (fun _ => [])
    ⟨⟨fun _ => 0, Journal.new⟩, ⟨fun _ => 0, 0, txCommitted .w32⟩, 0⟩ _ ⟨rfl, rfl⟩ rfl
    ⟨⟨_, List.mem_cons_self, by constructor <;> decide⟩, trivial⟩).1 (Or.inl List.mem_cons_self)

/-- With `debug_assertions`, a failure between the store of `nesting_level` and the one that clears the flag
leaves the flag of the previous transaction beside the memory from before this one. -/
theorem stale_flag_in_debug_build :
    ¬ ∀ (b : Board) (f : Body b.width Unit) (enc : Unit → List UInt8) (s c r : Transaction),
      s.pm.journal.WellFormed → s.pm.journal.tail = 0 → f.Logged [] s.pm.mem →
      c ∈ (run b f enc s).trace → Recovers (rollBackIfUncommitted b) c r →
      r.pm.journal.tail = 0 ∧
        ((r.pm.mem = s.pm.mem ∧ ¬ r.cache.isCommitted b.width ∧
            r.cache.tailPos b.width = s.cache.tailPos b.width) ∨
          (r.pm.mem = (f.eval s.pm.mem).2 ∧ r.cache.isCommitted b.width ∧
            r.cache.tailPos b.width ≠ s.cache.tailPos b.width)) := by
  intro h
  obtain ⟨_, ⟨_, hflag, _⟩ | ⟨_, _, htail⟩⟩ := h ⟨.w32, 64, false, true⟩ (.ret ()) (fun _ => [])
    ⟨⟨fun _ => 0, Journal.new⟩, ⟨fun _ => 0, 0, txCommitted .w32⟩, 0⟩
    ⟨⟨fun _ => 0, Journal.new⟩, ⟨fun _ => 0, 0, txCommitted .w32⟩, 1⟩
    ⟨⟨fun _ => 0, Journal.new⟩, ⟨fun _ => 0, 0, txCommitted .w32⟩, 1⟩
    ⟨rfl, rfl⟩ rfl trivial List.mem_cons_self (.done rfl)
  · exact hflag (by decide)
  · exact htail rfl

end IntOS
