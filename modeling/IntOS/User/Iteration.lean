import IntOS.Tx.Replay
import IntOS.User.Theorems

/-!
# Leaving an iteration

The end of an iteration, of `nv_loop!` or of `nv_for_loop!`, moves `tail` and `ptr` back to where the
iteration began. They pass through a `TxTail` on the way, which holds the whole position on the 16-bit and
64-bit targets only.
-/

namespace IntOS

open Persist Persist.Prog UserTxInfo Routine

variable {b : Board} {pre rest : List (List UInt8)} {x y : Data} {u : UserTxInfo} {depth fuel : Nat}

/-- The end of an iteration of `nv_loop!`, and of one of `nv_for_loop!` over the counter `i`. -/
inductive Leave
  | infinite
  | counted (i cnt step : Nat)

namespace Leave

def run (b : Board) : Leave → Prog UserTxInfo Unit
  | infinite => exitInfiniteIdempotentLoop
  | counted i cnt step => do
      logLoopCnt i cnt step
      exitIdempotentLoop b

/-- The counter does not overflow; a debug build checks it. -/
def InRange (b : Board) : Leave → Prop
  | infinite => True
  | counted _ cnt step => b.debugAssertions → cnt + step < 2 ^ b.width.bits

/-- The data after the iteration. -/
def after (b : Board) : Leave → Data → Data
  | infinite, x => x
  | counted i cnt step, x => x.setCounter i ((cnt + step) % 2 ^ b.width.bits)

end Leave

structure Iteration (b : Board) where
  body : Routine b
  leave : Leave

namespace Iteration

def run (b : Board) (fuel : Nat) (it : Iteration b) : Prog UserTxInfo Unit := do
  enterIdempotentLoop b
  exec fuel it.body
  it.leave.run b

def runAll (b : Board) (fuel : Nat) : List (Iteration b) → Prog UserTxInfo Unit
  | [] => pure ()
  | it :: its => do
      it.run b fuel
      runAll b fuel its

def after (it : Iteration b) (x : Data) : Data := it.leave.after b (eval it.body x)

/-- The iterations keep to the limits of the cache, the stack and the counters. -/
def Within (fuel depth : Nat) (pre : List (List UInt8)) : List (Iteration b) → Data → Prop
  | [], _ => True
  | it :: its, x =>
      Bounded (· < fuel) it.body (depth + 1) pre x ∧ OwnCounters it.body ∧ it.leave.InRange b ∧
        Within fuel depth pre its (it.after x)

end Iteration

/-- `m` returns from `u`, and leaves the id and the offset of `ptr` in both positions, `TX_COMMITTED` in
`tail`, and the results `pre` to be replayed. -/
def RestoresPosition (b : Board) (pre : List (List UInt8)) (m : Prog UserTxInfo Unit) (u : UserTxInfo) :
    Prop :=
  ∃ u', (m u).out = some ((), u') ∧
    u'.userTx.cache.getTxIdOfTail b.width = u.userTx.cache.getTxIdOfPtr b.width ∧
    u'.userTx.cache.getTxCachePtrOfTail b.width = u.userTx.cache.getTxCachePtrOfPtr b.width ∧
    u'.userTx.cache.getTxIdOfPtr b.width = u.userTx.cache.getTxIdOfPtr b.width ∧
    u'.userTx.cache.getTxCachePtrOfPtr b.width = u.userTx.cache.getTxCachePtrOfPtr b.width ∧
    u'.userTx.cache.isCommitted b.width ∧
    ∃ c, (replay b (pre.map List.length) u'.userTx.cache).out = some (pre, c)

/-! ## Where the position fits a `TxTail` -/

/-- What the end of an iteration does, if `slot` is the saved position. -/
def leftBy (b : Board) (l : Leave) (slot : Nat) (u : UserTxInfo) (u' : UserTxInfo) : Prop :=
  u'.userTx = { u.userTx with cache := { u.userTx.cache with ptr := slot, tail := slot } } ∧
    u'.stackTop = u.stackTop - 1 ∧ u'.tailStack = u.tailStack ∧
    ∀ x : Data, u.counters = x.counters → u'.counters = (l.after b x).counters

theorem wpc_leave {l : Leave} {E : Prop} (hl : l.InRange b ∨ E)
    (htop : (1 ≤ u.stackTop ∧ u.stackTop - 1 < defaultStackDepth) ∨ E) :
    wpc (l.run b) (fun _ u' => leftBy b l (u.tailStack (u.stackTop - 1)).toNat u u') E (fun _ => True) u := by
  cases l with
  | infinite =>
      refine wpc_bind (wpc_gets trivial (wpc_bind (wpc_check trivial htop.resolve_left fun _ => ?_)))
      refine wpc_bind (wpc_gets trivial ?_)
      refine wpc_bind (wpc_zoom rfl (wpc_zoom rfl (wpc_store trivial trivial ?_)))
      refine wpc_bind (wpc_zoom rfl (wpc_zoom rfl (wpc_store trivial trivial ?_)))
      exact wpc_store trivial trivial ⟨rfl, rfl, rfl, fun _ h => h⟩
  | counted i cnt step =>
      refine wpc_bind (wpc_bind (wpc_store trivial trivial ?_))
      refine wpc_bind (wpc_store trivial trivial (wpc_store trivial trivial ?_))
      refine wpc_bind (wpc_gets trivial (wpc_bind (wpc_check trivial htop.resolve_left fun _ => ?_)))
      refine wpc_bind (wpc_gets trivial ?_)
      refine wpc_bind (wpc_zoom rfl (wpc_zoom rfl (wpc_store trivial trivial ?_)))
      refine wpc_bind (wpc_bind (wpc_gets trivial ?_))
      refine wpc_bind (wpc_gets trivial (wpc_bind (wpc_gets trivial (wpc_bind ?_))))
      refine wpc_bind (wpc_check trivial (fun hn => hl.resolve_left fun h => hn h) fun _ => ?_)
      refine wpc_pure trivial (wpc_store trivial trivial ?_)
      refine wpc_bind (wpc_zoom rfl (wpc_zoom rfl (wpc_store trivial trivial ?_)))
      refine wpc_store trivial trivial ⟨rfl, rfl, rfl, fun x h => ?_⟩
      exact congrArg (fun c => Function.update c i ((cnt + step) % 2 ^ b.width.bits)) h

/-- The results `pre`, with both positions after them and `TX_COMMITTED` set. -/
structure BackAt (b : Board) (pre : List (List UInt8)) (u : UserTxInfo) : Prop where
  committed : Committed b pre u.userTx.cache
  tail : u.userTx.cache.tail = position b.width pre ||| txCommitted b.width
  ptr : u.userTx.cache.ptr = position b.width pre ||| txCommitted b.width

namespace Iteration

theorem wpc_run {it : Iteration b} (hw : b.width ≠ .w32) (h : ReadyAt b depth pre rest y u)
    (hd : depth < defaultStackDepth) (hf : Fits b pre) (hm : Mid it.body x rest y)
    (hb : Bounded (· < fuel) it.body (depth + 1) pre x) (ho : OwnCounters it.body)
    (hl : it.leave.InRange b) :
    wpc (it.run b fuel) (fun _ u' => ReadyAt b depth pre [] (it.after x) u' ∧ BackAt b pre u') False
      (fun _ => True) u := by
  refine wpc_bind (wpc_mono (wpc_enter hw h (hm.fits hb hf) hd) ?_ fun _ _ => trivial)
  rintro _ u₁ ⟨h₁, htop, _⟩
  refine wpc_bind (wpc_mono (runs hw fuel it.body _ _ _ _ _ _ hb ho hf hm h₁) ?_ fun _ _ => trivial)
  rintro _ u₂ ⟨h₂, hkeep⟩
  have hstack : u₂.stackTop - 1 = depth := by rw [h₂.stackTop, Nat.add_sub_cancel]
  refine wpc_mono (wpc_leave (Or.inl hl) (Or.inl ⟨by rw [h₂.stackTop]; omega, by rwa [hstack]⟩)) ?_
    fun _ _ => trivial
  rintro _ u' ⟨htx, htop', _, hcnt⟩
  rw [hstack, hkeep depth (Nat.lt_succ_self _), htop] at htx
  have hcom := h₂.tx.committed
  rw [List.append_nil] at hcom
  have hback : Committed b pre u'.userTx.cache := by
    rw [htx]
    exact (hcom.truncate (Or.inr rfl)).congr rfl fun _ _ => rfl
  refine ⟨⟨⟨by rwa [List.append_nil], ?_, ?_, ?_, ?_, ?_⟩, ?_, ?_, Or.inl rfl⟩, hback, ?_, ?_⟩
  · rw [htx]
    exact Or.inr rfl
  · rw [htx]
    cases it with
    | mk body leave => cases leave <;> exact h₂.tx.mem
  · rw [htx]
    exact h₂.tx.wellFormed
  · rw [htx]
    exact h₂.tx.tail
  · rw [htx]
    exact h₂.tx.nestingLevel
  · exact hcnt _ h₂.counters
  · rw [htop', hstack]
  · rw [htx]
  · rw [htx]

theorem wpc_runAll {it : Iteration b} {its : List (Iteration b)} (hw : b.width ≠ .w32)
    (h : ReadyAt b depth pre rest y u) (hd : depth < defaultStackDepth) (hf : Fits b pre)
    (hm : Mid it.body x rest y) (hb : Within fuel depth pre (it :: its) x) :
    wpc (runAll b fuel (it :: its)) (fun _ u' => BackAt b pre u') False (fun _ => True) u := by
  induction its generalizing it rest x y u with
  | nil =>
      obtain ⟨hbody, ho, hl, _⟩ := hb
      refine wpc_bind (wpc_mono (wpc_run hw h hd hf hm hbody ho hl) ?_ fun _ h => h)
      exact fun _ u' ⟨_, hback⟩ => wpc_pure trivial hback
  | cons it' its ih =>
      obtain ⟨hbody, ho, hl, hb⟩ := hb
      refine wpc_bind (wpc_mono (wpc_run hw h hd hf hm hbody ho hl) ?_ fun _ h => h)
      exact fun _ u' ⟨hready, _⟩ => ih hready (.start _ _) hb

/-! ## Where it does not -/

/-- A `TxTail` leaves no room for the flag of the 32-bit target. -/
theorem wpc_runAll_narrow (it : Iteration b) (its : List (Iteration b)) (u : UserTxInfo) :
    wpc (runAll b fuel (it :: its)) (fun _ u' => u'.userTx.cache.tail < 2 ^ 16) True (fun _ => True) u := by
  induction its generalizing it u with
  | nil =>
      refine wpc_bind (wpc_bind (wpc_mono (wpc_trivial _ _) (fun _ u₁ _ => ?_) fun _ h => h))
      refine wpc_bind (wpc_mono (wpc_trivial _ _) (fun _ u₂ _ => ?_) fun _ h => h)
      refine wpc_mono (wpc_leave (Or.inr trivial) (Or.inr trivial)) ?_ fun _ h => h
      rintro _ u₃ ⟨htx, _⟩
      refine wpc_pure trivial ?_
      rw [htx]
      exact UInt16.toNat_lt _
  | cons it' its ih => exact wpc_bind (wpc_mono (wpc_trivial _ _) (fun _ u₁ _ => ih it' u₁) fun _ h => h)

end Iteration

theorem not_isCommitted_of_narrow {c : TxCache} (h : c.tail < 2 ^ 16) : ¬ c.isCommitted .w32 := by
  intro hc
  have hle : txCommitted .w32 ≤ c.tail := by
    rw [← hc]
    exact Nat.and_le_left
  exact absurd (Nat.lt_of_le_of_lt hle h) (by decide)

/-- Any iterations, nested at any depth, restore the position in both words, with the flag set in `tail`,
and what was cached before the loop, exactly where a position fits a `TxTail`. -/
theorem iterations_restore_position_iff (it : Iteration b) (its : List (Iteration b)) (x y : Data)
    (u : UserTxInfo) (pre rest : List (List UInt8)) (depth fuel : Nat) (h : ReadyAt b depth pre rest y u)
    (hd : depth < defaultStackDepth) (hf : Fits b pre) (hm : Mid it.body x rest y)
    (hb : Iteration.Within fuel depth pre (it :: its) x) :
    RestoresPosition b pre (Iteration.runAll b fuel (it :: its)) u ↔ b.width ≠ .w32 := by
  constructor
  · rintro ⟨u', hout, _, _, _, _, hflag, _⟩ hw
    have hnarrow := (Iteration.wpc_runAll_narrow it its u).post hout
    rw [hw] at hflag
    exact not_isCommitted_of_narrow hnarrow hflag
  · intro hw
    obtain ⟨_, u', hout, hback⟩ := (Iteration.wpc_runAll hw h hd hf hm hb).returns
    have hpos : IsPos b.width u'.userTx.cache.ptr pre := Or.inr hback.ptr
    refine ⟨u', hout, ?_, ?_, ?_, ?_, ?_, ?_⟩
    · exact (hback.committed.txIdOf hf).trans (h.tx.ptr.txIdOf hf).symm
    · exact (hback.committed.cachePtrOf hf).trans (h.tx.ptr.cachePtrOf hf).symm
    · exact (hpos.txIdOf hf).trans (h.tx.ptr.txIdOf hf).symm
    · exact (hpos.cachePtrOf hf).trans (h.tx.ptr.cachePtrOf hf).symm
    · rw [TxCache.isCommitted, hback.tail]
      exact or_and_txCommitted _ _
    · have hreplay := hback.committed.replay hf []
      rw [List.append_nil] at hreplay
      exact ⟨_, hreplay⟩

/-- A transaction has committed a result of one byte, on any target. -/
def zeroedAfterResult (w : PtrWidth) : UserTxInfo :=
  { zeroedInfo with
    userTx := { zeroedInfo.userTx with cache := ⟨fun _ => 7, posOf w 1 1, posOf w 1 1 ||| txCommitted w⟩ } }

/-- Two turns of `nv_loop!` with one transaction each, on the MSP430. -/
theorem iterations_restore_position_inc :
    RestoresPosition msp430Debug [[7]]
      (Iteration.runAll msp430Debug 0 [⟨.run incByte fun _ => .done, .infinite⟩,
        ⟨.run incByte fun _ => .done, .infinite⟩]) (zeroedAfterResult .w16) :=
  (iterations_restore_position_iff (b := msp430Debug) ⟨.run incByte fun _ => .done, .infinite⟩
    [⟨.run incByte fun _ => .done, .infinite⟩] ⟨fun _ => 0, fun _ => 0⟩ ⟨fun _ => 0, fun _ => 0⟩
    (zeroedAfterResult .w16) [[7]] [] 0 0
    ⟨⟨⟨Or.inr rfl, rfl⟩, Or.inl rfl, rfl, ⟨rfl, rfl⟩, rfl, rfl⟩, rfl, rfl, Or.inl rfl⟩ (by decide)
    ⟨by decide, by decide⟩ (.start _ _)
    ⟨⟨⟨(by decide : 2 < 256), (by decide : 1 ≤ 64)⟩, trivial⟩, fun _ => trivial, trivial,
      ⟨⟨(by decide : 2 < 256), (by decide : 1 ≤ 64)⟩, trivial⟩, fun _ => trivial, trivial, trivial⟩).mpr
    (by decide)

/-- An empty turn of `nv_loop!` on a Cortex-M, after one result of one byte: the offset goes back to 0, and
`tail` has no flag. -/
theorem iteration_forgets_position_32 :
    let b : Board := ⟨.w32, 64, false, false⟩
    let u := zeroedAfterResult .w32
    ¬ RestoresPosition b [[7]] (Iteration.runAll b 0 [⟨.done, .infinite⟩]) u ∧
      u.userTx.cache.getTxCachePtrOfPtr .w32 = 1 ∧ u.userTx.cache.isCommitted .w32 ∧
      ∀ u', (Iteration.runAll b 0 [⟨.done, .infinite⟩] u).out = some ((), u') →
        u'.userTx.cache.getTxCachePtrOfTail .w32 = 0 ∧ ¬ u'.userTx.cache.isCommitted .w32 := by
  have hrun : ∀ u', (Iteration.runAll ⟨.w32, 64, false, false⟩ 0 [⟨.done, .infinite⟩]
      (zeroedAfterResult .w32)).out = some ((), u') →
      u'.userTx.cache.getTxCachePtrOfTail .w32 = 0 ∧ ¬ u'.userTx.cache.isCommitted .w32 := by
    intro u' h
    cases h
    decide
  refine ⟨?_, by decide, by decide, hrun⟩
  rintro ⟨u', hout, _, _, _, _, hflag, _⟩
  exact (hrun u' hout).2 hflag

end IntOS
