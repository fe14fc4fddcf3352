import IntOS.Pmem.Journal

/-!
# The transaction cache (`TxCache` in `src/transaction.rs`, with `opt_tx_cache_space`)

`ptr` and `tail` pack a transaction id and a cache offset in one word, and `tail` the flag
`TX_COMMITTED` besides.
-/

namespace IntOS

open Persist Persist.Prog

/-- `TX_CACHE_SZ`, not for `sram_baseline`. -/
def Board.txCacheSz (b : Board) : Nat := if b.msp430fr5994 then 32 else 64

def txCommitted : PtrWidth → Nat
  | .w32 => 0x80000000
  | _ => 0x8000

def txCachePtrMask : PtrWidth → Nat
  | .w32 => 0x7FFF0000
  | _ => 0x7F00

def txCachePtrShift : PtrWidth → Nat
  | .w32 => 16
  | _ => 8

def txIdPtrMask : PtrWidth → Nat
  | .w32 => 0x0000FFFF
  | _ => 0x00FF

/-- `x + y` on `usize`: an overflow panics with `debug_assertions` and wraps without. -/
def addUsize {σ : Type} (b : Board) (x y : Nat) : Prog σ Nat := do
  check (b.debugAssertions → x + y < 2 ^ b.width.bits)
  pure ((x + y) % 2 ^ b.width.bits)

structure TxCache where
  cache : Nat → UInt8
  ptr : Nat
  tail : Nat

/-- `pos & TX_ID_PTR_MASK`. -/
def txIdOf (w : PtrWidth) (pos : Nat) : Nat := pos &&& txIdPtrMask w

/-- `(pos & TX_CACHE_PTR_MASK) >> TX_CACHE_PTR_SHIFT`. -/
def cachePtrOf (w : PtrWidth) (pos : Nat) : Nat := (pos &&& txCachePtrMask w) >>> txCachePtrShift w

namespace TxCache

def new : TxCache := ⟨fun _ => 0, 0, 0⟩

def init : Prog TxCache Unit := do
  store fun s => { s with ptr := 0 }
  store fun s => { s with tail := 0 }

def isCommitted (w : PtrWidth) (s : TxCache) : Prop := s.tail &&& txCommitted w = txCommitted w

instance (w : PtrWidth) (s : TxCache) : Decidable (s.isCommitted w) :=
  inferInstanceAs (Decidable (_ = _))

def resetPtr : Prog TxCache Unit := store fun s => { s with ptr := 0 }

def setPtr (newPos : Nat) : Prog TxCache Unit := store fun s => { s with ptr := newPos }

def setTail (newPos : Nat) : Prog TxCache Unit := store fun s => { s with tail := newPos }

def commitResetTail (w : PtrWidth) : Prog TxCache Unit := store fun s => { s with tail := txCommitted w }

/-- `Transaction::clear_commit_flag`: `tail &= !TX_COMMITTED`. -/
def clearCommitFlag (w : PtrWidth) : Prog TxCache Unit :=
  store fun s => { s with tail := s.tail &&& w.not (txCommitted w) }

def commitNoReplay (w : PtrWidth) : Prog TxCache Unit :=
  store fun s => { s with tail := s.tail ||| txCommitted w }

def commitNoRetValue (b : Board) : Prog TxCache Unit := do
  let oldTail ← gets (·.tail)
  let newTail ← addUsize b oldTail 1
  -- atomic commit
  store fun s => { s with tail := newTail ||| txCommitted b.width }
  let ptr ← gets (·.ptr)
  let newPtr ← addUsize b ptr 1
  store fun s => { s with ptr := newPtr }

def getTxIdOfTail (w : PtrWidth) (s : TxCache) : Nat := txIdOf w s.tail

def getTxCachePtrOfTail (w : PtrWidth) (s : TxCache) : Nat := cachePtrOf w s.tail

def getTxIdOfPtr (w : PtrWidth) (s : TxCache) : Nat := txIdOf w s.ptr

def getTxCachePtrOfPtr (w : PtrWidth) (s : TxCache) : Nat := cachePtrOf w s.ptr

/-- `TxCache::advance_composite_id`. A masked id and a masked offset leave room for both sums. -/
def advanceCompositeId (w : PtrWidth) (txId cachePtr cachedRetValSz : Nat) : Nat :=
  (txId + 1) ||| ((cachePtr + cachedRetValSz) <<< txCachePtrShift w % 2 ^ w.bits)

def advancePtrOnEmpty (b : Board) : Prog TxCache Unit := do
  let ptr ← gets (·.ptr)
  let newPtr ← addUsize b ptr 1
  store fun s => { s with ptr := newPtr }

/-- `copy_nonoverlapping(res, dst, 1)`, byte by byte. A store past the end of `cache` is undefined. -/
def copyResult (b : Board) : Nat → List UInt8 → Prog TxCache Unit
  | _, [] => pure ()
  | i, v :: res => do
      check (i < b.txCacheSz)
      store fun s => { s with cache := Function.update s.cache i v }
      copyResult b (i + 1) res

/-- `TxCache::cache_result` of a result with the bytes `res`. -/
def cacheResult (b : Board) (res : List UInt8) : Prog TxCache Unit :=
  if 0 < res.length then do
    let cachePtr ← gets (getTxCachePtrOfTail b.width)
    check (b.debugAssertions → cachePtr + res.length ≤ b.txCacheSz)
    check (cachePtr < b.txCacheSz)
    copyResult b cachePtr res
    let txId ← gets (getTxIdOfTail b.width)
    let advancedTail := advanceCompositeId b.width txId cachePtr res.length
    -- atomic commit
    store fun s => { s with tail := advancedTail ||| txCommitted b.width }
    store fun s => { s with ptr := advancedTail }
  else
    commitNoRetValue b

/-- `core::ptr::read(src)` of `n` bytes. -/
def readResult (cache : Nat → UInt8) : Nat → Nat → List UInt8
  | _, 0 => []
  | i, n + 1 => cache i :: readResult cache (i + 1) n

/-- `TxCache::try_retrieve_result` of a result of `recSz` bytes; `none` is `Err(())`. -/
def tryRetrieveResult (b : Board) (recSz : Nat) : Prog TxCache (Option (List UInt8)) := do
  let idOfPtr ← gets (getTxIdOfPtr b.width)
  let idOfTail ← gets (getTxIdOfTail b.width)
  if idOfPtr < idOfTail then
    if 0 < recSz then do
      let cachePtr ← gets (getTxCachePtrOfPtr b.width)
      check (cachePtr < b.txCacheSz)
      check (cachePtr + recSz ≤ b.txCacheSz)
      let r ← gets fun s => readResult s.cache cachePtr recSz
      let txId ← gets (getTxIdOfPtr b.width)
      store fun s => { s with ptr := advanceCompositeId b.width txId cachePtr recSz }
      pure (some r)
    else do
      advancePtrOnEmpty b
      pure (some [])
  else
    pure none

end TxCache

end IntOS
