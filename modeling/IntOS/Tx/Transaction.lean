import IntOS.Tx.Cache

/-!
# Transactions (`src/transaction.rs`)

The persistent memory, the transaction cache and the nesting level that one `Transaction` works on.
-/

namespace IntOS

open Persist Persist.Prog

structure Transaction where
  pm : Pmem
  cache : TxCache
  nestingLevel : Nat

namespace Transaction

variable {α : Type}

def onPm (m : Prog Pmem α) : Prog Transaction α := zoom (·.pm) (fun pm s => { s with pm := pm }) m

def onCache (m : Prog TxCache α) : Prog Transaction α :=
  zoom (·.cache) (fun c s => { s with cache := c }) m

/-- `nesting_level` is kept with `debug_assertions` only. -/
def incNesting (b : Board) : Prog Transaction Unit :=
  if b.debugAssertions then do
    store fun s => { s with nestingLevel := s.nestingLevel + 1 }
    let n ← gets (·.nestingLevel)
    check (n = 1)
  else pure ()

def decNesting (b : Board) : Prog Transaction Unit :=
  if b.debugAssertions then do
    let n ← gets (·.nestingLevel)
    -- the subtraction panics on an underflow
    check (1 ≤ n)
    store fun s => { s with nestingLevel := s.nestingLevel - 1 }
    let n ← gets (·.nestingLevel)
    check (n = 0)
  else pure ()

def begin (b : Board) : Prog Transaction Unit := do
  incNesting b
  onCache (TxCache.clearCommitFlag b.width)

/-- `Transaction::commit` of a result with the bytes `res`. -/
def commit (b : Board) (res : List UInt8) : Prog Transaction Unit := do
  decNesting b
  onCache (TxCache.cacheResult b res)
  onPm Journal.clear

def commitNoReplay (b : Board) : Prog Transaction Unit := do
  decNesting b
  onCache (TxCache.commitNoReplay b.width)
  onPm Journal.clear

/-- `Ok` when the transaction had committed. -/
def checkCommitted (b : Board) : Prog Transaction Bool := do
  let committed ← gets fun s => decide (s.cache.isCommitted b.width)
  if committed then do
    onPm Journal.clear
    pure true
  else
    pure false

def rollBackIfUncommitted (b : Board) : Prog Transaction Unit := do
  let committed ← checkCommitted b
  if committed then
    pure ()
  else
    onPm (Journal.recover b)

/-- `Transaction::run`. `enc` gives the bytes of a result of type `T`. -/
def run (b : Board) (f : Body b.width α) (enc : α → List UInt8) : Prog Transaction α := do
  begin b
  let ret ← onPm (f.run b)
  commit b (enc ret)
  pure ret

/-- `Transaction::run_sys`: the closure is given a `SyscallToken` besides, which carries no data. -/
def runSys (b : Board) (f : Body b.width α) (enc : α → List UInt8) : Prog Transaction α := run b f enc

def runNoReplay (b : Board) (f : Body b.width α) : Prog Transaction α := do
  begin b
  let ret ← onPm (f.run b)
  commitNoReplay b
  pure ret

/-- `Transaction::try_run`. -/
def tryRun (b : Board) (f : Body b.width (Except ErrorCode α)) (enc : Except ErrorCode α → List UInt8) :
    Prog Transaction (Except ErrorCode α) := do
  begin b
  let ret ← onPm (f.run b)
  (match ret with
    | .error .txRetry => commitNoReplay b
    | _ => commit b (enc ret))
  pure ret

end Transaction

end IntOS
