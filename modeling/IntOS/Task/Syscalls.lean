import IntOS.Task.Task

/-!
# System calls in a user transaction (`src/syscalls.rs`, and `run_sys` in `src/user/transaction.rs`)

The results of the system calls of a transaction go to the `SyscallReplayCache` of the task, and the re-executed
transaction takes them from there. The features are those of the other modules on tasks.
-/

namespace IntOS

open Persist Persist.Prog

/-- `SYSCALL_REPLAY_CACHE_SZ`, not for `sram_baseline`. -/
def Board.syscallReplayCacheSz (b : Board) : Nat := b.width.bytes * 16

namespace SyscallReplayCache

/-- `align_up(size_of::<T>(), ARCH_ALIGN)`. -/
def alignedSz (b : Board) (size : Nat) : Nat := alignUp b.width size (archAlign b.width)

/-- `copy_nonoverlapping(entry, dst, aligned_sz)`, byte by byte. A store past the end of `cache` is undefined. -/
def copyEntry (b : Board) : Nat → List UInt8 → Prog SyscallReplayCache Unit
  | _, [] => pure ()
  | i, v :: entry => do
      check (i < b.syscallReplayCacheSz)
      store fun s => { s with cache := Function.update s.cache i v }
      copyEntry b (i + 1) entry

/-- `SyscallReplayCache::add_entry_start` of a `T` of `size` bytes; `entry` is all that is copied. -/
def addEntryStart (b : Board) (size : Nat) (entry : List UInt8) : Prog SyscallReplayCache Unit := do
  let tail ← gets (·.tail)
  let newTail ← addUsize b tail (alignedSz b size)
  check (newTail ≤ b.syscallReplayCacheSz)
  check (tail < b.syscallReplayCacheSz)
  copyEntry b tail entry
  store fun s => { s with tail := newTail }

def addEmptyEntryStart (b : Board) : Prog SyscallReplayCache Unit := do
  let tail ← gets (·.tail)
  let newTail ← addUsize b tail (archAlign b.width)
  store fun s => { s with tail := newTail }

def addEntryCommit : Prog SyscallReplayCache Unit := store fun s => { s with ptr := s.tail }

/-- `SyscallReplayCache::get_entry` of a `T` of `size` bytes; `none` is `Err(())`. -/
def getEntry (b : Board) (size : Nat) : Prog SyscallReplayCache (Option (List UInt8)) := do
  let ptr ← gets (·.ptr)
  let tail ← gets (·.tail)
  if ptr < tail then do
    check (ptr < b.syscallReplayCacheSz)
    check (ptr + size ≤ b.syscallReplayCacheSz)
    let ret ← gets fun s => TxCache.readResult s.cache ptr size
    let newPtr ← addUsize b ptr (alignedSz b size)
    store fun s => { s with ptr := newPtr }
    pure (some ret)
  else
    pure none

def getEmptyEntry (b : Board) : Prog SyscallReplayCache (Option Unit) := do
  let ptr ← gets (·.ptr)
  let tail ← gets (·.tail)
  if ptr < tail then do
    let newPtr ← addUsize b ptr (archAlign b.width)
    store fun s => { s with ptr := newPtr }
    pure (some ())
  else
    pure none

def restart : Prog SyscallReplayCache Unit := store fun s => { s with ptr := 0 }

end SyscallReplayCache

/-- What a system call adds to the cache: the bytes of its result, or an entry without one. -/
inductive Entry
  | ret (bytes : List UInt8)
  | noret
deriving DecidableEq, Repr

/-- What became of a system call: it was bypassed, or executed. -/
inductive CallOutcome
  | bypassed (e : Entry)
  | executed (e : Entry)
deriving DecidableEq, Repr

/-- What a system call that is executed finds when it starts: the results that its kernel transactions will take from
`syscall_tx_cache`, and whether its list transaction is bypassed. -/
structure CallStart where
  syscallTxCache : TxCache
  listTxDone : Bool

/-- A task and the rest of the kernel. `outcomes` and `starts` are no fields of the code: the system calls of the run
note there what became of them, and what those that are executed found. -/
structure Sys (κ : Type) where
  task : Task
  kernel : κ
  outcomes : List CallOutcome
  starts : List CallStart

namespace Sys

variable {κ α : Type}

def onTask (m : Prog Task α) : Prog (Sys κ) α := zoom (·.task) (fun t s => { s with task := t }) m

def onReplay (m : Prog SyscallReplayCache α) : Prog (Sys κ) α :=
  onTask (zoom (·.syscallReplayCache) (fun c t => { t with syscallReplayCache := c }) m)

def note (o : CallOutcome) : Prog (Sys κ) Unit := store fun s => { s with outcomes := s.outcomes ++ [o] }

def noteStart : Prog (Sys κ) Unit :=
  store fun s => { s with starts := s.starts ++ [⟨s.task.syscallTxCache, s.task.listTxDone⟩] }

/-- What only the code of `syscall_begin!`, `syscall_end!` and of the transaction itself writes. -/
def own (s : Sys κ) : SyscallReplayCache × TxCache × Bool × List CallOutcome × List CallStart :=
  (s.task.syscallReplayCache, s.task.userTxInfo.userTx.cache, s.task.userTxInfo.recoveryMode, s.outcomes, s.starts)

/-- What only system calls write besides. -/
def results (s : Sys κ) : TxCache × Bool := (s.task.syscallTxCache, s.task.listTxDone)

/-- A system call is only bypassed in recovery mode. -/
def checkBypass (b : Board) : Prog (Sys κ) Unit := onTask (Task.onUser (UserTxInfo.checkBypass b))

def restartSyscallTxCache : Prog (Sys κ) Unit := onTask (Task.onTx (Transaction.onCache TxCache.resetPtr))

/-- `syscall_begin!`; a result bypasses the system call. -/
def syscallBegin (b : Board) (size : Nat) : Prog (Sys κ) (Option (List UInt8)) := do
  match ← onReplay (SyscallReplayCache.getEntry b size) with
  | some ret => do
      checkBypass b
      note (.bypassed (.ret ret))
      pure (some ret)
  | none => do
      restartSyscallTxCache
      noteStart
      pure none

/-- `syscall_begin!(noret, ..)`. -/
def syscallBeginNoret (b : Board) : Prog (Sys κ) (Option Unit) := do
  match ← onReplay (SyscallReplayCache.getEmptyEntry b) with
  | some () => do
      checkBypass b
      note (.bypassed .noret)
      pure (some ())
  | none => do
      restartSyscallTxCache
      noteStart
      pure none

/-- The end of `syscall_end!`, after the entry. -/
def syscallEndRest (b : Board) : Prog (Sys κ) Unit := do
  onTask (Task.commitSyscallTxCache b)
  onTask Task.resetListTransaction
  onReplay SyscallReplayCache.addEntryCommit

/-- `syscall_end!` with a result of `size` bytes. -/
def syscallEnd (b : Board) (size : Nat) (entry : List UInt8) : Prog (Sys κ) Unit := do
  onReplay (SyscallReplayCache.addEntryStart b size entry)
  syscallEndRest b

/-- `syscall_end!()`. -/
def syscallEndNoret (b : Board) : Prog (Sys κ) Unit := do
  onReplay (SyscallReplayCache.addEmptyEntryStart b)
  syscallEndRest b

end Sys

/-- The result type of a system call that returns a value: `size_of` is not zero, and at most `isize::MAX`. -/
structure RetType (b : Board) where
  size : Nat
  pos : 0 < size
  lt : size < 2 ^ (b.width.bits - 1)

/-- The code of a system call between `syscall_begin!` and `syscall_end!`: anything that leaves alone what the macros
write. -/
structure SysCode (κ α : Type) where
  prog : Prog (Sys κ) α
  keeps : Keeps Sys.own prog

/-- The code between two system calls of a transaction. The kernel transactions are those of system calls. -/
structure UserCode (κ : Type) where
  prog : Prog (Sys κ) Unit
  keeps : Keeps (fun s => (s.own, s.results)) prog

/-- The code of a system call with a result of type `T`. It returns what `add_entry_start` copies: the value, and the
bytes behind it up to the aligned size. -/
structure SysCall (b : Board) (κ : Type) extends SysCode κ (List UInt8) where
  T : RetType b
  length_eq : ∀ s r s', (prog s).out = some (r, s') → r.length = SyscallReplayCache.alignedSz b T.size

/-- The closure of `run_sys`. What it does next depends on the results of its system calls; all else that it may read
is the same whenever it starts. -/
inductive SysBody (b : Board) (κ : Type)
  | done
  | code (m : UserCode κ) (k : SysBody b κ)
  | call (m : SysCall b κ) (k : List UInt8 → SysBody b κ)
  | callNoret (m : SysCode κ Unit) (k : SysBody b κ)

namespace SysBody

variable {b : Board} {κ : Type}

def exec : SysBody b κ → Prog (Sys κ) Unit
  | done => pure ()
  | code m k => do
      m.prog
      exec k
  | call m k => do
      match ← Sys.syscallBegin b m.T.size with
      | some ret => exec (k ret)
      | none => do
          let r ← m.prog
          Sys.note (.executed (.ret (r.take m.T.size)))
          Sys.syscallEnd b m.T.size r
          exec (k (r.take m.T.size))
  | callNoret m k => do
      match ← Sys.syscallBeginNoret b with
      | some () => exec k
      | none => do
          m.prog
          Sys.note (.executed .noret)
          Sys.syscallEndNoret b
          exec k

/-- A transaction up to its commit: `user_tx_start`, and in `Transaction::run_sys` the begin and the closure. -/
def upToCommit (b : Board) (body : SysBody b κ) : Prog (Sys κ) Unit := do
  Sys.onReplay SyscallReplayCache.restart
  Sys.onTask (Task.onUser (UserTxInfo.onTx (Transaction.begin b)))
  exec body

/-- `user::transaction::run_sys`, where it is not bypassed, of a closure whose result has the bytes `res`. -/
def runSys (b : Board) (body : SysBody b κ) (res : List UInt8) : Prog (Sys κ) Unit := do
  upToCommit b body
  Sys.onTask (Task.onUser (UserTxInfo.onTx (Transaction.commit b res)))
  Sys.onTask Task.userTxEnd

/-- Whatever the system calls return, their entries fit the cache from `off` on. -/
def Fits : SysBody b κ → Nat → Prop
  | done, _ => True
  | code _ k, off => Fits k off
  | call m k, off => off + SyscallReplayCache.alignedSz b m.T.size ≤ b.syscallReplayCacheSz ∧
      ∀ s r s', (m.prog s).out = some (r, s') →
        Fits (k (r.take m.T.size)) (off + SyscallReplayCache.alignedSz b m.T.size)
  | callNoret _ k, off => off + archAlign b.width ≤ b.syscallReplayCacheSz ∧ Fits k (off + archAlign b.width)

/-- The code between the system calls does not stop. -/
def Returns : SysBody b κ → Prop
  | done => True
  | code m k => (∀ s, (m.prog s).out ≠ none) ∧ Returns k
  | call _ k => ∀ r, Returns (k r)
  | callNoret _ k => Returns k

end SysBody

end IntOS
