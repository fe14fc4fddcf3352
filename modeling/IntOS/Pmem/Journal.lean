import IntOS.Arch
import IntOS.Lib.Persist

/-!
# The undo journal (`src/pmem.rs`)

Persistent memory is the journal and the bytes outside it. A record of the journal is the object's
bytes padded to a word, then its address and its size, so that recovery can walk the journal backwards
from `tail`.
-/

namespace IntOS

open Persist Persist.Prog

/-- What a build fixes: `target_pointer_width`, `board::PM_JOURNAL_SIZE`, whether the board is the
`msp430fr5994`, and whether the profile has `debug_assertions`. -/
structure Board where
  width : PtrWidth
  pmJournalSize : Nat
  msp430fr5994 : Bool
  debugAssertions : Bool

def Board.wordSize (b : Board) : Nat := b.width.bytes

def journalMagic : Nat := 0xABCD

structure Journal where
  magicHeader : Nat
  tail : Nat
  logs : Nat → UInt8
  magicFooter : Nat

/-- The journal and the bytes of persistent memory outside it. -/
structure Pmem where
  mem : Nat → UInt8
  journal : Journal

/-- An object in memory. A Rust object spans at most `isize::MAX` bytes and does not wrap around the
address space. -/
structure Obj (w : PtrWidth) where
  addr : Nat
  size : Nat
  size_lt : size < 2 ^ (w.bits - 1)
  addr_lt : addr < 2 ^ w.bits

def Obj.Contains {w : PtrWidth} (o : Obj w) (a : Nat) : Prop := o.addr ≤ a ∧ a < o.addr + o.size

namespace Journal

def new : Journal := ⟨journalMagic, 0, fun _ => 0, journalMagic⟩

def WellFormed (j : Journal) : Prop := j.magicFooter = journalMagic ∧ j.magicHeader = journalMagic

instance (j : Journal) : Decidable j.WellFormed := inferInstanceAs (Decidable (_ ∧ _))

/-- A `debug_assert!`: in a release build the run goes on. -/
def checkIntegrity : Prog Pmem Unit := do
  let j ← gets (·.journal)
  check j.WellFormed

/-- `copy_nonoverlapping(obj, &mut self.logs[i], n)`. -/
def copyToLogs (addr i : Nat) : Nat → Prog Pmem Unit
  | 0 => pure ()
  | n + 1 => do
      store fun s =>
        { s with journal.logs := Function.update s.journal.logs i (s.mem addr) }
      copyToLogs (addr + 1) (i + 1) n

/-- `copy_nonoverlapping(&self.logs[i], object_addr, n)`. -/
def copyFromLogs (i addr : Nat) : Nat → Prog Pmem Unit
  | 0 => pure ()
  | n + 1 => do
      store fun s => { s with mem := Function.update s.mem addr (s.journal.logs i) }
      copyFromLogs (i + 1) (addr + 1) n

/-- A word store into the log area, after the bounds check of its first byte. -/
def writeLogWord (b : Board) (i v : Nat) : Prog Pmem Unit := do
  check (i < b.pmJournalSize)
  store fun s => { s with journal.logs := writeBytes s.journal.logs i b.wordSize v }

def readLogWord (b : Board) (i : Nat) : Prog Pmem Nat := do
  check (i < b.pmJournalSize)
  gets fun s => readBytes s.journal.logs i b.wordSize

def recordSize (b : Board) (objSz : Nat) : Nat :=
  archAddrAlignUp b.width objSz + b.wordSize + b.wordSize

/-- `Journal::append_log_of`. The object and the journal are disjoint parts of one address space, so
`tail + record_sz` does not wrap. -/
def appendLogOf (b : Board) (obj : Obj b.width) : Prog Pmem Unit := do
  let objSzAligned := archAddrAlignUp b.width obj.size
  checkIntegrity
  let recordSz := recordSize b obj.size
  let tail ← gets (·.journal.tail)
  check (tail + recordSz ≤ b.pmJournalSize)
  -- the index of `&mut self.logs[self.tail]`
  check (tail < b.pmJournalSize)
  copyToLogs obj.addr tail obj.size
  writeLogWord b (tail + objSzAligned) obj.addr
  writeLogWord b (tail + objSzAligned + b.wordSize) obj.size
  store fun s => { s with journal.tail := s.journal.tail + recordSz }

def clear : Prog Pmem Unit := store fun s => { s with journal.tail := 0 }

def init : Prog Pmem Unit := do
  store fun s => { s with journal.magicFooter := journalMagic }
  store fun s => { s with journal.magicHeader := journalMagic }
  store fun s => { s with journal.tail := 0 }

/-- The `while ptr > 0` loop of `Journal::recover`, with the value of `ptr` where it ends. Every round
lowers `ptr`, so `fuel = ptr` rounds suffice. -/
def recoverLoop (b : Board) : Nat → Nat → Prog Pmem Nat
  | _, 0 => pure 0
  | 0, _ + 1 => fail
  | fuel + 1, ptr@(_ + 1) => do
      check (b.wordSize ≤ ptr)
      let size ← readLogWord b (ptr - b.wordSize)
      let alignedSize := archAddrAlignUp b.width size
      check (b.wordSize * 2 ≤ ptr)
      let objectAddr ← readLogWord b (ptr - b.wordSize * 2)
      check (b.wordSize * 2 + alignedSize ≤ ptr)
      check (ptr - b.wordSize * 2 - alignedSize < b.pmJournalSize)
      copyFromLogs (ptr - b.wordSize * 2 - alignedSize) objectAddr size
      recoverLoop b fuel (ptr - (b.wordSize * 2 + alignedSize))

/-- `Journal::recover`. -/
def recover (b : Board) : Prog Pmem Unit := do
  let tail ← gets (·.journal.tail)
  let ptr ← recoverLoop b tail tail
  check (ptr = 0)
  store fun s => { s with journal.tail := 0 }

end Journal

/-! ## Programs that log and store -/

/-- Code that runs between the start and the end of a transaction: it logs objects, reads and writes
persistent bytes, and goes on from what it reads. A store of a wider value is a sequence of these. -/
inductive Body (w : PtrWidth) (α : Type)
  | ret (a : α)
  | log (o : Obj w) (k : Body w α)
  | load (addr : Nat) (k : UInt8 → Body w α)
  | store (addr : Nat) (v : UInt8) (k : Body w α)

namespace Body

variable {α : Type}

def run (b : Board) : Body b.width α → Prog Pmem α
  | ret a => pure a
  | log o k => do
      Journal.appendLogOf b o
      run b k
  | load addr k => do
      let v ← gets (·.mem addr)
      run b (k v)
  | store addr v k => do
      Prog.store fun s => { s with mem := Function.update s.mem addr v }
      run b k

/-- The effect of the body on memory, without a journal. -/
def eval {w : PtrWidth} : Body w α → (Nat → UInt8) → α × (Nat → UInt8)
  | ret a, m => (a, m)
  | log _ k, m => eval k m
  | load addr k, m => eval (k (m addr)) m
  | store addr v k, m => eval k (Function.update m addr v)

/-- Run from memory `m`, every store goes to a byte of an object logged before it; `os` are the objects
logged so far. -/
def Logged {w : PtrWidth} : List (Obj w) → (Nat → UInt8) → Body w α → Prop
  | _, _, ret _ => True
  | os, m, log o k => Logged (o :: os) m k
  | os, m, load addr k => Logged os m (k (m addr))
  | os, m, store addr v k =>
      (∃ o ∈ os, o.Contains addr) ∧ Logged os (Function.update m addr v) k

end Body

end IntOS
