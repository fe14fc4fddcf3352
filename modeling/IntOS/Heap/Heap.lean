import IntOS.Arch
import IntOS.Lib.Packed
import IntOS.Lib.Persist

/-!
# Persistent heaps (`src/heap.rs`)

The global heap gives each task a region of its own, and the allocator of the task hands out blocks of it. During
boot the blocks come from the boot heap. The journal of a transaction keeps the allocator, the global heap or the
number of tasks as it was.
-/

namespace IntOS

open Persist Persist.Prog Blocks

/-- Who runs the transaction: the boot code, or a task. -/
inductive Owner
  | boot
  | task (t : Nat)
deriving DecidableEq, Repr

/-- `BumpAllocator`, within a `PerTaskPMBumpAllocator`. -/
structure Bump where
  heapStart : Nat
  heapEnd : Nat
  next : Nat
deriving DecidableEq, Repr

structure GlobalPMHeap where
  heapEnd : Nat
  next : Nat
deriving DecidableEq, Repr

/-- `core::alloc::Layout`: the alignment is a power of two. -/
structure Layout where
  size : Nat
  align : Nat
  pow : ∃ k, align = 2 ^ k

/-- Where the linker puts `PM_HEAP_AREA` and `BOOT_PM_HEAP_AREA`: two statics, so they do not overlap. -/
structure HeapConfig where
  width : PtrWidth
  taskNumLimit : Nat
  pmHeapArea : Block
  bootPmHeapArea : Block
  apart : pmHeapArea.stop ≤ bootPmHeapArea.start ∨ bootPmHeapArea.stop ≤ pmHeapArea.start

/-- A record of a journal. -/
inductive HeapRecord
  | heap (o : Owner) (b : Bump)
  | global (g : GlobalPMHeap)
  | taskCnt (n : Nat)

structure Heaps where
  schedulerStarted : Bool
  current : Nat
  taskCnt : Nat
  global : GlobalPMHeap
  heap : Owner → Bump
  journal : Owner → List HeapRecord

namespace Heaps

/-- `PerTaskPMBumpAllocator::new`. -/
def newBump : Bump := ⟨0, 0, 0⟩

/-- After `heap::init`, before the first task. -/
def init (cfg : HeapConfig) : Heaps where
  schedulerStarted := false
  current := 0
  taskCnt := 0
  global := ⟨cfg.pmHeapArea.stop, cfg.pmHeapArea.start⟩
  heap o := if o = .boot then ⟨cfg.bootPmHeapArea.start, cfg.bootPmHeapArea.stop, cfg.bootPmHeapArea.start⟩ else newBump
  journal _ := []

/-- Whose transaction and heap `get_current_tx` and `get_pm_heap` return. -/
def owner (s : Heaps) : Owner := if s.schedulerStarted then .task s.current else .boot

def setHeap (o : Owner) (b : Bump) : Prog Heaps Unit :=
  store fun s => { s with heap := Function.update s.heap o b }

/-- `append_log_of`, to the journal of the running transaction. -/
def appendLogOf (f : Heaps → HeapRecord) : Prog Heaps Unit :=
  store fun s => { s with journal := Function.update s.journal s.owner (f s :: s.journal s.owner) }

/-! ## Blocks -/

/-- `BumpAllocator::per_task_alloc`; `None` is the null pointer. -/
def perTaskAlloc (w : PtrWidth) (o : Owner) (layout : Layout) : Prog Heaps (Option Block) := do
  let b ← gets (·.heap o)
  check (b.next + layout.align ≤ 2 ^ w.bits)
  let allocStart := alignUp w b.next layout.align
  if allocStart + layout.size < 2 ^ w.bits ∧ allocStart + layout.size ≤ b.heapEnd then do
    setHeap o { b with next := allocStart + layout.size }
    pure (if allocStart = 0 then none else some ⟨allocStart, layout.size⟩)
  else
    pure none

/-- `PerTaskPMBumpAllocator::alloc` of the heap that `get_pm_heap` returns. -/
def alloc (w : PtrWidth) (layout : Layout) : Prog Heaps (Option Block) := do
  let o ← gets owner
  appendLogOf fun s => .heap o (s.heap o)
  perTaskAlloc w o layout

/-- `Layout::array::<u8>`. -/
def byteLayout (w : PtrWidth) (n : Nat) : Option Layout :=
  if n < 2 ^ (w.bits - 1) then some ⟨n, 1, 0, rfl⟩ else none

def palloc (w : PtrWidth) (layout : Layout) : Prog Heaps (Option Block) := alloc w layout

/-- `palloc_array::<T>(size)`, where `size_of::<T>()` is `elemSize`. -/
def pallocArray (w : PtrWidth) (elemSize size : Nat) : Prog Heaps (Option Block) := do
  check (elemSize * size < 2 ^ w.bits)
  match byteLayout w (elemSize * size) with
  | none => pure none
  | some layout => alloc w layout

/-! ## Regions -/

/-- `GlobalPMHeap::alloc`. -/
def globalAlloc (w : PtrWidth) (size : Nat) : Prog Heaps (Option Nat) := do
  let g ← gets (·.global)
  check (g.next + size < 2 ^ w.bits)
  if g.heapEnd < g.next + size then
    pure none
  else do
    appendLogOf fun s => .global s.global
    let g ← gets (·.global)
    store fun s => { s with global := { s.global with next := s.global.next + size } }
    pure (some g.next)

/-- `BumpAllocator::init`. -/
def initHeap (w : PtrWidth) (o : Owner) (heapStart heapSize : Nat) : Prog Heaps Unit := do
  store fun s => { s with heap := Function.update s.heap o { s.heap o with heapStart := heapStart } }
  check (heapStart + heapSize < 2 ^ w.bits)
  store fun s => { s with heap := Function.update s.heap o { s.heap o with heapEnd := heapStart + heapSize } }
  store fun s => { s with heap := Function.update s.heap o { s.heap o with next := heapStart } }

/-- `create_per_task_pm_heap`. -/
def createPerTaskPmHeap (w : PtrWidth) (o : Owner) (size : Nat) : Prog Heaps Unit :=
  if size = 0 then
    initHeap w o 0 0
  else do
    match ← globalAlloc w size with
    | some start => initHeap w o start size
    | none => pure ()

def minPriority : Nat := 8

/-- The transaction of `create_task_static`, as far as the heaps go. -/
def createTask (cfg : HeapConfig) (prio pmemHeapSz : Nat) : Prog Heaps (Except ErrorCode Nat) := do
  appendLogOf fun s => .taskCnt s.taskCnt
  let tid ← gets (·.taskCnt)
  if cfg.taskNumLimit ≤ tid then
    pure (.error .noSpace)
  else if minPriority ≤ prio then
    pure (.error .invalidParam)
  else do
    store fun s => { s with taskCnt := tid + 1 }
    setHeap (.task tid) newBump
    store fun s => { s with journal := Function.update s.journal (.task tid) [] }
    createPerTaskPmHeap cfg.width (.task tid) pmemHeapSz
    pure (.ok tid)

/-! ## The end of a transaction -/

/-- The loop of `Journal::recover`. -/
def undo : List HeapRecord → Heaps → Heaps
  | [], s => s
  | .heap o b :: rs, s => undo rs { s with heap := Function.update s.heap o b }
  | .global g :: rs, s => undo rs { s with global := g }
  | .taskCnt n :: rs, s => undo rs { s with taskCnt := n }

/-- `Journal::clear`. -/
def clear (o : Owner) (s : Heaps) : Heaps := { s with journal := Function.update s.journal o [] }

/-- `Transaction::roll_back`. -/
def rollBack (o : Owner) (s : Heaps) : Heaps := clear o (undo (s.journal o) s)

end Heaps

end IntOS
