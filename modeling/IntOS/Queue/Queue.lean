import IntOS.Pmem.Body

/-!
# Kernel queues (`src/queue.rs`)

A queue is a ring of `length` slots of `item_size` bytes. The positions of the front and of the first free
slot and the number of items are words in persistent memory. `Queue::new` writes the other fields once, so
they are values here. The wait lists take no part in the operations on the buffer.
-/

namespace IntOS

/-- Two ranges of addresses do not overlap. -/
def Apart (a n a' n' : Nat) : Prop := a + n ≤ a' ∨ a' + n' ≤ a

instance (a n a' n' : Nat) : Decidable (Apart a n a' n') := inferInstanceAs (Decidable (_ ∨ _))

inductive QueueErr
  | noMemory
  | invalidParam
  | queueDeleted
  | queueFull
  | queueEmpty
deriving DecidableEq, Repr

/-- A queue at its place in memory. `Queue::new` refuses a `length` of 0. -/
structure Queue (w : PtrWidth) where
  length : Nat
  itemSize : Nat
  /-- `buffer.as_ptr()`. -/
  buffer : Nat
  readPos : PMVar w
  writePos : PMVar w
  tail : Nat
  itemsEnqueued : PMVar w
  length_pos : 0 < length
  tail_eq : tail = itemSize * length
  tail_lt : tail < 2 ^ w.bits
  length_lt : length < 2 ^ w.bits
  read_write : Apart readPos.addr w.bytes writePos.addr w.bytes
  read_items : Apart readPos.addr w.bytes itemsEnqueued.addr w.bytes
  write_items : Apart writePos.addr w.bytes itemsEnqueued.addr w.bytes
  buffer_read : Apart buffer tail readPos.addr w.bytes
  buffer_write : Apart buffer tail writePos.addr w.bytes
  buffer_items : Apart buffer tail itemsEnqueued.addr w.bytes

/-- `x + y` and `x - y` on `usize`. They wrap in a release build and panic with `debug_assertions`; on the
positions and the count of a well-formed queue they do neither. -/
def usizeAdd (w : PtrWidth) (x y : Nat) : Nat := (x + y) % 2 ^ w.bits

def usizeSub (w : PtrWidth) (x y : Nat) : Nat := (x + (2 ^ w.bits - y)) % 2 ^ w.bits

namespace Queue

variable {w : PtrWidth}

/-- The part of `Queue::new` that writes the words of a new queue. Nothing is logged: the queue has just been
allocated. -/
def init (q : Queue w) : Body w Unit := do
  q.readPos.assign 0
  q.writePos.assign 0
  q.itemsEnqueued.assign 0

def isFull (q : Queue w) : Body w Bool := do
  let n ← q.itemsEnqueued.deref
  pure (n = q.length)

def isEmpty (q : Queue w) : Body w Bool := do
  let n ← q.itemsEnqueued.deref
  pure (n = 0)

/-- `*pos += n; if *pos == self.tail { *pos = 0; }`. -/
def advance (q : Queue w) (pos : PMVar w) (n : Nat) : Body w Unit := do
  let v ← pos.deref
  pos.assign (usizeAdd w v n)
  let v ← pos.deref
  if v = q.tail then
    pos.assign 0
  else
    pure ()

/-- `Queue::push_back`. `item` gives the bytes from `item_ptr` on. -/
def pushBack (q : Queue w) (item : Nat → UInt8) : Body w (Except QueueErr Unit) := do
  let full ← q.isFull
  if full then
    pure (.error .queueFull)
  else do
    let writePos ← q.writePos.deref
    Body.storeBytes (q.buffer + writePos) (bytesAt item 0 q.itemSize)
    q.writePos.borrowMut
    q.advance q.writePos q.itemSize
    q.itemsEnqueued.borrowMut
    let n ← q.itemsEnqueued.deref
    q.itemsEnqueued.assign (usizeAdd w n 1)
    pure (.ok ())

/-- `Queue::push_front`. -/
def pushFront (q : Queue w) (item : Nat → UInt8) : Body w (Except QueueErr Unit) := do
  let full ← q.isFull
  if full then
    pure (.error .queueFull)
  else do
    q.readPos.borrowMut
    let v ← q.readPos.deref
    q.readPos.assign (if v = 0 then usizeSub w q.tail q.itemSize else usizeSub w v q.itemSize)
    let readPos ← q.readPos.deref
    Body.storeBytes (q.buffer + readPos) (bytesAt item 0 q.itemSize)
    q.itemsEnqueued.borrowMut
    let n ← q.itemsEnqueued.deref
    q.itemsEnqueued.assign (usizeAdd w n 1)
    pure (.ok ())

/-- `Queue::dequeue` at a type of `size` bytes. -/
def dequeue (q : Queue w) (size : Nat) : Body w (Except QueueErr (List UInt8)) := do
  let empty ← q.isEmpty
  if empty then
    pure (.error .queueEmpty)
  else do
    let readPos ← q.readPos.deref
    let item ← Body.loadBytes (q.buffer + readPos) size
    q.readPos.borrowMut
    q.advance q.readPos size
    q.itemsEnqueued.borrowMut
    let n ← q.itemsEnqueued.deref
    q.itemsEnqueued.assign (usizeSub w n 1)
    pure (.ok item)

/-- An operation through a handle of the queue's item type. -/
inductive Op
  | pushBack (item : Nat → UInt8)
  | pushFront (item : Nat → UInt8)
  | dequeue

/-- A push returns no bytes. -/
def Op.body (q : Queue w) : Op → Body w (Except QueueErr (List UInt8))
  | pushBack item => do
      let r ← q.pushBack item
      pure (r.map fun _ => [])
  | pushFront item => do
      let r ← q.pushFront item
      pure (r.map fun _ => [])
  | dequeue => q.dequeue q.itemSize

/-! ## The content -/

/-- The position behind `pos`. -/
def next (q : Queue w) (pos : Nat) : Nat := if pos + q.itemSize = q.tail then 0 else pos + q.itemSize

/-- The bytes of `n` items from position `pos` on. -/
def itemsFrom (q : Queue w) (m : Nat → UInt8) : Nat → Nat → List (List UInt8)
  | _, 0 => []
  | pos, n + 1 => bytesAt m (q.buffer + pos) q.itemSize :: q.itemsFrom m (q.next pos) n

/-- The `items_enqueued` items starting at `read_pos`, in order. -/
def content (q : Queue w) (m : Nat → UInt8) : List (List UInt8) :=
  q.itemsFrom m (q.readPos.read m) (q.itemsEnqueued.read m)

/-- The replies of a sequence of operations, and the memory after them. -/
def runOps (q : Queue w) : List Op → (Nat → UInt8) → List (Except QueueErr (List UInt8)) × (Nat → UInt8)
  | [], m => ([], m)
  | op :: ops, m =>
      let (r, m') := (op.body q).eval m
      let (rs, m'') := q.runOps ops m'
      (r :: rs, m'')

/-! ## The bounded list that a queue stands for -/

/-- One operation on a list of at most `length` items. -/
def listStep (length itemSize : Nat) :
    Op → List (List UInt8) → Except QueueErr (List UInt8) × List (List UInt8)
  | .pushBack item, l =>
      if l.length = length then (.error .queueFull, l) else (.ok [], l ++ [bytesAt item 0 itemSize])
  | .pushFront item, l =>
      if l.length = length then (.error .queueFull, l) else (.ok [], bytesAt item 0 itemSize :: l)
  | .dequeue, [] => (.error .queueEmpty, [])
  | .dequeue, x :: l => (.ok x, l)

def listRun (length itemSize : Nat) :
    List Op → List (List UInt8) → List (Except QueueErr (List UInt8)) × List (List UInt8)
  | [], l => ([], l)
  | op :: ops, l =>
      let (r, l') := listStep length itemSize op l
      let (rs, l'') := listRun length itemSize ops l'
      (r :: rs, l'')

end Queue

end IntOS
