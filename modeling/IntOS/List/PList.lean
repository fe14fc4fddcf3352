import IntOS.Lib.Persist

/-!
# Persistent lists (`PList` in `src/list.rs`, with `opt_list` and `crash_safe`)

The nodes and the lists that log to one `ListTxOpLog`, field by field: `prev n` is the field `prev` of the
node `n`, `len l` the field `len` of the list `l`. What a node carries beside its links belongs to its
owner; `insert_sorted` gets the comparison of two values as `gt`.
-/

namespace IntOS

open Persist Persist.Prog

inductive ListOpCode
  | invalid
  | insertBeforeCursor
  | insertFront
  | insertSortedWaitList
  | insertSortedDelayList
  | popFront
  | remove
  | readyListNext
deriving DecidableEq, Repr

namespace ListOpCode

def toNat : ListOpCode → Nat
  | invalid => 0
  | insertBeforeCursor => 1
  | insertFront => 2
  | insertSortedWaitList => 3
  | insertSortedDelayList => 4
  | popFront => 5
  | remove => 6
  | readyListNext => 7

/-- `transmute` to a `ListOpCode`: undefined for any other number. -/
def ofNat? : Nat → Option ListOpCode
  | 0 => some invalid
  | 1 => some insertBeforeCursor
  | 2 => some insertFront
  | 3 => some insertSortedWaitList
  | 4 => some insertSortedDelayList
  | 5 => some popFront
  | 6 => some remove
  | 7 => some readyListNext
  | _ => none

end ListOpCode

def opCodeShift : Nat := 12

/-- `ListTxOpLog::set_micro_op_old_len`. -/
def microOpOldLenOf (op : ListOpCode) (oldLen : Nat) : Nat := op.toNat <<< opCodeShift ||| oldLen

structure Lists (N L : Type) where
  prev : N → Option N
  next : N → Option N
  list : N → Option L
  len : L → Nat
  cursor : L → Option N
  head : L → Option N
  microOpOldLen : Nat

namespace Lists

variable {N L : Type} [DecidableEq N] [DecidableEq L]

/-- Every node new, every list empty. -/
def new : Lists N L :=
  ⟨fun _ => none, fun _ => none, fun _ => none, fun _ => 0, fun _ => none, fun _ => none, 0⟩

/-! ## Stores -/

def setPrev (n : N) (v : Option N) : Prog (Lists N L) Unit :=
  store fun s => { s with prev := Function.update s.prev n v }

def setNext (n : N) (v : Option N) : Prog (Lists N L) Unit :=
  store fun s => { s with next := Function.update s.next n v }

def setList (n : N) (v : Option L) : Prog (Lists N L) Unit :=
  store fun s => { s with list := Function.update s.list n v }

def setLen (l : L) (v : Nat) : Prog (Lists N L) Unit :=
  store fun s => { s with len := Function.update s.len l v }

def setCursor (l : L) (v : Option N) : Prog (Lists N L) Unit :=
  store fun s => { s with cursor := Function.update s.cursor l v }

def setHead (l : L) (v : Option N) : Prog (Lists N L) Unit :=
  store fun s => { s with head := Function.update s.head l v }

def setMicroOpOldLen (op : ListOpCode) (oldLen : Nat) : Prog (Lists N L) Unit :=
  store fun s => { s with microOpOldLen := microOpOldLenOf op oldLen }

def getMicroOp (s : Lists N L) : Option ListOpCode := ListOpCode.ofNat? (s.microOpOldLen >>> opCodeShift)

def getOldLen (s : Lists N L) : Nat := s.microOpOldLen &&& 0xfff

omit [DecidableEq N] [DecidableEq L] in
theorem getMicroOp_eq {s : Lists N L} {op : ListOpCode} {oldLen : Nat} (h : oldLen < 2 ^ opCodeShift)
    (hs : s.microOpOldLen = microOpOldLenOf op oldLen) : s.getMicroOp = some op := by
  have hdiv : s.microOpOldLen >>> opCodeShift = op.toNat := by
    rw [hs, microOpOldLenOf, Nat.shiftRight_or_distrib, Nat.shiftLeft_shiftRight, Nat.shiftRight_eq_div_pow,
      Nat.div_eq_of_lt h, Nat.or_zero]
  unfold getMicroOp
  rw [hdiv]
  cases op <;> rfl

omit [DecidableEq N] [DecidableEq L] in
theorem getMicroOp_zero {s : Lists N L} (h : s.microOpOldLen = 0) : s.getMicroOp = some .invalid := by
  have hinvalid : s.microOpOldLen = microOpOldLenOf .invalid 0 := h
  exact getMicroOp_eq (by decide) hinvalid

omit [DecidableEq N] [DecidableEq L] in
theorem getOldLen_eq {s : Lists N L} {op : ListOpCode} {oldLen : Nat} (h : oldLen < 2 ^ opCodeShift)
    (hs : s.microOpOldLen = microOpOldLenOf op oldLen) : s.getOldLen = oldLen := by
  have hmask : s.getOldLen = s.microOpOldLen % 2 ^ opCodeShift :=
    Nat.and_two_pow_sub_one_eq_mod s.microOpOldLen opCodeShift
  rw [hmask, hs, microOpOldLenOf, Nat.or_mod_two_pow, Nat.shiftLeft_eq, Nat.mul_mod_left, Nat.zero_or,
    Nat.mod_eq_of_lt h]

/-- A new node, in no list. -/
def resetNode (n : N) : Prog (Lists N L) Unit := do
  setPrev n none
  setNext n none
  setList n none

/-- `ptr.map(|p| p.prev = v)`. -/
def setPrevOf (ptr : Option N) (v : Option N) : Prog (Lists N L) Unit :=
  match ptr with
  | none => pure ()
  | some p => setPrev p v

def setNextOf (ptr : Option N) (v : Option N) : Prog (Lists N L) Unit :=
  match ptr with
  | none => pure ()
  | some p => setNext p v

/-- `ptr.unwrap_unchecked()`: undefined for `None`. -/
def unwrapUnchecked {α : Type} (ptr : Option α) : Prog (Lists N L) α :=
  match ptr with
  | none => fail
  | some p => pure p

/-- `self.len -= 1`: there is nothing to remove from an empty list. -/
def decLen (l : L) : Prog (Lists N L) Unit := do
  let len ← gets (·.len l)
  check (0 < len)
  setLen l (len - 1)

def incLen (l : L) : Prog (Lists N L) Unit := do
  let len ← gets (·.len l)
  setLen l (len + 1)

def debugAssert (debug : Bool) (p : Prop) [Decidable p] : Prog (Lists N L) Unit := check (debug → p)

/-- `start_op_log(op, self.len)`. -/
def startOpLog (op : ListOpCode) (l : L) : Prog (Lists N L) Unit := do
  let len ← gets (·.len l)
  setMicroOpOldLen op len

/-! ## The circular ready lists -/

def updateHeadAtCursor (l : L) (link : N) : Prog (Lists N L) Unit := do
  let cursor ← gets (·.cursor l)
  let head ← gets (·.head l)
  if cursor = head then
    setHead l (some link)

/-- The stores that connect the node `n` before the cursor `c` of the list `l`. -/
def connectBeforeCursor (l : L) (n c : N) : Prog (Lists N L) Unit := do
  let p ← gets (·.prev c)
  setPrev n p
  let cursor ← gets (·.cursor l)
  setNext n cursor
  let q ← gets (·.prev n)
  let q ← unwrapUnchecked q
  setNext q (some n)
  setPrev c (some n)

/-- The stores that make `n` the only node of the circular list `l`. -/
def connectAlone (l : L) (n : N) : Prog (Lists N L) Unit := do
  setPrev n (some n)
  setNext n (some n)
  setCursor l (some n)
  setHead l (some n)

/-- `PList::optimized_insert_before_cursor_impl`. -/
def optimizedInsertBeforeCursorImpl (l : L) (n : N) : Prog (Lists N L) Unit := do
  let list ← gets (·.list n)
  if list ≠ none then
    pure ()
  else do
    setList n (some l)
    match ← gets (·.cursor l) with
    | none => connectAlone l n
    | some c => do
        connectBeforeCursor l n c
        updateHeadAtCursor l n
    incLen l

def optimizedInsertBeforeCursor (l : L) (n : N) : Prog (Lists N L) Unit := do
  startOpLog .insertBeforeCursor l
  optimizedInsertBeforeCursorImpl l n

/-- `PList::recover_from_failed_insert_before_cursor`. -/
def recoverFromFailedInsertBeforeCursor (l : L) (n : N) (oldLen : Nat) : Prog (Lists N L) Unit := do
  if oldLen = 0 then
    connectAlone l n
  else do
    let cursor ← gets (·.cursor l)
    let c ← unwrapUnchecked cursor
    let prev ← gets (·.prev c)
    if prev ≠ some n then
      connectBeforeCursor l n c
    updateHeadAtCursor l n
  setLen l (oldLen + 1)

/-- `PList::next`; the value of a node is the node. -/
def nextItem (l : L) : Prog (Lists N L) (Option N) := do
  match ← gets (·.cursor l) with
  | none => pure none
  | some ptr => do
      let next ← gets (·.next ptr)
      setCursor l next
      gets (·.cursor l)

def peekNext (s : Lists N L) (l : L) : Option N := (s.cursor l).bind s.next

/-! ## Removal -/

/-- The stores that take the node `n` out between its neighbours, and off the cursor and the head of `l`. -/
def disconnect (l : L) (n : N) : Prog (Lists N L) Unit := do
  let p ← gets (·.prev n)
  let q ← gets (·.next n)
  setNextOf p q
  let p ← gets (·.prev n)
  let q ← gets (·.next n)
  setPrevOf q p
  let cursor ← gets (·.cursor l)
  if cursor = some n then do
    let q ← gets (·.next n)
    setCursor l q
  let head ← gets (·.head l)
  if head = some n then do
    let q ← gets (·.next n)
    setHead l q

/-- `PList::optimized_remove_impl`. -/
def optimizedRemoveImpl (debug : Bool) (l : L) (n : N) : Prog (Lists N L) Unit := do
  let list ← gets (·.list n)
  if list = none then
    pure ()
  else do
    let len ← gets (·.len l)
    debugAssert debug (0 < len)
    if len = 1 then do
      setCursor l none
      setHead l none
    else
      disconnect l n
    decLen l
    setList n none

def optimizedRemove (debug : Bool) (l : L) (n : N) : Prog (Lists N L) Unit := do
  startOpLog .remove l
  optimizedRemoveImpl debug l n

/-- `PList::recover_from_failed_remove`. -/
def recoverFromFailedRemove (l : L) (n : N) (oldLen : Nat) : Prog (Lists N L) Unit := do
  disconnect l n
  check (0 < oldLen)
  setLen l (oldLen - 1)
  setList n none

/-- `PList::optimized_pop_front`. -/
def optimizedPopFront (l : L) : Prog (Lists N L) (Option N) := do
  match ← gets (·.head l) with
  | none => pure none
  | some oldHead => do
      startOpLog .popFront l
      let q ← gets (·.next oldHead)
      setHead l q
      let head ← gets (·.head l)
      setPrevOf head none
      let cursor ← gets (·.cursor l)
      if cursor = some oldHead then do
        let head ← gets (·.head l)
        setCursor l head
      decLen l
      setList oldHead none
      pure (some oldHead)

/-- `PList::recover_from_failed_pop_front`. -/
def recoverFromFailedPopFront (l : L) (oldHead : N) (oldLen : Nat) : Prog (Lists N L) Unit := do
  let head ← gets (·.head l)
  if head ≠ some oldHead then do
    setPrevOf head none
    let cursor ← gets (·.cursor l)
    if cursor = some oldHead then
      setCursor l head
    check (0 < oldLen)
    setLen l (oldLen - 1)
    setList oldHead none
  else do
    let _ ← optimizedPopFront l
    pure ()

/-! ## The null-terminated lists -/

/-- The stores that put the node `n` before the head of `l`. -/
def connectFront (l : L) (n : N) : Prog (Lists N L) Unit := do
  setPrev n none
  setNext n none
  match ← gets (·.head l) with
  | none => setHead l (some n)
  | some oldHead => do
      let head ← gets (·.head l)
      setNext n head
      setPrev oldHead (some n)
      setHead l (some n)

/-- `PList::optimized_insert_front`. -/
def optimizedInsertFront (debug : Bool) (l : L) (n : N) : Prog (Lists N L) Unit := do
  startOpLog .insertFront l
  let list ← gets (·.list n)
  debugAssert debug (list = none)
  connectFront l n
  incLen l
  setList n (some l)

/-- `PList::recover_from_failed_insert_front`. -/
def recoverFromFailedInsertFront (l : L) (n : N) (oldLen : Nat) : Prog (Lists N L) Unit := do
  let head ← gets (·.head l)
  if head ≠ some n then
    connectFront l n
  setLen l (oldLen + 1)
  setList n (some l)

/-- The `while` loop of `optimized_insert_sorted_impl`: the node where it stops, and whether the new node
goes after it, at the end of the list. `fuel` bounds the rounds. -/
def findSorted (gt : N → Bool) : Nat → N → Prog (Lists N L) (N × Bool)
  | 0, _ => fail
  | fuel + 1, node =>
      if gt node then do
        match ← gets (·.next node) with
        | none => pure (node, true)
        | some nextPtr => findSorted gt fuel nextPtr
      else
        pure (node, false)

/-- `PList::optimized_insert_sorted_impl`; `gt` says whether the new value is greater than that of a
node. -/
def optimizedInsertSortedImpl (debug : Bool) (fuel : Nat) (gt : N → Bool) (l : L) (n : N) :
    Prog (Lists N L) Unit := do
  let list ← gets (·.list n)
  debugAssert debug (list = none)
  setList n (some l)
  match ← gets (·.head l) with
  | none => setHead l (some n)
  | some ptr => do
      let (node, atEnd) ← findSorted gt fuel ptr
      if atEnd then do
        setPrev n (some node)
        setNext n none
        setNext node (some n)
      else do
        setNext n (some node)
        let p ← gets (·.prev node)
        setPrev n p
        setPrev node (some n)
        match ← gets (·.prev n) with
        | some p => setNext p (some n)
        | none => setHead l (some n)
  incLen l

/-- `PList::optimized_insert_sorted`. -/
def optimizedInsertSorted (debug : Bool) (fuel : Nat) (gt : N → Bool) (l : L) (n : N) : Prog (Lists N L) Unit := do
  setNext n none
  setPrev n none
  optimizedInsertSortedImpl debug fuel gt l n

/-- `SortedPList::insert`. -/
def insertSorted (debug : Bool) (op : ListOpCode) (fuel : Nat) (gt : N → Bool) (l : L) (n : N) :
    Prog (Lists N L) Unit := do
  startOpLog op l
  optimizedInsertSorted debug fuel gt l n

/-- `PList::recover_from_failed_insert_sorted`. -/
def recoverFromFailedInsertSorted (debug : Bool) (fuel : Nat) (gt : N → Bool) (l : L) (n : N)
    (oldLen : Nat) : Prog (Lists N L) Unit := do
  let list ← gets (·.list n)
  if list ≠ some l then do
    setNext n none
    setPrev n none
    optimizedInsertSortedImpl debug fuel gt l n
  else do
    let next ← gets (·.next n)
    let prev ← gets (·.prev n)
    let head ← gets (·.head l)
    match next with
    | some q => do
        let p ← gets (·.prev q)
        if p ≠ some n then do
          setPrev n p
          setPrev q (some n)
        match ← gets (·.prev n) with
        | some p => setNext p (some n)
        | none => setHead l (some n)
        setList n (some l)
        setLen l (oldLen + 1)
    | none =>
        match prev with
        | some p => do
            setNext n none
            setNext p (some n)
            setList n (some l)
            setLen l (oldLen + 1)
        | none =>
            if head = some n then
              setLen l (oldLen + 1)
            else do
              setLen l oldLen
              optimizedInsertSortedImpl debug fuel gt l n

end Lists

end IntOS
