import IntOS.List.Lemmas.Alone

/-!
# The list operations without `opt_list`

They log every node that they change to a journal (`PMPtr::as_mut`) before they change it, and their callers the
list (`PMVar::borrow_mut`). The journal keeps the whole object; what its bytes look like does not matter here.
-/

namespace IntOS

open Persist Persist.Prog Chain

variable {N L α : Type}

/-- A node or a list as the journal saved it. -/
inductive Saved (N L : Type)
  | node (n : N) (prev next : Option N) (list : Option L)
  | list (l : L) (len : Nat) (cursor head : Option N)

/-- The sizes that `append_log_of` checks: the record of a node, and that of a list. -/
structure NodeJournal where
  journalSize : Nat
  recordSz : Nat
  listSz : Nat

structure Journaled (N L : Type) where
  lists : Lists N L
  tail : Nat
  saved : List (Saved N L)

namespace Journaled

variable [DecidableEq N] [DecidableEq L]

def onLists (m : Prog (Lists N L) α) : Prog (Journaled N L) α := zoom (·.lists) (fun r s => { s with lists := r }) m

/-- `PMPtr::as_mut`. -/
def asMut (cfg : NodeJournal) (n : N) : Prog (Journaled N L) Unit := do
  let tail ← gets (·.tail)
  check (tail + cfg.recordSz ≤ cfg.journalSize)
  store fun s => { s with
    tail := tail + cfg.recordSz
    saved := .node n (s.lists.prev n) (s.lists.next n) (s.lists.list n) :: s.saved }

/-- `PMVar::borrow_mut` of a list. -/
def borrowMut (cfg : NodeJournal) (l : L) : Prog (Journaled N L) Unit := do
  let tail ← gets (·.tail)
  check (tail + cfg.listSz ≤ cfg.journalSize)
  store fun s => { s with
    tail := tail + cfg.listSz
    saved := .list l (s.lists.len l) (s.lists.cursor l) (s.lists.head l) :: s.saved }

/-- `ptr.map(|p| p.as_mut(j).prev = v)`. -/
def setPrevOf (cfg : NodeJournal) (ptr v : Option N) : Prog (Journaled N L) Unit :=
  match ptr with
  | none => pure ()
  | some p => do
      asMut cfg p
      onLists (Lists.setPrev p v)

def setNextOf (cfg : NodeJournal) (ptr v : Option N) : Prog (Journaled N L) Unit :=
  match ptr with
  | none => pure ()
  | some p => do
      asMut cfg p
      onLists (Lists.setNext p v)

/-- `PList::insert_before_cursor_impl`. -/
def insertBeforeCursorImpl (cfg : NodeJournal) (debug : Bool) (l : L) (n : N) : Prog (Journaled N L) Unit := do
  let list ← gets (·.lists.list n)
  onLists (Lists.debugAssert debug (list = none))
  onLists (Lists.setList n (some l))
  match ← gets (·.lists.cursor l) with
  | none => onLists (Lists.connectAlone l n)
  | some c => do
      asMut cfg c
      let p ← gets (·.lists.prev c)
      onLists (Lists.setPrev n p)
      let cursor ← gets (·.lists.cursor l)
      onLists (Lists.setNext n cursor)
      onLists (Lists.setPrev c (some n))
      let q ← gets (·.lists.prev n)
      let q ← onLists (Lists.unwrapUnchecked q)
      asMut cfg q
      onLists (Lists.setNext q (some n))
      onLists (Lists.updateHeadAtCursor l n)
  onLists (Lists.incLen l)

def insertBeforeCursor (cfg : NodeJournal) (debug : Bool) (l : L) (n : N) : Prog (Journaled N L) Unit := do
  asMut cfg n
  insertBeforeCursorImpl cfg debug l n

/-- `PList::remove_impl`. -/
def removeImpl (cfg : NodeJournal) (debug : Bool) (l : L) (n : N) : Prog (Journaled N L) Unit := do
  let len ← gets (·.lists.len l)
  onLists (Lists.debugAssert debug (0 < len))
  let list ← gets (·.lists.list n)
  if list = none then
    pure ()
  else do
    if len = 1 then do
      onLists (Lists.setCursor l none)
      onLists (Lists.setHead l none)
    else do
      let p ← gets (·.lists.prev n)
      let q ← gets (·.lists.next n)
      setNextOf cfg p q
      let p ← gets (·.lists.prev n)
      let q ← gets (·.lists.next n)
      setPrevOf cfg q p
      let cursor ← gets (·.lists.cursor l)
      if cursor = some n then do
        let q ← gets (·.lists.next n)
        onLists (Lists.setCursor l q)
      let head ← gets (·.lists.head l)
      if head = some n then do
        let q ← gets (·.lists.next n)
        onLists (Lists.setHead l q)
    onLists (Lists.setList n none)
    onLists (Lists.decLen l)

def remove (cfg : NodeJournal) (debug : Bool) (l : L) (n : N) : Prog (Journaled N L) Unit := do
  asMut cfg n
  removeImpl cfg debug l n

/-- `PList::pop_front`. -/
def popFront (cfg : NodeJournal) (l : L) : Prog (Journaled N L) (Option N) := do
  match ← gets (·.lists.head l) with
  | none => pure none
  | some oldHead => do
      asMut cfg oldHead
      let q ← gets (·.lists.next oldHead)
      onLists (Lists.setHead l q)
      let head ← gets (·.lists.head l)
      setPrevOf cfg head none
      onLists (Lists.decLen l)
      let cursor ← gets (·.lists.cursor l)
      if cursor = some oldHead then do
        let head ← gets (·.lists.head l)
        onLists (Lists.setCursor l head)
      onLists (Lists.setList oldHead none)
      pure (some oldHead)

/-- `PList::insert_front`. -/
def insertFront (cfg : NodeJournal) (l : L) (n : N) : Prog (Journaled N L) Unit := do
  asMut cfg n
  let list ← gets (·.lists.list n)
  check (list = none)
  onLists (Lists.setList n (some l))
  onLists (Lists.setPrev n none)
  onLists (Lists.setNext n none)
  match ← gets (·.lists.head l) with
  | none => do
      onLists (Lists.setHead l (some n))
      onLists (Lists.setCursor l (some n))
  | some oldHead => do
      let head ← gets (·.lists.head l)
      onLists (Lists.setNext n head)
      asMut cfg oldHead
      onLists (Lists.setPrev oldHead (some n))
      onLists (Lists.setHead l (some n))
  onLists (Lists.incLen l)

/-- `PList::insert_sorted_impl`. -/
def insertSortedImpl (cfg : NodeJournal) (fuel : Nat) (gt : N → Bool) (l : L) (n : N) :
    Prog (Journaled N L) Unit := do
  let list ← gets (·.lists.list n)
  check (list = none)
  onLists (Lists.setList n (some l))
  onLists (Lists.setNext n none)
  onLists (Lists.setPrev n none)
  match ← gets (·.lists.head l) with
  | none => onLists (Lists.setHead l (some n))
  | some ptr => do
      let (node, atEnd) ← onLists (Lists.findSorted gt fuel ptr)
      if atEnd then do
        asMut cfg node
        onLists (Lists.setPrev n (some node))
        onLists (Lists.setNext n none)
        onLists (Lists.setNext node (some n))
      else do
        onLists (Lists.setNext n (some node))
        let p ← gets (·.lists.prev node)
        onLists (Lists.setPrev n p)
        asMut cfg node
        onLists (Lists.setPrev node (some n))
        match ← gets (·.lists.prev n) with
        | some p => do
            asMut cfg p
            onLists (Lists.setNext p (some n))
        | none => onLists (Lists.setHead l (some n))
  onLists (Lists.incLen l)

def insertSorted (cfg : NodeJournal) (fuel : Nat) (gt : N → Bool) (l : L) (n : N) : Prog (Journaled N L) Unit := do
  asMut cfg n
  insertSortedImpl cfg fuel gt l n

/-! ## What they do -/

/-- The list is the same, and so is every node. -/
structure Same (l : L) (r r' : Lists N L) : Prop where
  head : r'.head l = r.head l
  len : r'.len l = r.len l
  prev : r'.prev = r.prev
  next : r'.next = r.next
  list : r'.list = r.list

variable {cfg : NodeJournal} {debug : Bool} {s : Journaled N L} {l : L} {n : N} {xs : List N}
  {Q : Unit → Journaled N L → Prop}

omit [DecidableEq N] [DecidableEq L] in
@[simp] theorem after_onLists {m : Prog (Lists N L) α} {Q : α → Journaled N L → Prop} :
    After (onLists m) Q s ↔ After m (fun a r => Q a { s with lists := r }) s.lists := after_zoom

omit [DecidableEq N] in
theorem after_decLen {r : Lists N L} {Q : Unit → Lists N L → Prop} :
    After (Lists.decLen l) Q r ↔ (0 < r.len l → Q () { r with len := Function.update r.len l (r.len l - 1) }) := by
  simp [Lists.decLen, Lists.setLen]

omit [DecidableEq N] [DecidableEq L] in
/-- A record is saved, and the lists stay as they are. -/
theorem after_asMut (h : ∀ tail saved, Q () { s with tail := tail, saved := saved }) : After (asMut cfg n) Q s := by
  unfold asMut
  rw [after_bind, after_gets, after_bind, after_check]
  exact fun _ => h _ _

omit [DecidableEq N] [DecidableEq L] in
theorem after_borrowMut (h : ∀ tail saved, Q () { s with tail := tail, saved := saved }) :
    After (borrowMut cfg l) Q s := by
  unfold borrowMut
  rw [after_bind, after_gets, after_bind, after_check]
  exact fun _ => h _ _

omit [DecidableEq L] in
theorem after_setPrevOf {ptr v : Option N}
    (h : ∀ tail saved, Q () ⟨{ s.lists with prev := updateOf s.lists.prev ptr v }, tail, saved⟩) :
    After (setPrevOf cfg ptr v) Q s := by
  cases ptr with
  | none => exact h _ _
  | some p =>
      unfold setPrevOf
      rw [after_bind]
      exact after_asMut fun tail saved => h tail saved

omit [DecidableEq L] in
theorem after_setNextOf {ptr v : Option N}
    (h : ∀ tail saved, Q () ⟨{ s.lists with next := updateOf s.lists.next ptr v }, tail, saved⟩) :
    After (setNextOf cfg ptr v) Q s := by
  cases ptr with
  | none => exact h _ _
  | some p =>
      unfold setNextOf
      rw [after_bind]
      exact after_asMut fun tail saved => h tail saved

/-- The two stores that connect the new node come in the other order, and the container before or after. -/
theorem insertBeforeCursor_agrees (h : Lists.RingOf s.lists l xs) (hn : s.lists.list n = none) :
    After (insertBeforeCursor cfg debug l n) (fun _ r => Ends (Lists.optimizedInsertBeforeCursor l n)
      (fun _ r' => Same l r.lists r' ∧ r'.cursor l = r.lists.cursor l) s.lists) s := by
  unfold insertBeforeCursor insertBeforeCursorImpl
  rw [after_bind]
  refine after_asMut fun tail saved => ?_
  simp only [after_bind, after_gets, after_onLists, Lists.debugAssert, after_check, Lists.setList, after_store]
  intro _
  cases hc : s.lists.cursor l with
  | none =>
      simp only [Lists.optimizedInsertBeforeCursor, Lists.optimizedInsertBeforeCursorImpl, Lists.setList, ends_bind,
        Lists.ends_startOpLog, ends_gets, hn, ne_eq, not_true_eq_false, if_false, ends_store, hc,
        Lists.ends_connectAlone, Lists.ends_incLen]
      exact ⟨⟨rfl, rfl, rfl, rfl, rfl⟩, rfl⟩
  | some c =>
      have hcn : c ≠ n := by
        rintro rfl
        exact h.not_mem hn (List.mem_of_head? (h.cursor.symm.trans hc))
      rw [after_bind]
      refine after_asMut fun tail saved => ?_
      cases hq : s.lists.prev c with
      | none =>
          simp [Lists.setPrev, Lists.setNext, Lists.unwrapUnchecked, hc, hq, hcn.symm]
      | some q =>
          simp only [after_bind, after_gets, after_onLists, Lists.setPrev, Lists.setNext, after_store, hq,
            Function.update_of_ne hcn.symm, Function.update_self, Lists.unwrapUnchecked, after_pure, hc]
          refine after_asMut fun tail saved => ?_
          simp only [after_onLists, Lists.updateHeadAtCursor, Lists.setHead, Lists.incLen, Lists.setLen, after_bind,
            after_gets, after_store, Lists.optimizedInsertBeforeCursor, Lists.optimizedInsertBeforeCursorImpl,
            Lists.connectBeforeCursor, Lists.setList, Lists.setPrev, Lists.setNext, Lists.unwrapUnchecked, ends_bind,
            Lists.ends_startOpLog, ends_gets, hn, ne_eq, not_true_eq_false, if_false, ends_store, hc, hq,
            Function.update_self, ends_pure]
          split
          · exact ⟨⟨rfl, rfl, rfl, rfl, rfl⟩, rfl⟩
          · exact ⟨⟨rfl, rfl, rfl, rfl, rfl⟩, rfl⟩

/-- Here no two stores come in another order but those of the length and the container. -/
theorem remove_agrees : After (remove cfg debug l n) (fun _ r => Ends (Lists.optimizedRemove debug l n)
    (fun _ r' => Same l r.lists r' ∧ r'.cursor l = r.lists.cursor l) s.lists) s := by
  unfold remove removeImpl
  rw [after_bind]
  refine after_asMut fun tail saved => ?_
  simp only [after_bind, after_gets, after_onLists, Lists.debugAssert, after_check]
  intro hlen
  simp only [Lists.optimizedRemove, Lists.optimizedRemoveImpl, ends_bind, Lists.ends_startOpLog, ends_gets]
  by_cases hn : s.lists.list n = none
  · simp only [hn, if_true, after_pure, ends_pure]
    exact ⟨⟨rfl, rfl, rfl, rfl, rfl⟩, trivial⟩
  · simp only [hn, if_false, ends_bind, ends_gets, Lists.ends_debugAssert]
    by_cases hone : s.lists.len l = 1
    · simp only [hone, if_true, after_bind, after_onLists, Lists.setCursor, Lists.setHead, Lists.setList, after_store,
        after_decLen, ends_bind, ends_store, Lists.ends_decLen]
      exact fun _ => ⟨fun _ => Nat.one_pos, Nat.one_pos, ⟨rfl, rfl, rfl, rfl, rfl⟩, trivial⟩
    · simp only [hone, if_false, ends_bind, Lists.ends_disconnect, Lists.ends_decLen, Lists.setList, ends_store]
      rw [after_bind, after_gets, after_bind, after_gets, after_bind]
      refine after_setNextOf fun tail saved => ?_
      rw [after_bind, after_gets, after_bind, after_gets, after_bind]
      refine after_setPrevOf fun tail saved => ?_
      simp only [updateOf_self, after_bind, after_gets]
      by_cases hc : s.lists.cursor l = some n <;> by_cases hh : s.lists.head l = some n
      all_goals
        simp only [hc, hh, if_true, if_false, Lists.setCursor, Lists.setHead, after_onLists, after_bind, after_gets,
          after_store, after_decLen, updateOf_self]
        exact fun h0 => ⟨fun _ => h0, h0, ⟨rfl, rfl, rfl, rfl, rfl⟩, trivial⟩

theorem popFront_agrees : After (popFront cfg l) (fun a r => Ends (Lists.optimizedPopFront l)
    (fun a' r' => a' = a ∧ Same l r.lists r') s.lists) s := by
  unfold popFront Lists.optimizedPopFront
  simp only [after_bind, after_gets, ends_bind, ends_gets]
  cases hh : s.lists.head l with
  | none => exact ⟨rfl, rfl, rfl, rfl, rfl, rfl⟩
  | some oldHead =>
      dsimp only
      rw [after_bind]
      refine after_asMut fun tail saved => ?_
      simp only [after_bind, after_gets, after_onLists, Lists.setHead, after_store, Function.update_self]
      refine after_setPrevOf fun tail saved => ?_
      simp only [after_bind, after_onLists, after_decLen, ends_bind, Lists.ends_startOpLog, ends_gets, ends_store,
        Function.update_self, Lists.ends_setPrevOf, after_gets]
      intro hlen
      by_cases hc : s.lists.cursor l = some oldHead
      all_goals
        simp only [hc, if_true, if_false, Lists.setCursor, Lists.setList, after_onLists, after_bind, after_gets,
          after_store, after_pure, ends_bind, ends_gets, ends_store, Lists.ends_decLen, ends_pure]
        exact ⟨hlen, trivial, rfl, rfl, rfl, rfl, rfl⟩

/-- The plain version also sets the cursor of a list that was empty. -/
theorem insertFront_agrees : After (insertFront cfg l n) (fun _ r => Ends (Lists.optimizedInsertFront debug l n)
    (fun _ r' => Same l r.lists r') s.lists) s := by
  unfold insertFront
  rw [after_bind]
  refine after_asMut fun tail saved => ?_
  simp only [after_bind, after_gets, after_check]
  intro hn
  simp only [after_bind, after_gets, after_onLists, Lists.setList, Lists.setPrev, Lists.setNext, after_store,
    Lists.optimizedInsertFront, Lists.connectFront, ends_bind, Lists.ends_startOpLog, ends_gets, hn,
    Lists.ends_debugAssert, implies_true, ends_store, true_and]
  cases hh : s.lists.head l with
  | none =>
      simp only [Lists.setHead, Lists.setCursor, Lists.incLen, Lists.setLen, after_bind, after_onLists, after_store,
        after_gets, ends_bind, ends_store, ends_gets]
      exact ⟨rfl, rfl, rfl, rfl, rfl⟩
  | some oldHead =>
      rw [after_bind, after_gets, after_bind, after_onLists, after_store, after_bind]
      refine after_asMut fun tail saved => ?_
      simp only [Lists.setHead, Lists.incLen, Lists.setLen, after_bind, after_onLists, after_store, after_gets,
        ends_bind, ends_store, ends_gets, hh]
      exact ⟨rfl, rfl, rfl, rfl, rfl⟩

/-- Both versions search the same list for the place of the new node. -/
theorem insertSortedImpl_agrees {fuel : Nat} {gt : N → Bool} : After (insertSortedImpl cfg fuel gt l n)
    (fun _ r => Ends (Lists.optimizedInsertSorted debug fuel gt l n)
      (fun _ r' => Same l r.lists r' ∧ r'.cursor l = r.lists.cursor l) s.lists) s := by
  unfold insertSortedImpl
  simp only [after_bind, after_gets, after_check]
  intro hn
  simp only [after_bind, after_gets, after_onLists, Lists.setList, Lists.setPrev, Lists.setNext, after_store,
    Lists.optimizedInsertSorted, Lists.optimizedInsertSortedImpl, ends_bind, ends_gets, hn, Lists.ends_debugAssert,
    implies_true, ends_store, true_and]
  cases hh : s.lists.head l with
  | none =>
      simp only [Lists.setHead, Lists.incLen, Lists.setLen, after_bind, after_onLists, after_store, after_gets,
        ends_bind, ends_store, ends_gets]
      exact ⟨⟨rfl, rfl, rfl, rfl, rfl⟩, trivial⟩
  | some ptr =>
      simp only [after_bind, after_onLists, ends_bind]
      refine (after_out _ _).mono ?_
      rintro ⟨node, atEnd⟩ r hout
      have hsame : Ends (Lists.findSorted gt fuel ptr) (fun a' r' => a' = (node, atEnd) ∧ r' = r)
          { s.lists with
            prev := Function.update s.lists.prev n none
            next := Function.update s.lists.next n none
            list := Function.update s.lists.list n (some l) } := by
        unfold Ends
        rw [hout]
        exact ⟨rfl, rfl⟩
      cases atEnd with
      | true =>
          simp only [if_true]
          rw [after_bind]
          refine after_asMut fun tail saved => ?_
          simp only [after_bind, after_gets, after_onLists, Lists.incLen, Lists.setLen, after_store]
          refine hsame.mono ?_
          rintro _ _ ⟨rfl, rfl⟩
          simp only [if_true, ends_bind, ends_store, ends_gets]
          exact ⟨⟨rfl, rfl, rfl, rfl, rfl⟩, trivial⟩
      | false =>
          simp only [Bool.false_eq_true, if_false, after_bind, after_gets, after_onLists, after_store]
          refine after_asMut fun tail saved => ?_
          simp only [after_bind, after_gets, after_onLists, after_store]
          -- both versions read the link that they have just stored
          split
          · next p hp =>
              rw [after_bind]
              refine after_asMut fun tail saved => ?_
              simp only [Lists.incLen, Lists.setLen, after_bind, after_onLists, after_store, after_gets]
              refine hsame.mono ?_
              rintro _ _ ⟨rfl, rfl⟩
              simp only [Bool.false_eq_true, if_false, ends_bind, ends_store, ends_gets, hp]
              exact ⟨⟨rfl, rfl, rfl, rfl, rfl⟩, trivial⟩
          · next hp =>
              simp only [Lists.setHead, Lists.incLen, Lists.setLen, after_bind, after_onLists, after_store, after_gets]
              refine hsame.mono ?_
              rintro _ _ ⟨rfl, rfl⟩
              simp only [Bool.false_eq_true, if_false, ends_bind, ends_store, ends_gets, hp]
              exact ⟨⟨rfl, rfl, rfl, rfl, rfl⟩, trivial⟩

theorem insertSorted_agrees {fuel : Nat} {gt : N → Bool} : After (insertSorted cfg fuel gt l n)
    (fun _ r => Ends (Lists.optimizedInsertSorted debug fuel gt l n)
      (fun _ r' => Same l r.lists r' ∧ r'.cursor l = r.lists.cursor l) s.lists) s := by
  unfold insertSorted
  rw [after_bind]
  exact after_asMut fun tail saved => insertSortedImpl_agrees

/-! ## What they leave -/

omit [DecidableEq N] [DecidableEq L] in
theorem Same.linearOf {r r' : Lists N L} (h : Same l r r') (hc : r'.cursor l = r.cursor l)
    (hr : Lists.LinearOf r' l xs) : Lists.LinearOf r l xs where
  toLinearAt := hr.toLinearAt.congr h.len.symm hc.symm h.head.symm (fun _ _ => by rw [h.prev]) fun _ _ => by rw [h.next]
  owner x := by rw [← h.list]; exact hr.owner x
  nodup := hr.nodup

omit [DecidableEq N] [DecidableEq L] in
/-- The list that one version leaves, the other does. -/
theorem linearOf_of_agrees {plain : Prog (Journaled N L) Unit} {opt : Prog (Lists N L) Unit}
    (h : After plain (fun _ r => Ends opt (fun _ r' => Same l r.lists r' ∧ r'.cursor l = r.lists.cursor l) s.lists) s)
    (hopt : Ends opt (fun _ r' => Lists.LinearOf r' l xs) s.lists) :
    After plain (fun _ r => Lists.LinearOf r.lists l xs) s := by
  refine h.mono fun _ r hr => ?_
  obtain ⟨_, _, _, ⟨hsame, hc⟩, hlin⟩ := (hr.and hopt).returns
  exact hsame.linearOf hc hlin

/-! ## They return -/

omit [DecidableEq N] [DecidableEq L] in
@[simp] theorem ends_onLists {m : Prog (Lists N L) α} {Q : α → Journaled N L → Prop} :
    Ends (onLists m) Q s ↔ Ends m (fun a r => Q a { s with lists := r }) s.lists := ends_zoom

/-- The journal has room for `k` more records. -/
def Room (cfg : NodeJournal) (k : Nat) (s : Journaled N L) : Prop :=
  s.tail + k * max cfg.recordSz cfg.listSz ≤ cfg.journalSize

omit [DecidableEq N] [DecidableEq L] in
theorem ends_asMut {k : Nat} (hroom : Room cfg (k + 1) s)
    (h : ∀ saved, Room cfg k { s with tail := s.tail + cfg.recordSz, saved := saved } →
      Q () { s with tail := s.tail + cfg.recordSz, saved := saved }) : Ends (asMut cfg n) Q s := by
  have hsz : cfg.recordSz ≤ max cfg.recordSz cfg.listSz := Nat.le_max_left _ _
  unfold Room at hroom
  rw [Nat.succ_mul] at hroom
  unfold asMut
  rw [ends_bind, ends_gets, ends_bind, ends_check]
  refine ⟨by omega, h _ ?_⟩
  unfold Room
  dsimp only
  omega

omit [DecidableEq N] [DecidableEq L] in
theorem ends_borrowMut {k : Nat} (hroom : Room cfg (k + 1) s)
    (h : ∀ saved, Room cfg k { s with tail := s.tail + cfg.listSz, saved := saved } →
      Q () { s with tail := s.tail + cfg.listSz, saved := saved }) : Ends (borrowMut cfg l) Q s := by
  have hsz : cfg.listSz ≤ max cfg.recordSz cfg.listSz := Nat.le_max_right _ _
  unfold Room at hroom
  rw [Nat.succ_mul] at hroom
  unfold borrowMut
  rw [ends_bind, ends_gets, ends_bind, ends_check]
  refine ⟨by omega, h _ ?_⟩
  unfold Room
  dsimp only
  omega

omit [DecidableEq N] [DecidableEq L] in
theorem Room.lists {k : Nat} (h : Room cfg k s) (r : Lists N L) : Room cfg k { s with lists := r } := h

omit [DecidableEq N] [DecidableEq L] in
theorem Room.less {k : Nat} (h : Room cfg (k + 1) s) : Room cfg k s := by
  unfold Room at h ⊢
  rw [Nat.succ_mul] at h
  omega

theorem insertBeforeCursor_returns (h : Lists.RingOf s.lists l xs) (hn : s.lists.list n = none) (hroom : Room cfg 3 s) :
    Ends (insertBeforeCursor cfg debug l n) (fun _ _ => True) s := by
  unfold insertBeforeCursor insertBeforeCursorImpl
  rw [ends_bind]
  refine ends_asMut hroom fun saved hroom => ?_
  simp only [ends_bind, ends_gets, ends_onLists, Lists.ends_debugAssert, hn, implies_true, true_and, Lists.setList,
    ends_store]
  cases xs with
  | nil =>
      have hc : s.lists.cursor l = none := h.cursor
      simp [hc]
  | cons c xs =>
      have hc : s.lists.cursor l = some c := h.cursor
      obtain ⟨q, hq⟩ : ∃ q, s.lists.prev c = some q := ⟨_, h.links.1.trans List.getLast?_cons⟩
      have hcn : n ≠ c := fun he => h.not_mem hn (he ▸ List.mem_cons_self)
      simp only [hc, ends_bind]
      refine ends_asMut (hroom.lists _) fun saved hroom => ?_
      simp only [ends_gets, ends_bind, ends_onLists, Lists.setPrev, Lists.setNext, ends_store, hq,
        Function.update_of_ne hcn, Function.update_self, Lists.unwrapUnchecked, ends_pure]
      refine ends_asMut (hroom.lists _) fun saved hroom => ?_
      simp

omit [DecidableEq L] in
theorem ends_setPrevOf {k : Nat} {ptr v : Option N} (hroom : Room cfg (k + 1) s)
    (h : ∀ r tail saved, r.len = s.lists.len → Room cfg k ⟨r, tail, saved⟩ → Q () ⟨r, tail, saved⟩) :
    Ends (setPrevOf cfg ptr v) Q s := by
  cases ptr with
  | none => exact h s.lists s.tail s.saved rfl hroom.less
  | some p =>
      unfold setPrevOf
      rw [ends_bind]
      exact ends_asMut hroom fun saved hroom => h _ _ _ rfl (hroom.lists _)

omit [DecidableEq L] in
theorem ends_setNextOf {k : Nat} {ptr v : Option N} (hroom : Room cfg (k + 1) s)
    (h : ∀ r tail saved, r.len = s.lists.len → Room cfg k ⟨r, tail, saved⟩ → Q () ⟨r, tail, saved⟩) :
    Ends (setNextOf cfg ptr v) Q s := by
  cases ptr with
  | none => exact h s.lists s.tail s.saved rfl hroom.less
  | some p =>
      unfold setNextOf
      rw [ends_bind]
      exact ends_asMut hroom fun saved hroom => h _ _ _ rfl (hroom.lists _)

theorem remove_returns {k : Nat} (hlen : 0 < s.lists.len l) (hroom : Room cfg (k + 3) s) :
    Ends (remove cfg debug l n) (fun _ r => Room cfg k r) s := by
  unfold remove removeImpl
  rw [ends_bind]
  refine ends_asMut hroom fun saved hroom => ?_
  simp only [ends_bind, ends_gets, ends_onLists, Lists.ends_debugAssert]
  refine ⟨fun _ => hlen, ?_⟩
  by_cases hn : s.lists.list n = none
  · simpa [hn] using hroom.less.less
  · simp only [hn, if_false]
    by_cases hone : s.lists.len l = 1
    · simpa [hone, Lists.setCursor, Lists.setHead, Lists.setList] using (hroom.less.less.lists _)
    · simp only [hone, if_false, ends_bind, ends_gets]
      refine ends_setNextOf hroom fun r tail saved hr hroom => ?_
      rw [ends_bind, ends_gets, ends_bind, ends_gets, ends_bind]
      refine ends_setPrevOf hroom fun r' tail saved hr' hroom => ?_
      have hlen' : 0 < r'.len l := by rw [hr', hr]; exact hlen
      rw [ends_bind, ends_gets]
      by_cases hc : r'.cursor l = some n <;> by_cases hh : r'.head l = some n
      all_goals simpa [hc, hh, Lists.setCursor, Lists.setHead, Lists.setList] using ⟨hlen', hroom⟩

theorem popFront_returns (h : Lists.LinearOf s.lists l xs) (hroom : Room cfg 3 s) :
    Ends (popFront cfg l) (fun _ _ => True) s := by
  unfold popFront
  rw [ends_bind, ends_gets]
  cases xs with
  | nil =>
      have hh : s.lists.head l = none := h.head
      simp [hh]
  | cons x xs =>
      have hh : s.lists.head l = some x := h.head
      have hlen : 0 < s.lists.len l := by
        rw [h.len]
        exact Nat.succ_pos _
      simp only [hh, ends_bind]
      refine ends_asMut hroom fun saved hroom => ?_
      simp only [ends_gets, ends_onLists, ends_bind, Lists.setHead, ends_store]
      refine ends_setPrevOf (hroom.lists _) fun r tail saved hr hroom => ?_
      have hlen' : 0 < r.len l := by rw [hr]; exact hlen
      simp only [ends_gets, ends_onLists, ends_bind, Lists.ends_decLen]
      refine ⟨hlen', ?_⟩
      split <;> simp [Lists.setCursor, Lists.setList]

theorem insertFront_returns (hn : s.lists.list n = none) (hroom : Room cfg 3 s) :
    Ends (insertFront cfg l n) (fun _ _ => True) s := by
  unfold insertFront
  rw [ends_bind]
  refine ends_asMut hroom fun saved hroom => ?_
  simp only [ends_bind, ends_gets, ends_check, hn, true_and, ends_onLists, Lists.setList, Lists.setPrev, Lists.setNext,
    ends_store]
  split
  · simp [Lists.setHead, Lists.setCursor]
  · simp only [ends_bind, ends_gets, ends_onLists, ends_store]
    refine ends_asMut (hroom.lists _) fun saved hroom => ?_
    simp [Lists.setHead]

theorem insertSortedImpl_returns {k fuel : Nat} {gt : N → Bool} (h : Lists.LinearOf s.lists l xs)
    (hn : s.lists.list n = none) (hf : xs.length ≤ fuel) (hroom : Room cfg (k + 2) s) :
    Ends (insertSortedImpl cfg fuel gt l n) (fun _ r => Room cfg k r) s := by
  unfold insertSortedImpl
  simp only [ends_bind, ends_gets, ends_check, hn, true_and, ends_onLists, Lists.setList, Lists.setPrev, Lists.setNext,
    ends_store]
  cases xs with
  | nil =>
      have hh : s.lists.head l = none := h.head
      simpa [hh, Lists.setHead] using (hroom.less.less.lists _)
  | cons x xs =>
      have hh : s.lists.head l = some x := h.head
      have hne : ∀ y ∈ x :: xs, y ≠ n := fun y hy => ne_of_mem_of_not_mem hy (h.not_mem hn)
      simp only [hh, ends_bind, ends_onLists]
      refine (Lists.ends_findSorted (h.links.congr ?_ ?_) (Nat.lt_of_succ_le hf)).mono ?_
      · exact fun y hy => Function.update_of_ne (hne y hy) _ _
      · exact fun y hy => Function.update_of_ne (hne y hy) _ _
      rintro ⟨node, atEnd⟩ _ ⟨rfl, _⟩
      cases atEnd with
      | true =>
          simp only [if_true, ends_bind]
          refine ends_asMut (hroom.lists _) fun saved hroom => ?_
          simpa using (hroom.less.lists _)
      | false =>
          simp only [Bool.false_eq_true, if_false, ends_bind, ends_onLists, ends_store, ends_gets]
          refine ends_asMut (hroom.lists _) fun saved hroom => ?_
          simp only [ends_bind, ends_gets, ends_onLists, ends_store]
          split
          · rw [ends_bind]
            refine ends_asMut (hroom.lists _) fun saved hroom => ?_
            simpa using (hroom.lists _)
          · simpa [Lists.setHead] using (hroom.less.lists _)

theorem insertSorted_returns {k fuel : Nat} {gt : N → Bool} (h : Lists.LinearOf s.lists l xs)
    (hn : s.lists.list n = none) (hf : xs.length ≤ fuel) (hroom : Room cfg (k + 3) s) :
    Ends (insertSorted cfg fuel gt l n) (fun _ r => Room cfg k r) s := by
  unfold insertSorted
  rw [ends_bind]
  exact ends_asMut hroom fun saved hroom => insertSortedImpl_returns (s := ⟨s.lists, _, saved⟩) h hn hf hroom

/-! ## Both versions -/

/-- With room in the journal the version that logs nodes returns. Whenever it does, the other returns the same, and
leaves the same list and nodes. -/
structure Agrees (cfg : NodeJournal) (l : L) (ring : Bool) (plain : Prog (Journaled N L) α) (opt : Prog (Lists N L) α)
    (s : Journaled N L) : Prop where
  returns : Room cfg 3 s → Ends plain (fun _ _ => True) s
  same : After plain (fun a r => Ends opt (fun a' r' => a' = a ∧ Same l r.lists r' ∧
    (ring → r'.cursor l = r.lists.cursor l)) s.lists) s

omit [DecidableEq N] [DecidableEq L] in
theorem Agrees.unit {ring : Bool} {plain : Prog (Journaled N L) Unit} {opt : Prog (Lists N L) Unit}
    (hr : Room cfg 3 s → Ends plain (fun _ _ => True) s)
    (h : After plain (fun _ r => Ends opt (fun _ r' => Same l r.lists r' ∧ (ring → r'.cursor l = r.lists.cursor l))
      s.lists) s) : Agrees cfg l ring plain opt s where
  returns := hr
  same := h.mono fun _ _ h => h.mono fun _ _ h => ⟨rfl, h⟩

/-- The operations on a list of any length. A ring is compared with its cursor. -/
theorem optimized_agrees (cfg : NodeJournal) (debug : Bool) (s : Journaled N L) (l : L) (n : N) :
    (∀ xs, Lists.RingOf s.lists l xs → s.lists.list n = none →
      Agrees cfg l true (insertBeforeCursor cfg debug l n) (Lists.optimizedInsertBeforeCursor l n) s) ∧
    (0 < s.lists.len l → Agrees cfg l true (remove cfg debug l n) (Lists.optimizedRemove debug l n) s) ∧
    (∀ xs, Lists.LinearOf s.lists l xs → Agrees cfg l false (popFront cfg l) (Lists.optimizedPopFront l) s) ∧
    (s.lists.list n = none →
      Agrees cfg l false (insertFront cfg l n) (Lists.optimizedInsertFront debug l n) s) ∧
    (∀ xs fuel gt, Lists.LinearOf s.lists l xs → s.lists.list n = none → xs.length ≤ fuel →
      Agrees cfg l false (insertSorted cfg fuel gt l n) (Lists.optimizedInsertSorted debug fuel gt l n) s) := by
  refine ⟨fun xs h hn => ?_, fun hlen => ?_, fun xs h => ?_, fun hn => ?_, fun xs fuel gt h hn hf => ?_⟩
  · exact .unit (insertBeforeCursor_returns h hn)
      ((insertBeforeCursor_agrees h hn).mono fun _ _ h => h.mono fun _ _ h => ⟨h.1, fun _ => h.2⟩)
  · exact .unit (fun hroom => (remove_returns hlen hroom).mono fun _ _ _ => trivial)
      (remove_agrees.mono fun _ _ h => h.mono fun _ _ h => ⟨h.1, fun _ => h.2⟩)
  · exact ⟨popFront_returns h, popFront_agrees.mono fun _ _ h => h.mono fun _ _ h => ⟨h.1, h.2, nofun⟩⟩
  · exact .unit (insertFront_returns hn) (insertFront_agrees.mono fun _ _ h => h.mono fun _ _ h => ⟨h, nofun⟩)
  · exact .unit (fun hroom => (insertSorted_returns h hn hf hroom).mono fun _ _ _ => trivial)
      (insertSorted_agrees.mono fun _ _ h => h.mono fun _ _ h => ⟨h.1, fun _ => h.2⟩)

/-- A journal for three records. -/
def threeRecords : NodeJournal := ⟨12, 4, 4⟩

/-- A ring of three nodes and a list of three. -/
theorem optimized_agrees_threeNodes :
    Agrees threeRecords () true (insertBeforeCursor threeRecords true () 3) (Lists.optimizedInsertBeforeCursor () 3)
      ⟨Lists.threeInRing, 0, []⟩ ∧
    Agrees threeRecords () true (remove threeRecords true () 1) (Lists.optimizedRemove true () 1)
      ⟨Lists.threeInRing, 0, []⟩ ∧
    Agrees threeRecords () false (popFront threeRecords ()) (Lists.optimizedPopFront ()) ⟨Lists.upTo 3, 0, []⟩ ∧
    Agrees threeRecords () false (insertFront threeRecords () 3) (Lists.optimizedInsertFront true () 3)
      ⟨Lists.upTo 3, 0, []⟩ ∧
    Agrees threeRecords () false (insertSorted threeRecords 3 (· < 1) () 3)
      (Lists.optimizedInsertSorted true 3 (· < 1) () 3) ⟨Lists.upTo 3, 0, []⟩ := by
  have hlist : Lists.LinearOf (Lists.upTo 3) () [0, 1, 2] := Lists.linearOf_upTo 3
  obtain ⟨hinsert, _⟩ := optimized_agrees threeRecords true ⟨Lists.threeInRing, 0, []⟩ () 3
  obtain ⟨_, hremove, _⟩ := optimized_agrees threeRecords true ⟨Lists.threeInRing, 0, []⟩ () 1
  obtain ⟨_, _, hpop, hfront, hsorted⟩ := optimized_agrees threeRecords true ⟨Lists.upTo 3, 0, []⟩ () 3
  refine ⟨hinsert _ Lists.ringOf_threeInRing rfl, hremove (by decide), hpop _ hlist, hfront rfl, ?_⟩
  exact hsorted _ 3 _ hlist rfl (le_refl 3)

end Journaled

end IntOS
