import IntOS.Lib.Commute
import IntOS.List.Lemmas.Ops

/-!
# One list alone

An operation on a list does the same whatever the other lists hold: `alone l` forgets them, and commutes with
every store of the operations on `l`. So what `Lemmas/Ops.lean` says about all lists at once holds of one list
beside others that need not be well linked.
-/

namespace IntOS

open Persist Persist.Prog Chain

variable {N L : Type}

namespace Lists

/-- The list `l` is a ring of the nodes `xs`, the cursor first. -/
structure RingOf (s : Lists N L) (l : L) (xs : List N) : Prop extends RingAt s l xs where
  owner : ∀ n, s.list n = some l ↔ n ∈ xs
  nodup : xs.Nodup

/-- The list `l` is null-terminated and holds the nodes `xs`. -/
structure LinearOf (s : Lists N L) (l : L) (xs : List N) : Prop extends LinearAt s l xs where
  owner : ∀ n, s.list n = some l ↔ n ∈ xs
  nodup : xs.Nodup

variable [DecidableEq L] {s s' : Lists N L} {l : L} {n : N} {xs ys : List N} {debug : Bool}

/-- The state without the other lists. -/
def alone (l : L) (s : Lists N L) : Lists N L where
  prev := s.prev
  next := s.next
  list := fun n => if s.list n = some l then some l else none
  len := Function.update (fun _ => 0) l (s.len l)
  cursor := Function.update (fun _ => none) l (s.cursor l)
  head := Function.update (fun _ => none) l (s.head l)
  microOpOldLen := s.microOpOldLen

theorem alone_list (hn : s.list n = none ∨ s.list n = some l) : (alone l s).list n = s.list n := by
  rcases hn with hn | hn <;> simp [alone, hn]

theorem owner_alone (m : L) : (alone l s).list n = some m ↔ m = l ∧ s.list n = some l := by
  unfold alone
  by_cases hn : s.list n = some l
  · simp [hn, eq_comm]
  · simp [hn]

/-- What the other lists hold, once they are forgotten. -/
theorem owner_update (hown : ∀ n, s.list n = some l ↔ n ∈ xs) (m : L) (n : N) :
    (alone l s).list n = some m ↔ n ∈ Function.update (fun _ => []) l xs m := by
  rw [owner_alone, hown]
  by_cases hm : m = l
  · subst hm
    simp
  · simp [hm]

theorem nodup_update (hnd : xs.Nodup) (m : L) : (Function.update (fun _ => []) l xs m).Nodup := by
  by_cases hm : m = l
  · subst hm
    rwa [Function.update_self]
  · rw [Function.update_of_ne hm]
    exact List.nodup_nil

@[simp] theorem alone_len : (alone l s).len l = s.len l := by simp [alone]

@[simp] theorem alone_cursor : (alone l s).cursor l = s.cursor l := by simp [alone]

@[simp] theorem alone_head : (alone l s).head l = s.head l := by simp [alone]

theorem ringAt_alone : RingAt (alone l s) l xs ↔ RingAt s l xs :=
  ⟨fun h => h.congr alone_len.symm alone_cursor.symm alone_head.symm (fun _ _ => rfl) fun _ _ => rfl,
    fun h => h.congr alone_len alone_cursor alone_head (fun _ _ => rfl) fun _ _ => rfl⟩

theorem linearAt_alone : LinearAt (alone l s) l xs ↔ LinearAt s l xs :=
  ⟨fun h => h.congr alone_len.symm alone_cursor.symm alone_head.symm (fun _ _ => rfl) fun _ _ => rfl,
    fun h => h.congr alone_len alone_cursor alone_head (fun _ _ => rfl) fun _ _ => rfl⟩

/-- The other lists are empty. -/
theorem alone_of_ne {m : L} (hm : m ≠ l) :
    (alone l s).len m = 0 ∧ (alone l s).cursor m = none ∧ (alone l s).head m = none := by
  simp [alone, hm]

theorem ringOf_iff : RingOf s l xs ↔ Holds (fun _ => True) (alone l s) (Function.update (fun _ => []) l xs) := by
  constructor
  · intro h
    refine ⟨owner_update h.owner, nodup_update h.nodup, fun m _ => ?_, fun m hm => absurd trivial hm⟩
    by_cases hm : m = l
    · subst hm
      rw [Function.update_self, ringAt_alone]
      exact h.toRingAt
    · obtain ⟨hlen, hcursor, hhead⟩ := alone_of_ne (s := s) hm
      rw [Function.update_of_ne hm]
      exact ⟨hlen, hcursor, Or.inl ⟨rfl, hhead⟩, trivial⟩
  · intro h
    have hr := h.rings l trivial
    have hown := fun n => h.owner l n
    have hnd := h.nodup l
    rw [Function.update_self] at hr hnd
    simp only [Function.update_self, owner_alone, true_and] at hown
    exact ⟨ringAt_alone.mp hr, hown, hnd⟩

theorem linearOf_iff :
    LinearOf s l xs ↔ Holds (fun _ => False) (alone l s) (Function.update (fun _ => []) l xs) := by
  constructor
  · intro h
    refine ⟨owner_update h.owner, nodup_update h.nodup, fun m hm => hm.elim, fun m _ => ?_⟩
    by_cases hm : m = l
    · subst hm
      rw [Function.update_self, linearAt_alone]
      exact h.toLinearAt
    · obtain ⟨hlen, hcursor, hhead⟩ := alone_of_ne (s := s) hm
      rw [Function.update_of_ne hm]
      exact ⟨hlen, hcursor, hhead, trivial⟩
  · intro h
    have hr := h.linears l id
    have hown := fun n => h.owner l n
    have hnd := h.nodup l
    rw [Function.update_self] at hr hnd
    simp only [Function.update_self, owner_alone, true_and] at hown
    exact ⟨linearAt_alone.mp hr, hown, hnd⟩

/-! ## Stores on the list -/

theorem commutes_alone_setLen (v : Nat) : Commutes (alone l : Lists N L → Lists N L) (setLen l v) :=
  commutes_store fun s => by simp [alone]

theorem commutes_alone_setCursor (v : Option N) : Commutes (alone l : Lists N L → Lists N L) (setCursor l v) :=
  commutes_store fun s => by simp [alone]

theorem commutes_alone_setHead (v : Option N) : Commutes (alone l : Lists N L → Lists N L) (setHead l v) :=
  commutes_store fun s => by simp [alone]

theorem commutes_alone_len : Commutes (alone l : Lists N L → Lists N L) (gets (·.len l)) :=
  commutes_gets fun s => by simp [alone]

theorem commutes_alone_cursor : Commutes (alone l : Lists N L → Lists N L) (gets (·.cursor l)) :=
  commutes_gets fun s => by simp [alone]

theorem commutes_alone_head : Commutes (alone l : Lists N L → Lists N L) (gets (·.head l)) :=
  commutes_gets fun s => by simp [alone]

theorem commutes_alone_startOpLog (op : ListOpCode) :
    Commutes (alone l : Lists N L → Lists N L) (startOpLog op l) :=
  commutes_alone_len.bind fun _ => commutes_store fun _ => rfl

theorem commutes_alone_incLen : Commutes (alone l : Lists N L → Lists N L) (incLen l) :=
  commutes_alone_len.bind fun _ => commutes_alone_setLen _

theorem commutes_alone_decLen : Commutes (alone l : Lists N L → Lists N L) (decLen l) :=
  commutes_alone_len.bind fun _ => (commutes_check _).bind fun _ => commutes_alone_setLen _

variable [DecidableEq N]

theorem commutes_alone_setPrev (m : N) (v : Option N) :
    Commutes (alone l : Lists N L → Lists N L) (setPrev m v) := commutes_store fun _ => rfl

theorem commutes_alone_setNext (m : N) (v : Option N) :
    Commutes (alone l : Lists N L → Lists N L) (setNext m v) := commutes_store fun _ => rfl

theorem commutes_alone_setPrevOf (m v : Option N) :
    Commutes (alone l : Lists N L → Lists N L) (setPrevOf m v) := by
  cases m with
  | none => exact commutes_pure ()
  | some m => exact commutes_alone_setPrev m v

theorem commutes_alone_setNextOf (m v : Option N) :
    Commutes (alone l : Lists N L → Lists N L) (setNextOf m v) := by
  cases m with
  | none => exact commutes_pure ()
  | some m => exact commutes_alone_setNext m v

theorem commutes_alone_setList {v : Option L} (hv : v = none ∨ v = some l) :
    Commutes (alone l : Lists N L → Lists N L) (setList n v) := by
  refine commutes_store fun s => ?_
  simp only [alone, mk.injEq, true_and, and_true]
  funext m
  by_cases hm : m = n
  · subst hm
    rcases hv with rfl | rfl <;> simp
  · simp [Function.update_of_ne hm]

omit [DecidableEq N] in
theorem commutes_alone_unwrapUnchecked {α : Type} (v : Option α) :
    Commutes (alone l : Lists N L → Lists N L) (unwrapUnchecked v) := by
  cases v with
  | none => exact commutes_fail
  | some a => exact commutes_pure a

theorem commutes_alone_updateHeadAtCursor :
    Commutes (alone l : Lists N L → Lists N L) (updateHeadAtCursor l n) := by
  refine commutes_alone_cursor.bind fun cursor => commutes_alone_head.bind fun head => ?_
  split
  · exact commutes_alone_setHead _
  · exact commutes_pure ()

theorem commutes_alone_connectAlone : Commutes (alone l : Lists N L → Lists N L) (connectAlone l n) :=
  (commutes_alone_setPrev _ _).bind fun _ => (commutes_alone_setNext _ _).bind fun _ =>
    (commutes_alone_setCursor _).bind fun _ => commutes_alone_setHead _

theorem commutes_alone_connectBeforeCursor (c : N) :
    Commutes (alone l : Lists N L → Lists N L) (connectBeforeCursor l n c) := by
  refine Commutes.bind (commutes_gets fun _ => rfl) fun _ => (commutes_alone_setPrev _ _).bind fun _ => ?_
  refine commutes_alone_cursor.bind fun _ => (commutes_alone_setNext _ _).bind fun _ => ?_
  refine Commutes.bind (commutes_gets fun _ => rfl) fun _ => (commutes_alone_unwrapUnchecked _).bind fun _ => ?_
  exact (commutes_alone_setNext _ _).bind fun _ => commutes_alone_setPrev _ _

theorem commutes_alone_disconnect : Commutes (alone l : Lists N L → Lists N L) (disconnect l n) := by
  refine Commutes.bind (commutes_gets fun _ => rfl) fun _ => Commutes.bind (commutes_gets fun _ => rfl) fun _ => ?_
  refine (commutes_alone_setNextOf _ _).bind fun _ => ?_
  refine Commutes.bind (commutes_gets fun _ => rfl) fun _ => Commutes.bind (commutes_gets fun _ => rfl) fun _ => ?_
  refine (commutes_alone_setPrevOf _ _).bind fun _ => commutes_alone_cursor.bind fun _ => ?_
  have hhead : Commutes (alone l : Lists N L → Lists N L) (do
      let head ← gets (·.head l)
      if head = some n then do
        let q ← gets (·.next n)
        setHead l q) := by
    refine commutes_alone_head.bind fun _ => ?_
    split
    · exact Commutes.bind (commutes_gets fun _ => rfl) fun _ => commutes_alone_setHead _
    · exact commutes_pure ()
  dsimp only
  split
  · exact Commutes.bind (commutes_gets fun _ => rfl) fun _ => (commutes_alone_setCursor _).bind fun _ => hhead
  · exact hhead

omit [DecidableEq N] in
theorem commutes_alone_findSorted (gt : N → Bool) (fuel : Nat) (x : N) :
    Commutes (alone l : Lists N L → Lists N L) (findSorted gt fuel x) := by
  induction fuel generalizing x with
  | zero => exact commutes_fail
  | succ fuel ih =>
      unfold findSorted
      split
      · refine Commutes.bind (commutes_gets fun _ => rfl) fun next => ?_
        cases next with
        | none => exact commutes_pure _
        | some y => exact ih y
      · exact commutes_pure _

/-! ## Operations on the list -/

variable {Q : Unit → Lists N L → Prop}

theorem ends_alone_optimizedInsertBeforeCursor (hn : s.list n = none) :
    Ends (optimizedInsertBeforeCursor l n) Q (alone l s) ↔
      Ends (optimizedInsertBeforeCursor l n) (fun a r => Q a (alone l r)) s := by
  unfold optimizedInsertBeforeCursor optimizedInsertBeforeCursorImpl
  rw [ends_bind, ends_bind, (commutes_alone_startOpLog _).ends, ends_startOpLog, ends_startOpLog]
  refine Commutes.ends_gets_bind (alone_list (Or.inl hn)) fun list => ?_
  split
  · exact commutes_pure ()
  · refine (commutes_alone_setList (Or.inr rfl)).bind fun _ => commutes_alone_cursor.bind fun cursor => ?_
    cases cursor with
    | none => exact commutes_alone_connectAlone.bind fun _ => commutes_alone_incLen
    | some c =>
        exact (commutes_alone_connectBeforeCursor c).bind fun _ => commutes_alone_updateHeadAtCursor.bind fun _ =>
          commutes_alone_incLen

theorem ends_alone_optimizedRemove (hn : s.list n = none ∨ s.list n = some l) :
    Ends (optimizedRemove debug l n) Q (alone l s) ↔
      Ends (optimizedRemove debug l n) (fun a r => Q a (alone l r)) s := by
  unfold optimizedRemove optimizedRemoveImpl
  rw [ends_bind, ends_bind, (commutes_alone_startOpLog _).ends, ends_startOpLog, ends_startOpLog]
  refine Commutes.ends_gets_bind (alone_list hn) fun list => ?_
  split
  · exact commutes_pure ()
  · refine commutes_alone_len.bind fun len => (commutes_check _).bind fun _ => ?_
    have hrest : Commutes (alone l : Lists N L → Lists N L) (do
        decLen l
        setList n none) := commutes_alone_decLen.bind fun _ => commutes_alone_setList (Or.inl rfl)
    dsimp only
    split
    · exact (commutes_alone_setCursor none).bind fun _ => (commutes_alone_setHead none).bind fun _ => hrest
    · exact commutes_alone_disconnect.bind fun _ => hrest

omit [DecidableEq N] in
theorem commutes_alone_nextItem : Commutes (alone l : Lists N L → Lists N L) (nextItem l) := by
  refine commutes_alone_cursor.bind fun cursor => ?_
  cases cursor with
  | none => exact commutes_pure none
  | some c =>
      exact Commutes.bind (commutes_gets fun _ => rfl) fun _ => (commutes_alone_setCursor _).bind fun _ =>
        commutes_alone_cursor

theorem ends_alone_optimizedInsertSorted {fuel : Nat} {gt : N → Bool} (hn : s.list n = none) :
    Ends (optimizedInsertSorted debug fuel gt l n) Q (alone l s) ↔
      Ends (optimizedInsertSorted debug fuel gt l n) (fun a r => Q a (alone l r)) s := by
  unfold optimizedInsertSorted optimizedInsertSortedImpl
  rw [ends_bind, ends_bind, (commutes_alone_setNext _ _).ends, setNext, ends_store, ends_store, ends_bind, ends_bind,
    (commutes_alone_setPrev _ _).ends, setPrev, ends_store, ends_store]
  refine Commutes.ends_gets_bind (alone_list (Or.inl hn)) fun list => (commutes_check _).bind fun _ => ?_
  refine (commutes_alone_setList (Or.inr rfl)).bind fun _ => commutes_alone_head.bind fun head => ?_
  cases head with
  | none => exact (commutes_alone_setHead _).bind fun _ => commutes_alone_incLen
  | some ptr =>
      refine (commutes_alone_findSorted gt fuel ptr).bind fun found => ?_
      obtain ⟨node, atEnd⟩ := found
      dsimp only
      split
      · exact (commutes_alone_setPrev _ _).bind fun _ => (commutes_alone_setNext _ _).bind fun _ =>
          (commutes_alone_setNext _ _).bind fun _ => commutes_alone_incLen
      · refine (commutes_alone_setNext _ _).bind fun _ => Commutes.bind (commutes_gets fun _ => rfl) fun _ => ?_
        refine (commutes_alone_setPrev _ _).bind fun _ => (commutes_alone_setPrev _ _).bind fun _ => ?_
        refine Commutes.bind (commutes_gets fun _ => rfl) fun p => ?_
        cases p with
        | none => exact (commutes_alone_setHead _).bind fun _ => commutes_alone_incLen
        | some p => exact (commutes_alone_setNext _ _).bind fun _ => commutes_alone_incLen

theorem commutes_alone_optimizedPopFront : Commutes (alone l : Lists N L → Lists N L) (optimizedPopFront l) := by
  refine commutes_alone_head.bind fun head => ?_
  cases head with
  | none => exact commutes_pure none
  | some oldHead =>
      refine (commutes_alone_startOpLog _).bind fun _ => Commutes.bind (commutes_gets fun _ => rfl) fun _ => ?_
      refine (commutes_alone_setHead _).bind fun _ => commutes_alone_head.bind fun _ => ?_
      refine (commutes_alone_setPrevOf _ _).bind fun _ => commutes_alone_cursor.bind fun cursor => ?_
      have hrest : Commutes (alone l : Lists N L → Lists N L) (do
          decLen l
          setList oldHead none
          pure (some oldHead)) :=
        commutes_alone_decLen.bind fun _ => (commutes_alone_setList (Or.inl rfl)).bind fun _ => commutes_pure _
      dsimp only
      split
      · exact commutes_alone_head.bind fun _ => (commutes_alone_setCursor _).bind fun _ => hrest
      · exact hrest

theorem commutes_alone_connectFront : Commutes (alone l : Lists N L → Lists N L) (connectFront l n) := by
  refine (commutes_alone_setPrev _ _).bind fun _ => (commutes_alone_setNext _ _).bind fun _ => ?_
  refine commutes_alone_head.bind fun head => ?_
  cases head with
  | none => exact commutes_alone_setHead _
  | some oldHead =>
      exact commutes_alone_head.bind fun _ => (commutes_alone_setNext _ _).bind fun _ =>
        (commutes_alone_setPrev _ _).bind fun _ => commutes_alone_setHead _

theorem ends_alone_optimizedInsertFront (hn : s.list n = none) :
    Ends (optimizedInsertFront debug l n) Q (alone l s) ↔
      Ends (optimizedInsertFront debug l n) (fun a r => Q a (alone l r)) s := by
  unfold optimizedInsertFront
  rw [ends_bind, ends_bind, (commutes_alone_startOpLog _).ends, ends_startOpLog, ends_startOpLog]
  refine Commutes.ends_gets_bind (alone_list (Or.inl hn)) fun list => (commutes_check _).bind fun _ => ?_
  exact commutes_alone_connectFront.bind fun _ => commutes_alone_incLen.bind fun _ =>
    commutes_alone_setList (Or.inr rfl)

/-! ## The ring -/

omit [DecidableEq N] [DecidableEq L] in
theorem RingOf.setMicroOpOldLen (h : RingOf s l xs) (v : Nat) : RingOf { s with microOpOldLen := v } l xs :=
  ⟨h.toRingAt.congr rfl rfl rfl (fun _ _ => rfl) fun _ _ => rfl, h.owner, h.nodup⟩

omit [DecidableEq N] [DecidableEq L] in
theorem RingOf.not_mem (h : RingOf s l xs) (hn : s.list n = none) : n ∉ xs := by
  rw [← h.owner, hn]
  exact nofun

/-- A new node comes last, before the cursor. -/
theorem RingOf.insertBeforeCursor (h : RingOf s l xs) (hn : s.list n = none) :
    Ends (optimizedInsertBeforeCursor l n) (fun _ s' => RingOf s' l (xs ++ [n])) s := by
  have hends := ends_optimizedInsertBeforeCursor (l := l) (ringOf_iff.mp h) trivial ((alone_list (Or.inl hn)).trans hn)
  rw [ends_alone_optimizedInsertBeforeCursor hn] at hends
  refine hends.mono fun _ s' h' => ringOf_iff.mpr ?_
  rwa [Function.update_self, Function.update_idem] at h'

theorem RingOf.remove (h : RingOf s l xs) (hn : s.list n = none ∨ s.list n = some l) :
    Ends (optimizedRemove debug l n) (fun _ s' => RingOf s' l (xs.erase n)) s := by
  rcases hn with hn | hn
  · rw [List.erase_of_not_mem (h.not_mem hn)]
    simp only [optimizedRemove, optimizedRemoveImpl, ends_bind, ends_startOpLog, ends_gets, hn, if_true, ends_pure]
    exact h.setMicroOpOldLen _
  · have hmem : n ∈ Function.update (fun _ => []) l xs l := by
      rw [Function.update_self]
      exact (h.owner n).mp hn
    have hends : Ends (optimizedRemove debug l n) _ (alone l s) := ends_optimizedRemove (ringOf_iff.mp h) hmem
    rw [ends_alone_optimizedRemove (Or.inr hn)] at hends
    refine hends.mono fun _ s' h' => ringOf_iff.mpr ?_
    rwa [Function.update_self, Function.update_idem] at h'

omit [DecidableEq N] in
/-- The cursor moves on, and the node that it leaves comes last. -/
theorem RingOf.nextItem {x : N} (h : RingOf s l (x :: xs)) :
    Ends (Lists.nextItem l) (fun r s' => r = (xs ++ [x]).head? ∧ RingOf s' l (xs ++ [x])) s := by
  have hends := ends_nextItem (ringOf_iff.mp h) trivial (Function.update_self l (x :: xs) fun _ => [])
  rw [commutes_alone_nextItem.ends] at hends
  refine hends.mono fun _ s' h' => ⟨h'.1, ringOf_iff.mpr ?_⟩
  rw [Function.update_idem] at h'
  exact h'.2

omit [DecidableEq N] in
theorem RingOf.nextItem_nil (h : RingOf s l []) : Ends (Lists.nextItem l) (fun r s' => r = none ∧ s' = s) s := by
  have hcursor : s.cursor l = none := h.cursor
  simp only [Lists.nextItem, ends_bind, ends_gets, hcursor, ends_pure, and_self]

/-! ## The null-terminated list -/

omit [DecidableEq N] [DecidableEq L] in
theorem LinearOf.setMicroOpOldLen (h : LinearOf s l xs) (v : Nat) : LinearOf { s with microOpOldLen := v } l xs :=
  ⟨h.toLinearAt.congr rfl rfl rfl (fun _ _ => rfl) fun _ _ => rfl, h.owner, h.nodup⟩

omit [DecidableEq N] [DecidableEq L] in
theorem LinearOf.not_mem (h : LinearOf s l xs) (hn : s.list n = none) : n ∉ xs := by
  rw [← h.owner, hn]
  exact nofun

/-- The new node goes before the first node that it is not greater than. -/
theorem LinearOf.insertSorted {fuel : Nat} {gt : N → Bool} (h : LinearOf s l xs) (hn : s.list n = none)
    (hf : xs.length ≤ fuel) :
    Ends (optimizedInsertSorted debug fuel gt l n)
      (fun _ s' => ∃ ys zs, xs = ys ++ zs ∧ (∀ y ∈ ys, gt y) ∧ (∀ z, zs.head? = some z → gt z = false) ∧
        LinearOf s' l (ys ++ n :: zs)) s := by
  have hlen : (Function.update (fun _ => []) l xs l).length ≤ fuel := by rwa [Function.update_self]
  have hends : Ends (optimizedInsertSorted debug fuel gt l n) _ (alone l s) :=
    ends_optimizedInsertSorted (linearOf_iff.mp h) id ((alone_list (Or.inl hn)).trans hn) hlen
  rw [ends_alone_optimizedInsertSorted hn] at hends
  refine hends.mono ?_
  rintro _ s' ⟨ys, zs, hxs, hys, hzs, h'⟩
  rw [Function.update_self] at hxs
  rw [Function.update_idem] at h'
  exact ⟨ys, zs, hxs, hys, hzs, linearOf_iff.mpr h'⟩

theorem LinearOf.remove (h : LinearOf s l xs) (hn : s.list n = none ∨ s.list n = some l) :
    Ends (optimizedRemove debug l n) (fun _ s' => LinearOf s' l (xs.erase n)) s := by
  rcases hn with hn | hn
  · rw [List.erase_of_not_mem (h.not_mem hn)]
    simp only [optimizedRemove, optimizedRemoveImpl, ends_bind, ends_startOpLog, ends_gets, hn, if_true, ends_pure]
    exact h.setMicroOpOldLen _
  · have hmem : n ∈ Function.update (fun _ => []) l xs l := by
      rw [Function.update_self]
      exact (h.owner n).mp hn
    have hends : Ends (optimizedRemove debug l n) _ (alone l s) := ends_optimizedRemove (linearOf_iff.mp h) hmem
    rw [ends_alone_optimizedRemove (Or.inr hn)] at hends
    refine hends.mono fun _ s' h' => linearOf_iff.mpr ?_
    rwa [Function.update_self, Function.update_idem] at h'

theorem LinearOf.popFront (h : LinearOf s l xs) :
    Ends (optimizedPopFront l) (fun r s' => r = xs.head? ∧ LinearOf s' l xs.tail) s := by
  have hh := linearOf_iff.mp h
  cases xs with
  | nil =>
      have hends := ends_optimizedPopFront_nil hh id (Function.update_self l [] fun _ => [])
      rw [commutes_alone_optimizedPopFront.ends] at hends
      refine hends.mono fun r s' h' => ⟨h'.1, linearOf_iff.mpr ?_⟩
      rw [h'.2]
      exact hh
  | cons x xs =>
      have hends := ends_optimizedPopFront hh id (Function.update_self l (x :: xs) fun _ => [])
      rw [commutes_alone_optimizedPopFront.ends] at hends
      refine hends.mono fun r s' h' => ⟨h'.1, linearOf_iff.mpr ?_⟩
      rw [Function.update_idem] at h'
      exact h'.2

theorem LinearOf.insertFront (h : LinearOf s l xs) (hn : s.list n = none) :
    Ends (optimizedInsertFront debug l n) (fun _ s' => LinearOf s' l (n :: xs)) s := by
  have hends : Ends (optimizedInsertFront debug l n) _ (alone l s) :=
    ends_optimizedInsertFront (linearOf_iff.mp h) id ((alone_list (Or.inl hn)).trans hn)
  rw [ends_alone_optimizedInsertFront hn] at hends
  refine hends.mono fun _ s' h' => linearOf_iff.mpr ?_
  rwa [Function.update_self, Function.update_idem] at h'

/-! ## Lists of numbers -/

/-- The nodes below `n` in a null-terminated list, in this order. -/
def upTo (n : Nat) : Lists Nat Unit :=
  { (new : Lists Nat Unit) with
    prev := fun x => if x = 0 then none else some (x - 1)
    next := fun x => if x + 1 < n then some (x + 1) else none
    list := fun x => if x < n then some () else none
    len := fun _ => n
    head := fun _ => (List.range n).head? }

theorem linked_upTo {n : Nat} (m k : Nat) (h : k + m = n) :
    Linked (upTo n).prev (upTo n).next (if k = 0 then none else some (k - 1)) (List.range' k m) none := by
  induction m generalizing k with
  | zero => trivial
  | succ m ih =>
      have hk := ih (k + 1) (by omega)
      rw [if_neg (Nat.succ_ne_zero k), Nat.add_sub_cancel] at hk
      refine ⟨rfl, ?_, hk⟩
      cases m with
      | zero =>
          have hlast : ¬ k + 1 < n := by omega
          exact if_neg hlast
      | succ m =>
          have hlast : k + 1 < n := by omega
          exact if_pos hlast

theorem linearOf_upTo (n : Nat) : LinearOf (upTo n) () (List.range n) where
  len := List.length_range.symm
  cursor := rfl
  head := rfl
  links := by
    rw [List.range_eq_range']
    exact linked_upTo n 0 (Nat.zero_add n)
  owner x := by simp [upTo]
  nodup := List.nodup_range

/-- The nodes 0, 1 and 2 in a ring, with the cursor at 0 and the head at 1. -/
def threeInRing : Lists Nat Unit :=
  { (new : Lists Nat Unit) with
    prev := fun x => if x < 3 then some ((x + 2) % 3) else none
    next := fun x => if x < 3 then some ((x + 1) % 3) else none
    list := fun x => if x < 3 then some () else none
    len := fun _ => 3
    cursor := fun _ => some 0
    head := fun _ => some 1 }

theorem ringOf_threeInRing : RingOf threeInRing () [0, 1, 2] where
  len := rfl
  cursor := rfl
  head := Or.inr ⟨1, by decide, rfl⟩
  links := ⟨rfl, rfl, rfl, rfl, rfl, rfl, trivial⟩
  owner x := by
    simp [threeInRing]
    omega
  nodup := by decide

end Lists

end IntOS
