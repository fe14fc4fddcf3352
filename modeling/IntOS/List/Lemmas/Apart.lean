import IntOS.Lib.Evolve
import IntOS.List.Lemmas.Crash

/-!
# Operations on some of the lists

Where nodes of one kind are linked to each other only, an operation on a node of this kind and a list of such
nodes leaves every other node and list alone, however wrong its own links and lengths are.
-/

namespace IntOS

open Persist Persist.Prog Chain

namespace Lists

variable {N L α : Type} {A : N → Prop} {B : L → Prop} {s c : Lists N L} {l : L} {n : N}

/-- One of `A`, if it is one at all. -/
def Own (A : α → Prop) (v : Option α) : Prop := ∀ z, v = some z → A z

/-- Nodes of `A` and lists of `B` point to nodes of `A`, and nodes of `A` are in lists of `B`. -/
structure Closed (A : N → Prop) (B : L → Prop) (s : Lists N L) : Prop where
  prev : ∀ n, A n → Own A (s.prev n)
  next : ∀ n, A n → Own A (s.next n)
  list : ∀ n, A n → Own B (s.list n)
  cursor : ∀ l, B l → Own A (s.cursor l)
  head : ∀ l, B l → Own A (s.head l)

/-- Outside of `A` and `B` nothing differs. -/
structure Beside (A : N → Prop) (B : L → Prop) (s c : Lists N L) : Prop where
  prev : ∀ n, ¬ A n → c.prev n = s.prev n
  next : ∀ n, ¬ A n → c.next n = s.next n
  list : ∀ n, ¬ A n → c.list n = s.list n
  len : ∀ l, ¬ B l → c.len l = s.len l
  cursor : ∀ l, ¬ B l → c.cursor l = s.cursor l
  head : ∀ l, ¬ B l → c.head l = s.head l

structure Within (A : N → Prop) (B : L → Prop) (s c : Lists N L) : Prop where
  closed : Closed A B c
  beside : Beside A B s c

theorem own_none {P : α → Prop} : Own P none := nofun

theorem own_some {P : α → Prop} {x : α} (h : P x) : Own P (some x) := fun _ hz => Option.some.inj hz ▸ h

theorem Beside.refl (s : Lists N L) : Beside A B s s :=
  ⟨fun _ _ => rfl, fun _ _ => rfl, fun _ _ => rfl, fun _ _ => rfl, fun _ _ => rfl, fun _ _ => rfl⟩

theorem Closed.within (h : Closed A B s) : Within A B s s := ⟨h, .refl s⟩

/-- The other nodes and lists stay closed. -/
theorem Closed.beside {A' : N → Prop} {B' : L → Prop} (h : Closed A' B' s) (hb : Beside A B s c)
    (hA : ∀ n, A' n → ¬ A n) (hB : ∀ l, B' l → ¬ B l) : Closed A' B' c where
  prev := fun n hn => hb.prev n (hA n hn) ▸ h.prev n hn
  next := fun n hn => hb.next n (hA n hn) ▸ h.next n hn
  list := fun n hn => hb.list n (hA n hn) ▸ h.list n hn
  cursor := fun l hl => hb.cursor l (hB l hl) ▸ h.cursor l hl
  head := fun l hl => hb.head l (hB l hl) ▸ h.head l hl

/-- The links of a list of other nodes. -/
theorem LinearAt.beside {xs : List N} (h : LinearAt s l xs) (hb : Beside A B s c) (hl : ¬ B l)
    (hxs : ∀ x ∈ xs, ¬ A x) : LinearAt c l xs :=
  h.congr (hb.len l hl) (hb.cursor l hl) (hb.head l hl) (fun x hx => hb.prev x (hxs x hx)) fun x hx =>
    hb.next x (hxs x hx)

theorem own_update {K : Type} [DecidableEq K] {P : K → Prop} {P' : α → Prop} {f : K → Option α} {x : K}
    {v : Option α} (hf : ∀ m, P m → Own P' (f m)) (hv : Own P' v) (m : K) (hm : P m) :
    Own P' (Function.update f x v m) := by
  by_cases h : m = x
  · rw [h, Function.update_self]
    exact hv
  · rw [Function.update_of_ne h]
    exact hf m hm

theorem update_beside {K β : Type} [DecidableEq K] {P : K → Prop} {f g : K → β} {x : K} {v : β} (hx : P x)
    (h : ∀ m, ¬ P m → f m = g m) (m : K) (hm : ¬ P m) : Function.update f x v m = g m := by
  rw [Function.update_of_ne, h m hm]
  rintro rfl
  exact hm hx

section
variable [DecidableEq N]

theorem stays_setPrev {v : Option N} (hn : A n) (hv : Own A v) : Stays (Within A B s) (setPrev n v) fun _ => True :=
  stays_store fun _ h => ⟨⟨own_update h.closed.prev hv, h.closed.next, h.closed.list, h.closed.cursor, h.closed.head⟩,
    ⟨update_beside hn h.beside.prev, h.beside.next, h.beside.list, h.beside.len, h.beside.cursor, h.beside.head⟩⟩

theorem stays_setNext {v : Option N} (hn : A n) (hv : Own A v) : Stays (Within A B s) (setNext n v) fun _ => True :=
  stays_store fun _ h => ⟨⟨h.closed.prev, own_update h.closed.next hv, h.closed.list, h.closed.cursor, h.closed.head⟩,
    ⟨h.beside.prev, update_beside hn h.beside.next, h.beside.list, h.beside.len, h.beside.cursor, h.beside.head⟩⟩

theorem stays_setList {v : Option L} (hn : A n) (hv : Own B v) : Stays (Within A B s) (setList n v) fun _ => True :=
  stays_store fun _ h => ⟨⟨h.closed.prev, h.closed.next, own_update h.closed.list hv, h.closed.cursor, h.closed.head⟩,
    ⟨h.beside.prev, h.beside.next, update_beside hn h.beside.list, h.beside.len, h.beside.cursor, h.beside.head⟩⟩

theorem stays_setPrevOf {ptr v : Option N} (hp : Own A ptr) (hv : Own A v) :
    Stays (Within A B s) (setPrevOf ptr v) fun _ => True := by
  cases ptr with
  | none => exact stays_pure trivial
  | some p => exact stays_setPrev (hp p rfl) hv

theorem stays_setNextOf {ptr v : Option N} (hp : Own A ptr) (hv : Own A v) :
    Stays (Within A B s) (setNextOf ptr v) fun _ => True := by
  cases ptr with
  | none => exact stays_pure trivial
  | some p => exact stays_setNext (hp p rfl) hv

end

theorem stays_unwrapUnchecked {Q : α → Prop} {ptr : Option α} (h : ∀ p, ptr = some p → Q p) :
    Stays (Within A B s) (unwrapUnchecked ptr) Q := by
  cases ptr with
  | none => exact stays_fail
  | some p => exact stays_pure (h p rfl)

theorem stays_prev (hn : A n) : Stays (Within A B s) (gets (·.prev n)) (Own A) :=
  stays_gets fun _ h => h.closed.prev n hn

theorem stays_next (hn : A n) : Stays (Within A B s) (gets (·.next n)) (Own A) :=
  stays_gets fun _ h => h.closed.next n hn

theorem stays_cursor (hl : B l) : Stays (Within A B s) (gets (·.cursor l)) (Own A) :=
  stays_gets fun _ h => h.closed.cursor l hl

theorem stays_head (hl : B l) : Stays (Within A B s) (gets (·.head l)) (Own A) :=
  stays_gets fun _ h => h.closed.head l hl

theorem stays_read {g : Lists N L → α} : Stays (Within A B s) (gets g) fun _ => True := stays_gets fun _ _ => trivial

theorem stays_startOpLog {op : ListOpCode} : Stays (Within A B s) (startOpLog op l) fun _ => True :=
  stays_read.bind fun _ _ => stays_store fun _ h =>
    ⟨⟨h.closed.prev, h.closed.next, h.closed.list, h.closed.cursor, h.closed.head⟩,
      ⟨h.beside.prev, h.beside.next, h.beside.list, h.beside.len, h.beside.cursor, h.beside.head⟩⟩

section
variable [DecidableEq L]

theorem stays_setLen {v : Nat} (hl : B l) : Stays (Within A B s) (setLen l v) fun _ => True :=
  stays_store fun _ h => ⟨⟨h.closed.prev, h.closed.next, h.closed.list, h.closed.cursor, h.closed.head⟩,
    ⟨h.beside.prev, h.beside.next, h.beside.list, update_beside hl h.beside.len, h.beside.cursor, h.beside.head⟩⟩

theorem stays_setCursor {v : Option N} (hl : B l) (hv : Own A v) :
    Stays (Within A B s) (setCursor l v) fun _ => True :=
  stays_store fun _ h => ⟨⟨h.closed.prev, h.closed.next, h.closed.list, own_update h.closed.cursor hv, h.closed.head⟩,
    ⟨h.beside.prev, h.beside.next, h.beside.list, h.beside.len, update_beside hl h.beside.cursor, h.beside.head⟩⟩

theorem stays_setHead {v : Option N} (hl : B l) (hv : Own A v) : Stays (Within A B s) (setHead l v) fun _ => True :=
  stays_store fun _ h => ⟨⟨h.closed.prev, h.closed.next, h.closed.list, h.closed.cursor, own_update h.closed.head hv⟩,
    ⟨h.beside.prev, h.beside.next, h.beside.list, h.beside.len, h.beside.cursor, update_beside hl h.beside.head⟩⟩

theorem stays_decLen (hl : B l) : Stays (Within A B s) (decLen l) fun _ => True :=
  stays_read.bind fun _ _ => (stays_check _).bind fun _ _ => stays_setLen hl

theorem stays_incLen (hl : B l) : Stays (Within A B s) (incLen l) fun _ => True :=
  stays_read.bind fun _ _ => stays_setLen hl

variable [DecidableEq N]

/-! ## The ready lists -/

theorem stays_updateHeadAtCursor (hl : B l) (hn : A n) :
    Stays (Within A B s) (updateHeadAtCursor l n) fun _ => True := by
  refine stays_read.bind fun cursor _ => stays_read.bind fun head _ => ?_
  split
  · exact stays_setHead hl (own_some hn)
  · exact stays_pure trivial

omit [DecidableEq L] in
theorem stays_connectBeforeCursor {x : N} (hl : B l) (hn : A n) (hx : A x) :
    Stays (Within A B s) (connectBeforeCursor l n x) fun _ => True := by
  refine (stays_prev hx).bind fun p hp => (stays_setPrev hn hp).bind fun _ _ => ?_
  refine (stays_cursor hl).bind fun cursor hc => (stays_setNext hn hc).bind fun _ _ => ?_
  refine (stays_prev hn).bind fun q hq => (stays_unwrapUnchecked hq).bind fun q hq => ?_
  exact (stays_setNext hq (own_some hn)).bind fun _ _ => stays_setPrev hx (own_some hn)

theorem stays_connectAlone (hl : B l) (hn : A n) : Stays (Within A B s) (connectAlone l n) fun _ => True :=
  (stays_setPrev hn (own_some hn)).bind fun _ _ => (stays_setNext hn (own_some hn)).bind fun _ _ =>
    (stays_setCursor hl (own_some hn)).bind fun _ _ => stays_setHead hl (own_some hn)

theorem stays_optimizedInsertBeforeCursor (hl : B l) (hn : A n) :
    Stays (Within A B s) (optimizedInsertBeforeCursor l n) fun _ => True := by
  refine stays_startOpLog.bind fun _ _ => stays_read.bind fun list _ => ?_
  split
  · exact stays_pure trivial
  refine (stays_setList hn (own_some hl)).bind fun _ _ => (stays_cursor hl).bind fun cursor hc => ?_
  cases cursor with
  | none => exact (stays_connectAlone hl hn).bind fun _ _ => stays_incLen hl
  | some x =>
      exact (stays_connectBeforeCursor hl hn (hc x rfl)).bind fun _ _ =>
        (stays_updateHeadAtCursor hl hn).bind fun _ _ => stays_incLen hl

theorem stays_recoverFromFailedInsertBeforeCursor {oldLen : Nat} (hl : B l) (hn : A n) :
    Stays (Within A B s) (recoverFromFailedInsertBeforeCursor l n oldLen) fun _ => True := by
  unfold recoverFromFailedInsertBeforeCursor
  split
  · exact (stays_connectAlone hl hn).bind fun _ _ => stays_setLen hl
  refine (stays_cursor hl).bind fun cursor hc => (stays_unwrapUnchecked hc).bind fun x hx => ?_
  refine stays_read.bind fun prev _ => ?_
  split
  · exact (stays_connectBeforeCursor hl hn hx).bind fun _ _ => (stays_updateHeadAtCursor hl hn).bind fun _ _ =>
      stays_setLen hl
  · exact (stays_updateHeadAtCursor hl hn).bind fun _ _ => stays_setLen hl

/-! ## Removal -/

theorem stays_disconnect (hl : B l) (hn : A n) : Stays (Within A B s) (disconnect l n) fun _ => True := by
  have hhead : Stays (Within A B s) (do
      let head ← gets (·.head l)
      if head = some n then do
        let q ← gets (·.next n)
        setHead l q) fun _ => True := by
    refine stays_read.bind fun head _ => ?_
    split
    · exact (stays_next hn).bind fun q hq => stays_setHead hl hq
    · exact stays_pure trivial
  refine (stays_prev hn).bind fun p hp => (stays_next hn).bind fun q hq => (stays_setNextOf hp hq).bind fun _ _ => ?_
  refine (stays_prev hn).bind fun p hp => (stays_next hn).bind fun q hq => (stays_setPrevOf hq hp).bind fun _ _ => ?_
  refine stays_read.bind fun cursor _ => ?_
  split
  · exact (stays_next hn).bind fun q hq => (stays_setCursor hl hq).bind fun _ _ => hhead
  · exact hhead

theorem stays_optimizedRemove {debug : Bool} (hl : B l) (hn : A n) :
    Stays (Within A B s) (optimizedRemove debug l n) fun _ => True := by
  refine stays_startOpLog.bind fun _ _ => stays_read.bind fun list _ => ?_
  split
  · exact stays_pure trivial
  refine stays_read.bind fun len _ => (stays_check _).bind fun _ _ => ?_
  split
  · exact (stays_setCursor hl own_none).bind fun _ _ => (stays_setHead hl own_none).bind fun _ _ =>
      (stays_decLen hl).bind fun _ _ => stays_setList hn own_none
  · exact (stays_disconnect hl hn).bind fun _ _ => (stays_decLen hl).bind fun _ _ => stays_setList hn own_none

theorem stays_recoverFromFailedRemove {oldLen : Nat} (hl : B l) (hn : A n) :
    Stays (Within A B s) (recoverFromFailedRemove l n oldLen) fun _ => True :=
  (stays_disconnect hl hn).bind fun _ _ => (stays_check _).bind fun _ _ => (stays_setLen hl).bind fun _ _ =>
    stays_setList hn own_none

theorem stays_optimizedPopFront (hl : B l) : Stays (Within A B s) (optimizedPopFront l) (Own A) := by
  refine (stays_head hl).bind fun head hhead => ?_
  cases head with
  | none => exact stays_pure own_none
  | some oldHead =>
      have hold := hhead oldHead rfl
      have hrest : Stays (Within A B s) (do
          decLen l
          setList oldHead none
          pure (some oldHead)) (Own A) :=
        (stays_decLen hl).bind fun _ _ => (stays_setList hold own_none).bind fun _ _ => stays_pure (own_some hold)
      refine stays_startOpLog.bind fun _ _ => (stays_next hold).bind fun q hq =>
        (stays_setHead hl hq).bind fun _ _ => ?_
      refine (stays_head hl).bind fun head hh => (stays_setPrevOf hh own_none).bind fun _ _ => ?_
      refine stays_read.bind fun cursor _ => ?_
      split
      · exact (stays_head hl).bind fun head hh => (stays_setCursor hl hh).bind fun _ _ => hrest
      · exact hrest

theorem stays_recoverFromFailedPopFront {oldLen : Nat} (hl : B l) (hn : A n) :
    Stays (Within A B s) (recoverFromFailedPopFront l n oldLen) fun _ => True := by
  have hend : Stays (Within A B s) (do
      check (0 < oldLen)
      setLen l (oldLen - 1)
      setList n none) fun _ => True :=
    (stays_check _).bind fun _ _ => (stays_setLen hl).bind fun _ _ => stays_setList hn own_none
  refine (stays_head hl).bind fun head hhead => ?_
  split
  · refine (stays_setPrevOf hhead own_none).bind fun _ _ => stays_read.bind fun cursor _ => ?_
    split
    · exact (stays_setCursor hl hhead).bind fun _ _ => hend
    · exact hend
  · exact (stays_optimizedPopFront hl).bind fun _ _ => stays_pure trivial

/-! ## The null-terminated lists -/

theorem stays_connectFront (hl : B l) (hn : A n) : Stays (Within A B s) (connectFront l n) fun _ => True := by
  refine (stays_setPrev hn own_none).bind fun _ _ => (stays_setNext hn own_none).bind fun _ _ => ?_
  refine (stays_head hl).bind fun head hhead => ?_
  cases head with
  | none => exact stays_setHead hl (own_some hn)
  | some oldHead =>
      refine (stays_head hl).bind fun head hh => (stays_setNext hn hh).bind fun _ _ => ?_
      exact (stays_setPrev (hhead oldHead rfl) (own_some hn)).bind fun _ _ => stays_setHead hl (own_some hn)

theorem stays_optimizedInsertFront {debug : Bool} (hl : B l) (hn : A n) :
    Stays (Within A B s) (optimizedInsertFront debug l n) fun _ => True :=
  stays_startOpLog.bind fun _ _ => stays_read.bind fun _ _ => (stays_check _).bind fun _ _ =>
    (stays_connectFront hl hn).bind fun _ _ => (stays_incLen hl).bind fun _ _ => stays_setList hn (own_some hl)

theorem stays_recoverFromFailedInsertFront {oldLen : Nat} (hl : B l) (hn : A n) :
    Stays (Within A B s) (recoverFromFailedInsertFront l n oldLen) fun _ => True := by
  refine stays_read.bind fun head _ => ?_
  split
  · exact (stays_connectFront hl hn).bind fun _ _ => (stays_setLen hl).bind fun _ _ => stays_setList hn (own_some hl)
  · exact (stays_setLen hl).bind fun _ _ => stays_setList hn (own_some hl)

omit [DecidableEq N] [DecidableEq L] in
theorem stays_findSorted {gt : N → Bool} {fuel : Nat} {x : N} (hx : A x) :
    Stays (Within A B s) (findSorted gt fuel x) fun r => A r.1 := by
  induction fuel generalizing x with
  | zero => exact stays_fail
  | succ fuel ih =>
      unfold findSorted
      split
      · refine (stays_next hx).bind fun q hq => ?_
        cases q with
        | none => exact stays_pure hx
        | some q => exact ih (hq q rfl)
      · exact stays_pure hx

theorem stays_optimizedInsertSortedImpl {debug : Bool} {fuel : Nat} {gt : N → Bool} (hl : B l) (hn : A n) :
    Stays (Within A B s) (optimizedInsertSortedImpl debug fuel gt l n) fun _ => True := by
  refine stays_read.bind fun _ _ => (stays_check _).bind fun _ _ => ?_
  refine (stays_setList hn (own_some hl)).bind fun _ _ => (stays_head hl).bind fun head hhead => ?_
  cases head with
  | none => exact (stays_setHead hl (own_some hn)).bind fun _ _ => stays_incLen hl
  | some ptr =>
      refine (stays_findSorted (hhead ptr rfl)).bind fun r hr => ?_
      obtain ⟨node, atEnd⟩ := r
      dsimp only at hr ⊢
      split
      · exact (stays_setPrev hn (own_some hr)).bind fun _ _ => (stays_setNext hn own_none).bind fun _ _ =>
          (stays_setNext hr (own_some hn)).bind fun _ _ => stays_incLen hl
      · refine (stays_setNext hn (own_some hr)).bind fun _ _ => (stays_prev hr).bind fun p hp => ?_
        refine (stays_setPrev hn hp).bind fun _ _ => (stays_setPrev hr (own_some hn)).bind fun _ _ => ?_
        refine (stays_prev hn).bind fun p hp => ?_
        cases p with
        | none => exact (stays_setHead hl (own_some hn)).bind fun _ _ => stays_incLen hl
        | some p => exact (stays_setNext (hp p rfl) (own_some hn)).bind fun _ _ => stays_incLen hl

theorem stays_optimizedInsertSorted {debug : Bool} {fuel : Nat} {gt : N → Bool} (hl : B l) (hn : A n) :
    Stays (Within A B s) (optimizedInsertSorted debug fuel gt l n) fun _ => True :=
  (stays_setNext hn own_none).bind fun _ _ => (stays_setPrev hn own_none).bind fun _ _ =>
    stays_optimizedInsertSortedImpl hl hn

theorem stays_insertSorted {debug : Bool} {op : ListOpCode} {fuel : Nat} {gt : N → Bool} (hl : B l) (hn : A n) :
    Stays (Within A B s) (insertSorted debug op fuel gt l n) fun _ => True :=
  stays_startOpLog.bind fun _ _ => stays_optimizedInsertSorted hl hn

theorem stays_recoverFromFailedInsertSorted {debug : Bool} {fuel oldLen : Nat} {gt : N → Bool} (hl : B l) (hn : A n) :
    Stays (Within A B s) (recoverFromFailedInsertSorted debug fuel gt l n oldLen) fun _ => True := by
  have hend : Stays (Within A B s) (do
      setList n (some l)
      setLen l (oldLen + 1)) fun _ => True := (stays_setList hn (own_some hl)).bind fun _ _ => stays_setLen hl
  refine stays_read.bind fun list _ => ?_
  split
  · exact stays_optimizedInsertSorted hl hn
  refine (stays_next hn).bind fun next hnext => (stays_prev hn).bind fun prev hprev => stays_read.bind fun head _ => ?_
  cases next with
  | some q =>
      have hq := hnext q rfl
      refine (stays_prev hq).bind fun p hp => ?_
      split
      case' isTrue =>
        refine (stays_setPrev hn hp).bind fun _ _ => (stays_setPrev hq (own_some hn)).bind fun _ _ => ?_
      -- whether the next node was linked already or not, the previous one is linked again
      all_goals
        refine (stays_prev hn).bind fun p hp => ?_
        cases p with
        | none => exact (stays_setHead hl (own_some hn)).bind fun _ _ => hend
        | some p => exact (stays_setNext (hp p rfl) (own_some hn)).bind fun _ _ => hend
  | none =>
      cases prev with
      | some p =>
          exact (stays_setNext hn own_none).bind fun _ _ => (stays_setNext (hprev p rfl) (own_some hn)).bind fun _ _ =>
            hend
      | none =>
          dsimp only
          split
          · exact stays_setLen hl
          · exact (stays_setLen hl).bind fun _ _ => stays_optimizedInsertSortedImpl hl hn

omit [DecidableEq N] in
theorem stays_nextItem (hl : B l) : Stays (Within A B s) (nextItem l) (Own A) := by
  refine (stays_cursor hl).bind fun cursor hc => ?_
  cases cursor with
  | none => exact stays_pure own_none
  | some ptr => exact (stays_next (hc ptr rfl)).bind fun q hq => (stays_setCursor hl hq).bind fun _ _ => stays_cursor hl

omit [DecidableEq L] in
theorem stays_resetNode (hn : A n) : Stays (Within A B s) (resetNode n) fun _ => True :=
  (stays_setPrev hn own_none).bind fun _ _ => (stays_setNext hn own_none).bind fun _ _ => stays_setList hn own_none

end

end Lists

end IntOS
