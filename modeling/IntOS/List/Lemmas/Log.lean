import IntOS.Lib.Evolve
import IntOS.List.PList

/-!
# What the operations log

Whatever the lists look like, an operation logs its own code with the length of its list, and recovery of an
operation logs no other code.
-/

namespace IntOS

open Persist Persist.Prog

namespace Lists

variable {N L α β : Type} {ops ops' : ListOpCode → Prop} {l : L} {n : N}

/-- The length of every list fits the log. -/
def Fits (s : Lists N L) : Prop := ∀ l, s.len l < 2 ^ opCodeShift

/-- The log is as it was, or names one of the operations. -/
def Logs (ops : ListOpCode → Prop) (s c : Lists N L) : Prop :=
  c.microOpOldLen = s.microOpOldLen ∨
    ∃ op oldLen, ops op ∧ oldLen < 2 ^ opCodeShift ∧ c.microOpOldLen = microOpOldLenOf op oldLen

/-- The program logs these operations only. -/
def Logging (ops : ListOpCode → Prop) (m : Prog (Lists N L) α) : Prop := Evolves Fits (Logs ops) m

theorem Logs.refl (s : Lists N L) : Logs ops s s := Or.inl rfl

theorem Logs.trans {x y z : Lists N L} (h : Logs ops x y) (h' : Logs ops y z) : Logs ops x z := by
  rcases h' with h' | h'
  · unfold Logs
    rw [h']
    exact h
  · exact Or.inr h'

theorem logging_pure (a : α) : Logging ops (pure a : Prog (Lists N L) α) := evolves_pure .refl a

theorem logging_gets (g : Lists N L → α) : Logging ops (gets g) := evolves_gets .refl g

theorem logging_fail : Logging ops (fail : Prog (Lists N L) α) := evolves_fail .refl

theorem logging_check (p : Prop) [Decidable p] : Logging ops (check p : Prog (Lists N L) Unit) :=
  evolves_check .refl p

theorem Logging.bind {m : Prog (Lists N L) α} {f : α → Prog (Lists N L) β} (hm : Logging ops m)
    (hf : ∀ a, Logging ops (f a)) : Logging ops (m >>= f) := Evolves.bind hm hf .trans

/-- A store to a node or to a list. -/
theorem logging_store {g : Lists N L → Lists N L} (h : ∀ s, (g s).microOpOldLen = s.microOpOldLen) :
    Logging ops (store g) := evolves_store .refl fun s _ => Or.inl (h s)

theorem logging_startOpLog {op : ListOpCode} (hop : ops op) :
    Logging ops (startOpLog op l : Prog (Lists N L) Unit) := by
  intro s
  apply wpcOn_bind
  apply wpcOn_gets
  · exact .refl s
  apply wpcOn_store
  · exact .refl s
  · intro hfits
    exact ⟨Or.inr ⟨op, s.len l, hop, hfits l, rfl⟩, Or.inr ⟨op, s.len l, hop, hfits l, rfl⟩⟩

theorem logging_setPrev [DecidableEq N] (v : Option N) : Logging ops (setPrev n v : Prog (Lists N L) Unit) :=
  logging_store fun _ => rfl

theorem logging_setNext [DecidableEq N] (v : Option N) : Logging ops (setNext n v : Prog (Lists N L) Unit) :=
  logging_store fun _ => rfl

theorem logging_setList [DecidableEq N] (v : Option L) : Logging ops (setList n v : Prog (Lists N L) Unit) :=
  logging_store fun _ => rfl

theorem logging_setLen [DecidableEq L] (v : Nat) : Logging ops (setLen l v : Prog (Lists N L) Unit) :=
  logging_store fun _ => rfl

theorem logging_setCursor [DecidableEq L] (v : Option N) : Logging ops (setCursor l v : Prog (Lists N L) Unit) :=
  logging_store fun _ => rfl

theorem logging_setHead [DecidableEq L] (v : Option N) : Logging ops (setHead l v : Prog (Lists N L) Unit) :=
  logging_store fun _ => rfl

theorem logging_setPrevOf [DecidableEq N] (ptr v : Option N) :
    Logging ops (setPrevOf ptr v : Prog (Lists N L) Unit) := by
  cases ptr with
  | none => exact logging_pure ()
  | some p => exact logging_setPrev v

theorem logging_setNextOf [DecidableEq N] (ptr v : Option N) :
    Logging ops (setNextOf ptr v : Prog (Lists N L) Unit) := by
  cases ptr with
  | none => exact logging_pure ()
  | some p => exact logging_setNext v

theorem logging_unwrapUnchecked (ptr : Option α) : Logging ops (unwrapUnchecked ptr : Prog (Lists N L) α) := by
  cases ptr with
  | none => exact logging_fail
  | some p => exact logging_pure p

theorem logging_decLen [DecidableEq L] : Logging ops (decLen l : Prog (Lists N L) Unit) :=
  (logging_gets _).bind fun _ => (logging_check _).bind fun _ => logging_store fun _ => rfl

theorem logging_incLen [DecidableEq L] : Logging ops (incLen l : Prog (Lists N L) Unit) :=
  (logging_gets _).bind fun _ => logging_store fun _ => rfl

theorem logging_resetNode [DecidableEq N] : Logging ops (resetNode n : Prog (Lists N L) Unit) :=
  (logging_setPrev _).bind fun _ => (logging_setNext _).bind fun _ => logging_setList _

theorem logging_findSorted (gt : N → Bool) (fuel : Nat) (x : N) :
    Logging ops (findSorted gt fuel x : Prog (Lists N L) (N × Bool)) := by
  induction fuel generalizing x with
  | zero => exact logging_fail
  | succ fuel ih =>
      unfold findSorted
      split
      · refine (logging_gets _).bind fun y => ?_
        cases y with
        | none => exact logging_pure _
        | some y => exact ih y
      · exact logging_pure _

variable [DecidableEq N] [DecidableEq L]

/-! ## The ready lists -/

theorem logging_updateHeadAtCursor : Logging ops (updateHeadAtCursor l n : Prog (Lists N L) Unit) := by
  refine (logging_gets _).bind fun cursor => (logging_gets _).bind fun head => ?_
  split
  · exact logging_setHead _
  · exact logging_pure ()

omit [DecidableEq L] in
theorem logging_connectBeforeCursor (c : N) : Logging ops (connectBeforeCursor l n c : Prog (Lists N L) Unit) := by
  refine (logging_gets _).bind fun p => (logging_setPrev p).bind fun _ => (logging_gets _).bind fun cursor => ?_
  refine (logging_setNext cursor).bind fun _ => (logging_gets _).bind fun q => ?_
  exact (logging_unwrapUnchecked q).bind fun q => (logging_setNext _).bind fun _ => logging_setPrev _

theorem logging_connectAlone : Logging ops (connectAlone l n : Prog (Lists N L) Unit) :=
  (logging_setPrev _).bind fun _ => (logging_setNext _).bind fun _ => (logging_setCursor _).bind fun _ =>
    logging_setHead _

theorem logging_optimizedInsertBeforeCursor (hop : ops .insertBeforeCursor) :
    Logging ops (optimizedInsertBeforeCursor l n : Prog (Lists N L) Unit) := by
  refine (logging_startOpLog hop).bind fun _ => (logging_gets _).bind fun list => ?_
  split
  · exact logging_pure ()
  · refine (logging_setList _).bind fun _ => (logging_gets _).bind fun cursor => ?_
    cases cursor with
    | none => exact logging_connectAlone.bind fun _ => logging_incLen
    | some c =>
        exact (logging_connectBeforeCursor c).bind fun _ => logging_updateHeadAtCursor.bind fun _ => logging_incLen

theorem logging_recoverFromFailedInsertBeforeCursor (oldLen : Nat) :
    Logging ops (recoverFromFailedInsertBeforeCursor l n oldLen : Prog (Lists N L) Unit) := by
  unfold recoverFromFailedInsertBeforeCursor
  split
  · exact logging_connectAlone.bind fun _ => logging_setLen _
  · refine (logging_gets _).bind fun cursor => (logging_unwrapUnchecked cursor).bind fun c => ?_
    refine (logging_gets _).bind fun prev => ?_
    split
    · exact (logging_connectBeforeCursor c).bind fun _ => logging_updateHeadAtCursor.bind fun _ => logging_setLen _
    · exact logging_updateHeadAtCursor.bind fun _ => logging_setLen _

omit [DecidableEq N] in
theorem logging_nextItem : Logging ops (nextItem l : Prog (Lists N L) (Option N)) := by
  refine (logging_gets _).bind fun cursor => ?_
  cases cursor with
  | none => exact logging_pure none
  | some ptr => exact (logging_gets _).bind fun next => (logging_setCursor next).bind fun _ => logging_gets _

/-! ## Removal -/

theorem logging_disconnect : Logging ops (disconnect l n : Prog (Lists N L) Unit) := by
  have hhead : Logging ops (do
      let head ← gets (·.head l)
      if head = some n then do
        let q ← gets (·.next n)
        setHead l q : Prog (Lists N L) Unit) := by
    refine (logging_gets _).bind fun head => ?_
    split
    · exact (logging_gets _).bind fun q => logging_setHead q
    · exact logging_pure ()
  refine (logging_gets _).bind fun p => (logging_gets _).bind fun q => (logging_setNextOf p q).bind fun _ => ?_
  refine (logging_gets _).bind fun p => (logging_gets _).bind fun q => (logging_setPrevOf q p).bind fun _ => ?_
  refine (logging_gets _).bind fun cursor => ?_
  split
  · exact (logging_gets _).bind fun q => (logging_setCursor q).bind fun _ => hhead
  · exact hhead

theorem logging_optimizedRemove (debug : Bool) (hop : ops .remove) :
    Logging ops (optimizedRemove debug l n : Prog (Lists N L) Unit) := by
  refine (logging_startOpLog hop).bind fun _ => (logging_gets _).bind fun list => ?_
  split
  · exact logging_pure ()
  · refine (logging_gets _).bind fun len => (logging_check _).bind fun _ => ?_
    split
    · exact (logging_setCursor none).bind fun _ => (logging_setHead none).bind fun _ => logging_decLen.bind fun _ =>
        logging_setList none
    · exact logging_disconnect.bind fun _ => logging_decLen.bind fun _ => logging_setList none

theorem logging_recoverFromFailedRemove (oldLen : Nat) :
    Logging ops (recoverFromFailedRemove l n oldLen : Prog (Lists N L) Unit) :=
  logging_disconnect.bind fun _ => (logging_check _).bind fun _ => (logging_setLen _).bind fun _ => logging_setList none

theorem logging_optimizedPopFront (hop : ops .popFront) :
    Logging ops (optimizedPopFront l : Prog (Lists N L) (Option N)) := by
  refine (logging_gets _).bind fun head => ?_
  cases head with
  | none => exact logging_pure none
  | some oldHead =>
      have hrest : Logging ops (do
          decLen l
          setList oldHead none
          pure (some oldHead) : Prog (Lists N L) (Option N)) :=
        logging_decLen.bind fun _ => (logging_setList none).bind fun _ => logging_pure _
      refine (logging_startOpLog hop).bind fun _ => (logging_gets _).bind fun q => (logging_setHead q).bind fun _ => ?_
      refine (logging_gets _).bind fun head => (logging_setPrevOf head none).bind fun _ => ?_
      refine (logging_gets _).bind fun cursor => ?_
      split
      · exact (logging_gets _).bind fun head => (logging_setCursor head).bind fun _ => hrest
      · exact hrest

theorem logging_recoverFromFailedPopFront (oldLen : Nat) (hop : ops .popFront) :
    Logging ops (recoverFromFailedPopFront l n oldLen : Prog (Lists N L) Unit) := by
  refine (logging_gets _).bind fun head => ?_
  split
  · have hrest : Logging ops (do
        check (0 < oldLen)
        setLen l (oldLen - 1)
        setList n none : Prog (Lists N L) Unit) :=
      (logging_check _).bind fun _ => (logging_setLen _).bind fun _ => logging_setList none
    refine (logging_setPrevOf head none).bind fun _ => (logging_gets _).bind fun cursor => ?_
    split
    · exact (logging_setCursor head).bind fun _ => hrest
    · exact hrest
  · exact (logging_optimizedPopFront hop).bind fun _ => logging_pure ()

/-! ## Insertion into the null-terminated lists -/

theorem logging_connectFront : Logging ops (connectFront l n : Prog (Lists N L) Unit) := by
  refine (logging_setPrev none).bind fun _ => (logging_setNext none).bind fun _ => (logging_gets _).bind fun head => ?_
  cases head with
  | none => exact logging_setHead _
  | some oldHead =>
      exact (logging_gets _).bind fun head => (logging_setNext head).bind fun _ => (logging_setPrev _).bind fun _ =>
        logging_setHead _

theorem logging_optimizedInsertFront (debug : Bool) (hop : ops .insertFront) :
    Logging ops (optimizedInsertFront debug l n : Prog (Lists N L) Unit) :=
  (logging_startOpLog hop).bind fun _ => (logging_gets _).bind fun _ => (logging_check _).bind fun _ =>
    logging_connectFront.bind fun _ => logging_incLen.bind fun _ => logging_setList _

theorem logging_recoverFromFailedInsertFront (oldLen : Nat) :
    Logging ops (recoverFromFailedInsertFront l n oldLen : Prog (Lists N L) Unit) := by
  refine (logging_gets _).bind fun head => ?_
  split
  · exact logging_connectFront.bind fun _ => (logging_setLen _).bind fun _ => logging_setList _
  · exact (logging_setLen _).bind fun _ => logging_setList _

theorem logging_optimizedInsertSortedImpl (debug : Bool) (fuel : Nat) (gt : N → Bool) :
    Logging ops (optimizedInsertSortedImpl debug fuel gt l n : Prog (Lists N L) Unit) := by
  refine (logging_gets _).bind fun list => (logging_check _).bind fun _ => (logging_setList _).bind fun _ => ?_
  refine (logging_gets _).bind fun head => ?_
  cases head with
  | none => exact (logging_setHead _).bind fun _ => logging_incLen
  | some ptr =>
      refine (logging_findSorted gt fuel ptr).bind fun r => ?_
      obtain ⟨node, atEnd⟩ := r
      dsimp only
      split
      · exact (logging_setPrev _).bind fun _ => (logging_setNext _).bind fun _ => (logging_setNext _).bind fun _ =>
          logging_incLen
      · refine (logging_setNext _).bind fun _ => (logging_gets _).bind fun p => (logging_setPrev p).bind fun _ => ?_
        refine (logging_setPrev _).bind fun _ => (logging_gets _).bind fun p => ?_
        cases p with
        | none => exact (logging_setHead _).bind fun _ => logging_incLen
        | some p => exact (logging_setNext _).bind fun _ => logging_incLen

theorem logging_insertSorted (debug : Bool) {op : ListOpCode} (fuel : Nat) (gt : N → Bool) (hop : ops op) :
    Logging ops (insertSorted debug op fuel gt l n : Prog (Lists N L) Unit) :=
  (logging_startOpLog hop).bind fun _ => (logging_setNext none).bind fun _ => (logging_setPrev none).bind fun _ =>
    logging_optimizedInsertSortedImpl debug fuel gt

theorem logging_recoverFromFailedInsertSorted (debug : Bool) (fuel : Nat) (gt : N → Bool) (oldLen : Nat) :
    Logging ops (recoverFromFailedInsertSorted debug fuel gt l n oldLen : Prog (Lists N L) Unit) := by
  have hend : Logging ops (do
      setList n (some l)
      setLen l (oldLen + 1) : Prog (Lists N L) Unit) := (logging_setList _).bind fun _ => logging_setLen _
  refine (logging_gets _).bind fun list => ?_
  split
  · exact (logging_setNext none).bind fun _ => (logging_setPrev none).bind fun _ =>
      logging_optimizedInsertSortedImpl debug fuel gt
  refine (logging_gets _).bind fun next => (logging_gets _).bind fun prev => (logging_gets _).bind fun head => ?_
  cases next with
  | some q =>
      refine (logging_gets _).bind fun p => ?_
      split
      · refine (logging_setPrev p).bind fun _ => (logging_setPrev _).bind fun _ => (logging_gets _).bind fun p => ?_
        cases p with
        | none => exact (logging_setHead _).bind fun _ => hend
        | some p => exact (logging_setNext _).bind fun _ => hend
      · refine (logging_gets _).bind fun p => ?_
        cases p with
        | none => exact (logging_setHead _).bind fun _ => hend
        | some p => exact (logging_setNext _).bind fun _ => hend
  | none =>
      cases prev with
      | some p => exact (logging_setNext none).bind fun _ => (logging_setNext _).bind fun _ => hend
      | none =>
          dsimp only
          split
          · exact logging_setLen _
          · exact (logging_setLen _).bind fun _ => logging_optimizedInsertSortedImpl debug fuel gt

end Lists

end IntOS
