import IntOS.Lib.Evolve
import IntOS.List.PList

/-!
# Nodes that come into no list

An operation sets the field `list` of a node that it inserts, and clears that of a node that it removes.
-/

namespace IntOS

open Persist Persist.Prog

namespace Lists

variable {N L α : Type} {R : N → L → Prop} {s c : Lists N L} {l : L} {n : N}

/-! ## The field `list` stays -/

theorem keeps_list_startOpLog {op : ListOpCode} : Keeps Lists.list (startOpLog op l : Prog (Lists N L) Unit) :=
  (keeps_gets _).bind fun _ => keeps_store fun _ => rfl

theorem keeps_list_unwrapUnchecked (ptr : Option α) :
    Keeps Lists.list (unwrapUnchecked ptr : Prog (Lists N L) α) := by
  cases ptr with
  | none => exact keeps_fail
  | some p => exact keeps_pure p

theorem keeps_list_findSorted (gt : N → Bool) (fuel : Nat) (x : N) :
    Keeps Lists.list (findSorted gt fuel x : Prog (Lists N L) (N × Bool)) := by
  induction fuel generalizing x with
  | zero => exact keeps_fail
  | succ fuel ih =>
      unfold findSorted
      split
      · refine (keeps_gets _).bind fun q => ?_
        cases q with
        | none => exact keeps_pure _
        | some q => exact ih q
      · exact keeps_pure _

section
variable [DecidableEq N]

theorem keeps_list_setPrev (v : Option N) : Keeps Lists.list (setPrev n v : Prog (Lists N L) Unit) :=
  keeps_store fun _ => rfl

theorem keeps_list_setNext (v : Option N) : Keeps Lists.list (setNext n v : Prog (Lists N L) Unit) :=
  keeps_store fun _ => rfl

theorem keeps_list_setPrevOf (ptr v : Option N) : Keeps Lists.list (setPrevOf ptr v : Prog (Lists N L) Unit) := by
  cases ptr with
  | none => exact keeps_pure _
  | some p => exact keeps_list_setPrev v

theorem keeps_list_setNextOf (ptr v : Option N) : Keeps Lists.list (setNextOf ptr v : Prog (Lists N L) Unit) := by
  cases ptr with
  | none => exact keeps_pure _
  | some p => exact keeps_list_setNext v

theorem keeps_list_connectBeforeCursor (x : N) :
    Keeps Lists.list (connectBeforeCursor l n x : Prog (Lists N L) Unit) := by
  refine (keeps_gets _).bind fun _ => (keeps_list_setPrev _).bind fun _ => (keeps_gets _).bind fun _ => ?_
  refine (keeps_list_setNext _).bind fun _ => (keeps_gets _).bind fun _ => ?_
  exact (keeps_list_unwrapUnchecked _).bind fun _ => (keeps_list_setNext _).bind fun _ => keeps_list_setPrev _

end

section
variable [DecidableEq L]

theorem keeps_list_setCursor (v : Option N) : Keeps Lists.list (setCursor l v : Prog (Lists N L) Unit) :=
  keeps_store fun _ => rfl

theorem keeps_list_setHead (v : Option N) : Keeps Lists.list (setHead l v : Prog (Lists N L) Unit) :=
  keeps_store fun _ => rfl

theorem keeps_list_incLen : Keeps Lists.list (incLen l : Prog (Lists N L) Unit) :=
  (keeps_gets _).bind fun _ => keeps_store fun _ => rfl

theorem keeps_list_decLen : Keeps Lists.list (decLen l : Prog (Lists N L) Unit) :=
  (keeps_gets _).bind fun _ => (keeps_check _).bind fun _ => keeps_store fun _ => rfl

theorem keeps_list_nextItem : Keeps Lists.list (nextItem l : Prog (Lists N L) (Option N)) := by
  refine (keeps_gets _).bind fun cursor => ?_
  cases cursor with
  | none => exact keeps_pure _
  | some ptr => exact (keeps_gets _).bind fun _ => (keeps_list_setCursor _).bind fun _ => keeps_gets _

variable [DecidableEq N]

theorem keeps_list_connectAlone : Keeps Lists.list (connectAlone l n : Prog (Lists N L) Unit) :=
  (keeps_list_setPrev _).bind fun _ => (keeps_list_setNext _).bind fun _ => (keeps_list_setCursor _).bind fun _ =>
    keeps_list_setHead _

theorem keeps_list_updateHeadAtCursor : Keeps Lists.list (updateHeadAtCursor l n : Prog (Lists N L) Unit) := by
  refine (keeps_gets _).bind fun _ => (keeps_gets _).bind fun _ => ?_
  split
  · exact keeps_list_setHead _
  · exact keeps_pure _

theorem keeps_list_disconnect : Keeps Lists.list (disconnect l n : Prog (Lists N L) Unit) := by
  have hhead : Keeps Lists.list (do
      let head ← gets (·.head l)
      if head = some n then do
        let q ← gets (·.next n)
        setHead l q : Prog (Lists N L) Unit) := by
    refine (keeps_gets _).bind fun _ => ?_
    split
    · exact (keeps_gets _).bind fun _ => keeps_list_setHead _
    · exact keeps_pure _
  refine (keeps_gets _).bind fun _ => (keeps_gets _).bind fun _ => (keeps_list_setNextOf _ _).bind fun _ => ?_
  refine (keeps_gets _).bind fun _ => (keeps_gets _).bind fun _ => (keeps_list_setPrevOf _ _).bind fun _ => ?_
  refine (keeps_gets _).bind fun _ => ?_
  split
  · exact (keeps_gets _).bind fun _ => (keeps_list_setCursor _).bind fun _ => hhead
  · exact hhead

theorem keeps_list_connectFront : Keeps Lists.list (connectFront l n : Prog (Lists N L) Unit) := by
  refine (keeps_list_setPrev _).bind fun _ => (keeps_list_setNext _).bind fun _ => (keeps_gets _).bind fun head => ?_
  cases head with
  | none => exact keeps_list_setHead _
  | some oldHead =>
      exact (keeps_gets _).bind fun _ => (keeps_list_setNext _).bind fun _ => (keeps_list_setPrev _).bind fun _ =>
        keeps_list_setHead _

end

/-! ## What comes into a list -/

/-- Of the pairs of `R` no node has come into its list. -/
def Unlisting (R : N → L → Prop) (s c : Lists N L) : Prop := ∀ n l, R n l → c.list n = some l → s.list n = some l

theorem Unlisting.refl : Unlisting R s s := fun _ _ _ => id

theorem unlisting_of_keeps {m : Prog (Lists N L) α} (h : Keeps Lists.list m) :
    Stays (Unlisting R s) m fun _ => True := by
  intro c hc
  have hkept : ∀ r : Lists N L, r.list = c.list → Unlisting R s r := fun r hr n l hnl hl => hc n l hnl (hr ▸ hl)
  exact wpc_mono (h c) (fun _ r hr => ⟨hkept r hr, trivial⟩) hkept

section
variable [DecidableEq N]

theorem unlisting_setList {v : Option L} (h : ∀ l, v = some l → ¬ R n l) :
    Stays (Unlisting R s) (setList n v) fun _ => True := by
  refine stays_store fun c hc x l hxl hl => ?_
  dsimp only at hl
  by_cases hx : x = n
  · subst hx
    rw [Function.update_self] at hl
    exact absurd hxl (h l hl)
  · rw [Function.update_of_ne hx] at hl
    exact hc x l hxl hl

theorem unlisting_resetNode : Stays (Unlisting R s) (resetNode n : Prog (Lists N L) Unit) fun _ => True :=
  (unlisting_of_keeps (keeps_list_setPrev _)).bind fun _ _ =>
    (unlisting_of_keeps (keeps_list_setNext _)).bind fun _ _ => unlisting_setList nofun

variable [DecidableEq L]

theorem unlisting_optimizedInsertBeforeCursor (h : ¬ R n l) :
    Stays (Unlisting R s) (optimizedInsertBeforeCursor l n) fun _ => True := by
  have hn : ∀ l', some l = some l' → ¬ R n l' := fun _ hl => Option.some.inj hl ▸ h
  refine (unlisting_of_keeps keeps_list_startOpLog).bind fun _ _ =>
    (unlisting_of_keeps (keeps_gets _)).bind fun _ _ => ?_
  split
  · exact stays_pure trivial
  refine (unlisting_setList hn).bind fun _ _ => (unlisting_of_keeps (keeps_gets _)).bind fun cursor _ => ?_
  cases cursor with
  | none => exact unlisting_of_keeps (keeps_list_connectAlone.bind fun _ => keeps_list_incLen)
  | some x =>
      exact unlisting_of_keeps ((keeps_list_connectBeforeCursor x).bind fun _ =>
        keeps_list_updateHeadAtCursor.bind fun _ => keeps_list_incLen)

theorem unlisting_optimizedRemove {debug : Bool} : Stays (Unlisting R s) (optimizedRemove debug l n) fun _ => True := by
  refine (unlisting_of_keeps keeps_list_startOpLog).bind fun _ _ =>
    (unlisting_of_keeps (keeps_gets _)).bind fun _ _ => ?_
  split
  · exact stays_pure trivial
  refine (unlisting_of_keeps (keeps_gets _)).bind fun _ _ => (stays_check _).bind fun _ _ => ?_
  split
  · refine (unlisting_of_keeps (keeps_list_setCursor _)).bind fun _ _ => ?_
    refine (unlisting_of_keeps (keeps_list_setHead _)).bind fun _ _ => ?_
    exact (unlisting_of_keeps keeps_list_decLen).bind fun _ _ => unlisting_setList nofun
  · refine (unlisting_of_keeps keeps_list_disconnect).bind fun _ _ => ?_
    exact (unlisting_of_keeps keeps_list_decLen).bind fun _ _ => unlisting_setList nofun

theorem unlisting_optimizedPopFront : Stays (Unlisting R s) (optimizedPopFront l) fun _ => True := by
  refine (unlisting_of_keeps (keeps_gets _)).bind fun head _ => ?_
  cases head with
  | none => exact stays_pure trivial
  | some oldHead =>
      have hrest : Stays (Unlisting R s) (do
          decLen l
          setList oldHead none
          pure (some oldHead)) fun _ => True :=
        (unlisting_of_keeps keeps_list_decLen).bind fun _ _ =>
          (unlisting_setList nofun).bind fun _ _ => stays_pure trivial
      refine (unlisting_of_keeps keeps_list_startOpLog).bind fun _ _ =>
        (unlisting_of_keeps (keeps_gets _)).bind fun _ _ => ?_
      refine (unlisting_of_keeps (keeps_list_setHead _)).bind fun _ _ =>
        (unlisting_of_keeps (keeps_gets _)).bind fun _ _ => ?_
      refine (unlisting_of_keeps (keeps_list_setPrevOf _ _)).bind fun _ _ =>
        (unlisting_of_keeps (keeps_gets _)).bind fun _ _ => ?_
      split
      · refine (unlisting_of_keeps (keeps_gets _)).bind fun _ _ => ?_
        exact (unlisting_of_keeps (keeps_list_setCursor _)).bind fun _ _ => hrest
      · exact hrest

theorem unlisting_optimizedInsertFront {debug : Bool} (h : ¬ R n l) :
    Stays (Unlisting R s) (optimizedInsertFront debug l n) fun _ => True := by
  refine (unlisting_of_keeps keeps_list_startOpLog).bind fun _ _ =>
    (unlisting_of_keeps (keeps_gets _)).bind fun _ _ => ?_
  refine (stays_check _).bind fun _ _ => (unlisting_of_keeps keeps_list_connectFront).bind fun _ _ => ?_
  exact (unlisting_of_keeps keeps_list_incLen).bind fun _ _ => unlisting_setList fun _ hl => Option.some.inj hl ▸ h

theorem unlisting_insertSorted {debug : Bool} {op : ListOpCode} {fuel : Nat} {gt : N → Bool} (h : ¬ R n l) :
    Stays (Unlisting R s) (insertSorted debug op fuel gt l n) fun _ => True := by
  have hn : ∀ l', some l = some l' → ¬ R n l' := fun _ hl => Option.some.inj hl ▸ h
  refine (unlisting_of_keeps keeps_list_startOpLog).bind fun _ _ => ?_
  refine (unlisting_of_keeps (keeps_list_setNext _)).bind fun _ _ => ?_
  refine (unlisting_of_keeps (keeps_list_setPrev _)).bind fun _ _ =>
    (unlisting_of_keeps (keeps_gets _)).bind fun _ _ => ?_
  refine (stays_check _).bind fun _ _ => (unlisting_setList hn).bind fun _ _ => unlisting_of_keeps ?_
  refine (keeps_gets _).bind fun head => ?_
  cases head with
  | none => exact (keeps_list_setHead _).bind fun _ => keeps_list_incLen
  | some ptr =>
      refine (keeps_list_findSorted _ _ _).bind fun r => ?_
      obtain ⟨node, atEnd⟩ := r
      dsimp only
      split
      · exact (keeps_list_setPrev _).bind fun _ => (keeps_list_setNext _).bind fun _ =>
          (keeps_list_setNext _).bind fun _ => keeps_list_incLen
      · refine (keeps_list_setNext _).bind fun _ => (keeps_gets _).bind fun _ => (keeps_list_setPrev _).bind fun _ => ?_
        refine (keeps_list_setPrev _).bind fun _ => (keeps_gets _).bind fun p => ?_
        cases p with
        | none => exact (keeps_list_setHead _).bind fun _ => keeps_list_incLen
        | some p => exact (keeps_list_setNext _).bind fun _ => keeps_list_incLen

end

end Lists

end IntOS
