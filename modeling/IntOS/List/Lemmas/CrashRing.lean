import IntOS.Lib.Commute
import IntOS.List.Lemmas.Crash

/-!
# Power failures during a removal from a ready list

The last node of a ring keeps its links to itself. Recovery that starts before the head of the ring is cleared
follows them and leaves the head, and the cursor if it is not cleared either, at the node.
-/

namespace IntOS

open Persist Persist.Prog Chain

variable {N L : Type} [DecidableEq N] [DecidableEq L]

namespace Lists

variable {s c : Lists N L} {l : L} {n : N} {debug : Bool} {E : Prop} {C : Lists N L → Prop}
  {Q : Unit → Lists N L → Prop}

/-- What the removal of `n` from the ring `l` leaves. -/
def leftRing (s : Lists N L) (l : L) (n : N) : Lists N L :=
  if s.len l = 1 then removedLast s l n else removed s l n

/-- Some stores of the removal are done. -/
inductive LeavingRing (s : Lists N L) (l : L) (n : N) : Lists N L → Prop
  | many {c : Lists N L} : s.len l ≠ 1 → Removing s l n c → LeavingRing s l n c
  | first {v : Option N} : s.len l = 1 → v = some n ∨ v = none →
      LeavingRing s l n { s with cursor := Function.update s.cursor l v }
  | last {c : Lists N L} : s.len l = 1 → RemovingLast s l n c → LeavingRing s l n c

/-- The cursor and the head of the list `l` are as given. -/
def aside (l : L) (cursor head : Option N) (s : Lists N L) : Lists N L :=
  { s with cursor := Function.update s.cursor l cursor, head := Function.update s.head l head }

/-- The node can be removed from the ring. -/
structure InRing (s : Lists N L) (l : L) (n : N) : Prop where
  list : s.list n ≠ none
  len : 0 < s.len l
  only : s.len l = 1 → OnlyInRing s l n
  next : s.len l ≠ 1 → s.next n ≠ some n

theorem wpc_removeFromRing (h : InRing s l n) (hC : ∀ c, LeavingRing s l n c → C c) (hQ : Q () (leftRing s l n)) :
    wpc (optimizedRemoveImpl debug l n) Q E C s := by
  unfold leftRing at hQ
  by_cases hone : s.len l = 1
  · rw [if_pos hone] at hQ
    refine wpc_mono (wpc_optimizedRemoveImpl_last h.list hone) ?_ ?_
    · rintro _ _ rfl
      exact hQ
    · rintro c ((rfl | rfl) | hc)
      · have hself : Function.update c.cursor l (some n) = c.cursor := by
          rw [← (h.only hone).cursor, Function.update_eq_self]
        have hfirst := hC _ (.first hone (Or.inl rfl))
        rwa [hself] at hfirst
      · exact hC _ (.first hone (Or.inr rfl))
      · exact hC _ (.last hone hc)
  · rw [if_neg hone] at hQ
    refine wpc_mono (wpc_optimizedRemoveImpl h.list h.len fun he => absurd he hone) ?_ ?_
    · rintro _ _ rfl
      exact hQ
    · exact fun c hc => hC _ (.many hone hc)

theorem LeavingRing.finish : LeavingRing s l n (leftRing s l n) := by
  unfold leftRing
  split
  case isTrue hone => exact .last hone ⟨rfl, rfl, rfl, rfl, Or.inr rfl, Or.inr rfl, rfl⟩
  case isFalse hmany => exact .many hmany (.finish _ _ _)

/-- Recovery completes the removal, but for the pointers of a ring that it empties. -/
theorem LeavingRing.recover (hc : LeavingRing s l n c) (h : InRing s l n) :
    Ends (recoverFromFailedRemove l n (s.len l)) (fun _ r =>
      r = leftRing s l n ∧ ¬ (s.len l = 1 ∧ c.cursor l = some n) ∨
      ∃ v, (v = some n ∨ v = none) ∧ s.len l = 1 ∧ c = { s with cursor := Function.update s.cursor l v } ∧
        r = aside l v (some n) (leftRing s l n)) c := by
  unfold leftRing
  cases hc with
  | many hmany hc =>
      rw [if_neg hmany]
      exact (hc.recover (h.next hmany) h.len).mono fun _ _ he => Or.inl ⟨he, fun hone => hmany hone.1⟩
  | @first v hone hv =>
      rw [if_pos hone]
      refine (recover_remove_only (h.only hone) hone hv).mono ?_
      rintro _ _ rfl
      refine Or.inr ⟨v, hv, hone, rfl, ?_⟩
      simp only [aside, removedLast, Function.update_idem]
      rw [← (h.only hone).head, Function.update_eq_self]
  | last hone hc =>
      rw [if_pos hone]
      refine (hc.recover (h.only hone) h.len).mono fun _ _ he => Or.inl ⟨he, ?_⟩
      rintro ⟨_, hcursor⟩
      rw [hc.cursor] at hcursor
      simp [removedLast] at hcursor

omit [DecidableEq N] [DecidableEq L] in
theorem WellLinked.inRing {ring : L → Prop} {d : L} {le : N → N → Prop} (h : WellLinked ring d le s) (hl : ring l)
    (hn : s.list n = some l) : InRing s l n := by
  obtain ⟨hlen, hone, hnext⟩ := h.circular hl hn
  exact ⟨fun he => Option.some_ne_none _ (hn.symm.trans he), hlen, hone, hnext⟩

/-! ## A list aside -/

section
variable {m : L} {v w : Option N}

omit [DecidableEq N] in
theorem commutes_startOpLog (op : ListOpCode) (l : L) :
    Commutes (aside m v w : Lists N L → Lists N L) (startOpLog op l) := by
  apply Commutes.bind
  · exact commutes_gets fun _ => rfl
  · exact fun _ => commutes_store fun _ => rfl

omit [DecidableEq N] in
theorem commutes_incLen (l : L) : Commutes (aside m v w : Lists N L → Lists N L) (incLen l) := by
  apply Commutes.bind
  · exact commutes_gets fun _ => rfl
  · exact fun _ => commutes_store fun _ => rfl

theorem commutes_setNext (n : N) (x : Option N) : Commutes (aside m v w : Lists N L → Lists N L) (setNext n x) :=
  commutes_store fun _ => rfl

theorem commutes_setPrev (n : N) (x : Option N) : Commutes (aside m v w : Lists N L → Lists N L) (setPrev n x) :=
  commutes_store fun _ => rfl

omit [DecidableEq N] in
theorem commutes_setHead (hml : l ≠ m) (x : Option N) :
    Commutes (aside m v w : Lists N L → Lists N L) (setHead l x) := by
  apply commutes_store
  intro s
  simp only [aside, Function.update_comm hml.symm]

omit [DecidableEq N] in
theorem commutes_findSorted (gt : N → Bool) (fuel : Nat) (x : N) :
    Commutes (aside m v w : Lists N L → Lists N L) (findSorted gt fuel x) := by
  induction fuel generalizing x with
  | zero => exact commutes_fail
  | succ fuel ih =>
      unfold findSorted
      split
      · apply Commutes.bind
        · exact commutes_gets fun _ => rfl
        intro y
        cases y with
        | none => exact commutes_pure _
        | some y => exact ih y
      · exact commutes_pure _

/-- A sorted insertion does not look at the pointers of other lists. -/
theorem commutes_insertSorted (hml : l ≠ m) (op : ListOpCode) (fuel : Nat) (gt : N → Bool) (n : N) :
    Commutes (aside m v w : Lists N L → Lists N L) (insertSorted debug op fuel gt l n) := by
  apply (commutes_startOpLog op l).bind
  intro _
  apply (commutes_setNext n none).bind
  intro _
  apply (commutes_setPrev n none).bind
  intro _
  apply Commutes.bind
  · exact commutes_gets fun _ => rfl
  intro _
  apply (commutes_check _).bind
  intro _
  apply Commutes.bind
  · exact commutes_store fun _ => rfl
  intro _
  apply Commutes.bind
  · exact commutes_gets fun _ => Function.update_of_ne hml _ _
  intro head
  cases head with
  | none => exact (commutes_setHead hml _).bind fun _ => commutes_incLen l
  | some ptr =>
      apply (commutes_findSorted gt fuel ptr).bind
      rintro ⟨node, atEnd⟩
      dsimp only
      split
      · exact (commutes_setPrev _ _).bind fun _ => (commutes_setNext _ _).bind fun _ =>
          (commutes_setNext _ _).bind fun _ => commutes_incLen l
      apply (commutes_setNext _ _).bind
      intro _
      apply Commutes.bind
      · exact commutes_gets fun _ => rfl
      intro p
      apply (commutes_setPrev _ _).bind
      intro _
      apply (commutes_setPrev _ _).bind
      intro _
      apply Commutes.bind
      · exact commutes_gets fun _ => rfl
      intro p'
      cases p' with
      | none => exact (commutes_setHead hml _).bind fun _ => commutes_incLen l
      | some p' => exact (commutes_setNext _ _).bind fun _ => commutes_incLen l

end

end Lists

end IntOS
