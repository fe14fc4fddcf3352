import IntOS.List.Lemmas.Crash

/-!
# Power failures during insertions
-/

namespace IntOS

open Persist Persist.Prog Chain

variable {N L : Type} [DecidableEq N] [DecidableEq L]

namespace Lists

variable {s c : Lists N L} {l : L} {n : N} {debug : Bool} {E : Prop} {C : Lists N L → Prop}
  {Q : Unit → Lists N L → Prop}

/-! ## Ready insertion -/

/-- What the insertion of `n` before the cursor of the ring `l` leaves. -/
def readied (s : Lists N L) (l : L) (n : N) : Lists N L :=
  match s.cursor l with
  | none => { s with
      prev := Function.update s.prev n (some n)
      next := Function.update s.next n (some n)
      cursor := Function.update s.cursor l (some n)
      head := Function.update s.head l (some n)
      len := Function.update s.len l (s.len l + 1)
      list := Function.update s.list n (some l) }
  | some c => { s with
      prev := Function.update (Function.update s.prev n (s.prev c)) c (some n)
      next := updateOf (Function.update s.next n (some c)) (s.prev c) (some n)
      head := if s.cursor l = s.head l then Function.update s.head l (some n) else s.head
      len := Function.update s.len l (s.len l + 1)
      list := Function.update s.list n (some l) }

/-- The log has no part in it. -/
theorem readied_eq_logged (s : Lists N L) (l : L) (n : N) :
    readied s l n =
      { readied (logged s .insertBeforeCursor l) l n with microOpOldLen := s.microOpOldLen } := by
  rcases Option.eq_none_or_eq_some (s.cursor l) with hc | ⟨x, hc⟩
  · simp only [readied, logged, hc]
  · simp only [readied, logged, hc]

theorem readied_list (s : Lists N L) (l : L) (n : N) :
    (readied s l n).list = Function.update s.list n (some l) := by
  rcases Option.eq_none_or_eq_some (s.cursor l) with hc | ⟨x, hc⟩
  · simp only [readied, hc]
  · simp only [readied, hc]

/-- A ring that the node `n` can enter. -/
inductive Enterable (s : Lists N L) (l : L) (n : N) : Prop
  | empty : s.cursor l = none → s.len l = 0 → Enterable s l n
  | before {x p : N} : s.cursor l = some x → s.prev x = some p → x ≠ n → p ≠ n → s.len l ≠ 0 → Enterable s l n

omit [DecidableEq N] [DecidableEq L] in
theorem Enterable.congr {s' : Lists N L} (h : Enterable s l n) (hcursor : s'.cursor = s.cursor)
    (hprev : s'.prev = s.prev) (hlen : s'.len l = s.len l) : Enterable s' l n := by
  cases h with
  | empty hc hl => exact .empty (by rw [hcursor, hc]) (by rw [hlen, hl])
  | before hc hp hx hpn hl => exact .before (by rw [hcursor, hc]) (by rw [hprev, hp]) hx hpn (by rwa [hlen])

/-- Some stores of the insertion are done. Into an empty ring, they are independent of each other; else the
last of the links, `prev` of the cursor, tells how far the insertion is. -/
inductive Readying (s : Lists N L) (l : L) (n : N) (c : Lists N L) : Prop
  | alone : s.cursor l = none → c.microOpOldLen = s.microOpOldLen →
      c.prev = s.prev ∨ c.prev = (readied s l n).prev → c.next = s.next ∨ c.next = (readied s l n).next →
      c.cursor = s.cursor ∨ c.cursor = (readied s l n).cursor →
      c.head = s.head ∨ c.head = (readied s l n).head → c.len = s.len ∨ c.len = (readied s l n).len →
      Readying s l n c
  | linking {x p : N} : s.cursor l = some x → s.prev x = some p → c.microOpOldLen = s.microOpOldLen →
      c.prev = s.prev ∨ c.prev = Function.update s.prev n (some p) →
      c.next = s.next ∨ c.next = Function.update s.next n (some x) ∨ c.next = (readied s l n).next →
      c.cursor = s.cursor → c.head = s.head → c.len = s.len → Readying s l n c
  | linked {x : N} : s.cursor l = some x → c.microOpOldLen = s.microOpOldLen → c.prev = (readied s l n).prev →
      c.next = (readied s l n).next → c.cursor = s.cursor → c.head = s.head ∨ c.head = (readied s l n).head →
      c.len = s.len ∨ c.len = (readied s l n).len → Readying s l n c

theorem Readying.log (h : Readying s l n c) : c.microOpOldLen = s.microOpOldLen := by
  cases h with
  | alone _ hm => exact hm
  | linking _ _ hm => exact hm
  | linked _ hm => exact hm

theorem Readying.finish (hs : Enterable s l n) : Readying s l n (readied s l n) := by
  cases hs with
  | empty hc _ =>
      have hm : (readied s l n).microOpOldLen = s.microOpOldLen := by simp only [readied, hc]
      exact .alone hc hm (Or.inr rfl) (Or.inr rfl) (Or.inr rfl) (Or.inr rfl) (Or.inr rfl)
  | @before x _ hc _ _ _ _ =>
      have hm : (readied s l n).microOpOldLen = s.microOpOldLen := by simp only [readied, hc]
      have hcursor : (readied s l n).cursor = s.cursor := by simp only [readied, hc]
      exact .linked hc hm rfl rfl hcursor (Or.inr rfl) (Or.inr rfl)

theorem wpc_updateHeadAtCursor (hC : C s)
    (hC' : C { s with head := if s.cursor l = s.head l then Function.update s.head l (some n) else s.head })
    (hQ : Q () { s with head := if s.cursor l = s.head l then Function.update s.head l (some n) else s.head }) :
    wpc (updateHeadAtCursor l n) Q E C s := by
  refine wpc_bind (wpc_gets hC (wpc_bind (wpc_gets hC ?_)))
  by_cases he : s.cursor l = s.head l
  · rw [if_pos he] at hC' hQ ⊢
    exact wpc_store hC hC' hQ
  · rw [if_neg he] at hQ ⊢
    exact wpc_pure hC hQ

theorem wpc_optimizedInsertBeforeCursorImpl (hn : s.list n = none) (hs : Enterable s l n) :
    wpc (optimizedInsertBeforeCursorImpl l n) (fun _ r => r = readied s l n) E (Readying s l n) s := by
  cases hs with
  | empty hc hlen =>
      have hC : ∀ {prev next cursor head len list},
          prev = s.prev ∨ prev = (readied s l n).prev → next = s.next ∨ next = (readied s l n).next →
          cursor = s.cursor ∨ cursor = (readied s l n).cursor → head = s.head ∨ head = (readied s l n).head →
          len = s.len ∨ len = (readied s l n).len →
          Readying s l n ⟨prev, next, list, len, cursor, head, s.microOpOldLen⟩ := by
        intro prev next cursor head len list hp hx hcu hh hl
        exact .alone hc rfl hp hx hcu hh hl
      simp only [readied, hc] at hC ⊢
      have h₀ : Readying s l n s := hC (Or.inl rfl) (Or.inl rfl) (Or.inl rfl) (Or.inl rfl) (Or.inl rfl)
      unfold optimizedInsertBeforeCursorImpl
      refine wpc_bind (wpc_gets h₀ ?_)
      rw [if_neg (not_not.mpr hn)]
      refine wpc_bind (wpc_store h₀ (hC (Or.inl rfl) (Or.inl rfl) (Or.inl rfl) (Or.inl rfl) (Or.inl rfl))
        (wpc_bind (wpc_gets (hC (Or.inl rfl) (Or.inl rfl) (Or.inl rfl) (Or.inl rfl) (Or.inl rfl)) ?_)))
      dsimp only
      rw [hc]
      refine wpc_bind (wpc_bind (wpc_store ?_ ?_ (wpc_bind (wpc_store ?_ ?_ (wpc_bind (wpc_store ?_ ?_
        (wpc_store ?_ ?_ (wpc_incLen ?_ ?_ rfl))))))))
      · exact hC (Or.inl rfl) (Or.inl rfl) (Or.inl rfl) (Or.inl rfl) (Or.inl rfl)
      · exact hC (Or.inr rfl) (Or.inl rfl) (Or.inl rfl) (Or.inl rfl) (Or.inl rfl)
      · exact hC (Or.inr rfl) (Or.inl rfl) (Or.inl rfl) (Or.inl rfl) (Or.inl rfl)
      · exact hC (Or.inr rfl) (Or.inr rfl) (Or.inl rfl) (Or.inl rfl) (Or.inl rfl)
      · exact hC (Or.inr rfl) (Or.inr rfl) (Or.inl rfl) (Or.inl rfl) (Or.inl rfl)
      · exact hC (Or.inr rfl) (Or.inr rfl) (Or.inr rfl) (Or.inl rfl) (Or.inl rfl)
      · exact hC (Or.inr rfl) (Or.inr rfl) (Or.inr rfl) (Or.inl rfl) (Or.inl rfl)
      · exact hC (Or.inr rfl) (Or.inr rfl) (Or.inr rfl) (Or.inr rfl) (Or.inl rfl)
      · exact hC (Or.inr rfl) (Or.inr rfl) (Or.inr rfl) (Or.inr rfl) (Or.inl rfl)
      · exact hC (Or.inr rfl) (Or.inr rfl) (Or.inr rfl) (Or.inr rfl) (Or.inr rfl)
  | @before x p hc hpx hxn hpn hlen =>
      have hC : ∀ {prev next list},
          prev = s.prev ∨ prev = Function.update s.prev n (some p) →
          next = s.next ∨ next = Function.update s.next n (some x) ∨ next = (readied s l n).next →
          Readying s l n ⟨prev, next, list, s.len, s.cursor, s.head, s.microOpOldLen⟩ := by
        intro prev next list hp hx
        exact .linking hc hpx rfl hp hx rfl rfl rfl
      have hC' : ∀ {head len list}, head = s.head ∨ head = (readied s l n).head →
          len = s.len ∨ len = (readied s l n).len → Readying s l n
            ⟨(readied s l n).prev, (readied s l n).next, list, len, s.cursor, head, s.microOpOldLen⟩ := by
        intro head len list hh hl
        exact .linked hc rfl rfl rfl rfl hh hl
      simp only [readied, hc, hpx, updateOf] at hC hC' ⊢
      have h₀ : Readying s l n s := .linking hc hpx rfl (Or.inl rfl) (Or.inl rfl) rfl rfl rfl
      have h₁ : Readying s l n { s with list := Function.update s.list n (some l) } :=
        .linking hc hpx rfl (Or.inl rfl) (Or.inl rfl) rfl rfl rfl
      unfold optimizedInsertBeforeCursorImpl
      refine wpc_bind (wpc_gets h₀ ?_)
      rw [if_neg (not_not.mpr hn)]
      refine wpc_bind (wpc_store h₀ h₁ (wpc_bind (wpc_gets h₁ ?_)))
      dsimp only
      rw [hc]
      refine wpc_bind (wpc_bind (wpc_gets h₁ ?_))
      rw [hpx]
      refine wpc_bind (wpc_store h₁ (hC (Or.inr rfl) (Or.inl rfl))
        (wpc_bind (wpc_gets (hC (Or.inr rfl) (Or.inl rfl)) ?_)))
      dsimp only
      rw [hc]
      refine wpc_bind (wpc_store (hC (Or.inr rfl) (Or.inl rfl)) (hC (Or.inr rfl) (Or.inr (Or.inl rfl)))
        (wpc_bind (wpc_gets (hC (Or.inr rfl) (Or.inr (Or.inl rfl))) ?_)))
      dsimp only
      rw [Function.update_self]
      refine wpc_bind (wpc_pure (hC (Or.inr rfl) (Or.inr (Or.inl rfl))) (wpc_bind (wpc_store ?_ ?_ (wpc_store ?_ ?_
        (wpc_bind (wpc_updateHeadAtCursor ?_ ?_ (wpc_incLen ?_ ?_ ?_)))))))
      · exact hC (Or.inr rfl) (Or.inr (Or.inl rfl))
      · exact hC (Or.inr rfl) (Or.inr (Or.inr rfl))
      · exact hC (Or.inr rfl) (Or.inr (Or.inr rfl))
      · exact hC' (Or.inl rfl) (Or.inl rfl)
      · exact hC' (Or.inl rfl) (Or.inl rfl)
      · exact hC' (Or.inr (by rw [hc])) (Or.inl rfl)
      · exact hC' (Or.inr (by rw [hc])) (Or.inl rfl)
      · exact hC' (Or.inr (by rw [hc])) (Or.inr rfl)
      · dsimp only
        rw [hc]

omit [DecidableEq N] [DecidableEq L] in
theorem update_idem_of_or {α β : Type} [DecidableEq α] {f g : α → β} {a : α} {v : β}
    (h : g = f ∨ g = Function.update f a v) : Function.update g a v = Function.update f a v := by
  rcases h with rfl | rfl
  · rfl
  · exact Function.update_idem _ _ _

/-- Recovery links the node but does not store its `list`. -/
theorem Readying.recover (h : Readying s l n c) (hs : Enterable s l n) :
    Ends (recoverFromFailedInsertBeforeCursor l n (s.len l)) (fun _ r => r = { readied s l n with list := c.list })
      c := by
  cases h with
  | alone hc hm hp hx hcu hh hl =>
      have hlen : s.len l = 0 := by
        cases hs with
        | empty _ hlen => exact hlen
        | before hx => cases hc.symm.trans hx
      simp only [readied, hc] at hp hx hcu hh hl ⊢
      rw [hlen] at hl ⊢
      simp only [recoverFromFailedInsertBeforeCursor, if_true, setLen, ends_bind, ends_connectAlone, ends_store]
      rw [update_idem_of_or hp, update_idem_of_or hx, update_idem_of_or hcu, update_idem_of_or hh,
        update_idem_of_or hl, hm]
  | @linking x p hc hpx hm hp hx hcu hh hl =>
      cases hs with
      | empty hc' => cases hc.symm.trans hc'
      | @before y q hc' hpy hxn hpn hlen =>
          obtain rfl : x = y := Option.some.inj (hc.symm.trans hc')
          obtain rfl : p = q := Option.some.inj (hpx.symm.trans hpy)
          have hpc : c.prev x = some p := by
            rcases hp with hp | hp
            · rw [hp, hpx]
            · rw [hp, Function.update_of_ne hxn, hpx]
          have hnp : some p ≠ some n := fun he => hpn (Option.some.inj he)
          have hnext : Function.update (Function.update c.next n (some x)) p (some n) =
              Function.update (Function.update s.next n (some x)) p (some n) := by
            simp only [readied, hc, hpx, updateOf] at hx
            rcases hx with hx | hx | hx
            · rw [hx]
            · rw [hx, Function.update_idem]
            · rw [hx, Function.update_comm hpn, Function.update_idem, Function.update_idem,
                Function.update_comm hpn.symm]
          simp only [recoverFromFailedInsertBeforeCursor, if_neg hlen, connectBeforeCursor, unwrapUnchecked, setLen,
            setPrev, setNext, ends_bind, ends_gets, hcu, hc, ends_pure, hpc, ne_eq, hnp, not_false_eq_true, if_true,
            ends_store, Function.update_self, ends_updateHeadAtCursor]
          rw [update_idem_of_or hp, hnext, hh, hl, hm]
          simp only [readied, hc, hpx, updateOf]
  | @linked x hc hm hp hx hcu hh hl =>
      cases hs with
      | empty hc' => cases hc.symm.trans hc'
      | @before y q hc' hpy hxn hpn hlen =>
          obtain rfl : x = y := Option.some.inj (hc.symm.trans hc')
          have hpc : c.prev x = some n := by
            rw [hp]
            simp only [readied, hc, Function.update_self]
          have hhead : (if some x = c.head l then Function.update c.head l (some n) else c.head) =
              (readied s l n).head := by
            simp only [readied, hc] at hh ⊢
            rcases hh with hh | hh
            · rw [hh]
            · rw [hh]
              by_cases he : some x = s.head l
              · simp [he]
              · simp [he]
          simp only [readied, hc] at hl
          simp only [recoverFromFailedInsertBeforeCursor, if_neg hlen, unwrapUnchecked, setLen, ends_bind, ends_gets,
            hcu, hc, ends_pure, hpc, ne_eq, not_true_eq_false, if_false, ends_store, ends_updateHeadAtCursor]
          rw [hp, hx, hhead, hm, update_idem_of_or hl]
          simp only [readied, hc]

section
variable {ring : L → Prop} {d : L} {le : N → N → Prop}

omit [DecidableEq N] [DecidableEq L] in
theorem WellLinked.enterable (h : WellLinked ring d le s) (hl : ring l) (hn : s.list n = none) :
    Enterable s l n := by
  obtain ⟨seq, h, _⟩ := h
  have hr := h.rings l hl
  have hnot := h.list_eq_none hn l
  have hlinks := hr.links
  have hlen := hr.len
  have hcursor := hr.cursor
  cases hs : seq l with
  | nil =>
      rw [hs] at hcursor hlen
      exact .empty hcursor hlen
  | cons x xs =>
      rw [hs] at hcursor hlen hlinks hnot
      obtain ⟨p, hp⟩ : ∃ p, (x :: xs).getLast? = some p := ⟨_, List.getLast?_eq_some_getLast (by simp)⟩
      refine .before hcursor (hlinks.1.trans hp) ?_ ?_ ?_
      · exact fun he => hnot (by simp [he])
      · exact fun he => hnot (he ▸ List.mem_of_getLast? hp)
      · rw [hlen]
        exact Nat.succ_ne_zero _

theorem WellLinked.readied (h : WellLinked ring d le s) (hl : ring l) (hd : ¬ ring d) (hn : s.list n = none) :
    WellLinked ring d le (readied s l n) := by
  have hm := h.setMicroOpOldLen (microOpOldLenOf .insertBeforeCursor (s.len l))
  have hw : wpc (optimizedInsertBeforeCursor l n)
      (fun _ r => r = Lists.readied (logged s .insertBeforeCursor l) l n) True (fun _ => True) s := by
    refine wpc_bind (wpc_startOpLog trivial trivial (wpc_mono (wpc_optimizedInsertBeforeCursorImpl hn ?_) ?_ ?_))
    · exact hm.enterable hl hn
    · exact fun _ _ he => he
    · exact fun _ _ => trivial
  have hr := ((h.insertBeforeCursor hl hd hn).of_wpc hw).1
  rw [readied_eq_logged]
  exact hr.setMicroOpOldLen _

end

end Lists

end IntOS
