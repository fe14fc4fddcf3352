import IntOS.List.Lemmas.CrashInsert
import IntOS.List.Lemmas.Unlisted

/-!
# Power failures during an insertion into a ready list and during its recovery

The field `list` of the node is stored first, and recovery does not store it. Recovery keeps to the stores of
the insertion, so it may be interrupted as well.
-/

namespace IntOS

open Persist Persist.Prog Chain

variable {N L : Type} [DecidableEq N] [DecidableEq L]

namespace Lists

variable {s c : Lists N L} {l : L} {n : N} {E : Prop} {C : Lists N L → Prop} {Q : Unit → Lists N L → Prop}
  {ring : L → Prop} {seq : L → List N}

/-! ## The field `list` -/

theorem list_of_insert (hn : s.list n = none) (hc : c ∈ (optimizedInsertBeforeCursorImpl l n s).trace) :
    c.list = Function.update s.list n (some l) := by
  rw [optimizedInsertBeforeCursorImpl, gets_bind_apply, hn, if_neg (not_not.mpr rfl), setList, store_bind_apply,
    List.mem_cons] at hc
  rcases hc with rfl | hc
  · rfl
  · refine Keeps.trace ((keeps_gets _).bind fun cursor => ?_) hc
    cases cursor with
    | none => exact keeps_list_connectAlone.bind fun _ => keeps_list_incLen
    | some x =>
        exact (keeps_list_connectBeforeCursor x).bind fun _ => keeps_list_updateHeadAtCursor.bind fun _ =>
          keeps_list_incLen

omit [DecidableEq N] [DecidableEq L] in
theorem keeps_list_setLen [DecidableEq L] (v : Nat) : Keeps Lists.list (setLen l v : Prog (Lists N L) Unit) :=
  keeps_store fun _ => rfl

theorem keeps_list_recoverInsert (oldLen : Nat) :
    Keeps Lists.list (recoverFromFailedInsertBeforeCursor l n oldLen : Prog (Lists N L) Unit) := by
  unfold recoverFromFailedInsertBeforeCursor
  split
  · exact keeps_list_connectAlone.bind fun _ => keeps_list_setLen _
  · refine (keeps_gets _).bind fun cursor => (keeps_list_unwrapUnchecked cursor).bind fun x => ?_
    refine (keeps_gets _).bind fun prev => ?_
    split
    · exact (keeps_list_connectBeforeCursor x).bind fun _ => keeps_list_updateHeadAtCursor.bind fun _ =>
        keeps_list_setLen _
    · exact keeps_list_updateHeadAtCursor.bind fun _ => keeps_list_setLen _

/-- The insertion leaves nothing before the store of `list`. -/
theorem wpc_insertBeforeCursor (hn : s.list n = none) (hs : Enterable s l n) (hC : C s)
    (hC' : ∀ c, Readying s l n c → c.list = Function.update s.list n (some l) → C c) (hQ : Q () (readied s l n)) :
    wpc (optimizedInsertBeforeCursorImpl l n) Q E C s := by
  have hw := wpc_optimizedInsertBeforeCursorImpl (E := E) hn hs
  refine wpc_mono (wpc_of_crashes hw fun c hc => ?_) ?_ fun _ h => h
  · rcases List.mem_cons.mp hc with rfl | hc
    · exact hC
    · exact hC' c (hw.trace hc) (list_of_insert hn hc)
  · rintro _ _ rfl
    exact hQ

/-! ## Recovery -/

/-- Where the ring was empty. -/
theorem Readying.wpc_recoverAlone (h : Readying s l n c) (hc : s.cursor l = none) :
    wpc (do
      connectAlone l n
      setLen l (s.len l + 1)) (fun _ _ => True) E (Readying s l n) c := by
  cases h with
  | alone _ hm hp hx hcu hh hl =>
      have h₁ : ∀ {prev next cursor head len},
          prev = s.prev ∨ prev = (readied s l n).prev → next = s.next ∨ next = (readied s l n).next →
          cursor = s.cursor ∨ cursor = (readied s l n).cursor → head = s.head ∨ head = (readied s l n).head →
          len = s.len ∨ len = (readied s l n).len →
          Readying s l n ⟨prev, next, c.list, len, cursor, head, c.microOpOldLen⟩ := by
        intro prev next cursor head len hp hx hcu hh hl
        exact .alone hc hm hp hx hcu hh hl
      simp only [readied, hc] at h₁ hp hx hcu hh hl
      refine wpc_bind (wpc_bind (wpc_store ?_ ?_ (wpc_bind (wpc_store ?_ ?_ (wpc_bind (wpc_store ?_ ?_
        (wpc_store ?_ ?_ (wpc_store ?_ ?_ trivial))))))))
      · exact h₁ hp hx hcu hh hl
      · exact h₁ (Or.inr (update_idem_of_or hp)) hx hcu hh hl
      · exact h₁ (Or.inr (update_idem_of_or hp)) hx hcu hh hl
      · exact h₁ (Or.inr (update_idem_of_or hp)) (Or.inr (update_idem_of_or hx)) hcu hh hl
      · exact h₁ (Or.inr (update_idem_of_or hp)) (Or.inr (update_idem_of_or hx)) hcu hh hl
      · exact h₁ (Or.inr (update_idem_of_or hp)) (Or.inr (update_idem_of_or hx)) (Or.inr (update_idem_of_or hcu)) hh hl
      · exact h₁ (Or.inr (update_idem_of_or hp)) (Or.inr (update_idem_of_or hx)) (Or.inr (update_idem_of_or hcu)) hh hl
      · exact h₁ (Or.inr (update_idem_of_or hp)) (Or.inr (update_idem_of_or hx)) (Or.inr (update_idem_of_or hcu))
          (Or.inr (update_idem_of_or hh)) hl
      · exact h₁ (Or.inr (update_idem_of_or hp)) (Or.inr (update_idem_of_or hx)) (Or.inr (update_idem_of_or hcu))
          (Or.inr (update_idem_of_or hh)) hl
      · exact h₁ (Or.inr (update_idem_of_or hp)) (Or.inr (update_idem_of_or hx)) (Or.inr (update_idem_of_or hcu))
          (Or.inr (update_idem_of_or hh)) (Or.inr (update_idem_of_or hl))
  | linking hx => cases hc.symm.trans hx
  | linked hx => cases hc.symm.trans hx

/-- The node is linked before the cursor. -/
theorem wpc_recoverLinked (list : N → Option L) {x : N} {prev next} (hc : s.cursor l = some x)
    (hprev : prev = (readied s l n).prev) (hnext : next = (readied s l n).next) {head : L → Option N} {len : L → Nat}
    (hh : head = s.head ∨ head = (readied s l n).head) (hl : len = s.len ∨ len = (readied s l n).len) :
    wpc (do
      updateHeadAtCursor l n
      setLen l (s.len l + 1)) (fun _ _ => True) E (Readying s l n)
      ⟨prev, next, list, len, s.cursor, head, s.microOpOldLen⟩ := by
  have h₁ : ∀ {head len}, head = s.head ∨ head = (readied s l n).head → len = s.len ∨ len = (readied s l n).len →
      Readying s l n ⟨prev, next, list, len, s.cursor, head, s.microOpOldLen⟩ := by
    intro head len hh hl
    exact .linked hc rfl hprev hnext rfl hh hl
  have hhead : (if s.cursor l = head l then Function.update head l (some n) else head) = (readied s l n).head := by
    simp only [readied, hc] at hh ⊢
    rcases hh with rfl | rfl
    · rfl
    · by_cases he : some x = s.head l
      · simp [he]
      · simp [he]
  have hlen : Function.update len l (s.len l + 1) = (readied s l n).len := by
    simp only [readied, hc] at hl ⊢
    exact update_idem_of_or hl
  refine wpc_bind (wpc_updateHeadAtCursor (h₁ hh hl) ?_ (wpc_store ?_ ?_ trivial))
  · exact h₁ (Or.inr hhead) hl
  · exact h₁ (Or.inr hhead) hl
  · exact h₁ (Or.inr hhead) (Or.inr hlen)

/-- Recovery stays within the insertion. -/
theorem Readying.wpc_recover (h : Readying s l n c) (hs : Enterable s l n) :
    wpc (recoverFromFailedInsertBeforeCursor l n (s.len l))
      (fun _ r => r = { readied s l n with list := c.list }) E
      (fun c' => Readying s l n c' ∧ c'.list = c.list) c := by
  have hkeep : ∀ c' ∈ crashes (recoverFromFailedInsertBeforeCursor l n (s.len l)) c, c'.list = c.list := by
    intro c' hc'
    rcases List.mem_cons.mp hc' with rfl | hc'
    · rfl
    · exact (keeps_list_recoverInsert _).trace hc'
  suffices hw : wpc (recoverFromFailedInsertBeforeCursor l n (s.len l)) (fun _ _ => True) True (Readying s l n) c from
    wpc_of_ends (h.recover hs) fun c' hc' => ⟨hw.crash hc', hkeep c' hc'⟩
  unfold recoverFromFailedInsertBeforeCursor
  cases hs with
  | empty hc hlen =>
      have hw := h.wpc_recoverAlone (E := True) hc
      rw [hlen] at hw ⊢
      exact hw
  | @before x p hc hpx hxn hpn hlen =>
      rw [if_neg hlen]
      refine wpc_bind (wpc_gets h ?_)
      cases h with
      | alone hc' => cases hc.symm.trans hc'
      | @linking y q hc' hpy hm hp hx hcu hh hl =>
          obtain rfl : x = y := Option.some.inj (hc.symm.trans hc')
          obtain rfl : p = q := Option.some.inj (hpx.symm.trans hpy)
          obtain ⟨prev, next, list, len, cursor, head, micro⟩ := c
          dsimp only at hm hp hx hcu hh hl ⊢
          subst hm hcu hh hl
          have hpc : prev x = some p := by
            rcases hp with rfl | rfl
            · exact hpx
            · rw [Function.update_of_ne hxn, hpx]
          have hnp : some p ≠ some n := fun he => hpn (Option.some.inj he)
          have hlink : ∀ {prev next}, prev = s.prev ∨ prev = Function.update s.prev n (some p) →
              next = s.next ∨ next = Function.update s.next n (some x) ∨ next = (readied s l n).next →
              Readying s l n ⟨prev, next, list, s.len, s.cursor, s.head, s.microOpOldLen⟩ := by
            intro prev next hp hx
            exact .linking hc hpx rfl hp hx rfl rfl rfl
          have hprev : Function.update prev n (some p) = Function.update s.prev n (some p) := update_idem_of_or hp
          have hready : (readied s l n).next = Function.update (Function.update s.next n (some x)) p (some n) := by
            simp only [readied, hc, hpx, updateOf]
          have hnext : Function.update next n (some x) = Function.update s.next n (some x) ∨
              Function.update next n (some x) = (readied s l n).next := by
            rw [hready] at hx ⊢
            rcases hx with rfl | rfl | rfl
            · exact Or.inl rfl
            · exact Or.inl (Function.update_idem _ _ _)
            · right
              rw [Function.update_comm hpn, Function.update_idem]
          have hnext' : Function.update (Function.update next n (some x)) p (some n) = (readied s l n).next := by
            rw [hready] at hnext ⊢
            exact update_idem_of_or hnext
          have hprev' : Function.update (Function.update s.prev n (some p)) x (some n) = (readied s l n).prev := by
            simp only [readied, hc, hpx]
          have h₁ := hlink hp hx
          have h₂ := hlink (Or.inr hprev) hx
          have h₃ := hlink (Or.inr hprev) (Or.inr hnext)
          have h₄ := hlink (Or.inr hprev) (Or.inr (Or.inr hnext'))
          rw [hc]
          refine wpc_bind (wpc_pure h₁ (wpc_bind (wpc_gets h₁ ?_)))
          dsimp only
          rw [hpc, if_pos hnp]
          refine wpc_bind (wpc_bind (wpc_gets h₁ ?_))
          dsimp only
          rw [hpc]
          refine wpc_bind (wpc_store h₁ h₂ (wpc_bind (wpc_gets h₂ ?_)))
          dsimp only
          rw [hc]
          refine wpc_bind (wpc_store h₂ h₃ (wpc_bind (wpc_gets h₃ ?_)))
          dsimp only
          rw [Function.update_self]
          refine wpc_bind (wpc_pure h₃ (wpc_bind (wpc_store h₃ h₄ ?_)))
          have hw := wpc_recoverLinked (E := True) list hc hprev' hnext' (Or.inl rfl) (Or.inl rfl)
          rw [← hprev] at hw
          exact wpc_store h₄ hw.start hw
      | @linked y hc' hm hp hx hcu hh hl =>
          obtain rfl : x = y := Option.some.inj (hc.symm.trans hc')
          obtain ⟨prev, next, list, len, cursor, head, micro⟩ := c
          dsimp only at hm hp hx hcu hh hl ⊢
          subst hm hcu
          have hw := wpc_recoverLinked (E := True) list hc hp hx hh hl
          have hpc : prev x = some n := by
            rw [hp]
            simp only [readied, hc, Function.update_self]
          rw [hc]
          refine wpc_bind (wpc_pure hw.start (wpc_bind (wpc_gets hw.start ?_)))
          dsimp only
          rw [hpc, if_neg (not_not.mpr rfl)]
          exact hw

/-- The whole insertion. -/
theorem Holds.readied (h : Holds ring s seq) (hl : ring l) (hn : s.list n = none) (hs : Enterable s l n) :
    Holds ring (readied s l n) (Function.update seq l (seq l ++ [n])) := by
  have hw : wpc (optimizedInsertBeforeCursor l n)
      (fun _ r => r = Lists.readied (logged s .insertBeforeCursor l) l n) True (fun _ => True) s := by
    refine wpc_bind (wpc_startOpLog trivial trivial (wpc_mono (wpc_optimizedInsertBeforeCursorImpl hn ?_) ?_ ?_))
    · exact hs.congr rfl rfl rfl
    · exact fun _ _ he => he
    · exact fun _ _ => trivial
  have hr := (ends_optimizedInsertBeforeCursor h hl hn).of_wpc hw
  rw [readied_eq_logged]
  exact hr.setMicroOpOldLen _

/-! ## A node in no list -/

omit [DecidableEq L] in
/-- Every store of its reset leaves the lists as they are. -/
theorem holds_resetNode {v : Nat} (hn : ∀ l, n ∉ seq l) :
    Stays (fun c : Lists N L => Holds ring c seq ∧ c.microOpOldLen = v) (resetNode n) fun _ => True := by
  have hnone : ∀ c : Lists N L, Holds ring c seq → c.list n = none := by
    intro c hc
    rw [Option.eq_none_iff_forall_ne_some]
    exact fun l hl => hn l ((hc.owner l n).mp hl)
  have hne : ∀ c : Lists N L, Holds ring c seq → ∀ x, c.list x ≠ none → x ≠ n := by
    rintro c hc x hx rfl
    exact hx (hnone c hc)
  have hprev : Stays (fun c : Lists N L => Holds ring c seq ∧ c.microOpOldLen = v) (setPrev n none) fun _ => True :=
    stays_store fun c hc => ⟨hc.1.frame rfl rfl rfl rfl (fun x hx => Function.update_of_ne (hne c hc.1 x hx) _ _)
      fun _ _ => rfl, hc.2⟩
  have hnext : Stays (fun c : Lists N L => Holds ring c seq ∧ c.microOpOldLen = v) (setNext n none) fun _ => True :=
    stays_store fun c hc => ⟨hc.1.frame rfl rfl rfl rfl (fun _ _ => rfl)
      fun x hx => Function.update_of_ne (hne c hc.1 x hx) _ _, hc.2⟩
  refine hprev.bind fun _ _ => hnext.bind fun _ _ => stays_store fun c hc => ⟨hc.1.frame ?_ rfl rfl rfl ?_ ?_, hc.2⟩
  · dsimp only
    rw [← hnone c hc.1, Function.update_eq_self]
  · exact fun _ _ => rfl
  · exact fun _ _ => rfl

end Lists

end IntOS
