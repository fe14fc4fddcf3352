import IntOS.Lib.Retry
import IntOS.List.Lemmas.CrashReady
import IntOS.List.Lemmas.CrashRing
import IntOS.List.Lemmas.CrashSorted

/-!
# Power failures during the recovery of an operation

Recovery repeats the stores of the operation with the same values, so wherever it fails it leaves a state in which
the operation itself could have failed.
-/

namespace IntOS

open Persist Persist.Prog Chain

variable {N L : Type} [DecidableEq N] [DecidableEq L]

namespace Lists

variable {s m c : Lists N L} {l : L} {n : N} {p q : Option N} {debug : Bool} {fuel : Nat} {gt : N → Bool} {E : Prop}

/-! ## Sorted insertion -/

/-- A failure after the node is linked. -/
theorem wpc_recoverJoined {y : N} {next : N → Option N} {head : L → Option N} {len : L → Nat}
    (hlist : m.list n = some l)
    (hx : next = Function.update m.next n (some y) ∨ next = (inserted m l n p (some y)).next)
    (hh : head = m.head ∨ head = (inserted m l n p (some y)).head)
    (hl : len = m.len ∨ len = (inserted m l n p (some y)).len) :
    wpc (match p with
      | some p => do
          setNext p (some n)
          setList n (some l)
          setLen l (m.len l + 1)
      | none => do
          setHead l (some n)
          setList n (some l)
          setLen l (m.len l + 1)) (fun _ _ => True) E (Linking m l n p (some y))
      { m with
        prev := Function.update (Function.update m.prev n p) y (some n), next := next, head := head, len := len } := by
  have hin : ∀ {next head len}, next = Function.update m.next n (some y) ∨
      next = (inserted m l n p (some y)).next → head = m.head ∨ head = (inserted m l n p (some y)).head →
      len = m.len ∨ len = (inserted m l n p (some y)).len → Linking m l n p (some y) { m with
        prev := Function.update (Function.update m.prev n p) y (some n), next := next, head := head, len := len } := by
    intro next head len hx hh hl
    exact .joined rfl hx hh hl
  have hlist' : Function.update m.list n (some l) = m.list := by rw [← hlist, Function.update_eq_self]
  have hlen : Function.update len l (m.len l + 1) = (inserted m l n p (some y)).len := update_idem_of_or hl
  have hrest : ∀ {next head}, next = Function.update m.next n (some y) ∨
      next = (inserted m l n p (some y)).next → head = m.head ∨ head = (inserted m l n p (some y)).head →
      wpc (do
        setList n (some l)
        setLen l (m.len l + 1)) (fun _ _ => True) E (Linking m l n p (some y)) { m with
          prev := Function.update (Function.update m.prev n p) y (some n)
          next := next
          head := head
          len := len } := by
    intro next head hx hh
    apply wpc_bind
    apply wpc_store (hin hx hh hl)
    · dsimp only
      rw [hlist']
      exact hin hx hh hl
    · dsimp only
      rw [hlist']
      exact wpc_store (hin hx hh hl) (hin hx hh (Or.inr hlen)) trivial
  cases p with
  | none =>
      have hhead : Function.update head l (some n) = (inserted m l n none (some y)).head := by
        simp only [inserted, if_true] at hh ⊢
        exact update_idem_of_or hh
      exact wpc_bind (wpc_store (hin hx hh hl) (hin hx (Or.inr hhead) hl) (hrest hx (Or.inr hhead)))
  | some x =>
      have hnext : Function.update next x (some n) = (inserted m l n (some x) (some y)).next := by
        simp only [inserted, updateOf] at hx ⊢
        exact update_idem_of_or hx
      exact wpc_bind (wpc_store (hin hx hh hl) (hin (Or.inr hnext) hh hl) (hrest (Or.inr hnext) hh))

/-- Recovery of a node that has links stays within the insertion. -/
theorem Linking.wpc_recover (h : Linking m l n p q c) (hlist : m.list n = some l) (hnext : m.next n = none)
    (hprev : m.prev n = none) (hplace : ∀ y, q = some y → m.prev y = p) (hp : p ≠ some n) (hq : q ≠ some n) :
    wpc (recoverFromFailedInsertSorted debug fuel gt l n (m.len l)) (fun _ r => r = inserted m l n p q) E
      (Linking m l n p q) c := by
  suffices hw : wpc (recoverFromFailedInsertSorted debug fuel gt l n (m.len l)) (fun _ _ => True) True
      (Linking m l n p q) c from wpc_of_ends (h.recover hlist hnext hprev hplace hp hq) fun c' hc' => hw.crash hc'
  have hnext' : Function.update m.next n none = m.next := by rw [← hnext, Function.update_eq_self]
  have hprev' : Function.update m.prev n none = m.prev := by rw [← hprev, Function.update_eq_self]
  have hlist' : Function.update m.list n (some l) = m.list := by rw [← hlist, Function.update_eq_self]
  have hset : ∀ {len}, len = m.len ∨ len = (inserted m l n p q).len →
      Function.update len l (m.len l + 1) = (inserted m l n p q).len := update_idem_of_or
  have h₀ := h
  unfold recoverFromFailedInsertSorted
  cases h with
  | @alone len hpn hqn hl =>
      subst hpn hqn
      have hfin := Linking.alone (m := m) (l := l) (n := n) rfl rfl (Or.inr (hset hl))
      simp only [inserted, updateOf, hnext', hprev', if_true] at h₀ hfin ⊢
      simp only [wpc_gets_bind, hlist, ne_eq, not_true_eq_false, if_false, hnext, hprev, Function.update_self, if_true,
        setLen, wpc_store_iff, and_true]
      exact ⟨h₀, hfin⟩
  | @last x next len hpx hqn hx hl =>
      subst hpx hqn
      have hxn : n ≠ x := fun he => hp (congrArg some he.symm)
      have hn : next n = none := by
        rcases hx with rfl | rfl
        · exact hnext
        · simp only [inserted, updateOf, Function.update_of_ne hxn, Function.update_self]
      have hclear : Function.update next n none = next := by rw [← hn, Function.update_eq_self]
      have hlink : Function.update next x (some n) = (inserted m l n (some x) none).next := by
        simp only [inserted, updateOf, hnext'] at hx ⊢
        exact update_idem_of_or hx
      have hlinked := Linking.last (m := m) (l := l) (n := n) rfl rfl (Or.inr hlink) hl
      have hfin := Linking.last (m := m) (l := l) (n := n) rfl rfl (Or.inr hlink) (Or.inr (hset hl))
      simp only [inserted, updateOf, hnext', reduceCtorEq, if_false] at h₀ hlinked hfin ⊢
      simp only [wpc_gets_bind, hlist, ne_eq, not_true_eq_false, if_false, hn, Function.update_self, setNext, setList,
        setLen, wpc_store_bind, wpc_store_iff, hclear, hlist', and_true]
      exact ⟨h₀, h₀, hlinked, hlinked, hfin⟩
  | @before y prev hqy hpr =>
      subst hqy
      have hyn : y ≠ n := fun he => hq (congrArg some he)
      have hpy : prev y = p := by
        rcases hpr with rfl | rfl
        · exact hplace y rfl
        · rw [Function.update_of_ne hyn]
          exact hplace y rfl
      have hlink : Function.update prev n p = Function.update m.prev n p := update_idem_of_or hpr
      have hbefore : Linking m l n p (some y) { m with
          next := Function.update m.next n (some y), prev := Function.update m.prev n p } := .before rfl (Or.inr rfl)
      have hw := wpc_recoverJoined (E := True) hlist (Or.inl rfl) (Or.inl rfl) (Or.inl rfl) (p := p) (y := y) (l := l)
        (m := m) (n := n)
      simp only [wpc_gets_bind, hlist, ne_eq, not_true_eq_false, if_false, Function.update_self, hpy, hp,
        not_false_eq_true, if_true, setPrev, wpc_store_bind, hlink, Function.update_of_ne hyn.symm]
      exact ⟨h₀, hbefore, hw⟩
  | @joined y next head len hqy hx hh hl =>
      subst hqy
      have hyn : y ≠ n := fun he => hq (congrArg some he)
      have hny : next n = some y := by
        rcases hx with rfl | rfl
        · exact Function.update_self _ _ _
        · exact (updateOf_of_ne hp).trans (Function.update_self _ _ _)
      have hw := wpc_recoverJoined (E := True) hlist hx hh hl
      simp only [wpc_gets_bind, inserted, hlist, ne_eq, not_true_eq_false, if_false, hny, updateOf,
        Function.update_self, Function.update_of_ne hyn.symm]
      exact hw

/-- Recovery of a sorted insertion stays within the insertion, unless an assertion looks at a node that is marked
only. -/
theorem Sorting.wpc_recover (h : Sorting s l n p q c) (hn : s.list n = none)
    (hplace : Place fuel gt (Lists.marked s l n) l n p q) (hdebug : ¬ (debug = true ∧ MarkedOnly c l n)) :
    wpc (recoverFromFailedInsertSorted debug fuel gt l n (s.len l))
      (fun _ r => r = inserted (Lists.marked s l n) l n p q) E (Sorting s l n p q) c := by
  obtain ⟨hhead, hbetween, hp, hq⟩ := hplace.facts
  have hlist : (Lists.marked s l n).list n = some l := Function.update_self _ _ _
  have hnext : (Lists.marked s l n).next n = none := Function.update_self _ _ _
  have hprev : (Lists.marked s l n).prev n = none := Function.update_self _ _ _
  have hmarked := h.markedOnly_iff hn hplace
  have h₀ := h
  cases h with
  | @fresh prev next hpr hx =>
      have hcleared : Function.update next n none = Function.update s.next n none := update_idem_of_or hx
      have hcleared' : Function.update prev n none = Function.update s.prev n none := update_idem_of_or hpr
      have hne : (none : Option L) ≠ some l := nofun
      have h₁ : Sorting s l n p q { s with prev := prev, next := Function.update s.next n none } :=
        .fresh hpr (Or.inr rfl)
      have h₂ : Sorting s l n p q { s with
          prev := Function.update s.prev n none, next := Function.update s.next n none } :=
        .fresh (Or.inr rfl) (Or.inr rfl)
      simp only [recoverFromFailedInsertSorted, wpc_gets_bind, hn, ne_eq, hne, not_false_eq_true, if_true, setNext,
        setPrev, wpc_store_bind, hcleared, hcleared']
      exact ⟨h₀, h₁, wpc_optimizedInsertSortedImpl rfl rfl (fun _ => hn) hnext hprev hplace h₂ .marked
        (fun _ => .linking) rfl⟩
  | marked =>
      have hcompiled : debug = false := Bool.eq_false_iff.mpr fun hd => hdebug ⟨hd, hmarked.mpr rfl⟩
      subst hcompiled
      have hset : Function.update (Lists.marked s l n).list n (some l) = (Lists.marked s l n).list :=
        Function.update_idem _ _ _
      have hlen : Function.update (Lists.marked s l n).len l (s.len l) = (Lists.marked s l n).len :=
        Function.update_eq_self _ _
      simp only [recoverFromFailedInsertSorted, wpc_gets_bind, hlist, ne_eq, not_true_eq_false, if_false, hnext, hprev,
        if_neg hhead, setLen, wpc_store_bind, hlen]
      exact ⟨h₀, wpc_optimizedInsertSortedImpl rfl hset (fun hd => absurd hd Bool.false_ne_true) hnext hprev hplace h₀
        .marked (fun _ => .linking) rfl⟩
  | linking hl =>
      exact wpc_mono (hl.wpc_recover hlist hnext hprev hbetween hp hq) (fun _ _ he => he) fun _ => .linking

/-! ## Removal -/

/-- Each store of the removal can be repeated. -/
theorem Removing.repeat (h : Removing s l n c) (hnext : s.next n ≠ some n) :
    (removed c l n).prev = (removed s l n).prev ∧ (removed c l n).next = (removed s l n).next ∧
      (removed c l n).cursor = (removed s l n).cursor ∧ (removed c l n).head = (removed s l n).head := by
  have hpn : c.prev n = s.prev n := by
    rcases h.prev with hp | hp
    · rw [hp]
    · rw [hp]
      exact updateOf_self _ _ _
  have hxn : c.next n = s.next n := by
    rcases h.next with hx | hx
    · rw [hx]
    · rw [hx]
      exact updateOf_self _ _ _
  refine ⟨?_, ?_, ?_, ?_⟩
  · simp only [removed, hpn, hxn]
    rcases h.prev with hp | hp
    · rw [hp]
    · rw [hp]
      exact updateOf_idem _ _ _
  · simp only [removed, hpn, hxn]
    rcases h.next with hx | hx
    · rw [hx]
    · rw [hx]
      exact updateOf_idem _ _ _
  · simp only [removed, hxn]
    exact moved_off hnext h.cursor
  · simp only [removed, hxn]
    exact moved_off hnext h.head

/-- Recovery of a removal stays within the removal. -/
theorem Removing.wpc_recover (h : Removing s l n c) (hnext : s.next n ≠ some n) (hlen : 0 < s.len l) :
    wpc (recoverFromFailedRemove l n (s.len l)) (fun _ r => r = removed s l n) E (Removing s l n) c := by
  obtain ⟨hprev, hnext', hcursor, hhead⟩ := h.repeat hnext
  have hlen' : Function.update c.len l (s.len l - 1) = (removed s l n).len := update_idem_of_or h.len
  -- what recovery stores before the last store, over the field `list` as it finds it
  have hin : ∀ {prev next cursor head len}, prev = c.prev ∨ prev = (removed s l n).prev →
      next = c.next ∨ next = (removed s l n).next → cursor = c.cursor ∨ cursor = (removed s l n).cursor →
      head = c.head ∨ head = (removed s l n).head → len = c.len ∨ len = (removed s l n).len →
      Removing s l n { c with prev := prev, next := next, cursor := cursor, head := head, len := len } := by
    intro prev next cursor head len hp hx hc hh hl
    have hor : ∀ {α : Type} {x y z w : α}, x = y ∨ x = z → (y = w ∨ y = z) → x = w ∨ x = z := by
      rintro α x y z w (rfl | rfl) hy
      · exact hy
      · exact Or.inr rfl
    refine ⟨hor hp h.prev, hor hx h.next, hor hc h.cursor, hor hh h.head, hor hl h.len, ?_, h.microOpOldLen⟩
    rcases h.list with hi | rfl
    · exact Or.inl hi
    · rw [or_self] at hp hx hc hh hl
      rw [hp, hx, hc, hh, hl]
      exact Or.inr rfl
  have hlist : Function.update c.list n none = (removed s l n).list := by
    rcases h.list with hi | rfl
    · rw [hi]
      rfl
    · exact Function.update_idem _ _ _
  have hfin := Removing.finish s l n
  unfold recoverFromFailedRemove
  apply wpc_bind
  apply wpc_disconnect
  · exact hin (Or.inl rfl) (Or.inl rfl) (Or.inl rfl) (Or.inl rfl) (Or.inl rfl)
  · rw [hnext']
    exact hin (Or.inl rfl) (Or.inr rfl) (Or.inl rfl) (Or.inl rfl) (Or.inl rfl)
  · rw [hprev, hnext']
    exact hin (Or.inr rfl) (Or.inr rfl) (Or.inl rfl) (Or.inl rfl) (Or.inl rfl)
  · rw [hprev, hnext', hcursor]
    exact hin (Or.inr rfl) (Or.inr rfl) (Or.inr rfl) (Or.inl rfl) (Or.inl rfl)
  · rw [hprev, hnext', hcursor, hhead]
    exact hin (Or.inr rfl) (Or.inr rfl) (Or.inr rfl) (Or.inr rfl) (Or.inl rfl)
  · rw [hprev, hnext', hcursor, hhead]
    simp only [wpc_check_bind hlen, setLen, setList, wpc_store_bind, wpc_store_iff, hlen', hlist, h.microOpOldLen]
    refine ⟨?_, ?_, hfin, rfl⟩
    · rw [← h.microOpOldLen]
      exact hin (Or.inr rfl) (Or.inr rfl) (Or.inr rfl) (Or.inr rfl) (Or.inl rfl)
    · rw [← h.microOpOldLen]
      exact hin (Or.inr rfl) (Or.inr rfl) (Or.inr rfl) (Or.inr rfl) (Or.inr rfl)

/-- Recovery repeats the last stores of the removal of a ring's last node. -/
theorem RemovingLast.wpc_recover (h : RemovingLast s l n c) (hs : OnlyInRing s l n) (hlen : 0 < s.len l) :
    wpc (recoverFromFailedRemove l n (s.len l)) (fun _ r => r = removedLast s l n) E (RemovingLast s l n) c := by
  suffices hw : wpc (recoverFromFailedRemove l n (s.len l)) (fun _ _ => True) True (RemovingLast s l n) c from
    wpc_of_ends (h.recover hs hlen) fun c' hc' => hw.crash hc'
  obtain ⟨hprev, hnext⟩ := hs.links
  have hcursor : c.cursor l ≠ some n := by
    rw [h.cursor]
    simp [removedLast]
  have hhead : c.head l ≠ some n := by
    rw [h.head]
    simp [removedLast]
  have hlen' : Function.update c.len l (s.len l - 1) = (removedLast s l n).len := update_idem_of_or h.len
  have hlist : Function.update c.list n none = (removedLast s l n).list := update_idem_of_or h.list
  have hsame : (removed c l n).prev = c.prev ∧ (removed c l n).next = c.next ∧ (removed c l n).cursor = c.cursor ∧
      (removed c l n).head = c.head := by
    refine ⟨?_, ?_, if_neg hcursor, if_neg hhead⟩
    · simp only [removed, h.prev, h.next, hprev]
    · simp only [removed, h.prev, h.next, hnext]
  obtain ⟨hsprev, hsnext, hscursor, hshead⟩ := hsame
  unfold recoverFromFailedRemove
  apply wpc_bind
  apply wpc_disconnect
  · exact h
  all_goals simp only [hsprev, hsnext, hscursor, hshead]
  · exact h
  · exact h
  · exact h
  · exact h
  · simp only [wpc_check_bind hlen, setLen, setList, wpc_store_bind, wpc_store_iff, hlen', hlist, and_true]
    refine ⟨h, ?_, ?_⟩
    · exact ⟨h.prev, h.next, h.cursor, h.head, Or.inr rfl, h.list, h.microOpOldLen⟩
    · exact ⟨h.prev, h.next, h.cursor, h.head, Or.inr rfl, Or.inr rfl, h.microOpOldLen⟩

/-- The removal has cleared the head of a ring that it empties. -/
def Cleared (s : Lists N L) (l : L) (n : N) (c : Lists N L) : Prop := ¬ (s.len l = 1 ∧ c.head l = some n)

/-- Recovery of the removal from a ring stays within the removal, once the pointers of a ring that it empties are
cleared. -/
theorem LeavingRing.wpc_recover (hc : LeavingRing s l n c) (h : InRing s l n) (hclear : Cleared s l n c) :
    wpc (recoverFromFailedRemove l n (s.len l)) (fun _ r => r = leftRing s l n) E
      (fun c' => LeavingRing s l n c' ∧ Cleared s l n c') c := by
  unfold leftRing
  cases hc with
  | many hmany hc =>
      rw [if_neg hmany]
      refine wpc_mono (hc.wpc_recover (h.next hmany) h.len) (fun _ _ he => he) ?_
      exact fun c' hc' => ⟨.many hmany hc', fun hone => hmany hone.1⟩
  | first hone =>
      exact absurd ⟨hone, (h.only hone).head⟩ hclear
  | last hone hc =>
      rw [if_pos hone]
      refine wpc_mono (hc.wpc_recover (h.only hone) h.len) (fun _ _ he => he) ?_
      rintro c' hc'
      refine ⟨.last hone hc', fun hhead => ?_⟩
      rw [hc'.head] at hhead
      simp [removedLast] at hhead

/-! ## Popping the front -/

/-- Recovery after the head has moved. -/
theorem wpc_recoverPopped {C : Lists N L → Prop} {prev : N → Option N} {len : L → Nat} {list : N → Option L}
    (hcur : s.cursor l = none) (hnext : s.next n ≠ some n) (hlen : 0 < s.len l)
    (hp : prev = s.prev ∨ prev = (popped s l n).prev) (hl : len = s.len ∨ len = (popped s l n).len)
    (hi : list = s.list ∨ list = (popped s l n).list)
    (h₀ : C { popped s l n with prev := prev, len := len, list := list })
    (h₁ : C { popped s l n with len := len, list := list }) (h₂ : C { popped s l n with list := list })
    (h₃ : C (popped s l n)) :
    wpc (recoverFromFailedPopFront l n (s.len l)) (fun _ r => r = popped s l n) E C
      { popped s l n with prev := prev, len := len, list := list } := by
  have hhead : (popped s l n).head l = s.next n := Function.update_self _ _ _
  have hprev : updateOf prev (s.next n) none = (popped s l n).prev := by
    rcases hp with rfl | rfl
    · rfl
    · exact updateOf_idem _ _ _
  have hlen' : Function.update len l (s.len l - 1) = (popped s l n).len := update_idem_of_or hl
  have hlist : Function.update list n none = (popped s l n).list := update_idem_of_or hi
  have hcur' : (popped s l n).cursor l ≠ some n := by
    intro he
    cases hcur.symm.trans he
  simp only [recoverFromFailedPopFront, wpc_gets_bind, hhead, ne_eq, hnext, not_false_eq_true, if_true]
  apply wpc_bind
  apply wpc_setPrevOf h₀
  · rw [hprev]
    exact h₁
  · rw [hprev]
    simp only [wpc_gets_bind, if_neg hcur', wpc_check_bind hlen, setLen, setList, wpc_store_bind, wpc_store_iff, hlen',
      hlist, and_true]
    exact ⟨h₁, h₂, h₃⟩

/-- Recovery stays within the pop. -/
theorem Popping.wpc_recover (h : Popping s l n c) (hhead : s.head l = some n) (hcur : s.cursor l = none)
    (hnext : s.next n ≠ some n) (hlen : 0 < s.len l) (hm : logged s .popFront l = s) :
    wpc (recoverFromFailedPopFront l n (s.len l)) (fun _ r => r = popped s l n) E (Popping s l n) c := by
  cases h with
  | start =>
      have hw : wpc (optimizedPopFront l) (fun _ r => r = popped (logged s .popFront l) l n) E
          (Popping s l n) s := by
        refine wpc_optimizedPopFront hhead hcur hlen .start ?_ rfl
        rw [hm]
        exact fun _ hc => hc
      rw [hm] at hw
      unfold recoverFromFailedPopFront
      rw [wpc_gets_bind, hhead, if_neg (not_not.mpr rfl)]
      apply wpc_bind
      refine wpc_mono hw ?_ fun _ hc => hc
      rintro _ _ rfl
      exact wpc_pure .done rfl
  | @moved prev len hp hl =>
      have hw := wpc_recoverPopped (C := Popping s l n) (E := E) hcur hnext hlen hp hl (Or.inl rfl)
      exact hw (.moved hp hl) (.moved (Or.inr rfl) hl) (.moved (Or.inr rfl) (Or.inr rfl)) .done
  | done =>
      have hw := wpc_recoverPopped (C := Popping s l n) (E := E) hcur hnext hlen (Or.inr rfl) (Or.inr rfl) (Or.inr rfl)
      exact hw .done .done .done .done

/-! ## Insertion at the front -/

/-- Recovery stays within the insertion. -/
theorem Fronting.wpc_recover (h : Fronting s l n c) (hhead : s.head l ≠ some n) :
    wpc (recoverFromFailedInsertFront l n (s.len l)) (fun _ r => r = fronted s l n) E (Fronting s l n) c := by
  suffices hw : wpc (recoverFromFailedInsertFront l n (s.len l)) (fun _ _ => True) True (Fronting s l n) c from
    wpc_of_ends (h.recover hhead) fun c' hc' => hw.crash hc'
  have hend : ∀ {len list}, len = s.len ∨ len = (fronted s l n).len → list = s.list ∨ list = (fronted s l n).list →
      wpc (do
        setLen l (s.len l + 1)
        setList n (some l)) (fun _ _ => True) True (Fronting s l n)
          { fronted s l n with len := len, list := list } := by
    intro len list hl hi
    have hlen : Function.update len l (s.len l + 1) = (fronted s l n).len := update_idem_of_or hl
    have hlist : Function.update list n (some l) = (fronted s l n).list := update_idem_of_or hi
    simp only [setLen, setList, wpc_store_bind, wpc_store_iff, hlen, hlist, and_true]
    exact ⟨.linked hl hi, .linked (Or.inr rfl) hi, .linked (Or.inr rfl) (Or.inr rfl)⟩
  unfold recoverFromFailedInsertFront
  rw [wpc_gets_bind]
  cases h with
  | @linking prev next hp hx =>
      have hin : ∀ {prev next}, prev = s.prev ∨ prev = Function.update s.prev n none ∨ prev = (fronted s l n).prev →
          next = s.next ∨ next = Function.update s.next n none ∨ next = (fronted s l n).next →
          Fronting s l n { s with prev := prev, next := next } := fun hp hx => .linking hp hx
      have hnext : ∀ v, Function.update next n v = Function.update s.next n v := by
        intro v
        rcases hx with rfl | rfl | rfl
        · rfl
        · exact Function.update_idem _ _ _
        · exact Function.update_idem _ _ _
      have hend' := hend (Or.inl rfl) (Or.inl rfl)
      rw [if_pos hhead]
      unfold connectFront
      cases hh : s.head l with
      | none =>
          have hprev : Function.update prev n none = Function.update s.prev n none := by
            simp only [fronted, hh, updateOf, or_self] at hp
            exact update_idem_of_or hp
          simp only [fronted, hh, updateOf] at hend'
          simp only [wpc_assoc, setPrev, setNext, setHead, wpc_store_bind, wpc_gets_bind, hh, hnext, hprev]
          exact ⟨hin hp hx, hin (Or.inr (Or.inl rfl)) hx, hin (Or.inr (Or.inl rfl)) (Or.inr (Or.inl rfl)), hend'⟩
      | some x =>
          have hxn : x ≠ n := fun he => hhead (hh.trans (congrArg some he))
          have hprev : Function.update prev n none = Function.update s.prev n none ∨
              Function.update prev n none = (fronted s l n).prev := by
            simp only [fronted, hh, updateOf] at hp ⊢
            rcases hp with rfl | rfl | rfl
            · exact Or.inl rfl
            · exact Or.inl (Function.update_idem _ _ _)
            · right
              rw [Function.update_comm hxn, Function.update_idem]
          have hlinked : Function.update (Function.update prev n none) x (some n) = (fronted s l n).prev := by
            simp only [fronted, hh, updateOf] at hprev ⊢
            exact update_idem_of_or hprev
          have hnext' : Function.update s.next n (some x) = (fronted s l n).next := by simp only [fronted, hh]
          have hhead' : Function.update s.head l (some n) = (fronted s l n).head := rfl
          have hstate : { fronted s l n with len := s.len, list := s.list } = { s with
              prev := (fronted s l n).prev, next := (fronted s l n).next, head := (fronted s l n).head } := rfl
          rw [hstate] at hend'
          simp only [wpc_assoc, setPrev, setNext, setHead, wpc_store_bind, wpc_gets_bind, hh, hnext, hlinked, hnext',
            hhead', Function.update_idem]
          exact ⟨hin hp hx, hin (Or.inr hprev) hx, hin (Or.inr hprev) (Or.inr (Or.inl rfl)),
            hin (Or.inr hprev) (Or.inr (Or.inr rfl)), hin (Or.inr (Or.inr rfl)) (Or.inr (Or.inr rfl)), hend'⟩
  | @linked len list hl hi =>
      have hself : (fronted s l n).head l = some n := Function.update_self _ _ _
      rw [hself, if_neg (not_not.mpr rfl)]
      exact hend hl hi

end Lists

end IntOS
