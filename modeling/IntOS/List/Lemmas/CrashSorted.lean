import IntOS.List.Lemmas.Alone
import IntOS.List.Lemmas.CrashInsert

/-!
# Power failures during insertions into the null-terminated lists

A sorted insertion first marks the node: it clears its links and sets its `list`. From the next store on, the
links of the node tell recovery where it goes.
-/

namespace IntOS

open Persist Persist.Prog Chain

variable {N L : Type} [DecidableEq N] [DecidableEq L]

namespace Lists

variable {s m c : Lists N L} {l : L} {n : N} {p q : Option N} {debug : Bool} {fuel : Nat} {gt : N → Bool} {E : Prop}
  {C : Lists N L → Prop} {Q : Unit → Lists N L → Prop}

/-! ## The place of a node -/

/-- The node is marked as one of the list, but not linked. -/
def marked (s : Lists N L) (l : L) (n : N) : Lists N L :=
  { s with
    prev := Function.update s.prev n none
    next := Function.update s.next n none
    list := Function.update s.list n (some l) }

/-- What the insertion of the marked node between `p` and `q` leaves. -/
def inserted (m : Lists N L) (l : L) (n : N) (p q : Option N) : Lists N L :=
  { m with
    prev := updateOf (Function.update m.prev n p) q (some n)
    next := updateOf (Function.update m.next n q) p (some n)
    head := if p = none then Function.update m.head l (some n) else m.head
    len := Function.update m.len l (m.len l + 1) }

/-- The search stops between `p` and `q`. -/
inductive Place (fuel : Nat) (gt : N → Bool) (m : Lists N L) (l : L) (n : N) : Option N → Option N → Prop
  | empty : m.head l = none → Place fuel gt m l n none none
  | last {ptr x : N} : m.head l = some ptr →
      Ends (findSorted gt fuel ptr) (fun r m' => r = (x, true) ∧ m' = m) m → x ≠ n → m.head l ≠ some n →
      Place fuel gt m l n (some x) none
  | before {ptr y : N} {p : Option N} : m.head l = some ptr →
      Ends (findSorted gt fuel ptr) (fun r m' => r = (y, false) ∧ m' = m) m → y ≠ n → m.prev y = p →
      p ≠ some n → m.head l ≠ some n → Place fuel gt m l n p (some y)

/-- Some stores of the insertion of the marked node are done. -/
inductive Linking (m : Lists N L) (l : L) (n : N) (p q : Option N) : Lists N L → Prop
  | alone {len : L → Nat} : p = none → q = none → len = m.len ∨ len = (inserted m l n p q).len →
      Linking m l n p q { inserted m l n p q with len := len }
  | last {x : N} {next : N → Option N} {len : L → Nat} : p = some x → q = none →
      next = m.next ∨ next = (inserted m l n p q).next → len = m.len ∨ len = (inserted m l n p q).len →
      Linking m l n p q { inserted m l n p q with next := next, len := len }
  | before {y : N} {prev : N → Option N} : q = some y → prev = m.prev ∨ prev = Function.update m.prev n p →
      Linking m l n p q { m with next := Function.update m.next n q, prev := prev }
  | joined {y : N} {next : N → Option N} {head : L → Option N} {len : L → Nat} : q = some y →
      next = Function.update m.next n q ∨ next = (inserted m l n p q).next →
      head = m.head ∨ head = (inserted m l n p q).head → len = m.len ∨ len = (inserted m l n p q).len →
      Linking m l n p q { inserted m l n p q with next := next, head := head, len := len }

/-- Some stores of the insertion are done. -/
inductive Sorting (s : Lists N L) (l : L) (n : N) (p q : Option N) : Lists N L → Prop
  | fresh {prev next : N → Option N} : prev = s.prev ∨ prev = Function.update s.prev n none →
      next = s.next ∨ next = Function.update s.next n none →
      Sorting s l n p q { s with prev := prev, next := next }
  | marked : Sorting s l n p q (marked s l n)
  | linking {c : Lists N L} : Linking (Lists.marked s l n) l n p q c → Sorting s l n p q c

omit [DecidableEq N] [DecidableEq L] in
/-- The search makes no store. -/
theorem findSorted_trace (gt : N → Bool) (fuel : Nat) (x : N) (s : Lists N L) :
    (findSorted gt fuel x s).trace = [] := by
  induction fuel generalizing x with
  | zero => rfl
  | succ fuel ih =>
      unfold findSorted
      split
      · simp only [gets_bind_apply]
        cases s.next x with
        | none => rfl
        | some y => exact ih y
      · rfl

omit [DecidableEq N] [DecidableEq L] in
theorem wpc_findSorted {x : N} {Q : N × Bool → Lists N L → Prop} (h : Ends (findSorted gt fuel x) Q s) (hC : C s) :
    wpc (findSorted gt fuel x) Q E C s := by
  refine ⟨fun c hc => ?_, ?_⟩
  · rw [crashes, findSorted_trace, List.mem_singleton] at hc
    rw [hc]
    exact hC
  · obtain ⟨a, s', ho, hq⟩ := h.returns
    rw [ho]
    exact hq

/-- The stores after the mark. -/
theorem wpc_optimizedInsertSortedImpl {list : N → Option L} (hs : { m with list := list } = s)
    (hlist : Function.update list n (some l) = m.list) (hdebug : debug → list n = none)
    (hnext : m.next n = none) (hprev : m.prev n = none) (h : Place fuel gt m l n p q) (hC : C s)
    (hm : C m) (hC' : ∀ c, Linking m l n p q c → C c) (hQ : Q () (inserted m l n p q)) :
    wpc (optimizedInsertSortedImpl debug fuel gt l n) Q E C s := by
  subst hs
  unfold optimizedInsertSortedImpl
  refine wpc_bind (wpc_gets hC (wpc_bind (wpc_check hC (fun hne => absurd hdebug hne) fun _ => ?_)))
  refine wpc_bind (wpc_store hC ?_ (wpc_bind (wpc_gets ?_ ?_)))
  · rw [hlist]
    exact hm
  · rw [hlist]
    exact hm
  dsimp only
  rw [hlist]
  have hnext' : Function.update m.next n none = m.next := by rw [← hnext, Function.update_eq_self]
  have hprev' : Function.update m.prev n none = m.prev := by rw [← hprev, Function.update_eq_self]
  cases h with
  | empty hhead =>
      have h₁ : Linking m l n none none { m with head := Function.update m.head l (some n) } := by
        have hl : Linking m l n none none { inserted m l n none none with len := m.len } :=
          .alone rfl rfl (Or.inl rfl)
        simpa only [inserted, updateOf, if_true, hnext', hprev'] using hl
      have h₂ : Linking m l n none none (inserted m l n none none) := .alone rfl rfl (Or.inr rfl)
      have hfin : inserted m l n none none = { m with
          head := Function.update m.head l (some n), len := Function.update m.len l (m.len l + 1) } := by
        simp only [inserted, updateOf, if_true, hnext', hprev']
      rw [hfin] at h₂ hQ
      rw [hhead]
      exact wpc_bind (wpc_store hm (hC' _ h₁) (wpc_incLen (hC' _ h₁) (hC' _ h₂) hQ))
  | @last ptr x hhead hfind hx hn =>
      have hin : ∀ {next len}, next = m.next ∨ next = (inserted m l n (some x) none).next →
          len = m.len ∨ len = (inserted m l n (some x) none).len → C { m with
            prev := Function.update m.prev n (some x), next := next, len := len } := by
        intro next len hx hl
        exact hC' _ (.last rfl rfl hx hl)
      simp only [inserted, updateOf, hnext', reduceCtorEq, if_false] at hin hQ
      rw [hhead]
      refine wpc_bind (wpc_mono (wpc_findSorted hfind hm) ?_ fun _ hc => hc)
      rintro _ _ ⟨rfl, rfl⟩
      dsimp only
      rw [if_pos rfl]
      refine wpc_bind (wpc_store hm (hin (Or.inl rfl) (Or.inl rfl)) (wpc_bind (wpc_store ?_ ?_ ?_)))
      · exact hin (Or.inl rfl) (Or.inl rfl)
      all_goals dsimp only
      all_goals rw [hnext']
      · exact hin (Or.inl rfl) (Or.inl rfl)
      refine wpc_bind (wpc_store ?_ ?_ (wpc_incLen ?_ ?_ hQ))
      · exact hin (Or.inl rfl) (Or.inl rfl)
      · exact hin (Or.inr rfl) (Or.inl rfl)
      · exact hin (Or.inr rfl) (Or.inl rfl)
      · exact hin (Or.inr rfl) (Or.inr rfl)
  | @before ptr y p hhead hfind hy hp hpn hn =>
      have hin : ∀ {prev}, prev = m.prev ∨ prev = Function.update m.prev n p →
          C { m with next := Function.update m.next n (some y), prev := prev } := by
        intro prev hp
        exact hC' _ (.before rfl hp)
      have hjoined : ∀ {next head len}, next = Function.update m.next n (some y) ∨
          next = (inserted m l n p (some y)).next → head = m.head ∨ head = (inserted m l n p (some y)).head →
          len = m.len ∨ len = (inserted m l n p (some y)).len → C { m with
            prev := Function.update (Function.update m.prev n p) y (some n), next := next, head := head
            len := len } := by
        intro next head len hx hh hl
        exact hC' _ (.joined rfl hx hh hl)
      rw [hhead]
      refine wpc_bind (wpc_mono (wpc_findSorted hfind hm) ?_ fun _ hc => hc)
      rintro _ _ ⟨rfl, rfl⟩
      dsimp only
      rw [if_neg Bool.false_ne_true]
      refine wpc_bind (wpc_store hm (hin (Or.inl rfl)) (wpc_bind (wpc_gets (hin (Or.inl rfl)) ?_)))
      dsimp only
      rw [hp]
      refine wpc_bind (wpc_store (hin (Or.inl rfl)) (hin (Or.inr rfl)) (wpc_bind (wpc_store (hin (Or.inr rfl)) ?_
        (wpc_bind (wpc_gets ?_ ?_)))))
      · exact hjoined (Or.inl rfl) (Or.inl rfl) (Or.inl rfl)
      · exact hjoined (Or.inl rfl) (Or.inl rfl) (Or.inl rfl)
      dsimp only
      rw [Function.update_of_ne hy.symm, Function.update_self]
      cases p with
      | none =>
          simp only [inserted, updateOf, if_true] at hjoined hQ
          refine wpc_bind (wpc_store ?_ ?_ (wpc_incLen ?_ ?_ hQ))
          · exact hjoined (Or.inl rfl) (Or.inl rfl) (Or.inl rfl)
          · exact hjoined (Or.inl rfl) (Or.inr rfl) (Or.inl rfl)
          · exact hjoined (Or.inl rfl) (Or.inr rfl) (Or.inl rfl)
          · exact hjoined (Or.inl rfl) (Or.inr rfl) (Or.inr rfl)
      | some x =>
          simp only [inserted, updateOf, reduceCtorEq, if_false] at hjoined hQ
          refine wpc_bind (wpc_store ?_ ?_ (wpc_incLen ?_ ?_ hQ))
          · exact hjoined (Or.inl rfl) (Or.inl rfl) (Or.inl rfl)
          · exact hjoined (Or.inr rfl) (Or.inl rfl) (Or.inl rfl)
          · exact hjoined (Or.inr rfl) (Or.inl rfl) (Or.inl rfl)
          · exact hjoined (Or.inr rfl) (Or.inl rfl) (Or.inr rfl)

/-- The stores of the recovery after those of `prev`. -/
theorem ends_recoverJoined {y : N} {next : N → Option N} {head : L → Option N} {len : L → Nat}
    (hlist : m.list n = some l)
    (hx : next = Function.update m.next n (some y) ∨ next = (inserted m l n p (some y)).next)
    (hh : head = m.head ∨ head = (inserted m l n p (some y)).head)
    (hl : len = m.len ∨ len = (inserted m l n p (some y)).len) :
    Ends (match p with
      | some p => do
          setNext p (some n)
          setList n (some l)
          setLen l (m.len l + 1)
      | none => do
          setHead l (some n)
          setList n (some l)
          setLen l (m.len l + 1)) (fun _ r => r = inserted m l n p (some y))
      { m with
        prev := Function.update (Function.update m.prev n p) y (some n), next := next, head := head, len := len } := by
  have hlist' : Function.update m.list n (some l) = m.list := by rw [← hlist, Function.update_eq_self]
  have hlen : Function.update len l (m.len l + 1) = Function.update m.len l (m.len l + 1) := by
    rcases hl with rfl | rfl
    · rfl
    · exact Function.update_idem _ _ _
  cases p with
  | none =>
      simp only [inserted, updateOf, if_true, or_self] at hx hh ⊢
      have hhead : Function.update head l (some n) = Function.update m.head l (some n) := by
        rcases hh with rfl | rfl
        · rfl
        · exact Function.update_idem _ _ _
      simp only [setHead, setList, setLen, ends_bind, ends_store, hlist', hlen, hhead, hx]
  | some x =>
      simp only [inserted, updateOf, reduceCtorEq, if_false, or_self] at hx hh ⊢
      have hnext : Function.update next x (some n) =
          Function.update (Function.update m.next n (some y)) x (some n) := by
        rcases hx with rfl | rfl
        · rfl
        · exact Function.update_idem _ _ _
      simp only [setNext, setList, setLen, ends_bind, ends_store, hlist', hlen, hnext, hh]

/-- From the links of the node, recovery completes the insertion. -/
theorem Linking.recover (h : Linking m l n p q c) (hlist : m.list n = some l) (hnext : m.next n = none)
    (hprev : m.prev n = none) (hplace : ∀ y, q = some y → m.prev y = p) (hp : p ≠ some n) (hq : q ≠ some n) :
    Ends (recoverFromFailedInsertSorted debug fuel gt l n (m.len l)) (fun _ r => r = inserted m l n p q) c := by
  have hnext' : Function.update m.next n none = m.next := by rw [← hnext, Function.update_eq_self]
  have hprev' : Function.update m.prev n none = m.prev := by rw [← hprev, Function.update_eq_self]
  have hlist' : Function.update m.list n (some l) = m.list := by rw [← hlist, Function.update_eq_self]
  have hset : ∀ {len}, len = m.len ∨ len = Function.update m.len l (m.len l + 1) →
      Function.update len l (m.len l + 1) = Function.update m.len l (m.len l + 1) := by
    rintro len (rfl | rfl)
    · rfl
    · exact Function.update_idem _ _ _
  unfold recoverFromFailedInsertSorted
  cases h with
  | @alone len hpn hqn hl =>
      subst hpn hqn
      simp only [inserted, updateOf, hnext', hprev', if_true] at hl ⊢
      simp only [ends_bind, ends_gets, hlist, ne_eq, not_true_eq_false, if_false, hnext, hprev, Function.update_self,
        if_true, setLen, ends_store, hset hl]
  | @last x next len hpx hqn hx hl =>
      subst hpx hqn
      have hxn : n ≠ x := fun he => hp (congrArg some he.symm)
      simp only [inserted, updateOf, hnext', reduceCtorEq, if_false] at hx hl ⊢
      have hnone : next n = none := by
        rcases hx with rfl | rfl
        · exact hnext
        · rw [Function.update_of_ne hxn, hnext]
      have hlink : Function.update (Function.update next n none) x (some n) = Function.update m.next x (some n) := by
        rcases hx with rfl | rfl
        · rw [hnext']
        · rw [← hnone, Function.update_eq_self, Function.update_idem]
      simp only [ends_bind, ends_gets, hlist, ne_eq, not_true_eq_false, if_false, hnone, Function.update_self, setNext,
        setList, setLen, ends_store, hset hl, hlink, hlist']
  | @before y prev hqy hpr =>
      subst hqy
      have hyn : y ≠ n := fun he => hq (congrArg some he)
      have hpy : prev y = p := by
        rcases hpr with rfl | rfl
        · exact hplace y rfl
        · rw [Function.update_of_ne hyn]
          exact hplace y rfl
      have hlink : Function.update prev n p = Function.update m.prev n p := by
        rcases hpr with rfl | rfl
        · rfl
        · exact Function.update_idem _ _ _
      simp only [ends_bind, ends_gets, hlist, ne_eq, not_true_eq_false, if_false, Function.update_self, hpy, hp,
        not_false_eq_true, if_true, setPrev, ends_store, hlink, Function.update_of_ne hyn.symm]
      exact ends_recoverJoined hlist (Or.inl rfl) (Or.inl rfl) (Or.inl rfl)
  | @joined y next head len hqy hx hh hl =>
      subst hqy
      have hyn : y ≠ n := fun he => hq (congrArg some he)
      have hny : next n = some y := by
        rcases hx with rfl | rfl
        · exact Function.update_self _ _ _
        · exact (updateOf_of_ne hp).trans (Function.update_self _ _ _)
      simp only [ends_bind, ends_gets, inserted, hlist, ne_eq, not_true_eq_false, if_false, hny, updateOf,
        Function.update_self, Function.update_of_ne hyn.symm]
      exact ends_recoverJoined hlist hx hh hl

omit [DecidableEq N] [DecidableEq L] in
theorem Place.facts (h : Place fuel gt m l n p q) :
    m.head l ≠ some n ∧ (∀ y, q = some y → m.prev y = p) ∧ p ≠ some n ∧ q ≠ some n := by
  cases h with
  | empty hhead =>
      refine ⟨?_, nofun, nofun, nofun⟩
      rw [hhead]
      exact nofun
  | last _ _ hx hn => exact ⟨hn, nofun, fun he => hx (Option.some.inj he), nofun⟩
  | before _ _ hy hp hpn hn =>
      refine ⟨hn, fun z hz => ?_, hpn, fun he => hy (Option.some.inj he)⟩
      cases hz
      exact hp

theorem Linking.finish (h : Place fuel gt m l n p q) : Linking m l n p q (inserted m l n p q) := by
  cases h with
  | empty => exact .alone rfl rfl (Or.inr rfl)
  | last => exact .last rfl rfl (Or.inr rfl) (Or.inr rfl)
  | before => exact .joined rfl (Or.inr rfl) (Or.inr rfl) (Or.inr rfl)

/-- The node says that it is in the list, and nothing else does. -/
structure MarkedOnly (c : Lists N L) (l : L) (n : N) : Prop where
  list : c.list n = some l
  next : c.next n = none
  prev : c.prev n = none
  head : c.head l ≠ some n

theorem Sorting.markedOnly_iff (hs : Sorting s l n p q c) (hn : s.list n = none)
    (h : Place fuel gt (Lists.marked s l n) l n p q) : MarkedOnly c l n ↔ c = Lists.marked s l n := by
  obtain ⟨hhead, _, hp, hq⟩ := h.facts
  constructor
  · rintro ⟨hlist, hnext, hprev, hfirst⟩
    cases hs with
    | fresh => cases hn.symm.trans hlist
    | marked => rfl
    | linking hl =>
        cases hl with
        | alone hpn => exact absurd (by simp [inserted, hpn]) hfirst
        | last hpx hqn =>
            simp only [inserted, hpx, hqn, updateOf, Function.update_self] at hprev
            cases hprev
        | before hqy =>
            simp only [hqy, Function.update_self] at hnext
            cases hnext
        | joined hqy hx =>
            subst hqy
            rcases hx with rfl | rfl
            · simp only [Function.update_self] at hnext
              cases hnext
            · simp only [inserted, updateOf_of_ne hp, Function.update_self] at hnext
              cases hnext
  · rintro rfl
    exact ⟨Function.update_self _ _ _, Function.update_self _ _ _, Function.update_self _ _ _, hhead⟩

/-- Recovery of an unmarked node starts again. -/
theorem recover_fresh {prev next : N → Option N} (hn : s.list n = none) (h : Place fuel gt (marked s l n) l n p q)
    (hp : prev = s.prev ∨ prev = Function.update s.prev n none)
    (hx : next = s.next ∨ next = Function.update s.next n none) :
    Ends (recoverFromFailedInsertSorted debug fuel gt l n (s.len l))
      (fun _ r => r = inserted (marked s l n) l n p q) { s with prev := prev, next := next } := by
  have hprev : Function.update prev n none = Function.update s.prev n none := by
    rcases hp with rfl | rfl
    · rfl
    · exact Function.update_idem _ _ _
  have hnext : Function.update next n none = Function.update s.next n none := by
    rcases hx with rfl | rfl
    · rfl
    · exact Function.update_idem _ _ _
  have hne : (none : Option L) ≠ some l := nofun
  simp only [recoverFromFailedInsertSorted, setNext, setPrev, ends_bind, ends_gets, hn, ne_eq, hne, not_false_eq_true,
    if_true, ends_store, hprev, hnext]
  exact (wpc_optimizedInsertSortedImpl (C := fun _ => True) rfl rfl (fun _ => hn) (Function.update_self _ _ _)
    (Function.update_self _ _ _) h trivial trivial (fun _ _ => trivial) rfl).ends

/-- A node that is marked only is inserted again, if no assertion looks at the mark. -/
theorem recover_marked (h : Place fuel gt (marked s l n) l n p q) :
    Ends (recoverFromFailedInsertSorted false fuel gt l n (s.len l))
      (fun _ r => r = inserted (marked s l n) l n p q) (marked s l n) := by
  have hlist : (marked s l n).list n = some l := Function.update_self _ _ _
  have hnext : (marked s l n).next n = none := Function.update_self _ _ _
  have hprev : (marked s l n).prev n = none := Function.update_self _ _ _
  have hlen : Function.update (marked s l n).len l (s.len l) = (marked s l n).len := Function.update_eq_self _ _
  have hset : Function.update (marked s l n).list n (some l) = (marked s l n).list := Function.update_idem _ _ _
  simp only [recoverFromFailedInsertSorted, setLen, ends_bind, ends_gets, hlist, ne_eq, not_true_eq_false, if_false,
    hnext, hprev, if_neg h.facts.1, ends_store, hlen]
  have hw : wpc (optimizedInsertSortedImpl false fuel gt l n) (fun _ r => r = inserted (marked s l n) l n p q) False
    (fun _ => True) (marked s l n) := wpc_optimizedInsertSortedImpl rfl hset (fun hd => absurd hd Bool.false_ne_true)
      hnext hprev h trivial trivial (fun _ _ => trivial) rfl
  exact hw.ends

/-- The assertion that a node to insert is in no list stops recovery. -/
theorem not_recover_marked (h : Place fuel gt (marked s l n) l n p q) {Q : Unit → Lists N L → Prop} :
    ¬ Ends (recoverFromFailedInsertSorted true fuel gt l n (s.len l)) Q (marked s l n) := by
  have hlist : (marked s l n).list n = some l := Function.update_self _ _ _
  have hnext : (marked s l n).next n = none := Function.update_self _ _ _
  have hprev : (marked s l n).prev n = none := Function.update_self _ _ _
  simp only [recoverFromFailedInsertSorted, optimizedInsertSortedImpl, setLen, ends_bind, ends_gets, hlist, ne_eq,
    not_true_eq_false, if_false, hnext, hprev, if_neg h.facts.1, ends_store, ends_debugAssert]
  exact fun ha => Option.some_ne_none l (ha.1 trivial)

/-- Recovery completes the insertion, unless an assertion looks at a node that is marked only. -/
theorem Sorting.recover (hs : Sorting s l n p q c) (hn : s.list n = none)
    (h : Place fuel gt (Lists.marked s l n) l n p q) (hdebug : ¬ (debug = true ∧ MarkedOnly c l n)) :
    Ends (recoverFromFailedInsertSorted debug fuel gt l n (s.len l))
      (fun _ r => r = inserted (Lists.marked s l n) l n p q) c := by
  obtain ⟨hhead, hplace, hp, hq⟩ := h.facts
  have hmarked := hs.markedOnly_iff hn h
  cases hs with
  | fresh hpr hx => exact recover_fresh hn h hpr hx
  | marked =>
      cases debug with
      | false => exact recover_marked h
      | true => exact absurd ⟨rfl, hmarked.mpr rfl⟩ hdebug
  | linking hl =>
      have hlist : (Lists.marked s l n).list n = some l := Function.update_self _ _ _
      have hnext : (Lists.marked s l n).next n = none := Function.update_self _ _ _
      have hprev : (Lists.marked s l n).prev n = none := Function.update_self _ _ _
      exact hl.recover hlist hnext hprev hplace hp hq

theorem Sorting.log (hs : Sorting s l n p q c) : c.microOpOldLen = s.microOpOldLen := by
  cases hs with
  | fresh => rfl
  | marked => rfl
  | linking hl => cases hl <;> rfl

theorem wpc_insertSorted {op : ListOpCode} (hn : s.list n = none)
    (h : Place fuel gt (marked (logged s op l) l n) l n p q) (hC : C s)
    (hC' : ∀ c, Sorting (logged s op l) l n p q c → C c)
    (hQ : Q () (inserted (marked (logged s op l) l n) l n p q)) :
    wpc (insertSorted debug op fuel gt l n) Q E C s := by
  have hlog : C (logged s op l) := hC' _ (.fresh (Or.inl rfl) (Or.inl rfl))
  refine wpc_bind (wpc_startOpLog hC hlog (wpc_bind (wpc_store hlog ?_ (wpc_bind (wpc_store ?_ ?_ ?_)))))
  · exact hC' _ (.fresh (Or.inl rfl) (Or.inr rfl))
  · exact hC' _ (.fresh (Or.inl rfl) (Or.inr rfl))
  · exact hC' _ (.fresh (Or.inr rfl) (Or.inr rfl))
  refine wpc_optimizedInsertSortedImpl rfl rfl (fun _ => hn) ?_ ?_ h ?_ ?_ (fun c hc => hC' c (.linking hc)) hQ
  · exact Function.update_self _ _ _
  · exact Function.update_self _ _ _
  · exact hC' _ (.fresh (Or.inr rfl) (Or.inr rfl))
  · exact hC' _ .marked

/-! ## Insertion at the front -/

/-- What the insertion of `n` before the head of `l` leaves. -/
def fronted (s : Lists N L) (l : L) (n : N) : Lists N L :=
  { s with
    prev := updateOf (Function.update s.prev n none) (s.head l) (some n)
    next := Function.update s.next n (s.head l)
    head := Function.update s.head l (some n)
    len := Function.update s.len l (s.len l + 1)
    list := Function.update s.list n (some l) }

/-- Some stores of the insertion are done. The head tells recovery whether the links are. -/
inductive Fronting (s : Lists N L) (l : L) (n : N) : Lists N L → Prop
  | linking {prev next : N → Option N} :
      prev = s.prev ∨ prev = Function.update s.prev n none ∨ prev = (fronted s l n).prev →
      next = s.next ∨ next = Function.update s.next n none ∨ next = (fronted s l n).next →
      Fronting s l n { s with prev := prev, next := next }
  | linked {len : L → Nat} {list : N → Option L} : len = s.len ∨ len = (fronted s l n).len →
      list = s.list ∨ list = (fronted s l n).list → Fronting s l n { fronted s l n with len := len, list := list }

theorem Fronting.recover (h : Fronting s l n c) (hhead : s.head l ≠ some n) :
    Ends (recoverFromFailedInsertFront l n (s.len l)) (fun _ r => r = fronted s l n) c := by
  unfold recoverFromFailedInsertFront
  cases h with
  | @linking prev next hp hx =>
      have hnext : ∀ v, Function.update next n v = Function.update s.next n v := by
        intro v
        rcases hx with rfl | rfl | rfl
        · rfl
        · exact Function.update_idem _ _ _
        · exact Function.update_idem _ _ _
      cases hh : s.head l with
      | none =>
          have hprev : Function.update prev n none = Function.update s.prev n none := by
            simp only [fronted, hh, updateOf, or_self] at hp
            rcases hp with rfl | rfl
            · rfl
            · exact Function.update_idem _ _ _
          simp only [fronted, connectFront, ends_bind, ends_gets, hh, ne_eq, reduceCtorEq, not_false_eq_true, if_true,
            setPrev, setNext, setHead, setLen, setList, ends_store, updateOf, hnext, hprev]
      | some x =>
          rw [hh] at hhead
          have hxn : x ≠ n := fun he => hhead (congrArg some he)
          have hprev : Function.update (Function.update prev n none) x (some n) =
              Function.update (Function.update s.prev n none) x (some n) := by
            simp only [fronted, hh, updateOf] at hp
            rcases hp with rfl | rfl | rfl
            · rfl
            · rw [Function.update_idem]
            · rw [Function.update_comm hxn, Function.update_idem, Function.update_idem, Function.update_comm hxn.symm]
          simp only [fronted, connectFront, ends_bind, ends_gets, hh, ne_eq, hhead, not_false_eq_true, if_true,
            setPrev, setNext, setHead, setLen, setList, ends_store, updateOf, hnext, hprev, Function.update_idem]
  | @linked len list hl hi =>
      have hlen : Function.update len l (s.len l + 1) = Function.update s.len l (s.len l + 1) := by
        rcases hl with rfl | rfl
        · rfl
        · exact Function.update_idem _ _ _
      have hlist : Function.update list n (some l) = Function.update s.list n (some l) := by
        rcases hi with rfl | rfl
        · rfl
        · exact Function.update_idem _ _ _
      simp only [fronted, ends_bind, ends_gets, Function.update_self, ne_eq, not_true_eq_false, if_false, setLen,
        setList, ends_store, hlen, hlist]

theorem wpc_optimizedInsertFront (hn : s.list n = none) (hC : C s)
    (hC' : ∀ c, Fronting (logged s .insertFront l) l n c → C c) (hQ : Q () (fronted (logged s .insertFront l) l n)) :
    wpc (optimizedInsertFront debug l n) Q E C s := by
  have hlog : C (logged s .insertFront l) := hC' _ (.linking (Or.inl rfl) (Or.inl rfl))
  have hlinked : ∀ {len list}, len = s.len ∨ len = Function.update s.len l (s.len l + 1) →
      list = s.list ∨ list = Function.update s.list n (some l) →
      C { fronted (logged s .insertFront l) l n with len := len, list := list } := by
    intro len list hl hi
    exact hC' _ (.linked hl hi)
  have hlinking : ∀ {prev next}, prev = s.prev ∨ prev = Function.update s.prev n none ∨
        prev = (fronted (logged s .insertFront l) l n).prev →
      next = s.next ∨ next = Function.update s.next n none ∨ next = (fronted (logged s .insertFront l) l n).next →
      C { logged s .insertFront l with prev := prev, next := next } := by
    intro prev next hp hx
    exact hC' _ (.linking hp hx)
  unfold optimizedInsertFront
  refine wpc_bind (wpc_startOpLog hC hlog (wpc_bind (wpc_gets hlog (wpc_bind (wpc_check hlog ?_ fun _ => ?_)))))
  · exact fun hne => absurd (fun _ => hn) hne
  refine wpc_bind (wpc_bind (wpc_store hlog (hlinking (Or.inr (Or.inl rfl)) (Or.inl rfl)) (wpc_bind (wpc_store
    (hlinking (Or.inr (Or.inl rfl)) (Or.inl rfl)) (hlinking (Or.inr (Or.inl rfl)) (Or.inr (Or.inl rfl)))
    (wpc_bind (wpc_gets (hlinking (Or.inr (Or.inl rfl)) (Or.inr (Or.inl rfl))) ?_))))))
  have hh : (logged s .insertFront l).head l = s.head l := rfl
  dsimp only
  rw [hh]
  cases hhead : s.head l with
  | none =>
      simp only [fronted, hh, hhead, updateOf] at hlinked hlinking hQ
      refine wpc_store ?_ ?_ (wpc_bind (wpc_incLen ?_ ?_ (wpc_store ?_ ?_ hQ)))
      · exact hlinking (Or.inr (Or.inl rfl)) (Or.inr (Or.inl rfl))
      · exact hlinked (Or.inl rfl) (Or.inl rfl)
      · exact hlinked (Or.inl rfl) (Or.inl rfl)
      · exact hlinked (Or.inr rfl) (Or.inl rfl)
      · exact hlinked (Or.inr rfl) (Or.inl rfl)
      · exact hlinked (Or.inr rfl) (Or.inr rfl)
  | some x =>
      simp only [fronted, hh, hhead, updateOf] at hlinked hlinking hQ
      refine wpc_bind (wpc_gets (hlinking (Or.inr (Or.inl rfl)) (Or.inr (Or.inl rfl))) ?_)
      dsimp only
      rw [hh, hhead]
      refine wpc_bind (wpc_store ?_ ?_ ?_)
      · exact hlinking (Or.inr (Or.inl rfl)) (Or.inr (Or.inl rfl))
      all_goals dsimp only
      all_goals rw [Function.update_idem]
      · exact hlinking (Or.inr (Or.inl rfl)) (Or.inr (Or.inr rfl))
      refine wpc_bind (wpc_store ?_ ?_ (wpc_store ?_ ?_ (wpc_bind (wpc_incLen ?_ ?_ (wpc_store ?_ ?_ hQ)))))
      · exact hlinking (Or.inr (Or.inl rfl)) (Or.inr (Or.inr rfl))
      · exact hlinking (Or.inr (Or.inr rfl)) (Or.inr (Or.inr rfl))
      · exact hlinking (Or.inr (Or.inr rfl)) (Or.inr (Or.inr rfl))
      · exact hlinked (Or.inl rfl) (Or.inl rfl)
      · exact hlinked (Or.inl rfl) (Or.inl rfl)
      · exact hlinked (Or.inr rfl) (Or.inl rfl)
      · exact hlinked (Or.inr rfl) (Or.inl rfl)
      · exact hlinked (Or.inr rfl) (Or.inr rfl)

/-! ## Well linked lists -/

omit [DecidableEq L] in
/-- The search finds a place. -/
theorem LinearOf.place {xs : List N} (h : LinearOf s l xs) (hn : s.list n = none) (gt : N → Bool)
    (hf : xs.length ≤ fuel) : ∃ p q, Place fuel gt (marked s l n) l n p q := by
  have hhead := h.head
  have hnl := h.not_mem hn
  cases hs : xs with
  | nil =>
      rw [hs] at hhead
      exact ⟨none, none, .empty hhead⟩
  | cons x ys =>
      have hlinks := h.links
      have hne : ∀ y ∈ xs, y ≠ n := fun y hy => ne_of_mem_of_not_mem hy hnl
      have hlinks' : Linked (marked s l n).prev (marked s l n).next none xs none := by
        refine hlinks.congr ?_ ?_
        · exact fun y hy => Function.update_of_ne (hne y hy) _ _
        · exact fun y hy => Function.update_of_ne (hne y hy) _ _
      rw [hs] at hhead hlinks' hf
      have hfirst : (marked s l n).head l ≠ some n := by
        intro he
        rw [show (marked s l n).head l = some x from hhead] at he
        refine hne x ?_ (Option.some.inj he)
        rw [hs]
        exact List.mem_cons_self
      obtain ⟨r, m, ho, rfl, zs, ws, hzw, _, hr⟩ := (ends_findSorted hlinks' hf).returns
      have hfind : Ends (findSorted gt fuel x) (fun r' m' => r' = r ∧ m' = marked s l n) (marked s l n) := by
        unfold Ends
        rw [ho]
        exact ⟨rfl, rfl⟩
      obtain ⟨node, atEnd⟩ := r
      rcases hr with ⟨hend, _, hlast⟩ | ⟨hend, hws, _⟩
      · dsimp only at hend hlast
        subst hend
        refine ⟨_, _, .last hhead hfind (hne node ?_) hfirst⟩
        rw [hs, hzw]
        exact List.mem_append_left _ (List.mem_of_getLast? hlast)
      · dsimp only at hend hws
        subst hend
        have hmem : node ∈ xs := by
          rw [hs, hzw]
          exact List.mem_append_right _ (List.mem_of_head? hws)
        refine ⟨_, _, .before hhead hfind (hne node hmem) rfl ?_ hfirst⟩
        intro he
        rw [show (marked s l n).prev node = s.prev node from Function.update_of_ne (hne node hmem) _ _] at he
        exact ((hlinks.neighbours hmem).1 he).elim hnl nofun

omit [DecidableEq L] in
theorem WellLinked.place {ring : L → Prop} {d : L} {le : N → N → Prop} (h : WellLinked ring d le s) (hl : ¬ ring l)
    (hn : s.list n = none) (gt : N → Bool)
    (hf : ∀ xs : List N, xs.Nodup → (∀ x ∈ xs, s.list x = some l) → xs.length ≤ fuel) :
    ∃ p q, Place fuel gt (marked s l n) l n p q := by
  obtain ⟨seq, h, _⟩ := h
  have hlin : LinearOf s l (seq l) := ⟨h.linears l hl, h.owner l, h.nodup l⟩
  exact hlin.place hn gt (hf _ hlin.nodup fun x hx => (hlin.owner x).mpr hx)

/-- Inserted nodes leave the lists well linked. -/
theorem WellLinked.inserted {ring : L → Prop} {d : L} {le : N → N → Prop} {op : ListOpCode}
    (h : WellLinked ring d le s) (hl : ¬ ring l) (hn : s.list n = none)
    (hd : l = d → (∀ x y z, le x y → le y z → le x z) ∧ (∀ x, gt x = true → le x n) ∧ ∀ y, gt y = false → le n y)
    (hf : ∀ xs : List N, xs.Nodup → (∀ x ∈ xs, s.list x = some l) → xs.length ≤ fuel)
    (hplace : Place fuel gt (marked (logged s op l) l n) l n p q) :
    WellLinked ring d le (Lists.inserted (marked (logged s op l) l n) l n p q) := by
  have hw : wpc (Lists.insertSorted false op fuel gt l n)
      (fun _ r => r = Lists.inserted (marked (logged s op l) l n) l n p q) True (fun _ => True) s :=
    wpc_insertSorted hn hplace trivial (fun _ _ => trivial) rfl
  exact ((h.insertSorted hl hn hd hf).of_wpc hw).1

theorem WellLinked.fronted {ring : L → Prop} {d : L} {le : N → N → Prop} (h : WellLinked ring d le s) (hl : ¬ ring l)
    (hd : l ≠ d) (hn : s.list n = none) : WellLinked ring d le (Lists.fronted (logged s .insertFront l) l n) := by
  have hw : wpc (optimizedInsertFront false l n) (fun _ r => r = Lists.fronted (logged s .insertFront l) l n) True
    (fun _ => True) s := wpc_optimizedInsertFront hn trivial (fun _ _ => trivial) rfl
  exact ((h.insertFront hl hd hn).of_wpc hw).1

end Lists

end IntOS
