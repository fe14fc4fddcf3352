import IntOS.List.Lemmas.CrashAgain
import IntOS.List.Sorted

/-!
# Power failures during an operation on one list

One list whose operation fails after it has logged itself. Recovery is started with the old length that the log
has, and again after each further failure; the other lists may look as they like.
-/

namespace IntOS

open Persist Persist.Prog Chain

variable {N L K α : Type} [DecidableEq N] [DecidableEq L]

namespace Lists

/-- Recovery with the old length that the log has. -/
def withOldLen (recover : Nat → Prog (Lists N L) Unit) : Prog (Lists N L) Unit := do
  let oldLen ← gets getOldLen
  recover oldLen

/-- Wherever the operation fails from its first store on, the log, and wherever its recovery fails, recovery ends in
the state `r`. -/
def Recoverable (op : Prog (Lists N L) α) (recover : Nat → Prog (Lists N L) Unit) (s r : Lists N L) : Prop :=
  ∀ c ∈ (op s).trace, ∀ c', Interrupted (withOldLen recover) c c' → Ends (withOldLen recover) (fun _ r' => r' = r) c'

/-- The list `l` is the same in both states, with the links of its nodes. -/
structure SameList (l : L) (s s' : Lists N L) : Prop where
  head : s'.head l = s.head l
  cursor : s'.cursor l = s.cursor l
  len : s'.len l = s.len l
  prev : ∀ x, s.list x = some l → s'.prev x = s.prev x
  next : ∀ x, s.list x = some l → s'.next x = s.next x
  list : ∀ x, s.list x = some l → s'.list x = some l

omit [DecidableEq N] [DecidableEq L] in
theorem SameList.refl (l : L) (s : Lists N L) : SameList l s s :=
  ⟨rfl, rfl, rfl, fun _ _ => rfl, fun _ _ => rfl, fun _ h => h⟩

variable {s r c : Lists N L} {l : L} {n : N} {xs : List N} {op : ListOpCode} {debug : Bool} {oldLen : Nat}
  {recover : Nat → Prog (Lists N L) Unit} {E : Prop}

/-! ## One list -/

omit [DecidableEq N] in
/-- What a list alone says of all lists, once the others are forgotten. -/
theorem LinearOf.wellLinked (h : LinearOf s l xs) :
    WellLinked (fun _ => False) l (fun _ _ => True) (alone l s) :=
  ⟨_, linearOf_iff.mp h, List.pairwise_of_forall fun _ _ => trivial⟩

omit [DecidableEq N] in
theorem RingOf.wellLinked (h : RingOf s l xs) : WellLinked (fun _ => True) l (fun _ _ => True) (alone l s) :=
  ⟨_, ringOf_iff.mp h, List.pairwise_of_forall fun _ _ => trivial⟩

omit [DecidableEq N] in
/-- What the removal of a node relies on. -/
theorem LinearOf.removable (h : LinearOf s l xs) (hn : n ∈ xs) :
    0 < s.len l ∧ (s.len l = 1 → Lone s l n) ∧ s.next n ≠ some n := by
  have hlist := (h.owner n).mpr hn
  have hlinear := h.wellLinked.linear (n := n) id ((alone_list (Or.inr hlist)).trans hlist)
  simpa [Lone, alone] using hlinear

omit [DecidableEq N] in
theorem RingOf.inRing (h : RingOf s l xs) (hn : n ∈ xs) : InRing s l n := by
  have hlist := (h.owner n).mpr hn
  obtain ⟨_, hlen, honly, hnext⟩ := h.wellLinked.inRing trivial ((alone_list (Or.inr hlist)).trans hlist)
  rw [alone_len] at hlen honly hnext
  refine ⟨by simp [hlist], hlen, fun hone => ?_, hnext⟩
  obtain ⟨hprev, hnext, hcursor, hhead⟩ := honly hone
  rw [alone_cursor] at hcursor
  rw [alone_head] at hhead
  exact ⟨hprev, hnext, hcursor, hhead⟩

omit [DecidableEq N] in
theorem RingOf.enterable (h : RingOf s l xs) (hn : s.list n = none) : Enterable s l n := by
  cases h.wellLinked.enterable trivial ((alone_list (Or.inl hn)).trans hn) with
  | empty hcursor hlen =>
      rw [alone_cursor] at hcursor
      rw [alone_len] at hlen
      exact .empty hcursor hlen
  | before hcursor hprev hx hp hlen =>
      rw [alone_cursor] at hcursor
      rw [alone_len] at hlen
      exact .before hcursor hprev hx hp hlen

/-! ## The log -/

omit [DecidableEq N] [DecidableEq L] in
/-- The log is the same when it is written again. -/
theorem run_logged (f : Unit → Prog (Lists N L) α) :
    (startOpLog op l >>= f) (logged s op l) = (startOpLog op l >>= f) s := by
  simp only [startOpLog, setMicroOpOldLen, logged, assoc, gets_bind_apply, store_bind_apply]

omit [DecidableEq N] [DecidableEq L] in
theorem trace_logged (f : Unit → Prog (Lists N L) α) :
    ((startOpLog op l >>= f) s).trace = logged s op l :: (f () (logged s op l)).trace := by
  simp only [startOpLog, setMicroOpOldLen, logged, assoc, gets_bind_apply, store_bind_apply]

theorem popFront_logged (hhead : s.head l = some n) :
    optimizedPopFront l (logged s .popFront l) = optimizedPopFront l s := by
  have hhead' : (logged s .popFront l).head l = some n := hhead
  simp only [optimizedPopFront, gets_bind_apply, hhead, hhead']
  exact run_logged _

omit [DecidableEq N] [DecidableEq L] in
/-- An operation that logs itself first, in terms of what it does once it has: its crash condition is that of its
recovery. -/
theorem recoverable_of_wpc {m : Prog (Lists N L) α} {a : α} {C : Lists N L → Prop} (hlen : s.len l < 2 ^ opCodeShift)
    (hrun : m (logged s op l) = m s) (hw : wpc m (fun b r' => b = a ∧ r' = r) False C (logged s op l))
    (hlog : ∀ c, C c → c.microOpOldLen = microOpOldLenOf op (s.len l))
    (hrec : ∀ c, C c → wpc (recover (s.len l)) (fun _ r' => r' = r) False C c) :
    (m s).out = some (a, r) ∧ Recoverable m recover s r := by
  have hwith : ∀ c, C c → wpc (withOldLen recover) (fun _ r' => r' = r) False C c := by
    intro c hc
    rw [withOldLen, wpc_gets_bind, getOldLen_eq hlen (hlog c hc)]
    exact hrec c hc
  constructor
  · obtain ⟨_, _, ho, rfl, rfl⟩ := hw.returns
    rwa [hrun] at ho
  · intro c hc c' hc'
    rw [← hrun] at hc
    exact (hwith c' (hc'.of_wpc hwith (hw.trace hc))).ends

/-- The removal of a node in no list only logs itself. -/
theorem optimizedRemove_absent (hn : s.list n = none) :
    optimizedRemove debug l n s = ⟨[logged s .remove l], some ((), logged s .remove l)⟩ := by
  simp only [optimizedRemove, optimizedRemoveImpl, startOpLog, setMicroOpOldLen, assoc, gets_bind_apply,
    store_bind_apply, hn, if_true, pure_apply, logged]

/-! ## The operations on a null-terminated list -/

/-- The sorted insertion of a node in no list. -/
theorem recoverable_insertSorted (op : ListOpCode) {fuel : Nat} (gt : N → Bool) (h : LinearOf s l xs)
    (hlen : xs.length < 2 ^ opCodeShift) (hn : s.list n = none) (hf : xs.length ≤ fuel) :
    ∃ r, (insertSorted false op fuel gt l n s).out = some ((), r) ∧
      Recoverable (insertSorted false op fuel gt l n) (recoverFromFailedInsertSorted false fuel gt l n) s r := by
  have hlog : LinearOf (logged s op l) l xs := h.setMicroOpOldLen _
  obtain ⟨p, q, hplace⟩ := hlog.place hn gt hf
  rw [← h.len] at hlen
  refine ⟨inserted (marked (logged s op l) l n) l n p q,
    recoverable_of_wpc hlen (run_logged _) (C := Sorting (logged s op l) l n p q) ?_ ?_ ?_⟩
  · exact wpc_insertSorted hn hplace (.fresh (Or.inl rfl) (Or.inl rfl)) (fun _ hc => hc) ⟨rfl, rfl⟩
  · exact fun c hc => hc.log
  · exact fun c hc => hc.wpc_recover hn hplace nofun

/-- The pop of the front. -/
theorem recoverable_popFront (h : LinearOf s l xs) (hlen : xs.length < 2 ^ opCodeShift) (hn : s.head l = some n) :
    ∃ r, r.list n = none ∧ (optimizedPopFront l s).out = some (some n, r) ∧
      Recoverable (optimizedPopFront l) (recoverFromFailedPopFront l n) s r := by
  have hlog : LinearOf (logged s .popFront l) l xs := h.setMicroOpOldLen _
  have hhead : (logged s .popFront l).head l = some n := hn
  obtain ⟨hpos, _, hnext⟩ := hlog.removable (List.mem_of_head? (h.head.symm.trans hn))
  rw [← h.len] at hlen
  refine ⟨popped (logged s .popFront l) l n, Function.update_self _ _ _,
    recoverable_of_wpc hlen (popFront_logged hn) (C := Popping (logged s .popFront l) l n) ?_ ?_ ?_⟩
  · exact wpc_optimizedPopFront hhead hlog.cursor hpos .start (fun _ hc => hc) ⟨rfl, rfl⟩
  · intro c hc
    cases hc with
    | start => rfl
    | moved => rfl
    | done => rfl
  · exact fun c hc => hc.wpc_recover hhead hlog.cursor hnext hpos rfl

/-- The insertion of a node in no list at the front. -/
theorem recoverable_insertFront (debug : Bool) (h : LinearOf s l xs) (hlen : xs.length < 2 ^ opCodeShift)
    (hn : s.list n = none) :
    ∃ r, (optimizedInsertFront debug l n s).out = some ((), r) ∧
      Recoverable (optimizedInsertFront debug l n) (recoverFromFailedInsertFront l n) s r := by
  have hlog : LinearOf (logged s .insertFront l) l xs := h.setMicroOpOldLen _
  have hhead : (logged s .insertFront l).head l ≠ some n := by
    intro he
    exact hlog.not_mem hn (List.mem_of_head? (hlog.head.symm.trans he))
  rw [← h.len] at hlen
  refine ⟨fronted (logged s .insertFront l) l n,
    recoverable_of_wpc hlen (run_logged _) (C := Fronting (logged s .insertFront l) l n) ?_ ?_ ?_⟩
  · exact wpc_optimizedInsertFront hn (.linking (Or.inl rfl) (Or.inl rfl)) (fun _ hc => hc) ⟨rfl, rfl⟩
  · intro c hc
    cases hc with
    | linking => rfl
    | linked => rfl
  · exact fun c hc => hc.wpc_recover hhead

/-- The removal of a node of the list, once it is logged. -/
theorem LinearOf.wpc_remove (debug : Bool) (h : LinearOf s l xs) (hn : n ∈ xs) :
    wpc (optimizedRemove debug l n) (fun _ r => r = removed (logged s .remove l) l n) E
      (Removing (logged s .remove l) l n) (logged s .remove l) := by
  have hlog : LinearOf (logged s .remove l) l xs := h.setMicroOpOldLen _
  have hlist : s.list n ≠ none := fun he => h.not_mem he hn
  obtain ⟨hpos, hone, _⟩ := hlog.removable hn
  apply wpc_bind
  apply wpc_startOpLog (Removing.start _ _ _) (Removing.start _ _ _)
  exact wpc_optimizedRemoveImpl hlist hpos hone

theorem recoverable_remove (debug : Bool) (h : LinearOf s l xs) (hlen : xs.length < 2 ^ opCodeShift) (hn : n ∈ xs) :
    ∃ r, r.list n = none ∧ (optimizedRemove debug l n s).out = some ((), r) ∧
      Recoverable (optimizedRemove debug l n) (recoverFromFailedRemove l n) s r := by
  have hlog : LinearOf (logged s .remove l) l xs := h.setMicroOpOldLen _
  obtain ⟨hpos, _, hnext⟩ := hlog.removable hn
  rw [← h.len] at hlen
  refine ⟨removed (logged s .remove l) l n, Function.update_self _ _ _,
    recoverable_of_wpc hlen (run_logged _) (C := Removing (logged s .remove l) l n) ?_ ?_ ?_⟩
  · exact wpc_mono (h.wpc_remove debug hn) (fun _ _ he => ⟨rfl, he⟩) fun _ hc => hc
  · exact fun c hc => hc.microOpOldLen
  · exact fun c hc => hc.wpc_recover hnext hpos

/-- The insertion of a node in no list into a sorted list, with the assertions compiled out: wherever it fails from
the log on, and wherever its recovery fails, the lists end as the insertion leaves them. -/
theorem insertSorted_recoverable [LinearOrder K] (op : ListOpCode) (key : N → K) {fuel : Nat}
    (h : LinearOf s l xs) (hs : xs.Pairwise fun x y => key x ≤ key y) (hlen : xs.length < 2 ^ opCodeShift)
    (hn : s.list n = none) (hf : xs.length ≤ fuel) :
    ∃ r ys zs, xs = ys ++ zs ∧ LinearOf r l (ys ++ n :: zs) ∧
      ((ys ++ n :: zs).Pairwise fun x y => key x ≤ key y) ∧
      (insertSorted false op fuel (Keyed.greater key n) l n s).out = some ((), r) ∧
      Recoverable (insertSorted false op fuel (Keyed.greater key n) l n)
        (recoverFromFailedInsertSorted false fuel (Keyed.greater key n) l n) s r := by
  obtain ⟨r, ho, hrec⟩ := recoverable_insertSorted op (Keyed.greater key n) h hlen hn hf
  obtain ⟨ys, zs, hxs, hr, hascending⟩ := (h.insert hs hn hf).post ho
  exact ⟨r, ys, zs, hxs, hr, hascending, ho, hrec⟩

/-- Node 3 comes between the nodes 0 and 1. -/
theorem insertSorted_recoverable_between :
    ∃ r, LinearOf r () [0, 3, 1, 2] ∧
      Recoverable (insertSorted false .insertSortedDelayList 3 (Keyed.greater (fun x : Nat => 2 * x % 5) 3) () 3)
        (recoverFromFailedInsertSorted false 3 (Keyed.greater (fun x : Nat => 2 * x % 5) 3) () 3) (upTo 3) r := by
  have h : LinearOf (upTo 3) () [0, 1, 2] := linearOf_upTo 3
  obtain ⟨r, ys, zs, hxs, hr, hascending, _, hrec⟩ := insertSorted_recoverable .insertSortedDelayList
    (fun x : Nat => 2 * x % 5) (n := 3) h (by decide) (by decide) rfl (le_refl 3)
  refine ⟨r, ?_, hrec⟩
  rcases ys with _ | ⟨a, _ | ⟨b, ys⟩⟩
  · obtain rfl : [0, 1, 2] = zs := hxs
    exact absurd hascending (by decide)
  · obtain ⟨rfl, rfl⟩ : 0 = a ∧ [1, 2] = zs := List.cons.inj hxs
    exact hr
  · obtain ⟨_, hxs⟩ := List.cons.inj hxs
    obtain ⟨rfl, _⟩ := List.cons.inj hxs
    have hone := (List.pairwise_cons.mp (List.pairwise_cons.mp hascending).2).1 3 (by simp)
    exact absurd hone (by decide)

/-- The same of the three other operations on a null-terminated list. -/
theorem linear_operations_recoverable (h : LinearOf s l xs) (hlen : xs.length < 2 ^ opCodeShift) :
    (∀ n, s.head l = some n → ∃ r, LinearOf r l xs.tail ∧ r.list n = none ∧
      (optimizedPopFront l s).out = some (some n, r) ∧
      Recoverable (optimizedPopFront l) (recoverFromFailedPopFront l n) s r) ∧
    (∀ n, s.list n = none → ∃ r, LinearOf r l (n :: xs) ∧ (optimizedInsertFront debug l n s).out = some ((), r) ∧
      Recoverable (optimizedInsertFront debug l n) (recoverFromFailedInsertFront l n) s r) ∧
    (∀ n ∈ xs, ∃ r, LinearOf r l (xs.erase n) ∧ r.list n = none ∧ (optimizedRemove debug l n s).out = some ((), r) ∧
      Recoverable (optimizedRemove debug l n) (recoverFromFailedRemove l n) s r) := by
  refine ⟨fun n hn => ?_, fun n hn => ?_, fun n hn => ?_⟩
  · obtain ⟨r, hnone, ho, hrec⟩ := recoverable_popFront h hlen hn
    exact ⟨r, (h.popFront.post ho).2, hnone, ho, hrec⟩
  · obtain ⟨r, ho, hrec⟩ := recoverable_insertFront debug h hlen hn
    exact ⟨r, (h.insertFront hn).post ho, ho, hrec⟩
  · obtain ⟨r, hnone, ho, hrec⟩ := recoverable_remove debug h hlen hn
    exact ⟨r, (h.remove (Or.inr ((h.owner n).mpr hn))).post ho, hnone, ho, hrec⟩

/-- The first of three nodes, a new one and the one in the middle. -/
theorem linear_operations_recoverable_threeNodes :
    (∃ r, LinearOf r () [1, 2] ∧
      Recoverable (optimizedPopFront ()) (recoverFromFailedPopFront () 0) (upTo 3) r) ∧
    (∃ r, LinearOf r () [3, 0, 1, 2] ∧
      Recoverable (optimizedInsertFront true () 3) (recoverFromFailedInsertFront () 3) (upTo 3) r) ∧
    ∃ r, LinearOf r () [0, 2] ∧
      Recoverable (optimizedRemove true () 1) (recoverFromFailedRemove () 1) (upTo 3) r := by
  have h : LinearOf (upTo 3) () [0, 1, 2] := linearOf_upTo 3
  obtain ⟨hpop, hfront, hremove⟩ := linear_operations_recoverable h (by decide)
  obtain ⟨r, hr, _, _, hrec⟩ := hpop 0 rfl
  obtain ⟨r', hr', _, hrec'⟩ := hfront 3 rfl
  obtain ⟨r'', hr'', _, _, hrec''⟩ := hremove 1 (by decide)
  exact ⟨⟨r, hr, hrec⟩, ⟨r', hr', hrec'⟩, ⟨r'', hr'', hrec''⟩⟩

/-! ## The operations on a ring -/

omit [DecidableEq N] [DecidableEq L] in
theorem getOldLen_lt (s : Lists N L) : s.getOldLen < 2 ^ opCodeShift := Nat.lt_succ_of_le Nat.and_le_right

theorem len_recoverFromFailedRemove (oldLen : Nat) (c : Lists N L) :
    After (recoverFromFailedRemove l n oldLen) (fun _ r => 0 < oldLen ∧ r.len l = oldLen - 1) c := by
  unfold recoverFromFailedRemove
  rw [after_bind]
  refine After.of_forall fun _ s' => ?_
  simp [setLen, setList]

theorem keeps_log_recoverFromFailedRemove (oldLen : Nat) :
    Keeps Lists.microOpOldLen (recoverFromFailedRemove l n oldLen : Prog (Lists N L) Unit) := by
  have hnext : ∀ o v : Option N, Keeps Lists.microOpOldLen (setNextOf o v : Prog (Lists N L) Unit) := by
    intro o v
    cases o with
    | none => exact keeps_pure ()
    | some x => exact keeps_store fun _ => rfl
  have hprev : ∀ o v : Option N, Keeps Lists.microOpOldLen (setPrevOf o v : Prog (Lists N L) Unit) := by
    intro o v
    cases o with
    | none => exact keeps_pure ()
    | some x => exact keeps_store fun _ => rfl
  have hhead : Keeps Lists.microOpOldLen (do
      let head ← gets (·.head l)
      if head = some n then do
        let q ← gets (·.next n)
        setHead l q : Prog (Lists N L) Unit) := by
    refine (keeps_gets _).bind fun head => ?_
    split
    · exact (keeps_gets _).bind fun q => keeps_store fun _ => rfl
    · exact keeps_pure ()
  have hdisconnect : Keeps Lists.microOpOldLen (disconnect l n : Prog (Lists N L) Unit) := by
    refine (keeps_gets _).bind fun p => (keeps_gets _).bind fun q => (hnext p q).bind fun _ => ?_
    refine (keeps_gets _).bind fun p => (keeps_gets _).bind fun q => (hprev q p).bind fun _ => ?_
    refine (keeps_gets _).bind fun cursor => ?_
    split
    · exact (keeps_gets _).bind fun q => Keeps.bind (keeps_store fun _ => rfl) fun _ => hhead
    · exact hhead
  refine hdisconnect.bind fun _ => (keeps_check _).bind fun _ => ?_
  exact Keeps.bind (keeps_store fun _ => rfl) fun _ => keeps_store fun _ => rfl

/-- The third store of the removal of the last node takes the head off the node. -/
theorem head_of_removeLast {i : Nat} (hlist : s.list n ≠ none) (hone : s.len l = 1) (hhead : s.head l = some n)
    (hc : (optimizedRemove debug l n s).trace[i]? = some c) : c.head l = some n ↔ i < 2 := by
  simp only [optimizedRemove, optimizedRemoveImpl, startOpLog, setMicroOpOldLen, debugAssert, decLen, setCursor,
    setHead, setLen, setList, assoc, gets_bind_apply, store_bind_apply, check_bind_apply, hlist, if_false, hone,
    if_true, Nat.one_pos, implies_true, store] at hc
  obtain _ | _ | i := i
  case zero =>
      simp only [List.getElem?_cons_zero, Option.some.injEq] at hc
      simp [← hc, hhead]
  case succ.zero =>
      simp only [List.getElem?_cons_succ, List.getElem?_cons_zero, Option.some.injEq] at hc
      simp [← hc, hhead]
  case succ.succ =>
      have hnone : c.head l = none := by
        simp only [List.getElem?_cons_succ] at hc
        have hmem := List.mem_of_getElem? hc
        simp only [List.mem_cons, List.not_mem_nil, or_false] at hmem
        rcases hmem with rfl | rfl | rfl <;> simp
      simp [hnone]

/-- Recovery of a removal from a ring leaves the ring as the removal does, if the length fits the log and if the ring
keeps other nodes or its head is off the node. -/
theorem LeavingRing.recovers_iff (hc : LeavingRing (logged s .remove l) l n c) (h : RingOf s l xs) (hn : n ∈ xs) :
    Ends (withOldLen (recoverFromFailedRemove l n))
      (fun _ r => SameList l (leftRing (logged s .remove l) l n) r) c ↔
      xs.length < 2 ^ opCodeShift ∧ ¬ (xs.length = 1 ∧ c.head l = some n) := by
  have hlog : RingOf (logged s .remove l) l xs := h.setMicroOpOldLen _
  have hin := hlog.inRing hn
  have hpos := hin.len
  have hleft : (leftRing (logged s .remove l) l n).len l = s.len l - 1 := by
    unfold leftRing
    split
    · exact Function.update_self _ _ _
    · exact Function.update_self _ _ _
  have hm : c.microOpOldLen = microOpOldLenOf .remove (s.len l) := by
    cases hc with
    | many _ hc => exact hc.microOpOldLen
    | first => rfl
    | last _ hc => exact hc.microOpOldLen
  rw [← h.len]
  by_cases hlen : s.len l < 2 ^ opCodeShift
  · rw [withOldLen, ends_bind, ends_gets, getOldLen_eq hlen hm, and_iff_right hlen]
    cases hc with
    | many hmany hc =>
        have hrec := hc.recover (hin.next hmany) hpos
        have hfin : leftRing (logged s .remove l) l n = removed (logged s .remove l) l n := if_neg hmany
        refine iff_of_true (hrec.mono fun _ r hr => ?_) fun hone => hmany hone.1
        rw [hfin, hr]
        exact .refl l _
    | @first v hone hv =>
        have hrec := recover_remove_only (hin.only hone) hone hv
        have hfin : leftRing (logged s .remove l) l n = removedLast (logged s .remove l) l n := if_pos hone
        have hhead : (logged s .remove l).head l = some n := (hin.only hone).head
        rw [hfin]
        refine iff_of_false (fun hends => ?_) fun hnot => hnot ⟨hone, hhead⟩
        have hr := (hrec.iff.mp hends).head
        simp [removedLast, hhead] at hr
    | last hone hc =>
        have hrec := hc.recover (hin.only hone) hpos
        have hfin : leftRing (logged s .remove l) l n = removedLast (logged s .remove l) l n := if_pos hone
        have hhead : c.head l = none := by
          rw [hc.head]
          exact Function.update_self _ _ _
        refine iff_of_true (hrec.mono fun _ r hr => ?_) fun hof => Option.some_ne_none n (hof.2.symm.trans hhead)
        rw [hfin, hr]
        exact .refl l _
  · refine iff_of_false (fun hends => ?_) fun hand => hlen hand.1
    obtain ⟨_, r, ho, hr⟩ := hends.returns
    have hrlen := hr.len
    have hold := getOldLen_lt c
    have hafter : After (withOldLen (recoverFromFailedRemove l n))
        (fun _ r => 0 < c.getOldLen ∧ r.len l = c.getOldLen - 1) c := by
      rw [withOldLen, after_bind, after_gets]
      exact len_recoverFromFailedRemove _ _
    have hbits : 2 ^ opCodeShift = 4096 := rfl
    rw [(hafter.post ho).2, hleft] at hrlen
    omega

/-- Wherever a removal from a ring fails, recovery leaves the ring as the removal does, if and only if the length fits
the log and, where the ring loses its last node, the cursor and the head are cleared before the failure. `i` counts
the stores after the log. -/
theorem remove_from_ring_recoverable_iff (h : RingOf s l xs) (hn : n ∈ xs) :
    ∃ r, (optimizedRemove debug l n s).out = some ((), r) ∧ RingOf r l (xs.erase n) ∧
      ∀ i c, (optimizedRemove debug l n s).trace[i]? = some c →
        (Ends (withOldLen (recoverFromFailedRemove l n)) (fun _ r' => SameList l r r') c ↔
          xs.length < 2 ^ opCodeShift ∧ (xs.length = 1 → 2 ≤ i)) := by
  have hlog : RingOf (logged s .remove l) l xs := h.setMicroOpOldLen _
  have hin := hlog.inRing hn
  have hlist := (h.owner n).mpr hn
  have himpl : wpc (optimizedRemoveImpl debug l n) (fun _ r => r = leftRing (logged s .remove l) l n) False
      (LeavingRing (logged s .remove l) l n) (logged s .remove l) := wpc_removeFromRing hin (fun _ hc => hc) rfl
  have hw : wpc (optimizedRemove debug l n) (fun _ r => r = leftRing (logged s .remove l) l n) False
      (LeavingRing (logged s .remove l) l n) (logged s .remove l) :=
    wpc_bind (wpc_startOpLog himpl.start himpl.start himpl)
  have hrun : optimizedRemove debug l n (logged s .remove l) = optimizedRemove debug l n s := run_logged _
  obtain ⟨_, r, ho, rfl⟩ := hw.returns
  rw [hrun] at ho
  refine ⟨_, ho, (h.remove (Or.inr hlist)).post ho, fun i c hc => ?_⟩
  have hcrash : LeavingRing (logged s .remove l) l n c := by
    have hmem := List.mem_of_getElem? hc
    rw [← hrun] at hmem
    exact hw.trace hmem
  rw [hcrash.recovers_iff h hn, ← h.len]
  refine and_congr_right fun _ => ?_
  rw [not_and]
  refine imp_congr_right fun hone => ?_
  rw [head_of_removeLast hin.list hone (hin.only hone).head hc, not_lt]

/-- Node 0 is the only node of a ring. -/
def oneInRing : Lists Nat Unit :=
  { (new : Lists Nat Unit) with
    prev := fun x => if x = 0 then some 0 else none, next := fun x => if x = 0 then some 0 else none
    list := fun x => if x = 0 then some () else none, len := fun _ => 1
    cursor := fun _ => some 0, head := fun _ => some 0 }

theorem ringOf_oneInRing : RingOf oneInRing () [0] where
  len := rfl
  cursor := rfl
  head := Or.inr ⟨0, List.mem_singleton_self 0, rfl⟩
  links := ⟨rfl, rfl, trivial⟩
  owner x := by simp [oneInRing]
  nodup := List.nodup_singleton 0

theorem remove_from_ring_recoverable_iff_oneInRing :
    ∃ r c, (optimizedRemove false () 0 oneInRing).out = some ((), r) ∧
      (optimizedRemove false () 0 oneInRing).trace[2]? = some c ∧
      Ends (withOldLen (recoverFromFailedRemove () 0)) (fun _ r' => SameList () r r') c := by
  obtain ⟨r, ho, _, hiff⟩ := remove_from_ring_recoverable_iff ringOf_oneInRing (List.mem_singleton_self 0)
  exact ⟨r, _, ho, rfl, (hiff 2 _ rfl).mpr ⟨by decide, fun _ => le_refl 2⟩⟩

/-- A failure right after the log: recovery leaves the ring without nodes, but with its head at the removed one. -/
theorem removed_node_stays_head : RingOf oneInRing () [0] ∧ ∃ r c r',
    (optimizedRemove false () 0 oneInRing).out = some ((), r) ∧ r.head () = none ∧
    (optimizedRemove false () 0 oneInRing).trace[0]? = some c ∧
    (withOldLen (recoverFromFailedRemove () 0) c).out = some ((), r') ∧ r'.head () = some 0 ∧ r'.len () = 0 ∧
    ¬ SameList () r r' := by
  refine ⟨ringOf_oneInRing, _, _, _, rfl, rfl, rfl, rfl, rfl, rfl, ?_⟩
  intro hsame
  cases hsame.head

/-- The length after recovery is what the log says. -/
theorem len_recoverFromFailedInsertBeforeCursor (c : Lists N L) :
    After (withOldLen (recoverFromFailedInsertBeforeCursor l n)) (fun _ r => r.len l = c.getOldLen + 1) c := by
  have hset : ∀ (oldLen : Nat) (m : Prog (Lists N L) Unit) (c : Lists N L),
      After (do m; setLen l (oldLen + 1)) (fun _ r => r.len l = oldLen + 1) c := by
    intro oldLen m c
    rw [after_bind]
    refine After.of_forall fun _ s' => ?_
    simp [setLen]
  have hget : ∀ oldLen c, After (recoverFromFailedInsertBeforeCursor l n oldLen : Prog (Lists N L) Unit)
      (fun _ r => r.len l = oldLen + 1) c := by
    intro oldLen c
    unfold recoverFromFailedInsertBeforeCursor
    split
    · exact hset _ _ _
    rw [after_bind, after_gets, after_bind]
    refine After.of_forall fun x s' => ?_
    rw [after_bind, after_gets]
    split
    · rw [after_bind]
      exact After.of_forall fun _ _ => hset _ _ _
    · exact hset _ _ _
  rw [withOldLen, after_bind, after_gets]
  exact hget _ _

/-- Recovery of an insertion into a ring leaves the ring as the insertion does, if the node has its `list`. -/
theorem Readying.recovers_iff (hc : Readying (logged s .insertBeforeCursor l) l n c) (h : RingOf s l xs)
    (hlen : s.len l < 2 ^ opCodeShift) (hn : s.list n = none)
    (hlist : c.list = s.list ∨ c.list = Function.update s.list n (some l)) :
    Ends (withOldLen (recoverFromFailedInsertBeforeCursor l n))
      (fun _ r => SameList l (readied (logged s .insertBeforeCursor l) l n) r) c ↔ c.list n = some l := by
  have hlog : RingOf (logged s .insertBeforeCursor l) l xs := h.setMicroOpOldLen _
  have hready : (readied (logged s .insertBeforeCursor l) l n).list = Function.update s.list n (some l) :=
    readied_list _ _ _
  have hmember : (readied (logged s .insertBeforeCursor l) l n).list n = some l := by
    rw [hready]
    exact Function.update_self _ _ _
  have hrec := hc.recover (hlog.enterable hn)
  have hends : Ends (withOldLen (recoverFromFailedInsertBeforeCursor l n))
      (fun _ r => r = { readied (logged s .insertBeforeCursor l) l n with list := c.list }) c := by
    rw [withOldLen, ends_bind, ends_gets, getOldLen_eq hlen hc.log]
    exact hrec
  rw [hends.iff]
  refine ⟨fun hsame => hsame.list n hmember, fun hmarked => ?_⟩
  have he : c.list = (readied (logged s .insertBeforeCursor l) l n).list := by
    rw [hready]
    refine hlist.resolve_left fun he => ?_
    rw [he, hn] at hmarked
    cases hmarked
  rw [he]
  exact .refl l _

/-- Wherever an insertion into a ring fails, and wherever its recovery fails, the ring ends as the insertion leaves it,
if and only if the length fits the log and the node has its `list` before the first failure. `i` counts the stores
after the log. -/
theorem insert_before_cursor_recoverable_iff (h : RingOf s l xs) (hn : s.list n = none) :
    ∃ r, (optimizedInsertBeforeCursor l n s).out = some ((), r) ∧ RingOf r l (xs ++ [n]) ∧
      ∀ i c, (optimizedInsertBeforeCursor l n s).trace[i]? = some c →
        ∀ c', Interrupted (withOldLen (recoverFromFailedInsertBeforeCursor l n)) c c' →
          (Ends (withOldLen (recoverFromFailedInsertBeforeCursor l n)) (fun _ r' => SameList l r r') c' ↔
            xs.length < 2 ^ opCodeShift ∧ 0 < i) := by
  have hlog : RingOf (logged s .insertBeforeCursor l) l xs := h.setMicroOpOldLen _
  have hs := hlog.enterable hn
  have himpl : wpc (optimizedInsertBeforeCursorImpl l n)
      (fun _ r => r = readied (logged s .insertBeforeCursor l) l n) False
      (Readying (logged s .insertBeforeCursor l) l n) (logged s .insertBeforeCursor l) :=
    wpc_optimizedInsertBeforeCursorImpl hn hs
  have hw : wpc (optimizedInsertBeforeCursor l n) (fun _ r => r = readied (logged s .insertBeforeCursor l) l n) False
      (Readying (logged s .insertBeforeCursor l) l n) (logged s .insertBeforeCursor l) :=
    wpc_bind (wpc_startOpLog himpl.start himpl.start himpl)
  have hrun : optimizedInsertBeforeCursor l n (logged s .insertBeforeCursor l) = optimizedInsertBeforeCursor l n s :=
    run_logged _
  obtain ⟨_, r, ho, rfl⟩ := hw.returns
  rw [hrun] at ho
  have hring := (h.insertBeforeCursor hn).post ho
  refine ⟨_, ho, hring, fun i c hc c' hc' => ?_⟩
  by_cases hlen : s.len l < 2 ^ opCodeShift
  · have hlist : c.list = if i = 0 then s.list else Function.update s.list n (some l) := by
      have htrace : (optimizedInsertBeforeCursor l n s).trace = _ := trace_logged _
      rw [htrace] at hc
      cases i with
      | zero =>
          obtain rfl : _ = c := Option.some.inj hc
          rfl
      | succ i => exact list_of_insert (s := logged s .insertBeforeCursor l) hn (List.mem_of_getElem? hc)
    have hcrash : Readying (logged s .insertBeforeCursor l) l n c := by
      have hmem := List.mem_of_getElem? hc
      rw [← hrun] at hmem
      exact hw.trace hmem
    have hcrash' : Readying (logged s .insertBeforeCursor l) l n c' ∧ c'.list = c.list := by
      refine hc'.of_wpc (Q := fun _ => True) (E := False)
        (C := fun x => Readying (logged s .insertBeforeCursor l) l n x ∧ x.list = c.list) ?_ ⟨hcrash, rfl⟩
      rintro x ⟨hx, he⟩
      rw [withOldLen, wpc_gets_bind, getOldLen_eq hlen hx.log]
      refine wpc_mono (hx.wpc_recover hs) (fun _ _ _ => trivial) ?_
      exact fun y hy => ⟨hy.1, hy.2.trans he⟩
    rw [hcrash'.1.recovers_iff h hlen hn, hcrash'.2, ← h.len, and_iff_right hlen, hlist]
    · split
      case isTrue hi => simp [hi, hn]
      case isFalse hi => simp [Nat.pos_of_ne_zero hi]
    · rw [hcrash'.2, hlist]
      split
      · exact Or.inl rfl
      · exact Or.inr rfl
  · rw [← h.len]
    refine iff_of_false (fun hends => ?_) fun hand => hlen hand.1
    obtain ⟨_, r, ho', hr⟩ := hends.returns
    have hold := getOldLen_lt c'
    have hrlen := hr.len
    have hbits : 2 ^ opCodeShift = 4096 := rfl
    rw [(len_recoverFromFailedInsertBeforeCursor c').post ho', hring.len, List.length_append, ← h.len,
      List.length_singleton] at hrlen
    omega

/-- Into a ring of three, with a failure at the first store and at the second. -/
theorem insert_before_cursor_recoverable_iff_threeInRing :
    ∃ r c₀ c₁, RingOf r () [0, 1, 2, 3] ∧
      (optimizedInsertBeforeCursor () 3 threeInRing).trace[0]? = some c₀ ∧
      ¬ Ends (withOldLen (recoverFromFailedInsertBeforeCursor () 3)) (fun _ r' => SameList () r r') c₀ ∧
      (optimizedInsertBeforeCursor () 3 threeInRing).trace[1]? = some c₁ ∧
      Ends (withOldLen (recoverFromFailedInsertBeforeCursor () 3)) (fun _ r' => SameList () r r') c₁ := by
  obtain ⟨r, _, hr, hiff⟩ := insert_before_cursor_recoverable_iff (n := 3) ringOf_threeInRing rfl
  refine ⟨r, _, _, hr, rfl, fun hends => ?_, rfl, ?_⟩
  · exact absurd ((hiff 0 _ rfl _ (.refl _)).mp hends).2 (Nat.lt_irrefl 0)
  · exact (hiff 1 _ rfl _ (.refl _)).mpr ⟨by decide, Nat.one_pos⟩

theorem ringOf_new : RingOf (new : Lists Nat Unit) () [] :=
  ⟨⟨rfl, rfl, Or.inl ⟨rfl, rfl⟩, trivial⟩, fun _ => by simp [new], List.nodup_nil⟩

/-- A failure right after the log: recovery links the node, which is in no list by its field `list`. -/
theorem inserted_node_not_listed : RingOf (new : Lists Nat Unit) () [] ∧ ∃ r c r',
    (optimizedInsertBeforeCursor () 0 (new : Lists Nat Unit)).out = some ((), r) ∧ r.list 0 = some () ∧
    (optimizedInsertBeforeCursor () 0 (new : Lists Nat Unit)).trace[0]? = some c ∧
    (withOldLen (recoverFromFailedInsertBeforeCursor () 0) c).out = some ((), r') ∧
    r'.head () = some 0 ∧ r'.list 0 = none ∧ ¬ SameList () r r' := by
  refine ⟨ringOf_new, _, _, _, rfl, rfl, rfl, rfl, rfl, rfl, ?_⟩
  intro hsame
  cases hsame.list 0 rfl

end Lists

end IntOS
