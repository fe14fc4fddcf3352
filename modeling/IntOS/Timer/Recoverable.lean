import IntOS.List.Recoverable
import IntOS.Timer.Active
import IntOS.Timer.Recover

/-!
# Power failures while a timer leaves the active list or moves within it

A transaction on the active list logs itself first, then each of its operations logs itself. Recovery is started
again after each failure, with the log as the last one left it.
-/

namespace IntOS

open Persist Persist.Prog Chain

variable {N α β : Type} [DecidableEq N]

namespace TimeManager

variable {cfg : Config} {s : TimeManager N} {t : N} {xs ys : List N} {r r₁ : Lists N Unit} {E : Prop}
  {C : TimeManager N → Prop} {Q : Unit → TimeManager N → Prop} {opcode : ListOpCode} {oldLen : Nat}

/-! ## The log -/

omit [DecidableEq N] in
theorem wpc_onLists {m : Prog (Lists N Unit) α} {Q : α → TimeManager N → Prop}
    (h : wpc m (fun a r => Q a { s with lists := r }) E (fun r => C { s with lists := r }) s.lists) :
    wpc (onLists m) Q E C s := wpc_zoom rfl h

omit [DecidableEq N] in
theorem onLists_logged {m : Prog (Lists N Unit) α} (hm : m r = m s.lists) (f : α → Prog (TimeManager N) β) :
    (onLists m >>= f) { s with lists := r } = (onLists m >>= f) s := by
  have hrun : onLists m { s with lists := r } = onLists m s := by
    simp only [onLists, zoom, hm]
  rw [bind_apply, bind_apply, hrun]

omit [DecidableEq N] in
/-- The stores after the two that start a transaction. -/
theorem trace_startTx {p : Option N} {op : ListTxOpCode} {f : Unit → Prog (TimeManager N) α} {i : Nat}
    {c : TimeManager N} (hi : 2 ≤ i) (hc : ((startTx p op >>= f) s).trace[i]? = some c) :
    (f () { s with blockNodePtr := p, op := op }).trace[i - 2]? = some c := by
  simp only [startTx, assoc, store_bind_apply] at hc
  obtain ⟨j, rfl⟩ := Nat.exists_eq_add_of_le' hi
  exact hc

omit [DecidableEq N] in
theorem wpc_commitActivelist (h₀ : C s) (h₁ : C { s with op := .activeListTxCommitted })
    (h₂ : C { s with op := .activeListTxCommitted, lists := { s.lists with microOpOldLen := 0 } })
    (hQ : Q () { s with op := .activeListTxCommitted, lists := { s.lists with microOpOldLen := 0 } }) :
    wpc commitActivelist Q E C s := by
  unfold commitActivelist
  rw [wpc_store_bind]
  refine ⟨h₀, wpc_onLists ?_⟩
  exact wpc_store h₁ h₂ hQ

omit [DecidableEq N] in
theorem unwrapBlockNodePtr_bind (f : N → Prog (TimeManager N) α) (hp : s.blockNodePtr = some t) :
    (unwrapBlockNodePtr >>= f) s = f t s := by
  simp only [unwrapBlockNodePtr, assoc, gets_bind_apply, hp, pure_bind_apply]

/-- The transaction is committed, and the list is `r` but for its log. -/
structure Committed (s : TimeManager N) (r : Lists N Unit) (c : TimeManager N) : Prop where
  op : c.op = .activeListTxCommitted ∨ c.op = .invalid
  lists : ∃ v, c.lists = { r with microOpOldLen := v }
  timer : c.timer = s.timer

/-- Recovery of a committed transaction leaves the list alone. -/
theorem Committed.wpc_recover {c : TimeManager N} (h : Committed s r c) :
    wpc (recoverActivelist cfg) (fun _ => Committed s r) E (Committed s r) c := by
  unfold recoverActivelist
  rw [wpc_gets_bind]
  rcases h.op with ho | ho
  · rw [ho]
    have hc : Committed s r { c with op := .invalid } := ⟨Or.inr rfl, h.lists, h.timer⟩
    exact wpc_store h hc hc
  · rw [ho]
    exact wpc_pure h h

/-! ## Stop and delete -/

/-- A timer of the list is being removed, or the transaction is committed. -/
inductive Stopping (s : TimeManager N) (t : N) (r₀ : Lists N Unit) : TimeManager N → Prop
  | removing {r : Lists N Unit} : Lists.Removing r₀ () t r →
      Stopping s t r₀ { s with lists := r, op := .activeListRemove, blockNodePtr := some t }
  | committed {c : TimeManager N} : Committed s (Lists.removed r₀ () t) c → Stopping s t r₀ c

theorem wpc_commitStop {c : TimeManager N} {f : Unit → Prog (TimeManager N) α} {Q : α → TimeManager N → Prop}
    (hc : c = { s with lists := Lists.removed r () t, op := .activeListRemove, blockNodePtr := some t })
    (hQ : ∀ c, Committed s (Lists.removed r () t) c → wpc (f ()) Q E (Stopping s t r) c) :
    wpc (commitActivelist >>= f) Q E (Stopping s t r) c := by
  subst hc
  have hfin := Lists.Removing.finish r () t
  apply wpc_bind
  apply wpc_commitActivelist
  · exact .removing hfin
  · exact .committed ⟨Or.inl rfl, ⟨r.microOpOldLen, rfl⟩, rfl⟩
  · exact .committed ⟨Or.inl rfl, ⟨0, rfl⟩, rfl⟩
  · exact hQ _ ⟨Or.inl rfl, ⟨0, rfl⟩, rfl⟩

theorem Stopping.wpc_recover {c : TimeManager N} (h : Stopping s t r c) (hlen : r.len () < 2 ^ opCodeShift)
    (hlog : r.microOpOldLen = microOpOldLenOf .remove (r.len ())) (hpos : 0 < r.len ()) (hnext : r.next t ≠ some t) :
    wpc (recoverActivelist cfg) (fun _ => Committed s (Lists.removed r () t)) E (Stopping s t r) c := by
  cases h with
  | committed hc => exact wpc_mono hc.wpc_recover (fun _ _ h => h) fun _ => .committed
  | @removing r' hr =>
      have hlog' : r'.microOpOldLen = microOpOldLenOf .remove (r.len ()) := hr.microOpOldLen.trans hlog
      have hptr : { s with lists := r', op := .activeListRemove, blockNodePtr := some t }.blockNodePtr = some t := rfl
      simp only [recoverActivelist, recoverAndRollForwardOfActivelistRemove, wpc_gets_bind, wpc_assoc]
      rw [wpc_congr (unwrapBlockNodePtr_bind _ hptr), Lists.getMicroOp_eq hlen hlog', Lists.getOldLen_eq hlen hlog']
      dsimp only
      rw [wpc_assoc]
      apply wpc_bind
      apply wpc_onLists
      refine wpc_mono (hr.wpc_recover hnext hpos) ?_ fun _ => .removing
      rintro _ _ rfl
      rw [wpc_assoc]
      refine wpc_commitStop rfl fun c hc => ?_
      have hc' : Committed s (Lists.removed r () t) { c with op := .invalid } := ⟨Or.inr rfl, hc.lists, hc.timer⟩
      rw [wpc_congr (pure_bind_apply _ _ _), if_pos rfl]
      exact wpc_store (.committed hc) (.committed hc') hc'

omit [DecidableEq N] in
/-- The log of a removal names an operation, even if the length does not fit. -/
theorem getMicroOp_remove (hlog : r.microOpOldLen = microOpOldLenOf .remove oldLen) :
    r.getMicroOp ≠ some .invalid := by
  have hzero : ∀ x, ListOpCode.ofNat? x = some .invalid → x = 0 := by
    intro x hx
    unfold ListOpCode.ofNat? at hx
    split at hx <;> simp_all
  intro he
  have h0 := hzero _ he
  rw [hlog, microOpOldLenOf, Nat.shiftRight_or_distrib, Nat.shiftLeft_shiftRight, Nat.or_eq_zero_iff] at h0
  cases h0.1

/-- The removal is logged and recovery will leave a length that is not `len`, or has left one. -/
inductive Miscounting (t : N) (oldLen len : Nat) (c : TimeManager N) : Prop
  | logged : c.op = .activeListRemove → c.blockNodePtr = some t →
      c.lists.microOpOldLen = microOpOldLenOf .remove oldLen → Miscounting t oldLen len c
  | left : c.op = .activeListTxCommitted ∨ c.op = .invalid → c.lists.len () ≠ len → Miscounting t oldLen len c

theorem Miscounting.wpc_recover {c : TimeManager N} {len : Nat} (h : Miscounting t oldLen len c)
    (hwrong : ∀ r : Lists N Unit, r.microOpOldLen = microOpOldLenOf .remove oldLen → 0 < r.getOldLen →
      r.getOldLen - 1 ≠ len) :
    wpc (recoverActivelist cfg) (fun _ c' => c'.lists.len () ≠ len) True (Miscounting t oldLen len) c := by
  unfold recoverActivelist
  cases h with
  | left hop hl =>
      rw [wpc_gets_bind]
      rcases hop with ho | ho
      · rw [ho]
        exact wpc_store (.left (Or.inl ho) hl) (.left (Or.inr rfl) hl) hl
      · rw [ho]
        exact wpc_pure (.left (Or.inr ho) hl) hl
  | logged ho hp hm =>
      have hc : Miscounting t oldLen len c := .logged ho hp hm
      rw [wpc_gets_bind, ho]
      simp only [recoverAndRollForwardOfActivelistRemove, wpc_gets_bind, wpc_assoc]
      rw [wpc_congr (unwrapBlockNodePtr_bind _ hp)]
      split
      · rw [wpc_assoc]
        apply wpc_bind
        apply wpc_onLists
        have hkeep := Lists.keeps_log_recoverFromFailedRemove (l := ()) (n := t) c.lists.getOldLen c.lists
        refine wpc_mono (hkeep.and_after (Lists.len_recoverFromFailedRemove _ _)) ?_ ?_
        · rintro _ r ⟨hlog, hpos, hlen⟩
          have hne : r.len () ≠ len := by
            rw [hlen]
            exact hwrong c.lists hm hpos
          have hc₁ : Miscounting t oldLen len { c with lists := r } := .logged ho hp (hlog.trans hm)
          have hc₂ : Miscounting t oldLen len { c with lists := r, op := .activeListTxCommitted } :=
            .left (Or.inl rfl) hne
          have hc₃ : Miscounting t oldLen len
              { c with lists := { r with microOpOldLen := 0 }, op := .activeListTxCommitted } := .left (Or.inl rfl) hne
          have hc₄ : Miscounting t oldLen len { c with lists := { r with microOpOldLen := 0 }, op := .invalid } :=
            .left (Or.inr rfl) hne
          rw [wpc_assoc]
          apply wpc_bind
          apply wpc_commitActivelist hc₁ hc₂ hc₃
          rw [wpc_congr (pure_bind_apply _ _ _), if_pos rfl]
          exact wpc_store hc₃ hc₄ hne
        · exact fun r hr => .logged ho hp (hr.trans hm)
      · exact absurd ‹_› (getMicroOp_remove hm)
      · exact wpc_bind (wpc_fail hc trivial)

/-- A run of a stop. -/
theorem run_remove {r' : Lists N Unit}
    (ho : (Lists.optimizedRemove cfg.debugAssertions () t s.lists).out = some ((), r')) :
    (atomicRollForwardRemoveFromActivelist cfg t s).trace =
      { s with blockNodePtr := some t } :: { s with blockNodePtr := some t, op := .activeListRemove } ::
        ((Lists.optimizedRemove cfg.debugAssertions () t s.lists).trace.map fun r =>
          { s with lists := r, blockNodePtr := some t, op := .activeListRemove }) ++
        [{ s with lists := r', blockNodePtr := some t, op := .activeListTxCommitted },
          { s with
            lists := { r' with microOpOldLen := 0 }, blockNodePtr := some t, op := .activeListTxCommitted }] ∧
    (atomicRollForwardRemoveFromActivelist cfg t s).out = some ((), { s with
      lists := { r' with microOpOldLen := 0 }, blockNodePtr := some t, op := .activeListTxCommitted }) := by
  have hout : (onLists (Lists.optimizedRemove cfg.debugAssertions () t)
      { s with blockNodePtr := some t, op := .activeListRemove }).out =
        some ((), { s with lists := r', blockNodePtr := some t, op := .activeListRemove }) := by
    simp only [onLists, zoom, ho, Option.map_some]
  simp only [atomicRollForwardRemoveFromActivelist, startTx, assoc, store_bind_apply]
  rw [bind_of_out hout]
  exact ⟨rfl, rfl⟩

/-- A failure of a stop, before its commit or after it. -/
theorem crash_remove {r' : Lists N Unit} {i : Nat} {c : TimeManager N}
    (ho : (Lists.optimizedRemove cfg.debugAssertions () t s.lists).out = some ((), r')) (hi : 2 ≤ i)
    (hc : (atomicRollForwardRemoveFromActivelist cfg t s).trace[i]? = some c) :
    (∃ r ∈ (Lists.optimizedRemove cfg.debugAssertions () t s.lists).trace,
      c = { s with lists := r, blockNodePtr := some t, op := .activeListRemove } ∧
      ¬ (atomicRollForwardRemoveFromActivelist cfg t s).trace.length ≤ i + 2) ∨
    Committed s r' c ∧ (atomicRollForwardRemoveFromActivelist cfg t s).trace.length ≤ i + 2 := by
  obtain ⟨j, rfl⟩ := Nat.exists_eq_add_of_le' hi
  rw [(run_remove ho).1] at hc ⊢
  simp only [List.cons_append, List.getElem?_cons_succ] at hc
  simp only [List.cons_append, List.length_cons, List.length_append, List.length_map, List.length_nil]
  rcases lt_or_ge j (Lists.optimizedRemove cfg.debugAssertions () t s.lists).trace.length with hj | hj
  · left
    rw [List.getElem?_append_left (by rwa [List.length_map]), List.getElem?_map, Option.map_eq_some_iff] at hc
    obtain ⟨r, hr, rfl⟩ := hc
    exact ⟨r, List.mem_of_getElem? hr, rfl, by omega⟩
  · right
    rw [List.getElem?_append_right (by rwa [List.length_map])] at hc
    have hmem := List.mem_of_getElem? hc
    simp only [List.mem_cons, List.not_mem_nil, or_false] at hmem
    refine ⟨?_, by omega⟩
    rcases hmem with rfl | rfl
    · exact ⟨Or.inl rfl, ⟨r'.microOpOldLen, rfl⟩, rfl⟩
    · exact ⟨Or.inl rfl, ⟨0, rfl⟩, rfl⟩

/-- Wherever a stop or a delete fails once the removal is logged, and wherever its recovery fails, the list ends
without the timer, if and only if the timer is in the list and the length fits the log, or the failure comes after the
commit, which is the last but one store. -/
theorem stop_recoverable_iff (h : Lists.LinearOf s.lists () xs) :
    (∃ s', (atomicRollForwardRemoveFromActivelist cfg t s).out = some ((), s') ∧
      Lists.LinearOf s'.lists () (xs.erase t)) ∧
    ∀ i c, 2 ≤ i → (atomicRollForwardRemoveFromActivelist cfg t s).trace[i]? = some c →
      ∀ c', Interrupted (recoverActivelist cfg) c c' →
        (Ends (recoverActivelist cfg) (fun _ s' => Lists.LinearOf s'.lists () (xs.erase t)) c' ↔
          t ∈ xs ∧ xs.length < 2 ^ opCodeShift ∨
            (atomicRollForwardRemoveFromActivelist cfg t s).trace.length ≤ i + 2) := by
  have hremove : Ends (Lists.optimizedRemove cfg.debugAssertions () t) _ s.lists := h.remove (listed s.lists t)
  obtain ⟨_, r', ho, hr'⟩ := hremove.returns
  have hout := (run_remove ho).2
  refine ⟨⟨_, hout, hr'.setMicroOpOldLen 0⟩, fun i c hi hc c' hc' => ?_⟩
  have hdone : ∀ c, Committed s r' c → Lists.LinearOf c.lists () (xs.erase t) := by
    intro c hcom
    obtain ⟨v, hv⟩ := hcom.lists
    rw [hv]
    exact hr'.setMicroOpOldLen v
  rcases crash_remove ho hi hc with ⟨r, hr, rfl, hi⟩ | ⟨hcom, hi⟩
  · rw [or_iff_left hi]
    by_cases ht : t ∈ xs ∧ xs.length < 2 ^ opCodeShift
    · -- the removal goes on
      refine iff_of_true ?_ ht
      have hlog : Lists.LinearOf (Lists.logged s.lists .remove ()) () xs := h.setMicroOpOldLen _
      obtain ⟨hpos, _, hnext⟩ := hlog.removable ht.1
      have hw := h.wpc_remove (E := False) cfg.debugAssertions ht.1
      have hrun : Lists.optimizedRemove cfg.debugAssertions () t (Lists.logged s.lists .remove ()) =
        Lists.optimizedRemove cfg.debugAssertions () t s.lists := Lists.run_logged _
      rw [← hrun] at hr ho
      obtain rfl := hw.post ho
      have hlen : (Lists.logged s.lists .remove ()).len () < 2 ^ opCodeShift := by
        rw [hlog.len]
        exact ht.2
      have hrec : ∀ c, Stopping s t (Lists.logged s.lists .remove ()) c → wpc (recoverActivelist cfg)
          (fun _ => Committed s (Lists.removed (Lists.logged s.lists .remove ()) () t)) False
          (Stopping s t (Lists.logged s.lists .remove ())) c := fun c hc => hc.wpc_recover hlen rfl hpos hnext
      exact (hrec c' (hc'.of_wpc hrec (.removing (hw.trace hr)))).ends.mono fun _ => hdone
    · -- the length goes wrong
      refine iff_of_false (fun hends => ?_) ht
      have hlog : r.microOpOldLen = microOpOldLenOf .remove xs.length := by
        rw [← h.len]
        rcases listed s.lists t with hn | hn
        · rw [Lists.optimizedRemove_absent hn, List.mem_singleton] at hr
          rw [hr]
          rfl
        · have hw := h.wpc_remove (E := False) cfg.debugAssertions ((h.owner t).mp hn)
          have hrun : Lists.optimizedRemove cfg.debugAssertions () t (Lists.logged s.lists .remove ()) =
            Lists.optimizedRemove cfg.debugAssertions () t s.lists := Lists.run_logged _
          rw [← hrun] at hr
          exact (hw.trace hr).microOpOldLen
      have hwrong : ∀ r : Lists N Unit, r.microOpOldLen = microOpOldLenOf .remove xs.length → 0 < r.getOldLen →
          r.getOldLen - 1 ≠ (xs.erase t).length := by
        intro r hlog hpos
        have hold := Lists.getOldLen_lt r
        by_cases hmem : t ∈ xs
        · have hlen := List.length_erase_of_mem hmem
          have hlong : ¬ xs.length < 2 ^ opCodeShift := fun hlen => ht ⟨hmem, hlen⟩
          omega
        · rw [List.erase_of_not_mem hmem]
          by_cases hfits : xs.length < 2 ^ opCodeShift
          · rw [Lists.getOldLen_eq hfits hlog] at hpos ⊢
            omega
          · omega
      have hrec : ∀ c, Miscounting t xs.length (xs.erase t).length c → wpc (recoverActivelist cfg)
          (fun _ c' => c'.lists.len () ≠ (xs.erase t).length) True (Miscounting t xs.length (xs.erase t).length) c :=
        fun c hc => hc.wpc_recover hwrong
      obtain ⟨_, s', ho', hs'⟩ := hends.returns
      exact (hrec c' (hc'.of_wpc hrec (.logged rfl rfl hlog))).post ho' hs'.len
  · refine iff_of_true ?_ (Or.inr hi)
    have hrec : ∀ c, Committed s r' c → wpc (recoverActivelist cfg) (fun _ => Committed s r') False
      (Committed s r') c :=
      fun c hc => hc.wpc_recover
    exact (hrec c' (hc'.of_wpc hrec hcom)).ends.mono fun _ => hdone

/-- Timer 0 is in the list and timer 1 is not. -/
def oneActive : TimeManager Nat :=
  { (TimeManager.new msp430 : TimeManager Nat) with lists := Lists.upTo 1, timers := [1, 0] }

def threeActive : TimeManager Nat :=
  { (TimeManager.new msp430 : TimeManager Nat) with lists := Lists.upTo 3, timers := [2, 1, 0] }

/-- Timer 1, between two others, leaves the list. -/
theorem stop_recoverable_iff_threeActive :
    ∃ c, (atomicRollForwardRemoveFromActivelist msp430 1 threeActive).trace[2]? = some c ∧
      ∀ c', Interrupted (recoverActivelist msp430) c c' →
        Ends (recoverActivelist msp430) (fun _ s' => Lists.LinearOf s'.lists () [0, 2]) c' := by
  have h : Lists.LinearOf threeActive.lists () [0, 1, 2] := Lists.linearOf_upTo 3
  obtain ⟨_, hiff⟩ := @stop_recoverable_iff _ _ msp430 _ 1 _ h
  refine ⟨_, rfl, fun c' hc' => ?_⟩
  exact (hiff 2 _ (le_refl 2) rfl c' hc').mpr (Or.inl ⟨by decide, by decide⟩)

/-- A failure right after the log of the removal of a timer in no list: recovery counts a timer less. -/
theorem stopped_timer_uncounted : Lists.LinearOf oneActive.lists () [0] ∧ oneActive.lists.list 1 = none ∧ ∃ c s',
    (atomicRollForwardRemoveFromActivelist msp430 1 oneActive).trace[2]? = some c ∧
    (recoverActivelist msp430 c).out = some ((), s') ∧ s'.lists.head () = some 0 ∧ s'.lists.len () = 0 ∧
    ¬ Lists.LinearOf s'.lists () ([0].erase 1) := by
  refine ⟨Lists.linearOf_upTo 1, rfl, _, _, rfl, rfl, rfl, rfl, ?_⟩
  intro h
  cases h.len

/-! ## Moves -/

/-- The list is back together: the timer is in it once, at the place of its expiry time, and the others are in their
order. -/
structure Moved (s : TimeManager N) (t : N) (xs ys zs : List N) (s' : TimeManager N) : Prop where
  others : xs.erase t = ys ++ zs
  linear : Lists.LinearOf s'.lists () (ys ++ t :: zs)
  ascending : (ys ++ t :: zs).Pairwise fun x y => (s.timer x).expiryTime ≤ (s.timer y).expiryTime
  timer : s'.timer = s.timer

/-- Wherever the transaction `m` fails once its first operation is logged, and wherever its recovery fails, the timer
moves as it does without failures. -/
def MoveRecoverable (cfg : Config) (s : TimeManager N) (t : N) (xs : List N) (m : Prog (TimeManager N) Unit) : Prop :=
  ∃ ys zs, (∃ s', (m s).out = some ((), s') ∧ Moved s t xs ys zs s') ∧
    ∀ i c, 2 ≤ i → (m s).trace[i]? = some c → ∀ c', Interrupted (recoverActivelist cfg) c c' →
      Ends (recoverActivelist cfg) (fun _ s' => Moved s t xs ys zs s') c'

/-- The first operation of a move, `opcode`: from each state that its failures leave, those of `R`, its recovery ends
in `r₁`. -/
structure Leaving (R : Lists N Unit → Prop) (opcode : ListOpCode) (oldLen : Nat)
    (leave : N → Nat → Prog (Lists N Unit) Unit) (t : N) (r₁ : Lists N Unit) : Prop where
  fits : oldLen < 2 ^ opCodeShift
  log : ∀ r, R r → r.microOpOldLen = microOpOldLenOf opcode oldLen
  recover : ∀ r, R r → wpc (leave t oldLen) (fun _ r' => r' = r₁) False R r
  left : R r₁
  list : r₁.list t = none

/-- What the second operation of a move leaves. -/
def entered (r₁ : Lists N Unit) (t : N) (p q : Option N) : Lists N Unit :=
  Lists.inserted (Lists.marked (Lists.logged r₁ .insertSortedDelayList ()) () t) () t p q

/-- The timer is leaving the list, is entering it again, or the transaction is committed. -/
inductive Moving (s : TimeManager N) (t : N) (tx : ListTxOpCode) (R : Lists N Unit → Prop) (r₁ : Lists N Unit)
    (p q : Option N) : TimeManager N → Prop
  | leaving {r : Lists N Unit} : R r → Moving s t tx R r₁ p q { s with lists := r, op := tx, blockNodePtr := some t }
  | entering {r : Lists N Unit} : Lists.Sorting (Lists.logged r₁ .insertSortedDelayList ()) () t p q r →
      Moving s t tx R r₁ p q { s with lists := r, op := tx, blockNodePtr := some t }
  | committed {c : TimeManager N} : Committed s (entered r₁ t p q) c → Moving s t tx R r₁ p q c

section
variable {R : Lists N Unit → Prop} {leave : N → Nat → Prog (Lists N Unit) Unit} {tx : ListTxOpCode} {p q : Option N}

theorem wpc_commitMove (hplace : Lists.Place s.timers.length (greater s t)
      (Lists.marked (Lists.logged r₁ .insertSortedDelayList ()) () t) () t p q) :
    wpc commitActivelist (fun _ => Committed s (entered r₁ t p q)) E (Moving s t tx R r₁ p q)
      { s with lists := entered r₁ t p q, op := tx, blockNodePtr := some t } := by
  apply wpc_commitActivelist
  · exact .entering (.linking (Lists.Linking.finish hplace))
  · exact .committed ⟨Or.inl rfl, ⟨(entered r₁ t p q).microOpOldLen, rfl⟩, rfl⟩
  · exact .committed ⟨Or.inl rfl, ⟨0, rfl⟩, rfl⟩
  · exact ⟨Or.inl rfl, ⟨0, rfl⟩, rfl⟩

/-- The timer is out of the list, and comes in again. -/
theorem wpc_enter (hdebug : cfg.debugAssertions = false) (hleft : R r₁) (hn : r₁.list t = none)
    (hplace : Lists.Place s.timers.length (greater s t)
      (Lists.marked (Lists.logged r₁ .insertSortedDelayList ()) () t) () t p q) :
    wpc (insertActive cfg t >>= fun _ => commitActivelist) (fun _ => Committed s (entered r₁ t p q)) E
      (Moving s t tx R r₁ p q) { s with lists := r₁, op := tx, blockNodePtr := some t } := by
  simp only [insertActive, wpc_assoc, wpc_gets_bind, hdebug]
  apply wpc_bind
  apply wpc_onLists
  exact Lists.wpc_insertSorted hn hplace (.leaving hleft) (fun _ => .entering) (wpc_commitMove hplace)

theorem Moving.wpc_recover {c : TimeManager N} (h : Moving s t tx R r₁ p q c)
    (hleave : Leaving R opcode oldLen leave t r₁) (hop : opcode ≠ .insertSortedDelayList)
    (hdebug : cfg.debugAssertions = false) (hfits : r₁.len () < 2 ^ opCodeShift)
    (hplace : Lists.Place s.timers.length (greater s t)
      (Lists.marked (Lists.logged r₁ .insertSortedDelayList ()) () t) () t p q)
    (hrun : ∀ c : TimeManager N, c.op = tx → recoverActivelist cfg c =
      (recoverReinsert cfg opcode leave >>= fun ok => if ok then invalidateActivelist else pure ()) c) :
    wpc (recoverActivelist cfg) (fun _ => Committed s (entered r₁ t p q)) False (Moving s t tx R r₁ p q) c := by
  have hend : ∀ c, Committed s (entered r₁ t p q) c → wpc (do
      let ok ← pure true
      if ok then invalidateActivelist else pure ()) (fun _ => Committed s (entered r₁ t p q)) False
        (Moving s t tx R r₁ p q) c := by
    intro c hc
    have hc' : Committed s (entered r₁ t p q) { c with op := .invalid } := ⟨Or.inr rfl, hc.lists, hc.timer⟩
    rw [wpc_congr (pure_bind_apply _ _ _), if_pos rfl]
    exact wpc_store (.committed hc) (.committed hc') hc'
  cases h with
  | committed hc => exact wpc_mono hc.wpc_recover (fun _ _ h => h) fun _ => .committed
  | @leaving r hr =>
      have hptr : { s with lists := r, op := tx, blockNodePtr := some t }.blockNodePtr = some t := rfl
      have hlog := hleave.log r hr
      rw [wpc_congr (hrun _ rfl)]
      simp only [recoverReinsert, wpc_gets_bind, wpc_assoc]
      rw [wpc_congr (unwrapBlockNodePtr_bind _ hptr), Lists.getMicroOp_eq hleave.fits hlog,
        Lists.getOldLen_eq hleave.fits hlog, if_pos rfl]
      simp only [assoc]
      apply wpc_bind
      apply wpc_onLists
      refine wpc_mono (hleave.recover r hr) ?_ fun _ => .leaving
      rintro _ _ rfl
      refine wpc_assoc.mp (wpc_bind (f := fun _ => do
        let ok ← pure true
        if ok then invalidateActivelist else pure ()) ?_)
      exact wpc_mono (wpc_enter (s := s) hdebug hleave.left hleave.list hplace) (fun _ => hend) fun _ hc => hc
  | @entering r hr =>
      have hptr : { s with lists := r, op := tx, blockNodePtr := some t }.blockNodePtr = some t := rfl
      have hlog : r.microOpOldLen = microOpOldLenOf .insertSortedDelayList (r₁.len ()) := hr.log
      have hne : ¬ some ListOpCode.insertSortedDelayList = some opcode := fun he => hop (Option.some.inj he).symm
      rw [wpc_congr (hrun _ rfl)]
      simp only [recoverReinsert, wpc_gets_bind, wpc_assoc]
      rw [wpc_congr (unwrapBlockNodePtr_bind _ hptr), Lists.getMicroOp_eq hfits hlog, Lists.getOldLen_eq hfits hlog,
        if_neg hne]
      simp only [assoc, wpc_gets_bind, hdebug]
      apply wpc_bind
      apply wpc_onLists
      refine wpc_mono (hr.wpc_recover hleave.list hplace nofun) ?_ fun _ => .entering
      rintro _ _ rfl
      apply wpc_bind
      exact wpc_mono (wpc_commitMove (s := s) hplace) (fun _ => hend) fun _ hc => hc

/-- What the two moves have in common: the timer leaves the list, which its failures leave recoverable, and comes in at
the place of its expiry time. -/
theorem recoverable_move {m : Prog (Lists N Unit) α} {a : α} {f : α → Prog (TimeManager N) Unit}
    {move : Prog (TimeManager N) Unit} (hmove : move s = (startTx (some t) tx >>= fun _ => onLists m >>= f) s)
    (hm : wpc m (fun b r => b = a ∧ r = r₁) False R (Lists.logged s.lists opcode ()))
    (hlogged : m (Lists.logged s.lists opcode ()) = m s.lists)
    (hf : f a = insertActive cfg t >>= fun _ => commitActivelist)
    (hleave : Leaving R opcode oldLen leave t r₁) (hop : opcode ≠ .insertSortedDelayList)
    (hdebug : cfg.debugAssertions = false) (h : Lists.LinearOf r₁ () (xs.erase t))
    (hs : (xs.erase t).Pairwise fun x y => (s.timer x).expiryTime ≤ (s.timer y).expiryTime)
    (hfits : (xs.erase t).length < 2 ^ opCodeShift) (hlen : (xs.erase t).length ≤ s.timers.length)
    (hrun : ∀ c : TimeManager N, c.op = tx → recoverActivelist cfg c =
      (recoverReinsert cfg opcode leave >>= fun ok => if ok then invalidateActivelist else pure ()) c) :
    MoveRecoverable cfg s t xs move := by
  have hlogged' : Lists.LinearOf (Lists.logged r₁ .insertSortedDelayList ()) () (xs.erase t) := h.setMicroOpOldLen _
  obtain ⟨p, q, hplace⟩ := hlogged'.place hleave.list (greater s t) hlen
  have hw₂ : wpc (Lists.insertSorted false .insertSortedDelayList s.timers.length (greater s t) () t)
      (fun _ r => r = entered r₁ t p q) False (fun _ => True) r₁ :=
    Lists.wpc_insertSorted hleave.list hplace trivial (fun _ _ => trivial) rfl
  obtain ⟨_, r₂, ho₂, rfl⟩ := hw₂.returns
  obtain ⟨zs, ws, hys, hr₂, hsorted⟩ := (h.insert hs hleave.list hlen).post ho₂
  have hdone : ∀ c, Committed s (entered r₁ t p q) c → Moved s t xs zs ws c := by
    intro c hc
    obtain ⟨v, hv⟩ := hc.lists
    refine ⟨hys, ?_, hsorted, hc.timer⟩
    rw [hv]
    exact hr₂.setMicroOpOldLen v
  have hw : wpc (onLists m >>= f) (fun _ => Committed s (entered r₁ t p q)) False (Moving s t tx R r₁ p q)
      { s with lists := Lists.logged s.lists opcode (), op := tx, blockNodePtr := some t } := by
    apply wpc_bind
    apply wpc_onLists
    refine wpc_mono hm ?_ fun _ => .leaving
    rintro _ _ ⟨rfl, rfl⟩
    rw [hf]
    exact wpc_enter hdebug hleave.left hleave.list hplace
  have hrun' : (onLists m >>= f) { s with lists := Lists.logged s.lists opcode (), op := tx, blockNodePtr := some t } =
      (onLists m >>= f) { s with op := tx, blockNodePtr := some t } :=
    onLists_logged (s := { s with op := tx, blockNodePtr := some t }) hlogged f
  rw [← h.len] at hfits
  have hrec : ∀ c, Moving s t tx R r₁ p q c → wpc (recoverActivelist cfg)
      (fun _ => Committed s (entered r₁ t p q)) False (Moving s t tx R r₁ p q) c :=
    fun c hc => hc.wpc_recover hleave hop hdebug hfits hplace hrun
  rw [MoveRecoverable, hmove]
  refine ⟨zs, ws, ?_, fun i c hi hc c' hc' => ?_⟩
  · obtain ⟨_, s', ho, hs'⟩ := hw.returns
    refine ⟨s', ?_, hdone s' hs'⟩
    rw [hrun'] at ho
    simp only [startTx, assoc, store_bind_apply]
    exact ho
  · have hmem := List.mem_of_getElem? (trace_startTx hi hc)
    have hcrash : Moving s t tx R r₁ p q c := by
      apply hw.trace
      rw [hrun']
      exact hmem
    exact (hrec c' (hc'.of_wpc hrec hcrash)).ends.mono fun _ => hdone

end

theorem leaving_remove (h : Lists.LinearOf r () xs) (ht : t ∈ xs) (hlen : xs.length < 2 ^ opCodeShift) :
    Leaving (Lists.Removing (Lists.logged r .remove ()) () t) .remove (r.len ()) leaveByRemove t
      (Lists.removed (Lists.logged r .remove ()) () t) where
  fits := by rwa [h.len]
  log r' hr := hr.microOpOldLen
  recover r' hr := by
    have hlog : Lists.LinearOf (Lists.logged r .remove ()) () xs := h.setMicroOpOldLen _
    obtain ⟨hpos, _, hnext⟩ := hlog.removable ht
    unfold leaveByRemove
    rw [wpc_gets_bind]
    split
    case isTrue => exact hr.wpc_recover hnext hpos
    case isFalse hn =>
      -- the node says that it is out, so all stores are done
      have hlist : (Lists.logged r .remove ()).list t = some () := (h.owner t).mpr ht
      rcases hr.list with hl | rfl
      · rw [hl, hlist] at hn
        exact absurd (Option.some_ne_none ()) hn
      · exact wpc_pure hr rfl
  left := .finish _ _ _
  list := Function.update_self _ _ _

omit [DecidableEq N] in
theorem leaving_absent [DecidableEq N] (hn : r.list t = none) (hlen : r.len () < 2 ^ opCodeShift) :
    Leaving (· = Lists.logged r .remove ()) .remove (r.len ()) leaveByRemove t (Lists.logged r .remove ()) where
  fits := hlen
  log r' hr := by
    rw [hr]
    rfl
  recover r' hr := by
    subst hr
    have hn' : (Lists.logged r .remove ()).list t = none := hn
    rw [leaveByRemove, wpc_gets_bind, hn', if_neg (not_not.mpr rfl)]
    exact wpc_pure rfl rfl
  left := rfl
  list := hn

theorem leaving_popFront (h : Lists.LinearOf r () (t :: xs)) (hlen : (t :: xs).length < 2 ^ opCodeShift) :
    Leaving (Lists.Popping (Lists.logged r .popFront ()) () t) .popFront (r.len ()) leaveByPopFront t
      (Lists.popped (Lists.logged r .popFront ()) () t) where
  fits := by rwa [h.len]
  log r' hr := by
    cases hr with
    | start => rfl
    | moved => rfl
    | done => rfl
  recover r' hr := by
    have hlog : Lists.LinearOf (Lists.logged r .popFront ()) () (t :: xs) := h.setMicroOpOldLen _
    obtain ⟨hpos, _, hnext⟩ := hlog.removable List.mem_cons_self
    have hlist : (Lists.logged r .popFront ()).list t = some () := (h.owner t).mpr List.mem_cons_self
    unfold leaveByPopFront
    rw [wpc_gets_bind]
    rcases hr.list with hl | rfl
    · rw [hl, hlist]
      exact hr.wpc_recover hlog.head hlog.cursor hnext hpos rfl
    · have hn : (Lists.popped (Lists.logged r .popFront ()) () t).list t = none := Function.update_self _ _ _
      rw [hn]
      exact wpc_pure hr rfl
  left := .done
  list := Function.update_self _ _ _

theorem removeReinsert_recoverable (h : Lists.LinearOf s.lists () xs) (hlen : xs.length < 2 ^ opCodeShift)
    (hs : (xs.erase t).Pairwise fun x y => (s.timer x).expiryTime ≤ (s.timer y).expiryTime)
    (hknown : ∀ x ∈ xs, x ∈ s.timers) (hdebug : cfg.debugAssertions = false) :
    MoveRecoverable cfg s t xs (atomicRollForwardRemoveReinsertIntoActivelist cfg t) := by
  have hbound : xs.length ≤ s.timers.length := (h.nodup.subperm hknown).length_le
  have hle : (xs.erase t).length ≤ xs.length := List.length_erase_le
  have hrun : ∀ c : TimeManager N, c.op = .activeListRemoveReInsert → recoverActivelist cfg c =
      (recoverReinsert cfg .remove leaveByRemove >>= fun ok => if ok then invalidateActivelist else pure ()) c := by
    intro c hc
    rw [recoverActivelist, gets_bind_apply, hc]
    rfl
  have hrest : ∀ {R : Lists N Unit → Prop} {r₁ : Lists N Unit},
      wpc (Lists.optimizedRemove cfg.debugAssertions () t) (fun b r => b = () ∧ r = r₁) False R
        (Lists.logged s.lists .remove ()) →
      Leaving R .remove (s.lists.len ()) leaveByRemove t r₁ → Lists.LinearOf r₁ () (xs.erase t) →
      MoveRecoverable cfg s t xs (atomicRollForwardRemoveReinsertIntoActivelist cfg t) := by
    intro R r₁ hm hleave hr₁
    exact recoverable_move rfl hm (Lists.run_logged _) rfl hleave nofun hdebug hr₁ hs (by omega) (by omega) hrun
  by_cases ht : t ∈ xs
  · have hw := h.wpc_remove (E := False) cfg.debugAssertions ht
    have hremove : Ends (Lists.optimizedRemove cfg.debugAssertions () t) _ s.lists := h.remove (listed s.lists t)
    have hlogged : Lists.optimizedRemove cfg.debugAssertions () t (Lists.logged s.lists .remove ()) =
      Lists.optimizedRemove cfg.debugAssertions () t s.lists := Lists.run_logged _
    refine hrest (wpc_mono hw (fun _ _ he => ⟨rfl, he⟩) fun _ hc => hc) (leaving_remove h ht hlen) ?_
    obtain ⟨_, r, ho, rfl⟩ := hw.returns
    rw [hlogged] at ho
    exact hremove.post ho
  · have hn : s.lists.list t = none := (listed s.lists t).resolve_right fun hn => ht ((h.owner t).mp hn)
    have hlog : Lists.LinearOf (Lists.logged s.lists .remove ()) () (xs.erase t) := by
      rw [List.erase_of_not_mem ht]
      exact h.setMicroOpOldLen _
    have hm : wpc (Lists.optimizedRemove cfg.debugAssertions () t)
        (fun b r => b = () ∧ r = Lists.logged s.lists .remove ()) False (· = Lists.logged s.lists .remove ())
        (Lists.logged s.lists .remove ()) := by
      have hn' : (Lists.logged s.lists .remove ()).list t = none := hn
      rw [wpc, crashes, Lists.optimizedRemove_absent hn']
      refine ⟨fun c hc => ?_, rfl, rfl⟩
      simp only [List.mem_cons, List.not_mem_nil, or_false] at hc
      rcases hc with rfl | rfl
      · rfl
      · rfl
    refine hrest hm (leaving_absent hn ?_) hlog
    rwa [h.len]

theorem popReinsert_recoverable (h : Lists.LinearOf s.lists () xs) (hlen : xs.length < 2 ^ opCodeShift)
    (hs : (xs.erase t).Pairwise fun x y => (s.timer x).expiryTime ≤ (s.timer y).expiryTime)
    (hknown : ∀ x ∈ xs, x ∈ s.timers) (hdebug : cfg.debugAssertions = false) (hhead : s.lists.head () = some t) :
    MoveRecoverable cfg s t xs (atomicRollForwardPopReinsertIntoActivelist cfg) := by
  have hbound : xs.length ≤ s.timers.length := (h.nodup.subperm hknown).length_le
  obtain ⟨ys, rfl⟩ : ∃ ys, xs = t :: ys := ⟨_, List.eq_cons_of_mem_head? (h.head.symm.trans hhead)⟩
  have herase : (t :: ys).erase t = ys := List.erase_cons_head t ys
  have hle : ((t :: ys).erase t).length ≤ (t :: ys).length := List.length_erase_le
  have hrun : ∀ c : TimeManager N, c.op = .activeListPopReInsert → recoverActivelist cfg c =
      (recoverReinsert cfg .popFront leaveByPopFront >>= fun ok => if ok then invalidateActivelist else pure ()) c := by
    intro c hc
    rw [recoverActivelist, gets_bind_apply, hc]
    rfl
  have hmove : atomicRollForwardPopReinsertIntoActivelist cfg s = (startTx (some t) .activeListPopReInsert >>= fun _ =>
      onLists (Lists.optimizedPopFront ()) >>= fun popped => popped.elim commitActivelist fun t =>
        insertActive cfg t >>= fun _ => commitActivelist) s := by
    rewrite [atomicRollForwardPopReinsertIntoActivelist, gets_bind_apply, hhead]
    refine congrArg (fun k => (startTx (some t) .activeListPopReInsert >>= fun _ =>
      onLists (Lists.optimizedPopFront ()) >>= k) s) (funext fun popped => ?_)
    cases popped with
    | none => rfl
    | some t => rfl
  have hlog : Lists.LinearOf (Lists.logged s.lists .popFront ()) () (t :: ys) := h.setMicroOpOldLen _
  obtain ⟨hpos, _, _⟩ := hlog.removable List.mem_cons_self
  have hw : wpc (Lists.optimizedPopFront ())
      (fun b r => b = some t ∧ r = Lists.popped (Lists.logged s.lists .popFront ()) () t) False
      (Lists.Popping (Lists.logged s.lists .popFront ()) () t) (Lists.logged s.lists .popFront ()) :=
    Lists.wpc_optimizedPopFront hlog.head hlog.cursor hpos .start (fun _ hc => hc) ⟨rfl, rfl⟩
  have hlogged := Lists.popFront_logged hhead
  refine recoverable_move hmove hw hlogged rfl (leaving_popFront h hlen) (by simp) hdebug ?_ hs (by omega)
    (by omega) hrun
  rw [herase]
  obtain ⟨_, r, ho, rfl, rfl⟩ := hw.returns
  rw [hlogged] at ho
  exact (h.popFront.post ho).2

/-- With the assertions compiled out, and for lists whose length fits the log. -/
theorem moves_recoverable (h : Lists.LinearOf s.lists () xs) (hlen : xs.length < 2 ^ opCodeShift)
    (hs : (xs.erase t).Pairwise fun x y => (s.timer x).expiryTime ≤ (s.timer y).expiryTime)
    (hknown : ∀ x ∈ xs, x ∈ s.timers) (hdebug : cfg.debugAssertions = false) :
    MoveRecoverable cfg s t xs (atomicRollForwardRemoveReinsertIntoActivelist cfg t) ∧
      (s.lists.head () = some t → MoveRecoverable cfg s t xs (atomicRollForwardPopReinsertIntoActivelist cfg)) :=
  ⟨removeReinsert_recoverable h hlen hs hknown hdebug, popReinsert_recoverable h hlen hs hknown hdebug⟩

def msp430Release : Config := ⟨false, 8, 16⟩

/-- The active list holds the timers below `n`, in this order. -/
def upTo (n : Nat) : TimeManager Nat :=
  { (TimeManager.new msp430Release : TimeManager Nat) with
    timers := List.range (n + 1)
    lists := Lists.upTo n }

/-- The timer between two others, and the first one. -/
theorem moves_recoverable_threeActive :
    MoveRecoverable msp430Release (upTo 3) 1 [0, 1, 2]
        (atomicRollForwardRemoveReinsertIntoActivelist msp430Release 1) ∧
      MoveRecoverable msp430Release (upTo 3) 0 [0, 1, 2]
        (atomicRollForwardPopReinsertIntoActivelist msp430Release) := by
  have h : Lists.LinearOf (upTo 3).lists () [0, 1, 2] := Lists.linearOf_upTo 3
  have hknown : ∀ x ∈ [0, 1, 2], x ∈ (upTo 3).timers := by decide
  have hmoves : ∀ t, _ := fun t => @moves_recoverable _ _ msp430Release _ t _ h (by decide)
    (List.pairwise_of_forall fun _ _ => le_refl _) hknown rfl
  exact ⟨(hmoves 1).1, (hmoves 0).2 rfl⟩

/-- With 4096 timers in the list, the length in the log changes the operation that it names. -/
theorem move_not_recoverable_4096 : Lists.LinearOf (upTo 4096).lists () (List.range 4096) ∧
    (((List.range 4096).erase 4096).Pairwise fun x y =>
      ((upTo 4096).timer x).expiryTime ≤ ((upTo 4096).timer y).expiryTime) ∧
    ∃ c, (atomicRollForwardRemoveReinsertIntoActivelist msp430Release 4096 (upTo 4096)).trace[2]? = some c ∧
      (recoverActivelist msp430Release c).out = none := by
  refine ⟨Lists.linearOf_upTo 4096, List.pairwise_of_forall fun _ _ => le_refl _, _, rfl, rfl⟩

end TimeManager

end IntOS
