import IntOS.Lib.Retry
import IntOS.Pmem.Theorems
import IntOS.Task.Task

/-!
# Recovery of a task may itself be interrupted

`jit_recovery` is a sequence of stages. `Upto n` says that the first `n` of them are done.
-/

namespace IntOS

open Persist Persist.Prog

variable {b : Board} {α : Type}

/-! ## The journal -/

namespace Journal

/-- The journal without its records. -/
def emptied (j : Journal) : Journal := { j with tail := 0 }

theorem keeps_copyFromLogs (i addr n : Nat) : Keeps Pmem.journal (copyFromLogs i addr n) := by
  induction n generalizing i addr with
  | zero => exact keeps_pure _
  | succ n ih =>
      unfold copyFromLogs
      refine Keeps.bind ?_ fun _ => ih _ _
      exact keeps_store fun _ => rfl

theorem keeps_recoverLoop (b : Board) (fuel ptr : Nat) : Keeps Pmem.journal (recoverLoop b fuel ptr) := by
  induction fuel generalizing ptr with
  | zero =>
      cases ptr with
      | zero => exact keeps_pure _
      | succ n => exact keeps_fail
  | succ fuel ih =>
      cases ptr with
      | zero => exact keeps_pure _
      | succ n =>
          have hread : ∀ i, Keeps Pmem.journal (readLogWord b i) := fun i =>
            (keeps_check _).bind fun _ => keeps_gets _
          exact (keeps_check _).bind fun _ => (hread _).bind fun _ => (keeps_check _).bind fun _ =>
            (hread _).bind fun _ => (keeps_check _).bind fun _ => (keeps_check _).bind fun _ =>
              (keeps_copyFromLogs _ _ _).bind fun _ => ih _

theorem keeps_recover (b : Board) : Keeps (fun s : Pmem => s.journal.emptied) (recover b) := by
  refine (keeps_gets _).bind fun _ => ?_
  refine ((keeps_recoverLoop b _ _).comp emptied).bind fun _ => ?_
  exact (keeps_check _).bind fun _ => keeps_store fun _ => rfl

/-- Recovery undoes the records, whatever happens on the way. -/
theorem retryable_recover : Retryable (fun s : Pmem => s.journal.Walkable b) (recover b) := by
  intro s hs c hc
  obtain ⟨m₀, hund⟩ := hs s.mem
  have hc' : Undoable b m₀ c := (wpc_recover hund).trace hc
  have hkeep : c.journal.emptied = s.journal.emptied := (keeps_recover b).trace hc
  obtain ⟨_, r, ho, rfl⟩ := (wpc_recover hund).returns
  obtain ⟨_, r', ho', rfl⟩ := (wpc_recover hc').returns
  refine ⟨hc'.walkable, ?_⟩
  rw [ho, ho']
  exact congrArg (fun j => some ((), (⟨m₀, j⟩ : Pmem))) hkeep

theorem skips_recover {s : Pmem} (h : s.journal.tail = 0) : Skips (recover b) s := by
  obtain ⟨m, j⟩ := s
  obtain ⟨h1, tail, logs, h2⟩ := j
  cases h
  rfl

end Journal

/-! ## The kernel transaction -/

namespace Transaction

theorem checkCommitted_apply (x : Transaction) : checkCommitted b x =
    if x.cache.isCommitted b.width then (onPm Journal.clear >>= fun _ => pure true) x
    else (pure false : Prog Transaction Bool) x := by
  rw [checkCommitted, gets_bind_apply]
  by_cases h : x.cache.isCommitted b.width
  · simp only [h, decide_true, if_true]
  · simp only [h, decide_false, Bool.false_eq_true, if_false]

theorem rollBack_of_committed {x : Transaction} (h : x.cache.isCommitted b.width) :
    rollBackIfUncommitted b x = onPm Journal.clear x := by
  rw [rollBackIfUncommitted, bind_apply, checkCommitted_apply, if_pos h]
  rfl

theorem rollBack_of_not {x : Transaction} (h : ¬ x.cache.isCommitted b.width) :
    rollBackIfUncommitted b x = onPm (Journal.recover b) x := by
  rw [rollBackIfUncommitted, bind_apply, checkCommitted_apply, if_neg h]
  rfl

theorem retryable_clear {I : Transaction → Prop}
    (hI : ∀ x, I x → I { x with pm := { x.pm with journal := x.pm.journal.emptied } }) :
    Retryable I (onPm Journal.clear) := by
  intro x hx c hc
  obtain rfl : c = { x with pm := { x.pm with journal := x.pm.journal.emptied } } := by
    simpa [onPm, Prog.zoom, Journal.clear, store, Journal.emptied] using hc
  exact ⟨hI x hx, rfl⟩

theorem skips_clear {x : Transaction} (h : x.pm.journal.tail = 0) : Skips (onPm Journal.clear) x := by
  obtain ⟨⟨m, ⟨h1, tail, logs, h2⟩⟩, cache, level⟩ := x
  cases h
  rfl

theorem walkable_emptied {j : Journal} (h : j.Walkable b) : j.emptied.Walkable b := by
  intro m
  obtain ⟨m₀, hund⟩ := h m
  obtain ⟨_, r, _, rfl⟩ := (Journal.wpc_recover hund).returns
  exact ⟨m, (Undoes.empty (s := ⟨m, j.emptied⟩) (by obtain ⟨os, hu⟩ := hund; exact hu.wellFormed) rfl).undoable⟩

/-- `roll_back_if_uncommitted` may be interrupted, and does nothing when its journal is empty. -/
theorem retryable_rollBack :
    Retryable (fun x : Transaction => x.pm.journal.Walkable b) (rollBackIfUncommitted b) := by
  apply Retryable.cases (p := fun x => x.cache.isCommitted b.width)
  · refine (retryable_clear ?_).congr fun x hx => rollBack_of_committed hx.2
    exact fun x hx => ⟨walkable_emptied hx.1, hx.2⟩
  · refine Retryable.congr ?_ fun x hx => rollBack_of_not hx.2
    apply Journal.retryable_recover.zoom
    · exact fun _ _ => rfl
    · exact fun _ _ _ => rfl
    · exact fun x hx => hx.1
    · exact fun pm x hx hpm => ⟨hpm, hx.2⟩

theorem skips_rollBack {x : Transaction} (h : x.pm.journal.tail = 0) : Skips (rollBackIfUncommitted b) x := by
  unfold Skips
  by_cases hc : x.cache.isCommitted b.width
  · rw [rollBack_of_committed hc]
    exact skips_clear h
  · rw [rollBack_of_not hc]
    have hs := Journal.skips_recover (b := b) h
    unfold Skips at hs
    simp only [onPm, Prog.zoom, hs]
    rfl

/-- Afterwards the journal is empty, and the cache as before. -/
theorem ends_rollBack {x x' : Transaction} (hw : x.pm.journal.Walkable b)
    (ho : (rollBackIfUncommitted b x).out = some ((), x')) :
    x'.pm.journal = x.pm.journal.emptied ∧ x'.cache = x.cache ∧ x'.nestingLevel = x.nestingLevel := by
  by_cases hc : x.cache.isCommitted b.width
  · rw [rollBack_of_committed hc] at ho
    cases ho
    exact ⟨rfl, rfl, rfl⟩
  · rw [rollBack_of_not hc] at ho
    obtain ⟨m₀, hund⟩ := hw x.pm.mem
    obtain ⟨_, r, hr, rfl⟩ := (Journal.wpc_recover hund).returns
    simp only [onPm, Prog.zoom, hr] at ho
    cases ho
    exact ⟨rfl, rfl, rfl⟩

end Transaction

namespace Task

variable {layout : StackLayout} {committed : Prop} {n : Nat} {t : Task}

/-- The counter of the loop whose turn ended has its next value. -/
def LoopCntSet (b : Board) (u : UserTxInfo) : Prop :=
  ∃ i, u.loopCntPtr = some i ∧ (b.debugAssertions → u.loopCntLog + u.step < 2 ^ b.width.bits) ∧
    u.counters i = (u.loopCntLog + u.step) % 2 ^ b.width.bits

/-- What the stages leave. A syscall or a loop that had to be finished still looks so for a while. -/
def Done (b : Board) (layout : StackLayout) (committed : Prop) (t : Task) : Nat → Prop
  | 0 => t.userTxInfo.recoveryMode = true
  | 1 => t.journal.tail = 0
  | 2 => t.nestingLevel = 0
  | 3 => t.syscallReplayCache.ptr < t.syscallReplayCache.tail →
      t.syscallTxCache.tail = txCommitted b.width ∧ t.listTxDone = false
  | 4 => t.userTxInfo.userTx.cache.getTxIdOfTail b.width < t.userTxInfo.userTx.cache.getTxIdOfPtr b.width →
      LoopCntSet b t.userTxInfo
  | 5 => t.userTxInfo.userTx.pm.journal.tail = 0
  | 6 => t.userTxInfo.userTx.nestingLevel = 0
  | 7 => committed → t.syscallReplayCache.tail = 0
  | 8 => t.userTxInfo.userTx.cache.ptr = 0
  | 9 => t.userTxInfo.stackTop = 0
  | _ => t.stackTop = initializeStack layout t.stackBottom

structure Upto (b : Board) (layout : StackLayout) (committed : Prop) (n : Nat) (t : Task) : Prop where
  journal : t.journal.Walkable b
  userJournal : t.userTxInfo.userTx.pm.journal.Walkable b
  flag : t.userTxInfo.userTx.cache.isCommitted b.width ↔ committed
  done : ∀ i, i < n → Done b layout committed t i

theorem Upto.mono {m : Nat} (h : Upto b layout committed m t) (hn : n ≤ m) : Upto b layout committed n t :=
  ⟨h.journal, h.userJournal, h.flag, fun i hi => h.done i (Nat.lt_of_lt_of_le hi hn)⟩

theorem Upto.of_succ (t : Task) (h : Upto b layout committed (n + 1) t) : Upto b layout committed n t :=
  h.mono (Nat.le_succ n)

theorem Upto.next (h : Upto b layout committed n t) {t' : Task} (hj : t'.journal.Walkable b)
    (hu : t'.userTxInfo.userTx.pm.journal.Walkable b)
    (hf : t'.userTxInfo.userTx.cache.tail = t.userTxInfo.userTx.cache.tail)
    (hold : ∀ i, i < n → Done b layout committed t i → Done b layout committed t' i)
    (hnew : Done b layout committed t' n) : Upto b layout committed (n + 1) t' := by
  refine ⟨hj, hu, ?_, fun i hi => ?_⟩
  · rw [← h.flag, TxCache.isCommitted, TxCache.isCommitted, hf]
  · rcases Nat.lt_succ_iff_lt_or_eq.mp hi with hi | rfl
    · exact hold i hi (h.done i hi)
    · exact hnew

/-! ## The stages -/

theorem stage_recoveryMode : Stage (Upto b layout committed 0) (Upto b layout committed 1)
    (onUser (store fun u => { u with recoveryMode := true })) := by
  change Stage _ _ (store fun t : Task => { t with userTxInfo := { t.userTxInfo with recoveryMode := true } })
  apply stage_store Upto.of_succ
  · intro t h
    exact h.next h.journal h.userJournal rfl (fun i hi _ => absurd hi (Nat.not_lt_zero i)) rfl
  · intro t h
    have hd : t.userTxInfo.recoveryMode = true := h.done 0 (by decide)
    rw [← hd]

theorem stage_rollBack : Stage (Upto b layout committed 1) (Upto b layout committed 2)
    (onTx (Transaction.rollBackIfUncommitted b)) where
  retry := by
    apply Transaction.retryable_rollBack.zoom
    · exact fun _ _ => rfl
    · exact fun _ _ _ => rfl
    · exact fun t h => h.journal
    · intro x t h hx
      refine ⟨hx, h.userJournal, h.flag, fun i hi => ?_⟩
      have hd := h.done i hi
      interval_cases i
      exact hd
  ends := by
    intro t t' h ho
    simp only [onTx, Prog.zoom] at ho
    obtain ⟨x, hx, rfl⟩ : ∃ x, (Transaction.rollBackIfUncommitted b t.tx).out = some ((), x) ∧ t' = setTx x t := by
      cases hr : (Transaction.rollBackIfUncommitted b t.tx).out with
      | none =>
          rw [hr] at ho
          cases ho
      | some p =>
          rw [hr] at ho
          cases ho
          exact ⟨p.2, rfl, rfl⟩
    obtain ⟨hj, _, _⟩ := Transaction.ends_rollBack h.journal hx
    have hempty : (setTx x t).journal = t.journal.emptied := hj
    refine h.next ?_ h.userJournal rfl (fun i hi hd => ?_) ?_
    · rw [hempty]
      exact Transaction.walkable_emptied h.journal
    · interval_cases i
      exact hd
    · change (setTx x t).journal.tail = 0
      rw [hempty]
      rfl
  skips := by
    intro t h
    have hs : Skips (Transaction.rollBackIfUncommitted b) t.tx := Transaction.skips_rollBack (h.done 1 (by decide))
    unfold Skips at hs
    simp only [Skips, onTx, Prog.zoom, hs]
    rfl

theorem stage_level : Stage (Upto b layout committed 2) (Upto b layout committed 3)
    (onTx resetNestingLevel) := by
  change Stage _ _ (store fun t : Task => { t with nestingLevel := 0 })
  apply stage_store Upto.of_succ
  · intro t h
    exact h.next h.journal h.userJournal rfl (fun i hi hd => by interval_cases i <;> exact hd) rfl
  · intro t h
    have hd : t.nestingLevel = 0 := h.done 2 (by decide)
    rw [← hd]

theorem finishSyscall_apply (t : Task) : finishSyscall b t =
    if t.syscallReplayCache.ptr < t.syscallReplayCache.tail then
      (commitSyscallTxCache b >>= fun _ => resetListTransaction) t
    else (pure () : Prog Task Unit) t := by
  rw [finishSyscall, gets_bind_apply, gets_bind_apply]
  split
  · rfl
  · rfl

/-- The states after the stores of `finishSyscall`. -/
theorem finishSyscall_of_lt (h : t.syscallReplayCache.ptr < t.syscallReplayCache.tail) :
    let t₁ := { t with syscallTxCache := { t.syscallTxCache with tail := txCommitted b.width } }
    let t₂ := { t₁ with listTxDone := false }
    finishSyscall b t = ⟨[t₁, t₂], some ((), t₂)⟩ := by
  rw [finishSyscall_apply, if_pos h]
  rfl

theorem finishSyscall_of_not (h : ¬ t.syscallReplayCache.ptr < t.syscallReplayCache.tail) :
    finishSyscall b t = ⟨[], some ((), t)⟩ := by
  rw [finishSyscall_apply, if_neg h]
  rfl

theorem stage_finishSyscall : Stage (Upto b layout committed 3) (Upto b layout committed 4)
    (finishSyscall b) where
  retry := by
    intro t h c hc
    by_cases hlt : t.syscallReplayCache.ptr < t.syscallReplayCache.tail
    · have hkeep : ∀ c : Task, c.journal = t.journal → c.userTxInfo = t.userTxInfo →
          c.nestingLevel = t.nestingLevel → Upto b layout committed 3 c := by
        intro c h1 h2 h3
        refine ⟨h1 ▸ h.journal, h2 ▸ h.userJournal, h2 ▸ h.flag, fun i hi => ?_⟩
        have hd := h.done i hi
        interval_cases i
        · exact (congrArg UserTxInfo.recoveryMode h2).trans hd
        · exact (congrArg Journal.tail h1).trans hd
        · exact h3.trans hd
      rw [finishSyscall_of_lt hlt] at hc ⊢
      simp only [List.mem_cons, List.not_mem_nil, or_false] at hc
      rcases hc with rfl | rfl
      · refine ⟨hkeep _ rfl rfl rfl, ?_⟩
        rw [finishSyscall_of_lt (by exact hlt)]
      · refine ⟨hkeep _ rfl rfl rfl, ?_⟩
        rw [finishSyscall_of_lt (by exact hlt)]
    · rw [finishSyscall_of_not hlt] at hc
      cases hc
  ends := by
    intro t t' h ho
    by_cases hlt : t.syscallReplayCache.ptr < t.syscallReplayCache.tail
    · rw [finishSyscall_of_lt hlt] at ho
      cases ho
      exact h.next h.journal h.userJournal rfl (fun i hi hd => by interval_cases i <;> exact hd)
        fun _ => ⟨rfl, rfl⟩
    · rw [finishSyscall_of_not hlt] at ho
      cases ho
      exact h.next h.journal h.userJournal rfl (fun _ _ hd => hd) fun hn => absurd hn hlt
  skips := by
    intro t h
    by_cases hlt : t.syscallReplayCache.ptr < t.syscallReplayCache.tail
    · obtain ⟨htail, hdone⟩ := h.done 3 (by decide) hlt
      rw [Skips, finishSyscall_of_lt hlt, ← htail, ← hdone]
    · rw [Skips, finishSyscall_of_not hlt]

/-- The loop counter that `set_loop_cnt` stores. -/
def withLoopCnt (b : Board) (i : Nat) (t : Task) : Task :=
  { t with userTxInfo := { t.userTxInfo with
    counters := Function.update t.userTxInfo.counters i
      ((t.userTxInfo.loopCntLog + t.userTxInfo.step) % 2 ^ b.width.bits) } }

theorem finishLoop_of_not (h : ¬ t.userTxInfo.userTx.cache.getTxIdOfTail b.width <
    t.userTxInfo.userTx.cache.getTxIdOfPtr b.width) : finishLoop b t = ⟨[], some ((), t)⟩ := by
  rw [finishLoop, gets_bind_apply, gets_bind_apply, if_neg h]
  rfl

/-- `set_loop_cnt` stops without a counter, or where the addition overflows. -/
theorem finishLoop_of_lt (h : t.userTxInfo.userTx.cache.getTxIdOfTail b.width <
    t.userTxInfo.userTx.cache.getTxIdOfPtr b.width) :
    finishLoop b t = ⟨[], none⟩ ∨ ∃ i, t.userTxInfo.loopCntPtr = some i ∧
      (b.debugAssertions → t.userTxInfo.loopCntLog + t.userTxInfo.step < 2 ^ b.width.bits) ∧
      finishLoop b t = ⟨[withLoopCnt b i t], some ((), withLoopCnt b i t)⟩ := by
  rw [finishLoop, gets_bind_apply, gets_bind_apply, if_pos h]
  simp only [onUser, Prog.zoom, UserTxInfo.setLoopCnt, gets_bind_apply, addUsize, assoc]
  cases hptr : t.userTxInfo.loopCntPtr with
  | none => exact Or.inl rfl
  | some i =>
      simp only [gets_bind_apply, check_bind_apply]
      split
      case isTrue hfit => exact Or.inr ⟨i, rfl, hfit, rfl⟩
      case isFalse => exact Or.inl rfl

theorem withLoopCnt_self {i : Nat} (h : t.userTxInfo.counters i =
    (t.userTxInfo.loopCntLog + t.userTxInfo.step) % 2 ^ b.width.bits) : withLoopCnt b i t = t := by
  unfold withLoopCnt
  rw [← h, Function.update_eq_self]

theorem loopCntSet_withLoopCnt {i : Nat} (hptr : t.userTxInfo.loopCntPtr = some i)
    (hfit : b.debugAssertions → t.userTxInfo.loopCntLog + t.userTxInfo.step < 2 ^ b.width.bits) :
    LoopCntSet b (withLoopCnt b i t).userTxInfo := ⟨i, hptr, hfit, Function.update_self _ _ _⟩

theorem finishLoop_of_set (h : t.userTxInfo.userTx.cache.getTxIdOfTail b.width <
    t.userTxInfo.userTx.cache.getTxIdOfPtr b.width) (hset : LoopCntSet b t.userTxInfo) :
    (finishLoop b t).out = some ((), t) := by
  obtain ⟨i, hptr, hfit, hcnt⟩ := hset
  rw [finishLoop, gets_bind_apply, gets_bind_apply, if_pos h]
  simp only [onUser, Prog.zoom, UserTxInfo.setLoopCnt, gets_bind_apply, addUsize, assoc, check_bind_apply, hptr,
    if_pos hfit]
  exact congrArg (fun t => some ((), t)) (withLoopCnt_self hcnt)

theorem Upto.withLoopCnt (h : Upto b layout committed 4 t) (i : Nat) :
    Upto b layout committed 4 (withLoopCnt b i t) := by
  refine ⟨h.journal, h.userJournal, h.flag, fun i hi => ?_⟩
  have hd := h.done i hi
  interval_cases i <;> exact hd

theorem stage_finishLoop : Stage (Upto b layout committed 4) (Upto b layout committed 5)
    (finishLoop b) where
  retry := by
    intro t h c hc
    by_cases hlt : t.userTxInfo.userTx.cache.getTxIdOfTail b.width <
        t.userTxInfo.userTx.cache.getTxIdOfPtr b.width
    · rcases finishLoop_of_lt hlt with he | ⟨i, hptr, hfit, he⟩
      · rw [he] at hc
        cases hc
      · rw [he, List.mem_singleton] at hc
        subst hc
        refine ⟨h.withLoopCnt i, ?_⟩
        rw [he]
        exact finishLoop_of_set (by exact hlt) (loopCntSet_withLoopCnt hptr hfit)
    · rw [finishLoop_of_not hlt] at hc
      cases hc
  ends := by
    intro t t' h ho
    by_cases hlt : t.userTxInfo.userTx.cache.getTxIdOfTail b.width <
        t.userTxInfo.userTx.cache.getTxIdOfPtr b.width
    · rcases finishLoop_of_lt hlt with he | ⟨i, hptr, hfit, he⟩
      · rw [he] at ho
        cases ho
      · rw [he] at ho
        cases ho
        exact h.next h.journal h.userJournal rfl (fun i hi hd => by interval_cases i <;> exact hd)
          fun _ => loopCntSet_withLoopCnt hptr hfit
    · rw [finishLoop_of_not hlt] at ho
      cases ho
      exact h.next h.journal h.userJournal rfl (fun _ _ hd => hd) fun hn => absurd hn hlt
  skips := by
    intro t h
    by_cases hlt : t.userTxInfo.userTx.cache.getTxIdOfTail b.width <
        t.userTxInfo.userTx.cache.getTxIdOfPtr b.width
    · exact finishLoop_of_set hlt (h.done 4 (by decide) hlt)
    · rw [Skips, finishLoop_of_not hlt]

/-! ## The user transaction -/

theorem stage_userClear : Stage (Upto b layout committed 5) (Upto b layout committed 6)
    (onUser (UserTxInfo.onTx (Transaction.onPm Journal.clear))) := by
  change Stage _ _ (store fun t : Task => { t with userTxInfo := { t.userTxInfo with
    userTx := { t.userTxInfo.userTx with pm := { t.userTxInfo.userTx.pm with
      journal := t.userTxInfo.userTx.pm.journal.emptied } } } })
  apply stage_store Upto.of_succ
  · intro t h
    exact h.next h.journal (Transaction.walkable_emptied h.userJournal) rfl
      (fun i hi hd => by interval_cases i <;> exact hd) rfl
  · intro t h
    have hd : t.userTxInfo.userTx.pm.journal.tail = 0 := h.done 5 (by decide)
    have he : t.userTxInfo.userTx.pm.journal.emptied = t.userTxInfo.userTx.pm.journal := by
      rw [Journal.emptied, ← hd]
    rw [he]

theorem stage_userRecover : Stage (Upto b layout committed 5) (Upto b layout committed 6)
    (onUser (UserTxInfo.onTx (Transaction.onPm (Journal.recover b)))) where
  retry := by
    have hkeep : ∀ (pm : Pmem) (t : Task), Upto b layout committed 5 t → pm.journal.Walkable b →
        Upto b layout committed 5 { t with userTxInfo := { t.userTxInfo with
          userTx := { t.userTxInfo.userTx with pm := pm } } } := by
      intro pm t h hpm
      refine ⟨h.journal, hpm, h.flag, fun i hi => ?_⟩
      have hd := h.done i hi
      interval_cases i <;> exact hd
    intro t h c hc
    obtain ⟨u, hu, rfl⟩ := List.mem_map.mp hc
    obtain ⟨x, hx, rfl⟩ := List.mem_map.mp hu
    obtain ⟨pm, hpm, rfl⟩ := List.mem_map.mp hx
    obtain ⟨hw, he⟩ := Journal.retryable_recover _ h.userJournal pm hpm
    refine ⟨hkeep pm t h hw, ?_⟩
    simp only [onUser, UserTxInfo.onTx, Transaction.onPm, Prog.zoom, setUserTxInfo, he, Option.map_map]
  ends := by
    intro t t' h ho
    obtain ⟨m₀, hund⟩ := h.userJournal t.userTxInfo.userTx.pm.mem
    obtain ⟨_, r, hr, rfl⟩ := (Journal.wpc_recover hund).returns
    simp only [onUser, UserTxInfo.onTx, Transaction.onPm, Prog.zoom, hr] at ho
    cases ho
    exact h.next h.journal (Transaction.walkable_emptied h.userJournal) rfl
      (fun i hi hd => by interval_cases i <;> exact hd) rfl
  skips := by
    intro t h
    have hs := Journal.skips_recover (b := b) (s := t.userTxInfo.userTx.pm) (h.done 5 (by decide))
    unfold Skips at hs
    simp only [Skips, onUser, UserTxInfo.onTx, Transaction.onPm, Prog.zoom, hs]
    rfl

theorem stage_userLevel : Stage (Upto b layout committed 6) (Upto b layout committed 7)
    (onUser (UserTxInfo.onTx resetNestingLevel)) := by
  change Stage _ _ (store fun t : Task => { t with userTxInfo := { t.userTxInfo with
    userTx := { t.userTxInfo.userTx with nestingLevel := 0 } } })
  apply stage_store Upto.of_succ
  · intro t h
    exact h.next h.journal h.userJournal rfl (fun i hi hd => by interval_cases i <;> exact hd) rfl
  · intro t h
    have hd : t.userTxInfo.userTx.nestingLevel = 0 := h.done 6 (by decide)
    rw [← hd]

theorem stage_userTxEnd (hc : committed) : Stage (Upto b layout committed 7) (Upto b layout committed 8)
    userTxEnd := by
  apply stage_store Upto.of_succ
  · intro t h
    refine h.next h.journal h.userJournal rfl (fun i hi hd => ?_) fun _ => rfl
    interval_cases i
    -- no syscall looks incomplete any more
    case «3» => exact fun hlt => absurd hlt (Nat.not_lt_zero _)
    all_goals exact hd
  · intro t h
    have hd : t.syscallReplayCache.tail = 0 := h.done 7 (by decide) hc
    rw [← hd]

/-- An uncommitted user transaction keeps the results of its syscalls. -/
theorem Upto.uncommitted (hc : ¬ committed) (h : Upto b layout committed 7 t) : Upto b layout committed 8 t :=
  h.next h.journal h.userJournal rfl (fun _ _ hd => hd) fun h => absurd h hc

theorem stage_ptr : Stage (Upto b layout committed 8) (Upto b layout committed 9)
    (onUser (UserTxInfo.onCache TxCache.resetPtr)) := by
  change Stage _ _ (store fun t : Task => { t with userTxInfo := { t.userTxInfo with
    userTx := { t.userTxInfo.userTx with cache := { t.userTxInfo.userTx.cache with ptr := 0 } } } })
  apply stage_store Upto.of_succ
  · intro t h
    refine h.next h.journal h.userJournal rfl (fun i hi hd => ?_) rfl
    interval_cases i
    -- no loop looks incomplete any more
    case «4» =>
      intro hlt
      simp [TxCache.getTxIdOfPtr, txIdOf] at hlt
    all_goals exact hd
  · intro t h
    have hd : t.userTxInfo.userTx.cache.ptr = 0 := h.done 8 (by decide)
    rw [← hd]

theorem stage_userStack : Stage (Upto b layout committed 9) (Upto b layout committed 10)
    (onUser (store fun u => { u with stackTop := 0 })) := by
  change Stage _ _ (store fun t : Task => { t with userTxInfo := { t.userTxInfo with stackTop := 0 } })
  apply stage_store Upto.of_succ
  · intro t h
    exact h.next h.journal h.userJournal rfl (fun i hi hd => by interval_cases i <;> exact hd) rfl
  · intro t h
    have hd : t.userTxInfo.stackTop = 0 := h.done 9 (by decide)
    rw [← hd]

theorem stage_stack : Stage (Upto b layout committed 10) (Upto b layout committed 11)
    (store fun t : Task => { t with stackTop := initializeStack layout t.stackBottom }) := by
  apply stage_store Upto.of_succ
  · intro t h
    exact h.next h.journal h.userJournal rfl (fun i hi hd => by interval_cases i <;> exact hd) rfl
  · intro t h
    have hd : t.stackTop = initializeStack layout t.stackBottom := h.done 10 (by decide)
    rw [← hd]

/-! ## The sequence -/

/-- The end of `user_recovery`, and the store of `stack_top`. -/
def restartUser (layout : StackLayout) : Prog Task Unit := do
  onUser (UserTxInfo.onCache TxCache.resetPtr)
  onUser (store fun u => { u with stackTop := 0 })
  store fun t => { t with stackTop := initializeStack layout t.stackBottom }

/-- The last stages, where the user transaction had committed and where it had not. -/
def finishUser (layout : StackLayout) : Prog Task Unit := do
  onUser (UserTxInfo.onTx (Transaction.onPm Journal.clear))
  onUser (UserTxInfo.onTx resetNestingLevel)
  userTxEnd
  restartUser layout

def rollBackUser (b : Board) (layout : StackLayout) : Prog Task Unit := do
  onUser (UserTxInfo.onTx (Transaction.onPm (Journal.recover b)))
  onUser (UserTxInfo.onTx resetNestingLevel)
  restartUser layout

def recoverUser (b : Board) (layout : StackLayout) : Prog Task Unit := do
  userRecovery b
  store fun t => { t with stackTop := initializeStack layout t.stackBottom }

/-- `jit_recovery` without the last store. -/
def stages (b : Board) (layout : StackLayout) : Prog Task Unit := do
  onUser (store fun u => { u with recoveryMode := true })
  onTx (Transaction.rollBackIfUncommitted b)
  onTx resetNestingLevel
  finishSyscall b
  finishLoop b
  recoverUser b layout

theorem jitRecovery_eq {g : Nat} (h : t.generation ≠ g) : jitRecovery b layout g t =
    (stages b layout >>= fun _ => store fun t => { t with generation := g }) t := by
  rw [jitRecovery, gets_bind_apply, if_pos h]
  simp only [stages, recoverUser, assoc]

theorem recoverUser_of_committed (h : t.userTxInfo.userTx.cache.isCommitted b.width) :
    recoverUser b layout t = finishUser layout t := by
  have hcheck : Transaction.checkCommitted b t.userTxInfo.userTx =
      (Transaction.onPm Journal.clear >>= fun _ => pure true) t.userTxInfo.userTx := by
    rw [Transaction.checkCommitted_apply, if_pos h]
  simp only [recoverUser, userRecovery, finishUser, restartUser, bind_apply, onUser, UserTxInfo.onTx, Prog.zoom,
    hcheck]
  rfl

theorem recoverUser_of_not (h : ¬ t.userTxInfo.userTx.cache.isCommitted b.width) :
    recoverUser b layout t = rollBackUser b layout t := by
  have hcheck : onUser (UserTxInfo.onTx (Transaction.checkCommitted b)) t = ⟨[], some (false, t)⟩ := by
    simp only [onUser, UserTxInfo.onTx, Prog.zoom]
    rw [Transaction.checkCommitted_apply, if_neg h]
    rfl
  have hout : (onUser (UserTxInfo.onTx (Transaction.checkCommitted b)) t).out = some (false, t) := by
    rw [hcheck]
  rw [recoverUser, userRecovery, assoc, bind_of_out hout, hcheck]
  simp only [Bool.false_eq_true, if_false, assoc]
  rfl

theorem retryable_restartUser : Retryable (Upto b layout committed 8) (restartUser layout) :=
  stage_ptr.bind Upto.of_succ (stage_userStack.bind Upto.of_succ stage_stack.retry)

theorem retryable_recoverUser : Retryable (Upto b layout committed 5) (recoverUser b layout) := by
  by_cases hc : committed
  · have hfinish : Retryable (Upto b layout committed 5) (finishUser layout) :=
      stage_userClear.bind Upto.of_succ (stage_userLevel.bind Upto.of_succ
        ((stage_userTxEnd hc).bind Upto.of_succ retryable_restartUser))
    exact hfinish.congr fun t h => recoverUser_of_committed (h.flag.mpr hc)
  · have hrest : Retryable (Upto b layout committed 7) (restartUser layout) := by
      intro t h c hmem
      obtain ⟨h', he⟩ := retryable_restartUser t (h.uncommitted hc) c hmem
      exact ⟨h'.of_succ, he⟩
    have hroll : Retryable (Upto b layout committed 5) (rollBackUser b layout) :=
      stage_userRecover.bind Upto.of_succ (stage_userLevel.bind Upto.of_succ hrest)
    exact hroll.congr fun t h => recoverUser_of_not fun hf => hc (h.flag.mp hf)

theorem retryable_stages : Retryable (Upto b layout committed 0) (stages b layout) :=
  stage_recoveryMode.bind Upto.of_succ (stage_rollBack.bind Upto.of_succ (stage_level.bind Upto.of_succ
    (stage_finishSyscall.bind Upto.of_succ (stage_finishLoop.bind Upto.of_succ retryable_recoverUser))))

theorem skips_restartUser (h : Upto b layout committed 11 t) : Skips (restartUser layout) t :=
  (stage_ptr.skips t (h.mono (by decide))).bind ((stage_userStack.skips t (h.mono (by decide))).bind
    (stage_stack.skips t h))

theorem skips_recoverUser (h : Upto b layout committed 11 t) : Skips (recoverUser b layout) t := by
  by_cases hc : committed
  · rw [Skips, recoverUser_of_committed (h.flag.mpr hc)]
    exact (stage_userClear.skips t (h.mono (by decide))).bind ((stage_userLevel.skips t (h.mono (by decide))).bind
      (((stage_userTxEnd hc).skips t (h.mono (by decide))).bind (skips_restartUser h)))
  · rw [Skips, recoverUser_of_not fun hf => hc (h.flag.mp hf)]
    exact (stage_userRecover.skips t (h.mono (by decide))).bind
      ((stage_userLevel.skips t (h.mono (by decide))).bind (skips_restartUser h))

theorem skips_stages (h : Upto b layout committed 11 t) : Skips (stages b layout) t :=
  (stage_recoveryMode.skips t (h.mono (by decide))).bind ((stage_rollBack.skips t (h.mono (by decide))).bind
    ((stage_level.skips t (h.mono (by decide))).bind ((stage_finishSyscall.skips t (h.mono (by decide))).bind
      ((stage_finishLoop.skips t (h.mono (by decide))).bind (skips_recoverUser h)))))

theorem after_restartUser (h : Upto b layout committed 8 t) :
    After (restartUser layout) (fun _ => Upto b layout committed 11) t := by
  rw [restartUser, after_bind]
  refine (stage_ptr.after h).mono fun _ t₁ h₁ => ?_
  rw [after_bind]
  exact (stage_userStack.after h₁).mono fun _ t₂ h₂ => stage_stack.after h₂

theorem after_recoverUser (h : Upto b layout committed 5 t) :
    After (recoverUser b layout) (fun _ => Upto b layout committed 11) t := by
  by_cases hc : committed
  · rw [after_congr (recoverUser_of_committed (h.flag.mpr hc)), finishUser, after_bind]
    refine (stage_userClear.after h).mono fun _ t₁ h₁ => ?_
    rw [after_bind]
    refine (stage_userLevel.after h₁).mono fun _ t₂ h₂ => ?_
    rw [after_bind]
    exact ((stage_userTxEnd hc).after h₂).mono fun _ t₃ h₃ => after_restartUser h₃
  · rw [after_congr (recoverUser_of_not fun hf => hc (h.flag.mp hf)), rollBackUser, after_bind]
    refine (stage_userRecover.after h).mono fun _ t₁ h₁ => ?_
    rw [after_bind]
    exact (stage_userLevel.after h₁).mono fun _ t₂ h₂ => after_restartUser (h₂.uncommitted hc)

theorem after_stages (h : Upto b layout committed 0 t) :
    After (stages b layout) (fun _ => Upto b layout committed 11) t := by
  rw [stages, after_bind]
  refine (stage_recoveryMode.after h).mono fun _ t₁ h₁ => ?_
  rw [after_bind]
  refine (stage_rollBack.after h₁).mono fun _ t₂ h₂ => ?_
  rw [after_bind]
  refine (stage_level.after h₂).mono fun _ t₃ h₃ => ?_
  rw [after_bind]
  refine (stage_finishSyscall.after h₃).mono fun _ t₄ h₄ => ?_
  rw [after_bind]
  exact (stage_finishLoop.after h₄).mono fun _ t₅ h₅ => after_recoverUser h₅

/-- A loop that is to be finished has its counter, and the next value does not overflow where that panics. -/
def LoopLogged (b : Board) (u : UserTxInfo) : Prop :=
  u.userTx.cache.getTxIdOfTail b.width < u.userTx.cache.getTxIdOfPtr b.width →
    u.loopCntPtr ≠ none ∧ (b.debugAssertions → u.loopCntLog + u.step < 2 ^ b.width.bits)

theorem ends_recoverUser (h : t.userTxInfo.userTx.pm.journal.Walkable b) :
    Ends (recoverUser b layout) (fun _ _ => True) t := by
  by_cases hc : t.userTxInfo.userTx.cache.isCommitted b.width
  · rw [ends_congr (recoverUser_of_committed hc)]
    trivial
  · rw [ends_congr (recoverUser_of_not hc)]
    obtain ⟨m₀, hund⟩ := h t.userTxInfo.userTx.pm.mem
    obtain ⟨_, r, hr, rfl⟩ := (Journal.wpc_recover hund).returns
    have hrec : Ends (Journal.recover b) (fun _ _ => True) t.userTxInfo.userTx.pm := by
      rw [Ends, hr]
      trivial
    rw [rollBackUser, ends_bind]
    exact ends_zoom.mpr (ends_zoom.mpr (ends_zoom.mpr (hrec.mono fun _ _ _ => trivial)))

theorem ends_finishSyscall {Q : Unit → Task → Prop} (hQ : ∀ tail done,
    Q () { t with syscallTxCache := { t.syscallTxCache with tail := tail }, listTxDone := done }) :
    Ends (finishSyscall b) Q t := by
  by_cases hlt : t.syscallReplayCache.ptr < t.syscallReplayCache.tail
  · rw [Ends, finishSyscall_of_lt hlt]
    exact hQ _ _
  · rw [Ends, finishSyscall_of_not hlt]
    exact hQ t.syscallTxCache.tail t.listTxDone

theorem ends_finishLoop {Q : Unit → Task → Prop} (h : LoopLogged b t.userTxInfo) (hQ : Q () t)
    (hset : ∀ i, Q () (withLoopCnt b i t)) : Ends (finishLoop b) Q t := by
  by_cases hlt : t.userTxInfo.userTx.cache.getTxIdOfTail b.width <
      t.userTxInfo.userTx.cache.getTxIdOfPtr b.width
  · obtain ⟨hptr, hfit⟩ := h hlt
    obtain ⟨i, hi⟩ := Option.ne_none_iff_exists'.mp hptr
    have hout : finishLoop b t = ⟨[withLoopCnt b i t], some ((), withLoopCnt b i t)⟩ := by
      rw [finishLoop, gets_bind_apply, gets_bind_apply, if_pos hlt]
      simp only [onUser, Prog.zoom, UserTxInfo.setLoopCnt, gets_bind_apply, addUsize, assoc, check_bind_apply, hi,
        if_pos hfit]
      rfl
    rw [Ends, hout]
    exact hset i
  · rw [Ends, finishLoop_of_not hlt]
    exact hQ

/-- Recovery returns. -/
theorem ends_stages (hj : t.journal.Walkable b) (hu : t.userTxInfo.userTx.pm.journal.Walkable b)
    (hl : LoopLogged b t.userTxInfo) : Ends (stages b layout) (fun _ _ => True) t := by
  have hroll : Ends (Transaction.rollBackIfUncommitted b) (fun _ _ => True) t.tx := by
    by_cases hc : t.tx.cache.isCommitted b.width
    · rw [ends_congr (Transaction.rollBack_of_committed hc)]
      trivial
    · obtain ⟨m₀, hund⟩ := hj t.tx.pm.mem
      have hund' : Undoable b m₀ t.tx.pm := hund
      obtain ⟨_, r, hr, rfl⟩ := (Journal.wpc_recover hund').returns
      have hrec : Ends (Journal.recover b) (fun _ _ => True) t.tx.pm := by
        rw [Ends, hr]
        trivial
      rw [ends_congr (Transaction.rollBack_of_not hc)]
      exact ends_zoom.mpr (hrec.mono fun _ _ _ => trivial)
  have hrest : ∀ t' : Task, t'.userTxInfo.userTx.pm.journal = t.userTxInfo.userTx.pm.journal →
      LoopLogged b t'.userTxInfo → Ends (finishLoop b >>= fun _ => recoverUser b layout) (fun _ _ => True) t' := by
    intro t' hu' hl'
    rw [ends_bind]
    apply ends_finishLoop hl'
    · exact ends_recoverUser (hu' ▸ hu)
    · exact fun i => ends_recoverUser (by exact hu' ▸ hu)
  rw [stages, ends_bind]
  refine ends_zoom.mpr ?_
  rw [ends_store, ends_bind]
  refine ends_zoom.mpr (Ends.mono hroll fun _ x _ => ?_)
  rw [ends_bind]
  refine ends_zoom.mpr ?_
  rw [resetNestingLevel, ends_store, ends_bind]
  apply ends_finishSyscall
  intro tail done
  exact hrest _ rfl hl

/-! ## Failures -/

/-- Power fails in `jit_recovery` any number of times. Each time the system is started again, in the next
generation. -/
inductive Failures (b : Board) (layout : StackLayout) (g : Nat) (t : Task) : Nat → Task → Prop
  | none : Failures b layout g t g t
  | fail {g' : Nat} {t' c : Task} : Failures b layout g t g' t' → c ∈ (jitRecovery b layout g' t').trace →
      Failures b layout g t (g' + 1) c

theorem keeps_generation : Keeps Task.generation (stages b layout) := by
  have huser : ∀ {α : Type} (m : Prog UserTxInfo α), Keeps Task.generation (onUser m) := fun m =>
    keeps_zoom fun _ _ => rfl
  have htx : ∀ {α : Type} (m : Prog Transaction α), Keeps Task.generation (onTx m) := fun m =>
    keeps_zoom fun _ _ => rfl
  refine (huser _).bind fun _ => (htx _).bind fun _ => (htx _).bind fun _ => Keeps.bind ?_ fun _ =>
    Keeps.bind ?_ fun _ => Keeps.bind ?_ fun _ => keeps_store fun _ => rfl
  · refine (keeps_gets _).bind fun _ => (keeps_gets _).bind fun _ => ?_
    split
    · exact (htx _).bind fun _ => keeps_store fun _ => rfl
    · exact keeps_pure _
  · refine (keeps_gets _).bind fun _ => (keeps_gets _).bind fun _ => ?_
    split
    · exact huser _
    · exact keeps_pure _
  · refine (huser _).bind fun committed => ?_
    refine Keeps.bind ?_ fun _ => huser _
    split
    · refine (huser _).bind fun _ => ?_
      exact keeps_store fun _ => rfl
    · exact (huser _).bind fun _ => huser _

/-- One failure. -/
theorem jitRecovery_interrupted {g : Nat} {c : Task} (h : Upto b layout committed 0 t) (hg : t.generation < g)
    (hc : c ∈ (jitRecovery b layout g t).trace) :
    Upto b layout committed 0 c ∧ c.generation ≤ g ∧
      ∀ g', g < g' → (jitRecovery b layout g' c).out = (jitRecovery b layout g' t).out := by
  rw [jitRecovery_eq (Nat.ne_of_lt hg)] at hc
  rcases mem_trace_bind hc with hc | ⟨_, t', ho, hc⟩
  · obtain ⟨h', he⟩ := retryable_stages t h c hc
    have hgen : c.generation = t.generation := keeps_generation.trace hc
    refine ⟨h', by omega, fun g' hg' => ?_⟩
    rw [jitRecovery_eq (by omega), jitRecovery_eq (by omega), out_bind, out_bind, he]
  · obtain rfl : c = { t' with generation := g } := by simpa [store] using hc
    have hdone := (after_stages h).post ho
    have hgen : Upto b layout committed 11 { t' with generation := g } := by
      refine ⟨hdone.journal, hdone.userJournal, hdone.flag, fun i hi => ?_⟩
      have hd := hdone.done i hi
      interval_cases i <;> exact hd
    have hskip := skips_stages hgen
    unfold Skips at hskip
    refine ⟨hgen.mono (by decide), Nat.le_refl _, fun g' hg' => ?_⟩
    rw [jitRecovery_eq (by exact Nat.ne_of_lt hg'), jitRecovery_eq (by omega), out_bind, out_bind, hskip, ho]
    rfl

theorem Failures.out_eq {g g' : Nat} {c : Task} (hf : Failures b layout g t g' c)
    (h : Upto b layout committed 0 t) (hg : t.generation < g) :
    Upto b layout committed 0 c ∧ t.generation < g' ∧ c.generation < g' ∧
      ∀ g'', g' ≤ g'' → (jitRecovery b layout g'' c).out = (jitRecovery b layout g'' t).out := by
  induction hf with
  | none => exact ⟨h, hg, hg, fun _ _ => rfl⟩
  | @fail g' t' c _ hc ih =>
      obtain ⟨h', hgt, hgc, he⟩ := ih
      obtain ⟨hc', hle, heq⟩ := jitRecovery_interrupted h' hgc hc
      refine ⟨hc', Nat.lt_succ_of_lt hgt, Nat.lt_succ_of_le hle, fun g'' hg'' => ?_⟩
      rw [heq g'' (by omega), he g'' (by omega)]

end Task

/-- Recovery of a task that has crashed, at any journals, interrupted any number of times: in the last
generation it ends in the same state, all fields included, as if it had not been interrupted before. It does
end, when `loop_cnt_ptr` is set wherever it is looked at, and the addition to the loop counter panics
nowhere. -/
theorem jit_recovery_retried {b : Board} {layout : StackLayout} {g g' : Nat} {t c : Task}
    (hj : Produced b t.journal) (hu : Produced b t.userTxInfo.userTx.pm.journal) (hg : t.generation < g)
    (hf : Task.Failures b layout g t g' c) :
    (Task.jitRecovery b layout g' c).out = (Task.jitRecovery b layout g' t).out ∧
      (Task.LoopLogged b t.userTxInfo → ∃ r, (Task.jitRecovery b layout g' t).out = some ((), r)) := by
  have h : Task.Upto b layout (t.userTxInfo.userTx.cache.isCommitted b.width) 0 t :=
    ⟨hj.walkable, hu.walkable, Iff.rfl, fun i hi => absurd hi (Nat.not_lt_zero i)⟩
  obtain ⟨_, hgt, _, he⟩ := hf.out_eq h hg
  refine ⟨he g' (Nat.le_refl _), fun hl => ?_⟩
  obtain ⟨_, r, ho, _⟩ := (Task.ends_stages hj.walkable hu.walkable hl).returns
  rw [Task.jitRecovery_eq (Nat.ne_of_lt hgt), out_bind, ho]
  exact ⟨_, rfl⟩

/-- A task that lost power at the end of a turn of a loop, and at the return of a syscall, with a record in
the journal of its kernel transaction. -/
def Task.crashed : Task where
  userTxInfo :=
    { userTx := ⟨⟨fun _ => 0, Journal.new⟩, ⟨fun _ => 0, 1, 0x8000⟩, 0⟩
      stackTop := 1
      tailStack := fun _ => 0
      loopCntLog := 3
      loopCntPtr := some 0
      step := 1
      counters := fun _ => 3
      recoveryMode := false }
  journal :=
    { Journal.new with
      tail := 6
      logs :=
        let saved := Function.update (Function.update (fun _ => 0) 0 0) 1 0
        writeBytes (writeBytes saved 2 2 100) 4 2 2 }
  syscallTxCache := ⟨fun _ => 0, 0, 0⟩
  nestingLevel := 0
  syscallReplayCache := ⟨0, 2, fun _ => 0⟩
  listTxDone := true
  generation := 0
  stackTop := 0
  stackBottom := 100

theorem Task.produced_crashed : Produced ⟨.w16, 64, false, false⟩ Task.crashed.journal := by
  have hnew : Produced ⟨.w16, 64, false, false⟩ Journal.new := .empty ⟨rfl, rfl⟩ rfl
  have hout : (Journal.appendLogOf ⟨.w16, 64, false, false⟩ ⟨100, 2, by decide, by decide⟩
      ⟨fun _ => 0, Journal.new⟩).out = some ((), ⟨fun _ => 0, Task.crashed.journal⟩) := rfl
  exact hnew.append _ _ hout

/-- Power fails again after the store of the loop counter. -/
theorem jit_recovery_retried_crashed : ∃ c,
    Task.Failures ⟨.w16, 64, false, false⟩ .msp430 1 Task.crashed 2 c ∧
      c.userTxInfo.counters 0 = 4 ∧ c.userTxInfo.userTx.cache.ptr = 1 ∧
      (Task.jitRecovery ⟨.w16, 64, false, false⟩ .msp430 2 c).out =
        (Task.jitRecovery ⟨.w16, 64, false, false⟩ .msp430 2 Task.crashed).out := by
  have hnew : Produced ⟨.w16, 64, false, false⟩ Task.crashed.userTxInfo.userTx.pm.journal :=
    .empty ⟨rfl, rfl⟩ rfl
  have hmem : ∃ c, c ∈ (Task.jitRecovery ⟨.w16, 64, false, false⟩ .msp430 1 Task.crashed).trace ∧
      c.userTxInfo.counters 0 = 4 ∧ c.userTxInfo.userTx.cache.ptr = 1 := by
    refine ⟨_, List.mem_of_getElem? (i := 7) rfl, ?_, ?_⟩
    · rfl
    · rfl
  obtain ⟨c, hc, hcnt, hptr⟩ := hmem
  have hf := Task.Failures.fail .none hc
  exact ⟨c, hf, hcnt, hptr, (jit_recovery_retried Task.produced_crashed hnew (by decide) hf).1⟩

end IntOS
