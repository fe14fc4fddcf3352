import IntOS.Boot.Boot
import IntOS.List.Lemmas.CrashReady
import IntOS.Sched.Contents

/-!
# The list transactions of a boot

`placed prio m`: the tasks below `m` are in the ready lists of their priorities, in their order. A boot inserts
the next task, and it inserts again each task that an earlier boot inserted. `Enlisted prio n k` says which states
a power failure leaves where `n` tasks are registered, but for the `Misleading` ones.
-/

namespace IntOS

open Persist Persist.Prog IntOS.Lists

/-- The tasks below `m` in the ready lists of their priorities. -/
def Contents.placed (prio : Nat → Nat) (m : Nat) : Contents
  | .ready p => ((List.range m).filter fun i => prio i = p).map .sched
  | _ => []

namespace Contents

variable {prio : Nat → Nat} {m : Nat}

theorem placed_zero (prio : Nat → Nat) : placed prio 0 = fun _ => [] := by
  funext l
  cases l with
  | ready p => rfl
  | delayed => rfl
  | waiting w => rfl

theorem placed_succ (prio : Nat → Nat) (m : Nat) : placed prio (m + 1) = (placed prio m).join (prio m) m := by
  funext l
  cases l with
  | ready p =>
      simp only [placed, join, List.range_succ, List.filter_append, List.map_append]
      by_cases hp : p = prio m
      · subst hp
        simp
      · simp [hp, Ne.symm hp]
  | delayed => rfl
  | waiting w => rfl

theorem mem_placed {n : NodeRef} {l : ListRef} :
    n ∈ placed prio m l ↔ ∃ i < m, n = .sched i ∧ l = .ready (prio i) := by
  cases l with
  | ready p =>
      simp only [placed, List.mem_map, List.mem_filter, List.mem_range, decide_eq_true_eq, ListRef.ready.injEq]
      constructor
      · rintro ⟨i, ⟨hi, rfl⟩, rfl⟩
        exact ⟨i, hi, rfl, rfl⟩
      · rintro ⟨i, hi, rfl, rfl⟩
        exact ⟨i, ⟨hi, rfl⟩, rfl⟩
  | delayed => simp [placed]
  | waiting w => simp [placed]

theorem length_placed_le (l : ListRef) : (placed prio m l).length ≤ m := by
  cases l with
  | ready p =>
      simp only [placed, List.length_map]
      exact (List.length_filter_le _ _).trans (List.length_range (n := m)).le
  | delayed => exact Nat.zero_le _
  | waiting w => exact Nat.zero_le _

end Contents

namespace Kernel

open Contents

variable {cfg : Config} {k c : Kernel} {prio : Nat → Nat} {m n tid : Nat} {Q : Unit → Kernel → Prop} {E : Prop}
  {C : Kernel → Prop}

/-- The log says that a node is on its way into a ready list, and the length it keeps is the number of nodes whose
field `list` names this list. No node is on its way: the one of the log has its field `list` not yet stored, or
was in the list before. -/
def Misleading (k : Kernel) : Prop :=
  k.op = .readyListInsert ∧ k.lists.getMicroOp = some .insertBeforeCursor ∧
    ∃ tid, k.taskPtr = some tid ∧ ∃ xs : List NodeRef, xs.Nodup ∧
      (∀ n, n ∈ xs ↔ k.lists.list n = some (.ready (k.priority tid))) ∧ xs.length = k.lists.getOldLen

/-- No list transaction runs. -/
structure Resting (prio : Nat → Nat) (m : Nat) (k : Kernel) : Prop where
  shows : Shows k (placed prio m)
  op : k.op = .invalid
  microOp : k.lists.microOpOldLen = 0

/-- `n` tasks are registered, and the last of them may not be in its list yet. -/
inductive Enlisted (prio : Nat → Nat) (n : Nat) (k : Kernel) : Prop
  | placed {m : Nat} : n ≤ m + 1 → m ≤ n → Shows k (placed prio m) → k.lists.microOpOldLen = 0 →
      k.op = .invalid ∨ (k.op = .readyListInsert ∧ k.taskPtr ≠ none ∧ 0 < n) → Enlisted prio n k
  | inserting {m : Nat} {s : Lists NodeRef ListRef} : n = m + 1 → k.op = .readyListInsert → k.taskPtr = some m →
      Lists.Holds ListRef.IsReady s (Contents.placed prio m) →
      s.microOpOldLen = microOpOldLenOf .insertBeforeCursor (s.len (.ready (prio m))) →
      Readying s (.ready (prio m)) (.sched m) k.lists →
      k.lists.list = Function.update s.list (.sched m) (some (.ready (prio m))) → Enlisted prio n k

/-- What the list transactions of a boot leave alone, where `n` tasks are registered. -/
structure Calm (n : Nat) (k c : Kernel) : Prop where
  taskCnt : c.taskCnt = k.taskCnt
  priority : c.priority = k.priority
  wakeupTime : c.wakeupTime = k.wakeupTime
  listTxDone : ∀ i, i < n → c.listTxDone i = k.listTxDone i
  recoveryMode : c.recoveryMode = k.recoveryMode
  status : ∀ i, k.status i = .ready → c.status i = .ready
  current : c.current = k.current
  curMaxPriority : c.curMaxPriority = k.curMaxPriority
  schedulerStarted : c.schedulerStarted = k.schedulerStarted

theorem Calm.refl (n : Nat) (k : Kernel) : Calm n k k :=
  ⟨rfl, rfl, rfl, fun _ _ => rfl, rfl, fun _ h => h, rfl, rfl, rfl⟩

theorem Calm.trans {k' : Kernel} (h : Calm n k k') (h' : Calm n k' c) : Calm n k c where
  taskCnt := h'.taskCnt.trans h.taskCnt
  priority := h'.priority.trans h.priority
  wakeupTime := h'.wakeupTime.trans h.wakeupTime
  listTxDone := fun i hi => (h'.listTxDone i hi).trans (h.listTxDone i hi)
  recoveryMode := h'.recoveryMode.trans h.recoveryMode
  status := fun i hi => h'.status i (h.status i hi)
  current := h'.current.trans h.current
  curMaxPriority := h'.curMaxPriority.trans h.curMaxPriority
  schedulerStarted := h'.schedulerStarted.trans h.schedulerStarted

theorem status_update {status : Nat → TaskState} (i : Nat) (h : status i = .ready) :
    Function.update status tid .ready i = .ready := by
  by_cases hi : i = tid
  · subst hi
    exact Function.update_self _ _ _
  · rw [Function.update_of_ne hi, h]

/-- The fields that an insertion stores. -/
def inserting (k : Kernel) (taskPtr : Option Nat) (op : ListTxOpCode) (s : Lists NodeRef ListRef)
    (status : Nat → TaskState) : Kernel :=
  { k with taskPtr := taskPtr, op := op, lists := s, status := status }

theorem calm_inserting (tid : Nat) (taskPtr : Option Nat) {op : ListTxOpCode} {s : Lists NodeRef ListRef}
    {status : Nat → TaskState} (h : status = k.status ∨ status = Function.update k.status tid .ready) :
    Calm n k (inserting k taskPtr op s status) := by
  refine ⟨rfl, rfl, rfl, fun _ _ => rfl, rfl, fun i hi => ?_, rfl, rfl, rfl⟩
  rcases h with rfl | rfl
  · exact hi
  · exact status_update i hi

theorem Resting.listed (h : Resting prio m k) (hn : n ≤ m + 1) (hm : m ≤ n) : Enlisted prio n k :=
  .placed hn hm h.shows h.microOp (Or.inl h.op)

theorem Enlisted.frame {k' : Kernel} (h : Enlisted prio n k) (hlists : k'.lists = k.lists) (hop : k'.op = k.op)
    (hptr : k'.taskPtr = k.taskPtr) : Enlisted prio n k' := by
  cases h with
  | placed hnm hmn hshows hmicro hbegun =>
      refine .placed hnm hmn ?_ ?_ ?_
      · rw [Shows, hlists]
        exact hshows
      · rw [hlists, hmicro]
      · rw [hop, hptr]
        exact hbegun
  | inserting hnm hbegun htask hholds hmicro hs hlist =>
      rw [← hlists] at hs hlist
      exact .inserting hnm (hop.trans hbegun) (hptr.trans htask) hholds hmicro hs hlist

/-- A node that is in no list yet. -/
theorem enterable_placed {s : Lists NodeRef ListRef} (h : Lists.Holds ListRef.IsReady s (placed prio m)) (hm : m ≤ tid)
    (p : Nat) : s.list (.sched tid) = none ∧ Enterable s (.ready p) (.sched tid) := by
  have hnone : s.list (.sched tid) = none := by
    rw [Option.eq_none_iff_forall_ne_some]
    intro l hl
    obtain ⟨i, hi, he, _⟩ := mem_placed.mp ((h.owner l (.sched tid)).mp hl)
    have hti : tid = i := NodeRef.sched.inj he
    omega
  have hlinked : WellOrdered (fun _ => 0) s := by
    refine ⟨_, h, ?_⟩
    rw [Contents.placed]
    · exact List.Pairwise.nil
    · exact nofun
  exact ⟨hnone, hlinked.enterable trivial hnone⟩

/-! ## Insertions -/

/-- The logged length, read back. -/
theorem Resting.misleading (h : Resting prio m k) (hm : m < 2 ^ opCodeShift) (hp : k.priority tid = prio tid)
    (status : Nat → TaskState) :
    Misleading (inserting k (some tid) .readyListInsert (logged k.lists .insertBeforeCursor (.ready (prio tid)))
      status) := by
  have hlen : k.lists.len (.ready (prio tid)) = (placed prio m (.ready (prio tid))).length := h.shows.len _
  have hlt : k.lists.len (.ready (prio tid)) < 2 ^ opCodeShift := by
    have hle : (placed prio m (.ready (prio tid))).length ≤ m := length_placed_le _
    omega
  refine ⟨rfl, getMicroOp_eq hlt rfl, tid, rfl, placed prio m (.ready (prio tid)), h.shows.nodup _, fun n => ?_, ?_⟩
  · have hpriority : (inserting k (some tid) .readyListInsert
        (logged k.lists .insertBeforeCursor (.ready (prio tid))) status).priority tid = prio tid := hp
    rw [hpriority]
    exact h.shows.mem
  · rw [← hlen]
    exact (getOldLen_eq hlt rfl).symm

/-- The list transaction of a task, apart from what it links. -/
theorem Resting.wpc_rollForward (h : Resting prio m k) (hp : k.priority tid = prio tid) (h₀ : C k)
    (hbefore : ∀ op, op = .invalid ∨ op = .readyListInsert → C (inserting k (some tid) op k.lists k.status))
    (hlink : wpc (optimizedInsertBeforeCursorImpl (.ready (prio tid)) (.sched tid))
      (fun _ s => C (inserting k (some tid) .readyListInsert s k.status) ∧
        C (inserting k (some tid) .readyListInsert s (Function.update k.status tid .ready)) ∧
        (∀ op, op = .invalid ∨ op = .readyListInsert →
          C (inserting k (some tid) op { s with microOpOldLen := 0 } (Function.update k.status tid .ready))) ∧
        Q () (inserting k (some tid) .invalid { s with microOpOldLen := 0 } (Function.update k.status tid .ready)))
      E (fun s => C (inserting k (some tid) .readyListInsert s k.status))
      (logged k.lists .insertBeforeCursor (.ready (prio tid)))) :
    wpc (rollForwardInsertIntoReadylist tid) Q E C k := by
  have h₁ := hbefore k.op (Or.inl h.op)
  have h₂ := hbefore .readyListInsert (Or.inr rfl)
  refine wpc_bind (wpc_store h₀ h₁ (wpc_bind (wpc_store h₁ h₂ ?_)))
  refine wpc_bind (wpc_bind (wpc_gets h₂ (wpc_bind (wpc_onLists (wpc_bind ?_)))))
  dsimp only
  rw [hp]
  refine wpc_startOpLog h₂ hlink.start (wpc_mono hlink ?_ fun _ hc => hc)
  rintro _ s ⟨hlinked, hready, hdone, hQ⟩
  exact wpc_store hlinked hready (wpc_invalidate hready (hdone _ (Or.inr rfl)) (hdone _ (Or.inl rfl)) hQ)

/-- The next task enters its list. -/
theorem Resting.wpc_insert (h : Resting prio m k) (hm : m < 2 ^ opCodeShift) (hp : k.priority m = prio m)
    (hC : ∀ c, Calm (m + 1) k c → Misleading c ∨ Enlisted prio (m + 1) c → C c)
    (hQ : ∀ k', Calm (m + 1) k k' → Resting prio (m + 1) k' → Q () k') :
    wpc (rollForwardInsertIntoReadylist m) Q E C k := by
  obtain ⟨hn, henter⟩ := enterable_placed h.shows (Nat.le_refl m) (prio m)
  generalize hs₁ : logged k.lists .insertBeforeCursor (.ready (prio m)) = s₁
  have hlog : Lists.Holds ListRef.IsReady s₁ (placed prio m) := hs₁ ▸ h.shows.setMicroOpOldLen _
  have hn₁ : s₁.list (.sched m) = none := hs₁ ▸ hn
  have henter₁ : Enterable s₁ (.ready (prio m)) (.sched m) := hs₁ ▸ henter.congr rfl rfl rfl
  have hmicro : s₁.microOpOldLen = microOpOldLenOf .insertBeforeCursor (s₁.len (.ready (prio m))) := hs₁ ▸ rfl
  have hring : ListRef.IsReady (.ready (prio m)) := trivial
  have hready := hlog.readied hring hn₁ henter₁
  rw [← join_eq, ← placed_succ] at hready
  have hbefore : ∀ op, op = .invalid ∨ op = .readyListInsert →
      C (inserting k (some m) op k.lists k.status) := by
    intro op hop
    refine hC _ (calm_inserting m _ (Or.inl rfl)) (Or.inr ?_)
    refine .placed (Nat.le_refl _) (Nat.le_succ m) h.shows h.microOp ?_
    exact hop.imp_right fun hop => ⟨hop, Option.some_ne_none m, Nat.succ_pos m⟩
  have hlogged : C (inserting k (some m) .readyListInsert s₁ k.status) :=
    hC _ (calm_inserting m _ (Or.inl rfl)) (Or.inl (hs₁ ▸ h.misleading hm hp _))
  have hduring : ∀ s status, Readying s₁ (.ready (prio m)) (.sched m) s →
      s.list = Function.update s₁.list (.sched m) (some (.ready (prio m))) →
      status = k.status ∨ status = Function.update k.status m .ready →
      C (inserting k (some m) .readyListInsert s status) := by
    intro s status hs hlist hstatus
    exact hC _ (calm_inserting m _ hstatus) (Or.inr (.inserting rfl rfl rfl hlog hmicro hs hlist))
  have hafter : ∀ op, op = .invalid ∨ op = .readyListInsert →
      C (inserting k (some m) op { readied s₁ (.ready (prio m)) (.sched m) with microOpOldLen := 0 }
        (Function.update k.status m .ready)) := by
    intro op hop
    refine hC _ (calm_inserting m _ (Or.inr rfl)) (Or.inr ?_)
    refine .placed (Nat.le_succ _) (Nat.le_refl _) (hready.setMicroOpOldLen 0) rfl ?_
    exact hop.imp_right fun hop => ⟨hop, Option.some_ne_none m, Nat.succ_pos m⟩
  have hfin := Readying.finish henter₁
  have hlist := readied_list s₁ (.ready (prio m)) (.sched m)
  have h₀ : C k := hC k (.refl _ k) (Or.inr (h.listed (Nat.le_refl _) (Nat.le_succ m)))
  refine h.wpc_rollForward hp h₀ hbefore ?_
  rw [hs₁]
  refine wpc_insertBeforeCursor hn₁ henter₁ hlogged ?_ ⟨?_, ?_, hafter, ?_⟩
  · exact fun s hs hl => hduring s _ hs hl (Or.inl rfl)
  · exact hduring _ _ hfin hlist (Or.inl rfl)
  · exact hduring _ _ hfin hlist (Or.inr rfl)
  · exact hQ _ (calm_inserting m (some m) (Or.inr rfl)) ⟨hready.setMicroOpOldLen 0, rfl, rfl⟩

/-- A task enters its list again: nothing is linked, but the log is written. -/
theorem Resting.wpc_reinsert (h : Resting prio m k) (hm : m < 2 ^ opCodeShift) (ht : tid < m)
    (hp : k.priority tid = prio tid) (hn : n ≤ m + 1) (hmn : m ≤ n)
    (hC : ∀ c, Calm n k c → Misleading c ∨ Enlisted prio n c → C c)
    (hQ : ∀ k', Calm n k k' → Resting prio m k' → Q () k') : wpc (rollForwardInsertIntoReadylist tid) Q E C k := by
  have hlist : (logged k.lists .insertBeforeCursor (.ready (prio tid))).list (.sched tid) ≠ none := by
    dsimp only [logged]
    rw [h.shows.mem.mp (mem_placed.mpr ⟨tid, ht, rfl, rfl⟩)]
    exact Option.some_ne_none _
  have hresting : ∀ op s status, op = .invalid ∨ op = .readyListInsert → Lists.Holds ListRef.IsReady s (placed prio m) →
      s.microOpOldLen = 0 → status = k.status ∨ status = Function.update k.status tid .ready →
      C (inserting k (some tid) op s status) := by
    intro op s status hop hs hmicro hstatus
    refine hC _ (calm_inserting tid _ hstatus) (Or.inr (.placed hn hmn hs hmicro ?_))
    exact hop.imp_right fun hop => ⟨hop, Option.some_ne_none tid, by omega⟩
  have hlogged : ∀ status, status = k.status ∨ status = Function.update k.status tid .ready →
      C (inserting k (some tid) .readyListInsert (logged k.lists .insertBeforeCursor (.ready (prio tid))) status) :=
    fun status hstatus => hC _ (calm_inserting tid _ hstatus) (Or.inl (h.misleading hm hp status))
  have hzero : Lists.Holds ListRef.IsReady { k.lists with microOpOldLen := 0 } (placed prio m) :=
    h.shows.setMicroOpOldLen 0
  have h₀ : C k := hC k (.refl _ k) (Or.inr (h.listed hn hmn))
  refine h.wpc_rollForward hp h₀ (fun op hop => hresting op _ _ hop h.shows h.microOp (Or.inl rfl)) ?_
  refine wpc_bind (wpc_gets (hlogged _ (Or.inl rfl)) ?_)
  rw [if_pos hlist]
  refine wpc_pure (hlogged _ (Or.inl rfl)) ⟨hlogged _ (Or.inl rfl), hlogged _ (Or.inr rfl), ?_, ?_⟩
  · exact fun op hop => hresting op _ _ hop hzero rfl (Or.inr rfl)
  · exact hQ _ (calm_inserting tid (some tid) (Or.inr rfl)) ⟨hzero, rfl, rfl⟩

/-! ## Recovery -/

theorem wpc_getMicroOp {Q : ListOpCode → Kernel → Prop} {op : ListOpCode} {oldLen : Nat}
    (h : k.lists.microOpOldLen = microOpOldLenOf op oldLen) (hlt : oldLen < 2 ^ opCodeShift) (hC : C k) (hQ : Q op k) :
    wpc getMicroOp Q E C k := by
  refine wpc_bind (wpc_gets hC ?_)
  rw [getMicroOp_eq hlt h]
  exact wpc_pure hC hQ

theorem wpc_getOldLen {Q : Nat → Kernel → Prop} {op : ListOpCode} {oldLen : Nat}
    (h : k.lists.microOpOldLen = microOpOldLenOf op oldLen) (hlt : oldLen < 2 ^ opCodeShift) (hC : C k)
    (hQ : Q oldLen k) : wpc getOldLen Q E C k := by
  refine wpc_gets hC ?_
  rw [getOldLen_eq hlt h]
  exact hQ

theorem wpc_getTask {Q : Nat → Kernel → Prop} (h : k.taskPtr = some tid) (hC : C k) (hQ : Q tid k) :
    wpc getTask Q E C k := by
  refine wpc_bind (wpc_gets hC ?_)
  rw [h]
  exact wpc_pure hC hQ

/-- No context switch was interrupted. -/
theorem wpc_recoverContextSwitch (h : k.lists.microOpOldLen = 0) (hC : C k) (hQ : Q () k) :
    wpc recoverAndRollForwardContextSwitch Q E C k := by
  have hinvalid : k.lists.microOpOldLen = microOpOldLenOf .invalid 0 := h
  exact wpc_bind (wpc_getMicroOp hinvalid (by decide) hC (wpc_pure hC hQ))

/-- The commit of a recovery whose insertion is complete marks the current task, which is not yet registered. -/
theorem wpc_commitRecovery {t : Nat} (hcur : k.current = some t) (hnt : n ≤ t) (hshows : Shows k (placed prio m))
    (hn : n ≤ m + 1) (hmn : m ≤ n) (hop : k.op = .readyListInsert) (hptr : k.taskPtr ≠ none) (hpos : 0 < n)
    (hk : C k) (hC : ∀ c, Calm n k c → Enlisted prio n c → C c)
    (hQ : ∀ k', Calm n k k' → Resting prio m k' → Q () k') :
    wpc commit (fun _ => wpc recoverAndRollForwardContextSwitch Q E C) E C k := by
  have hzero : Lists.Holds ListRef.IsReady { k.lists with microOpOldLen := 0 } (placed prio m) :=
    hshows.setMicroOpOldLen 0
  have hmarked : ∀ i, i < n → Function.update k.listTxDone t true i = k.listTxDone i := fun i hi =>
    Function.update_of_ne (Nat.ne_of_lt (Nat.lt_of_lt_of_le hi hnt)) _ _
  have hdone : Calm n k (committed k t) := ⟨rfl, rfl, rfl, hmarked, rfl, fun _ h => h, rfl, rfl, rfl⟩
  have hidle : Resting prio m (committed k t) := ⟨hzero, rfl, rfl⟩
  refine wpc_commit hcur hk ?_ (wpc_recoverContextSwitch rfl ?_ (hQ _ hdone hidle))
  · rintro _ (@⟨done, hmarks⟩ | _)
    · have hstill : ∀ i, i < n → done i = k.listTxDone i := by
        rcases hmarks with rfl | rfl
        · exact fun _ _ => rfl
        · exact hmarked
      refine hC _ ⟨rfl, rfl, rfl, hstill, rfl, fun _ h => h, rfl, rfl, rfl⟩ ?_
      exact .placed hn hmn hzero rfl (Or.inr ⟨hop, hptr, hpos⟩)
    · exact hC _ hdone (hidle.listed hn hmn)
  · exact hC _ hdone (hidle.listed hn hmn)

/-- Recovery completes the insertion, unless the failure is misleading. -/
theorem Enlisted.wpc_recover (h : Enlisted prio n k) (hn : n < 2 ^ opCodeShift)
    (hcur : 0 < n → ∃ t, k.current = some t) (hmark : k.op = .readyListInsert → ∀ t, k.current = some t → n ≤ t)
    (hprio : ∀ i, i < n → k.priority i = prio i) (hC : ∀ c, Calm n k c → Enlisted prio n c → C c)
    (hQ : ∀ m k', n ≤ m + 1 → m ≤ n → Calm n k k' → Resting prio m k' → Q () k') :
    wpc (recoverListTransaction cfg) Q E C k := by
  have h₀ : C k := hC k (.refl _ k) h
  refine wpc_bind (wpc_gets h₀ ?_)
  cases h with
  | @placed m hnm hmn hshows hmicro hop =>
      rcases hop with hop | ⟨hop, hptr, hpos⟩
      · rw [hop]
        exact wpc_recoverContextSwitch hmicro h₀ (hQ m k hnm hmn (.refl _ k) ⟨hshows, hop, hmicro⟩)
      · rw [hop]
        obtain ⟨tid, htid⟩ := Option.ne_none_iff_exists'.mp hptr
        obtain ⟨t, ht⟩ := hcur hpos
        have hinvalid : k.lists.microOpOldLen = microOpOldLenOf .invalid 0 := hmicro
        have hcommit := wpc_commitRecovery (E := E) ht (hmark hop t ht) hshows hnm hmn hop hptr hpos h₀ hC fun k' =>
          hQ m k' hnm hmn
        refine wpc_bind (wpc_bind (wpc_getMicroOp hinvalid (by decide) h₀ ?_))
        refine wpc_bind (wpc_getOldLen hinvalid (by decide) h₀ ?_)
        exact wpc_bind (wpc_getTask htid h₀ hcommit)
  | @inserting m s hnm hop hptr hholds hmicro hs hlist =>
      rw [hop]
      obtain ⟨t, ht⟩ := hcur (by omega)
      obtain ⟨_, henter⟩ := enterable_placed hholds (Nat.le_refl m) (prio m)
      have hlt : s.len (.ready (prio m)) < 2 ^ opCodeShift := by
        have hle : (Contents.placed prio m (.ready (prio m))).length ≤ m := length_placed_le _
        rw [hholds.len]
        omega
      have hlog := hs.log.trans hmicro
      have hring : ListRef.IsReady (.ready (prio m)) := trivial
      have hshows := hholds.readied hring (enterable_placed hholds (Nat.le_refl m) (prio m)).1 henter
      rw [← join_eq, ← placed_succ] at hshows
      have hduring : ∀ s' status, Readying s (.ready (prio m)) (.sched m) s' → s'.list = k.lists.list →
          status = k.status ∨ status = Function.update k.status m .ready →
          C (Kernel.inserting k k.taskPtr k.op s' status) := by
        intro s' status hs' hlist' hstatus
        exact hC _ (calm_inserting m _ hstatus) (.inserting hnm hop hptr hholds hmicro hs' (hlist'.trans hlist))
      have hfin : { readied s (.ready (prio m)) (.sched m) with list := k.lists.list } =
          readied s (.ready (prio m)) (.sched m) := by
        rw [hlist, ← readied_list s (.ready (prio m)) (.sched m)]
      have hfin₁ := hduring _ k.status (Readying.finish henter)
        ((readied_list s (.ready (prio m)) (.sched m)).trans hlist.symm) (Or.inl rfl)
      have hfin₂ := hduring _ _ (Readying.finish henter)
        ((readied_list s (.ready (prio m)) (.sched m)).trans hlist.symm) (Or.inr rfl)
      refine wpc_bind (wpc_bind (wpc_getMicroOp hlog hlt h₀ ?_))
      refine wpc_bind (wpc_getOldLen hlog hlt h₀ (wpc_bind (wpc_getTask hptr h₀ ?_)))
      refine wpc_bind (wpc_bind (wpc_gets h₀ ?_))
      rw [hprio m (by omega)]
      refine wpc_bind (wpc_onLists (wpc_mono (hs.wpc_recover henter) ?_ ?_))
      · rintro _ _ rfl
        rw [hfin]
        have hcalm : Calm n k (Kernel.inserting k k.taskPtr k.op (readied s (.ready (prio m)) (.sched m))
            (Function.update k.status m .ready)) := calm_inserting m _ (Or.inr rfl)
        have hptr' : k.taskPtr ≠ none := hptr ▸ Option.some_ne_none m
        refine wpc_store hfin₁ hfin₂ (wpc_commitRecovery (n := n) ht (hmark hop t ht) hshows (by omega) (by omega)
          hop hptr' (by omega) hfin₂ ?_ ?_)
        · exact fun c hc => hC c (hcalm.trans hc)
        · exact fun k' hk' => hQ _ k' (by omega) (by omega) (hcalm.trans hk')
      · exact fun s' hs' => hduring s' _ hs'.1 hs'.2 (Or.inl rfl)

end Kernel

end IntOS
