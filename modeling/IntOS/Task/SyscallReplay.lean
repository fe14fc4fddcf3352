import IntOS.Task.Lemmas.Syscalls
import IntOS.Task.JitRecovery

/-!
# Replay of system calls

Power fails in a user transaction. Recovery leaves the entries of the replay cache, and the re-executed transaction
takes from it the result of each system call that had been added, in the same order, and executes the others.
-/

namespace IntOS

open Persist Persist.Prog

variable {b : Board} {κ α : Type}

/-! ## The next run -/

/-- The cache when an entry of `n` bytes has been taken. -/
def SyscallReplayCache.taken (n : Nat) (c : SyscallReplayCache) : SyscallReplayCache := { c with ptr := c.ptr + n }

/-- A run has taken the entries `pre` of the `es` in the cache. The first system call to be executed will find nothing,
or what `first` says. -/
structure Bypassed (b : Board) (first : CallStart → Prop) (es pre : List Entry) (s : Sys κ) : Prop where
  isPrefix : pre <+: es
  tail : s.task.syscallReplayCache.tail = Entry.total b es
  stored : Entry.Stored b s.task.syscallReplayCache.cache 0 es
  ptr : s.task.syscallReplayCache.ptr = Entry.total b pre
  recovering : s.task.userTxInfo.recoveryMode = true
  outcomes : s.outcomes = pre.map .bypassed
  starts : s.starts = []
  toStart : s.task.nextStart.Fresh b.width ∨ first s.task.nextStart

section
variable {first : CallStart → Prop} {es pre : List Entry} {e : Entry} {s : Sys κ}

theorem Bypassed.congr {s' : Sys κ} (h : Bypassed b first es pre s)
    (hs : (s'.own, s'.results) = (s.own, s.results)) : Bypassed b first es pre s' := by
  obtain ⟨hown, hres⟩ := Prod.mk.inj hs
  obtain ⟨h1, _, h3, h4, h5⟩ := Sys.own_eq_iff.mp hown
  refine ⟨h.isPrefix, h1 ▸ h.tail, h1 ▸ h.stored, h1 ▸ h.ptr, h3.trans h.recovering, h4.trans h.outcomes,
    h5.trans h.starts, ?_⟩
  rw [Sys.nextStart_of_results hres]
  exact h.toStart

theorem Bypassed.before {C : Sys κ → Prop} (h : Bypassed b first es pre s)
    (hC : ∀ c n, c.outcomes = (es.take n).map .bypassed → c.starts = [] → C c) {c : Sys κ}
    (hc : c.outcomes = s.outcomes) (hstarts : c.starts = s.starts) : C c := by
  refine hC c pre.length ?_ (hstarts.trans h.starts)
  rw [hc, h.outcomes, ← List.prefix_iff_eq_take.mp h.isPrefix]

/-- The next entry is in the cache at `ptr`, which is before `tail`. -/
theorem Bypassed.next (h : Bypassed b first es pre s) (hp : pre ++ [e] <+: es) (hpos : 0 < e.size b) :
    s.task.syscallReplayCache.ptr < s.task.syscallReplayCache.tail ∧
      s.task.syscallReplayCache.ptr + e.size b ≤ Entry.total b es ∧
      e.At b s.task.syscallReplayCache.cache s.task.syscallReplayCache.ptr := by
  obtain ⟨rest, rfl⟩ := hp
  have hs := (Entry.stored_append.mp (Entry.stored_append.mp h.stored).1).2
  rw [Nat.zero_add] at hs
  rw [h.tail, h.ptr, Entry.total_append, Entry.total_append, Entry.total_singleton]
  exact ⟨by omega, by omega, hs.1⟩

/-- The state behind a bypassed system call. -/
theorem Bypassed.noted (h : Bypassed b first es pre s) (hp : pre ++ [e] <+: es) :
    Bypassed b first es (pre ++ [e]) { Sys.withReplay (s.task.syscallReplayCache.taken (e.size b)) s with
      outcomes := s.outcomes ++ [.bypassed e] } where
  isPrefix := hp
  tail := h.tail
  stored := h.stored
  ptr := by
    rw [Entry.total_append, Entry.total_singleton, ← h.ptr]
    rfl
  recovering := h.recovering
  outcomes := by simp [h.outcomes]
  starts := h.starts
  toStart := h.toStart

theorem Sys.checkBypass_apply (h : s.task.userTxInfo.recoveryMode = true) :
    checkBypass b s = ⟨[], some ((), s)⟩ := by
  simp only [checkBypass, onTask, Task.onUser, Prog.zoom, UserTxInfo.checkBypass, gets_bind_apply, check,
    if_pos fun _ => h, pure_apply]
  rfl

theorem Sys.syscallBegin_some {r : List UInt8} {T : RetType b} (h : Bypassed b first es pre s)
    (hp : pre ++ [.ret r] <+: es) (hr : r.length = T.size) (hfit : Entry.total b es ≤ b.syscallReplayCacheSz) :
    ∃ s₁ s', syscallBegin b T.size s = ⟨[s₁, s'], some (some r, s')⟩ ∧ s₁.outcomes = s.outcomes ∧
      s₁.starts = s.starts ∧ Bypassed b first es (pre ++ [.ret r]) s' := by
  have hsize : (Entry.ret r).size b = SyscallReplayCache.alignedSz b T.size := by rw [Entry.size, hr]
  have hpos := SyscallReplayCache.alignedSz_pos T
  obtain ⟨hlt, hle, hlen, hread⟩ := h.next hp (hsize ▸ hpos)
  have hsz := b.syscallReplayCacheSz_lt
  have hT := SyscallReplayCache.le_alignedSz T
  rw [hsize] at hle
  rw [hr] at hread
  have hget : SyscallReplayCache.getEntry b T.size s.task.syscallReplayCache =
      let c := s.task.syscallReplayCache.taken (SyscallReplayCache.alignedSz b T.size)
      ⟨[c], some (some r, c)⟩ := by
    rw [SyscallReplayCache.getEntry, gets_bind_apply, gets_bind_apply, if_pos hlt, check_bind_apply,
      if_pos (by omega), check_bind_apply, if_pos (by omega), gets_bind_apply, addUsize_bind_apply (by omega),
      store_bind_apply, hread, pure_apply]
    rfl
  have hon : onReplay (SyscallReplayCache.getEntry b T.size) s =
      let s₁ := withReplay (s.task.syscallReplayCache.taken ((Entry.ret r).size b)) s
      ⟨[s₁], some (some r, s₁)⟩ := by
    rw [hsize]
    simp only [onReplay, onTask, Prog.zoom, hget]
    rfl
  rw [syscallBegin, bind_of_out (by rw [hon]), hon]
  simp only []
  rw [bind_of_out (by rw [checkBypass_apply (by exact h.recovering)]), checkBypass_apply (by exact h.recovering),
    note, store_bind_apply, pure_apply]
  exact ⟨_, _, rfl, rfl, rfl, h.noted hp⟩

theorem Sys.syscallBeginNoret_some (h : Bypassed b first es pre s) (hp : pre ++ [.noret] <+: es)
    (hfit : Entry.total b es ≤ b.syscallReplayCacheSz) :
    ∃ s₁ s', syscallBeginNoret b s = ⟨[s₁, s'], some (some (), s')⟩ ∧ s₁.outcomes = s.outcomes ∧
      s₁.starts = s.starts ∧ Bypassed b first es (pre ++ [.noret]) s' := by
  obtain ⟨hlt, hle, _⟩ := h.next hp b.width.bytes_pos
  have hsz := b.syscallReplayCacheSz_lt
  rw [Entry.size] at hle
  have hget : SyscallReplayCache.getEmptyEntry b s.task.syscallReplayCache =
      let c := s.task.syscallReplayCache.taken (archAlign b.width)
      ⟨[c], some (some (), c)⟩ := by
    rw [SyscallReplayCache.getEmptyEntry, gets_bind_apply, gets_bind_apply, if_pos hlt, addUsize_bind_apply (by omega),
      store_bind_apply, pure_apply]
    rfl
  have hon : onReplay (SyscallReplayCache.getEmptyEntry b) s =
      let s₁ := withReplay (s.task.syscallReplayCache.taken (Entry.noret.size b)) s
      ⟨[s₁], some (some (), s₁)⟩ := by
    simp only [onReplay, onTask, Prog.zoom, hget]
    rfl
  rw [syscallBeginNoret, bind_of_out (by rw [hon]), hon]
  simp only []
  rw [bind_of_out (by rw [checkBypass_apply (by exact h.recovering)]), checkBypass_apply (by exact h.recovering),
    note, store_bind_apply, pure_apply]
  exact ⟨_, _, rfl, rfl, rfl, h.noted hp⟩

end

namespace SysBody

open Entry

variable {first : CallStart → Prop} {body t : SysBody b κ} {es pre : List Entry} {s : Sys κ}

/-- The system calls with an entry are bypassed, and the rest of the body runs. -/
theorem Follows.bypass {R : Unit → Sys κ → Prop} {C : Sys κ → Prop} (hfit : total b es ≤ b.syscallReplayCacheSz)
    (hf : Follows body pre t) (hp : pre <+: es) (h : Bypassed b first es [] s)
    (hC : ∀ c n, c.outcomes = (es.take n).map .bypassed → c.starts = [] → C c)
    (hrest : ∀ s', Bypassed b first es pre s' → wpc (exec t) R True C s') : wpc (exec body) R True C s := by
  induction hf with
  | start => exact hrest s h
  | @code pre m k _ ih =>
      refine ih hp fun s₁ h₁ => ?_
      have hcrash : ∀ c : Sys κ, (c.own, c.results) = (s₁.own, s₁.results) → C c := by
        intro c hc
        obtain ⟨_, _, _, ho, hs⟩ := Sys.own_eq_iff.mp (Prod.mk.inj hc).1
        exact h₁.before hC ho hs
      exact wpc_bind (wpc_mono (m.keeps s₁) (fun _ s₂ h₂ => hrest s₂ (h₁.congr h₂)) hcrash)
  | @call pre m k s₀ s₀' r _ ho ih =>
      refine ih ((List.prefix_append _ _).trans hp) fun s₁ h₁ => ?_
      obtain ⟨s₂, s₃, hrun, h₂, hs₂, h₃⟩ := Sys.syscallBegin_some h₁ hp (m.take_length ho) hfit
      rw [exec]
      refine wpc_bind (wpc_of_run hrun (h₁.before hC rfl rfl) ?_ (hrest s₃ h₃))
      intro c hc
      simp only [List.mem_cons, List.not_mem_nil, or_false] at hc
      rcases hc with rfl | rfl
      · exact h₁.before hC h₂ hs₂
      · exact h₃.before hC rfl rfl
  | @callNoret pre m k _ ih =>
      refine ih ((List.prefix_append _ _).trans hp) fun s₁ h₁ => ?_
      obtain ⟨s₂, s₃, hrun, h₂, hs₂, h₃⟩ := Sys.syscallBeginNoret_some h₁ hp hfit
      rw [exec]
      refine wpc_bind (wpc_of_run hrun (h₁.before hC rfl rfl) ?_ (hrest s₃ h₃))
      intro c hc
      simp only [List.mem_cons, List.not_mem_nil, or_false] at hc
      rcases hc with rfl | rfl
      · exact h₁.before hC h₂ hs₂
      · exact h₃.before hC rfl rfl

/-- All the system calls with an entry are reached. -/
theorem Follows.reaches (hfit : total b es ≤ b.syscallReplayCacheSz) (hf : Follows body pre t) (hp : pre <+: es)
    (h : Bypassed b first es [] s) (hret : body.Returns) :
    t.Returns ∧ (∃ s', Bypassed b first es pre s' ∧ ∀ c ∈ (exec t s').trace, c ∈ (exec body s).trace) ∧
      ∃ c ∈ crashes (exec body) s, c.outcomes = pre.map .bypassed := by
  induction hf with
  | start => exact ⟨hret, ⟨s, h, fun _ hc => hc⟩, s, List.mem_cons_self, h.outcomes⟩
  | @code pre m k _ ih =>
      obtain ⟨⟨hm, hk⟩, ⟨s₁, h₁, htr⟩, hreach⟩ := ih hp
      obtain ⟨⟨⟨⟩, s₂⟩, ho⟩ := Option.ne_none_iff_exists'.mp (hm s₁)
      refine ⟨hk, ⟨s₂, h₁.congr ((m.keeps s₁).post ho), fun c hc => htr c ?_⟩, hreach⟩
      exact mem_trace_bind_right ho hc
  | @call pre m k s₀ s₀' r _ ho ih =>
      obtain ⟨hk, ⟨s₁, h₁, htr⟩, _⟩ := ih ((List.prefix_append _ _).trans hp)
      obtain ⟨s₂, s₃, hrun, _, _, h₃⟩ := Sys.syscallBegin_some h₁ hp (m.take_length ho) hfit
      have hout : (Sys.syscallBegin b m.T.size s₁).out = some (some (r.take m.T.size), s₃) := by rw [hrun]
      rw [exec] at htr
      refine ⟨hk _, ⟨s₃, h₃, fun c hc => htr c (mem_trace_bind_right hout hc)⟩, s₃, ?_, h₃.outcomes⟩
      exact List.mem_cons_of_mem _ (htr s₃ (mem_trace_bind_left (by simp [hrun])))
  | @callNoret pre m k _ ih =>
      obtain ⟨hk, ⟨s₁, h₁, htr⟩, _⟩ := ih ((List.prefix_append _ _).trans hp)
      obtain ⟨s₂, s₃, hrun, _, _, h₃⟩ := Sys.syscallBeginNoret_some h₁ hp hfit
      have hout : (Sys.syscallBeginNoret b s₁).out = some (some (), s₃) := by rw [hrun]
      rw [exec] at htr
      refine ⟨hk, ⟨s₃, h₃, fun c hc => htr c (mem_trace_bind_right hout hc)⟩, s₃, ?_, h₃.outcomes⟩
      exact List.mem_cons_of_mem _ (htr s₃ (mem_trace_bind_left (by simp [hrun])))

end SysBody

/-! ## The start of a run, and recovery -/

namespace Sys

variable {s : Sys κ}

/-- `s` with another user transaction. -/
def withUserTx (x : Transaction) (s : Sys κ) : Sys κ :=
  { s with task := { s.task with userTxInfo := { s.task.userTxInfo with userTx := x } } }

theorem wpc_onUserTx {m : Prog Transaction α} {Q : α → Sys κ → Prop} {E : Prop} {C : Sys κ → Prop}
    (h : wpc m (fun a x => Q a (withUserTx x s)) E (fun x => C (withUserTx x s)) s.task.userTxInfo.userTx) :
    wpc (onTask (Task.onUser (UserTxInfo.onTx m))) Q E C s :=
  wpc_zoom rfl (wpc_zoom rfl (wpc_zoom rfl h))

theorem keeps_onReplay_userCache (m : Prog SyscallReplayCache α) :
    Keeps (fun s : Sys κ => s.task.userTxInfo.userTx.cache) (onReplay m) := fun _ =>
  wpc_onReplay (wpc_mono (wpc_trivial m _) (fun _ _ _ => rfl) fun _ _ => rfl)

theorem keeps_note_userCache (o : CallOutcome) :
    Keeps (fun s : Sys κ => s.task.userTxInfo.userTx.cache) (note o) := keeps_store fun _ => rfl

theorem keeps_starts_userCache (a : α) : Keeps (fun s : Sys κ => s.task.userTxInfo.userTx.cache) (do
    restartSyscallTxCache
    noteStart
    pure a) := by
  rw [restartSyscallTxCache_eq]
  exact Keeps.bind (keeps_store fun _ => rfl) fun _ => Keeps.bind (keeps_store fun _ => rfl) fun _ => keeps_pure a

theorem keeps_checkBypass_userCache :
    Keeps (fun s : Sys κ => s.task.userTxInfo.userTx.cache) (checkBypass b) := by
  have hcheck : Keeps (fun u : UserTxInfo => u.userTx.cache) (UserTxInfo.checkBypass b) :=
    (keeps_gets _).bind fun _ => keeps_check _
  have huser : Keeps (fun t : Task => t.userTxInfo.userTx.cache) (Task.onUser (UserTxInfo.checkBypass b)) :=
    hcheck.zoom (fun _ => rfl) fun _ _ => rfl
  exact huser.zoom (fun _ => rfl) fun _ _ => rfl

theorem keeps_syscallBegin_userCache (size : Nat) :
    Keeps (fun s : Sys κ => s.task.userTxInfo.userTx.cache) (syscallBegin b size) := by
  refine (keeps_onReplay_userCache _).bind fun r => ?_
  cases r with
  | none => exact keeps_starts_userCache none
  | some r =>
      refine keeps_checkBypass_userCache.bind fun _ => ?_
      exact (keeps_note_userCache _).bind fun _ => keeps_pure _

theorem keeps_syscallBeginNoret_userCache :
    Keeps (fun s : Sys κ => s.task.userTxInfo.userTx.cache) (syscallBeginNoret b) := by
  refine (keeps_onReplay_userCache _).bind fun r => ?_
  cases r with
  | none => exact keeps_starts_userCache none
  | some r =>
      refine keeps_checkBypass_userCache.bind fun _ => ?_
      exact (keeps_note_userCache _).bind fun _ => keeps_pure _

theorem keeps_syscallEndRest_userCache :
    Keeps (fun s : Sys κ => s.task.userTxInfo.userTx.cache) (syscallEndRest b) := by
  have hcommit : Keeps (fun t : Task => t.userTxInfo.userTx.cache) (Task.commitSyscallTxCache b) :=
    keeps_zoom fun _ _ => rfl
  have hreset : Keeps (fun t : Task => t.userTxInfo.userTx.cache) Task.resetListTransaction :=
    keeps_store fun _ => rfl
  refine Keeps.bind (hcommit.zoom (fun _ => rfl) fun _ _ => rfl) fun _ => ?_
  exact Keeps.bind (hreset.zoom (fun _ => rfl) fun _ _ => rfl) fun _ => keeps_onReplay_userCache _

end Sys

namespace SysBody

open Entry

variable {first : CallStart → Prop} {body t : SysBody b κ} {es : List Entry} {s : Sys κ}

/-- No system call touches the cache of the user transaction. -/
theorem keeps_exec_userCache : Keeps (fun s : Sys κ => s.task.userTxInfo.userTx.cache) (exec t) := by
  induction t with
  | done => exact keeps_pure _
  | code m k ih => exact (m.keeps.comp fun o => o.1.2.1).bind fun _ => ih
  | call m k ih =>
      rw [exec]
      refine (Sys.keeps_syscallBegin_userCache _).bind fun r => ?_
      cases r with
      | some r => exact ih r
      | none =>
          refine (m.keeps.comp fun o => o.2.1).bind fun r => (Sys.keeps_note_userCache _).bind fun _ => ?_
          refine Keeps.bind ?_ fun _ => ih _
          exact (Sys.keeps_onReplay_userCache _).bind fun _ => Sys.keeps_syscallEndRest_userCache
  | callNoret m k ih =>
      rw [exec]
      refine Sys.keeps_syscallBeginNoret_userCache.bind fun r => ?_
      cases r with
      | some r => exact ih
      | none =>
          refine (m.keeps.comp fun o => o.2.1).bind fun r => (Sys.keeps_note_userCache _).bind fun _ => ?_
          refine Keeps.bind ?_ fun _ => ih
          exact (Sys.keeps_onReplay_userCache _).bind fun _ => Sys.keeps_syscallEndRest_userCache

/-- What comes before the closure. -/
def start (b : Board) : Prog (Sys κ) Unit := do
  Sys.onReplay SyscallReplayCache.restart
  Sys.onTask (Task.onUser (UserTxInfo.onTx (Transaction.begin b)))

theorem upToCommit_eq : upToCommit b body = start b >>= fun _ => exec body := (assoc _ _ _).symm

/-- `s'` is `s` with the entries to be taken again. -/
structure Started (s s' : Sys κ) : Prop where
  replay : s'.task.syscallReplayCache = { s.task.syscallReplayCache with ptr := 0 }
  recoveryMode : s'.task.userTxInfo.recoveryMode = s.task.userTxInfo.recoveryMode
  outcomes : s'.outcomes = s.outcomes
  starts : s'.starts = s.starts
  next : s'.task.nextStart = s.task.nextStart

theorem wpc_begin_flag (x : Transaction) :
    wpc (Transaction.begin b) (fun _ x' => ¬ x'.cache.isCommitted b.width) True (fun _ => True) x := by
  have hclear : ∀ x : Transaction, wpc (Transaction.onCache (TxCache.clearCommitFlag b.width))
      (fun _ x' => ¬ x'.cache.isCommitted b.width) True (fun _ => True) x := by
    intro x
    refine wpc_zoom rfl (wpc_store trivial trivial ?_)
    rw [TxCache.isCommitted, clear_and_txCommitted]
    exact (Nat.ne_of_gt (txCommitted_pos b.width)).symm
  exact wpc_bind (wpc_mono (wpc_trivial _ x) (fun _ x' _ => hclear x') fun _ _ => trivial)

theorem wpc_start (s : Sys κ) :
    wpc (start b) (fun _ s' => Started s s' ∧ ¬ s'.task.userTxInfo.userTx.cache.isCommitted b.width) True
      (fun c => c.task.syscallReplayCache.tail = s.task.syscallReplayCache.tail ∧ c.outcomes = s.outcomes ∧
        c.starts = s.starts ∧ c.task.nextStart = s.task.nextStart) s := by
  refine wpc_bind (Sys.wpc_onReplay (wpc_store ⟨rfl, rfl, rfl, rfl⟩ ⟨rfl, rfl, rfl, rfl⟩ ?_))
  exact Sys.wpc_onUserTx (wpc_mono (wpc_begin_flag _) (fun _ x hx => ⟨⟨rfl, rfl, rfl, rfl, rfl⟩, hx⟩) fun x _ =>
    ⟨rfl, rfl, rfl, rfl⟩)

theorem ends_start (h : s.task.userTxInfo.userTx.nestingLevel = 0) :
    Ends (start b) (fun _ s' => Started s s') s := by
  have hinc : Ends (Transaction.incNesting b) (fun _ _ => True) s.task.userTxInfo.userTx := by
    unfold Transaction.incNesting
    split
    · simp [h]
    · trivial
  have hbegin : Ends (Transaction.begin b) (fun _ _ => True) s.task.userTxInfo.userTx := by
    rw [Transaction.begin, ends_bind]
    exact hinc.mono fun _ _ _ => trivial
  have hends : Ends (start b) (fun _ _ => True) s := by
    rw [start, ends_bind]
    refine ends_zoom.mpr (ends_zoom.mpr ?_)
    exact ends_zoom.mpr (ends_zoom.mpr (ends_zoom.mpr (hbegin.mono fun _ _ _ => trivial)))
  exact (hends.and_after (wpc_start s).toAfter).mono fun _ _ h => h.2.1

/-- What the first run leaves, and a failure in it. The flag is only set where nothing has been added. -/
theorem wpc_upToCommit (hb : body.Fits 0) (htail : s.task.syscallReplayCache.tail = 0) (ho : s.outcomes = [])
    (hstarts : s.starts = []) (hfresh : s.task.nextStart.Fresh b.width) :
    wpc (upToCommit b body) (fun _ s' => s'.task.nextStart.Fresh b.width) True
      (fun c => ∃ es, Added (fun _ => False) body [] es c ∧
        (c.task.userTxInfo.userTx.cache.isCommitted b.width → c.task.syscallReplayCache.tail = 0)) s := by
  rw [upToCommit_eq]
  refine wpc_bind (wpc_mono (wpc_start s) ?_ ?_)
  · rintro _ s₁ ⟨h, hflag⟩
    have htail₁ : s₁.task.syscallReplayCache.tail = 0 := by rw [h.replay]; exact htail
    have hptr₁ : s₁.task.syscallReplayCache.ptr = s₁.task.syscallReplayCache.tail := by rw [h.replay]; exact htail.symm
    have hstarts₁ : s₁.starts = [] := h.starts.trans hstarts
    have hbetween : Between (fun _ => False) body [] [] body s₁ :=
      ⟨.start, ⟨htail₁, trivial, .nil hstarts₁⟩, hptr₁, h.outcomes.trans ho, congrArg List.length hstarts₁,
        Or.inl (h.next ▸ hfresh)⟩
    refine wpc_mono (wpc_and (wpc_exec hb hbetween) (keeps_exec_userCache s₁)) ?_ ?_
    · rintro _ s' ⟨⟨es, h'⟩, _⟩
      exact h'.next.resolve_right fun hno => hno.2
    · rintro c ⟨⟨es, hadded⟩, hcache⟩
      have hflag' : ¬ c.task.userTxInfo.userTx.cache.isCommitted b.width := by
        rw [show c.task.userTxInfo.userTx.cache = s₁.task.userTxInfo.userTx.cache from hcache]
        exact hflag
      exact ⟨es, hadded, fun hcommitted => absurd hcommitted hflag'⟩
  · rintro c ⟨h1, h2, h3, h4⟩
    have hstarts' : c.starts = [] := h3.trans hstarts
    have hadded : Added (fun _ => False) body [] [] c :=
      ⟨⟨body, .start⟩, ⟨h1.trans htail, trivial, .nil hstarts'⟩, ⟨[], List.prefix_rfl, h2.trans ho⟩,
        Or.inr ⟨congrArg List.length hstarts', Or.inr (Or.inl (h4 ▸ hfresh))⟩⟩
    exact ⟨[], hadded, fun _ => h1.trans htail⟩

/-- A state in which a run starts that finds the entries `es`. -/
structure Found (b : Board) (first : CallStart → Prop) (es : List Entry) (s : Sys κ) : Prop where
  tail : s.task.syscallReplayCache.tail = total b es
  stored : Entry.Stored b s.task.syscallReplayCache.cache 0 es
  recovering : s.task.userTxInfo.recoveryMode = true
  outcomes : s.outcomes = []
  starts : s.starts = []
  next : s.task.nextStart.Fresh b.width ∨ first s.task.nextStart

theorem Found.started {s' : Sys κ} (h : Found b first es s) (hs : Started s s') : Bypassed b first es [] s' where
  isPrefix := List.nil_prefix
  tail := by rw [hs.replay]; exact h.tail
  stored := by rw [hs.replay]; exact h.stored
  ptr := by rw [hs.replay]; rfl
  recovering := hs.recoveryMode.trans h.recovering
  outcomes := hs.outcomes.trans h.outcomes
  starts := hs.starts.trans h.starts
  toStart := by rw [hs.next]; exact h.next

/-- The run that finds the entries. -/
theorem wpc_again (hb : body.Fits 0) (hf : Follows body es t) (h : Found b first es s) :
    wpc (upToCommit b body)
      (fun _ s' => ∃ xs, Follows body (es ++ xs) .done ∧ s'.outcomes = es.map .bypassed ++ xs.map .executed ∧
        s'.starts.length = xs.length ∧ s'.StartsFresh b first) True
      (fun c => ((∃ n, c.outcomes = (es.take n).map .bypassed) ∨
        ∃ xs : List Entry, c.outcomes = es.map .bypassed ++ xs.map .executed) ∧ c.StartsFresh b first) s := by
  rw [upToCommit_eq]
  refine wpc_bind (wpc_mono (wpc_start s) ?_ ?_)
  · rintro _ s₁ ⟨hs, _⟩
    refine hf.bypass (hf.fits hb).2 List.prefix_rfl (h.started hs)
      (fun c n hc hstarts => ⟨Or.inl ⟨n, hc⟩, .nil hstarts⟩) fun s₂ h₂ => ?_
    have hnext : s₂.NextFresh b first := h₂.toStart.imp_right fun hfirst => ⟨h₂.starts, hfirst⟩
    have hbetween : Between first body es [] t s₂ := by
      refine ⟨by rwa [List.append_nil], ⟨?_, ?_, .nil h₂.starts⟩, h₂.ptr.trans h₂.tail.symm, ?_,
        congrArg List.length h₂.starts, hnext⟩
      · rw [List.append_nil]; exact h₂.tail
      · rw [List.append_nil]; exact h₂.stored
      · rw [List.map_nil, List.append_nil]; exact h₂.outcomes
    refine wpc_mono (wpc_exec hb hbetween) ?_ ?_
    · rintro _ s' ⟨xs, h'⟩
      exact ⟨xs, h'.follows, h'.outcomes, h'.count, h'.stocked.fresh⟩
    · rintro c ⟨ys, h'⟩
      obtain ⟨zs, _, ho⟩ := h'.outcomes
      exact ⟨Or.inr ⟨zs, ho⟩, h'.stocked.fresh⟩
  · rintro c ⟨_, hc, hstarts, _⟩
    exact ⟨Or.inl ⟨0, hc.trans h.outcomes⟩, .nil (hstarts.trans h.starts)⟩

/-- It comes as far as the run that has added them. -/
theorem Found.reaches (hb : body.Fits 0) (hf : Follows body es t) (h : Found b first es s)
    (hlevel : s.task.userTxInfo.userTx.nestingLevel = 0) (hret : body.Returns) :
    ∃ c ∈ crashes (upToCommit b body) s, c.outcomes = es.map .bypassed := by
  obtain ⟨_, s₁, ho, hs⟩ := (ends_start (b := b) hlevel).returns
  obtain ⟨_, _, c, hc, hout⟩ := hf.reaches (hf.fits hb).2 List.prefix_rfl (h.started hs) hret
  rw [crashes, List.mem_cons] at hc
  rcases hc with rfl | hc
  · exact ⟨s, List.mem_cons_self, h.outcomes.trans (((h.started hs).outcomes.symm.trans hout))⟩
  · rw [upToCommit_eq]
    exact ⟨c, List.mem_cons_of_mem _ (mem_trace_bind_right ho hc), hout⟩

end SysBody

namespace Task

variable {layout : StackLayout} {g : Nat} {t : Task}

/-- What decides about bypassing system calls. -/
def replay (t : Task) : SyscallReplayCache × TxCache × Bool :=
  (t.syscallReplayCache, t.userTxInfo.userTx.cache, t.userTxInfo.recoveryMode)

theorem keeps_onTx_replay (m : Prog Transaction α) : Keeps replay (onTx m) := keeps_zoom fun _ _ => rfl

theorem keeps_finishSyscall_replay : Keeps replay (finishSyscall b) := by
  refine (keeps_gets _).bind fun _ => (keeps_gets _).bind fun _ => ?_
  split
  · exact (keeps_onTx_replay _).bind fun _ => keeps_store fun _ => rfl
  · exact keeps_pure _

theorem keeps_finishLoop_replay : Keeps replay (finishLoop b) := by
  have hset : Keeps (fun u : UserTxInfo => (u.userTx.cache, u.recoveryMode)) (UserTxInfo.setLoopCnt b) := by
    refine (keeps_gets _).bind fun ptr => ?_
    cases ptr with
    | none => exact keeps_fail
    | some i =>
        refine (keeps_gets _).bind fun _ => (keeps_gets _).bind fun _ => Keeps.bind ?_ fun _ => keeps_store fun _ => rfl
        exact (keeps_check _).bind fun _ => keeps_pure _
  refine (keeps_gets _).bind fun _ => (keeps_gets _).bind fun _ => ?_
  split
  · intro t
    refine wpc_zoom rfl (wpc_mono (hset _) ?_ ?_)
    · exact fun _ u hu => congrArg (Prod.mk t.syscallReplayCache) hu
    · exact fun u hu => congrArg (Prod.mk t.syscallReplayCache) hu
  · exact keeps_pure _

/-- The last part of recovery empties the cache where the transaction had committed. -/
theorem after_recoverUser_replay (t : Task) :
    After (recoverUser b layout) (fun _ t' => t'.syscallReplayCache.cache = t.syscallReplayCache.cache ∧
      (t'.syscallReplayCache.tail = t.syscallReplayCache.tail ∨
        t.userTxInfo.userTx.cache.isCommitted b.width ∧ t'.syscallReplayCache.tail = 0) ∧
      t'.userTxInfo.recoveryMode = t.userTxInfo.recoveryMode ∧ t'.userTxInfo.userTx.nestingLevel = 0) t := by
  by_cases hc : t.userTxInfo.userTx.cache.isCommitted b.width
  · rw [after_congr (recoverUser_of_committed hc)]
    exact ⟨rfl, Or.inr ⟨hc, rfl⟩, rfl, rfl⟩
  · rw [after_congr (recoverUser_of_not hc), rollBackUser, after_bind]
    refine after_zoom.mpr (after_zoom.mpr (after_zoom.mpr (After.of_forall fun _ pm => ?_)))
    exact ⟨rfl, Or.inl rfl, rfl, rfl⟩

/-- What recovery leaves for the next run. -/
theorem after_jitRecovery_replay (hg : t.generation ≠ g) :
    After (jitRecovery b layout g) (fun _ t' => t'.syscallReplayCache.cache = t.syscallReplayCache.cache ∧
      (t'.syscallReplayCache.tail = t.syscallReplayCache.tail ∨
        t.userTxInfo.userTx.cache.isCommitted b.width ∧ t'.syscallReplayCache.tail = 0) ∧
      t'.userTxInfo.recoveryMode = true ∧ t'.userTxInfo.userTx.nestingLevel = 0) t := by
  rw [after_congr (jitRecovery_eq hg), after_bind, stages, after_bind]
  refine after_zoom.mpr ?_
  rw [after_store, after_bind]
  refine ((keeps_onTx_replay _ _).toAfter).mono fun _ t₁ h₁ => ?_
  rw [after_bind]
  refine ((keeps_onTx_replay _ _).toAfter).mono fun _ t₂ h₂ => ?_
  rw [after_bind]
  refine ((keeps_finishSyscall_replay _).toAfter).mono fun _ t₃ h₃ => ?_
  rw [after_bind]
  refine ((keeps_finishLoop_replay _).toAfter).mono fun _ t₄ h₄ => ?_
  have hkept := h₄.trans (h₃.trans (h₂.trans h₁))
  simp only [replay, setUserTxInfo, Prod.mk.injEq] at hkept
  obtain ⟨hreplay, hcache, hmode⟩ := hkept
  refine (after_recoverUser_replay t₄).mono fun _ t₅ h₅ => ?_
  rw [hreplay, hcache, hmode] at h₅
  exact h₅

/-! ### What recovery leaves of an interrupted system call -/

theorem keeps_onUser_nextStart (m : Prog UserTxInfo α) : Keeps nextStart (onUser m) := keeps_zoom fun _ _ => rfl

theorem keeps_rollBack_nextStart : Keeps nextStart (onTx (Transaction.rollBackIfUncommitted b)) := by
  have honPm : ∀ {β : Type} (m : Prog Pmem β), Keeps Transaction.cache (Transaction.onPm m) := fun m =>
    keeps_zoom fun _ _ => rfl
  have hcheck : Keeps Transaction.cache (Transaction.checkCommitted b) := by
    refine (keeps_gets _).bind fun _ => ?_
    split
    · exact (honPm _).bind fun _ => keeps_pure _
    · exact keeps_pure _
  have hroll : Keeps Transaction.cache (Transaction.rollBackIfUncommitted b) := by
    refine hcheck.bind fun committed => ?_
    cases committed with
    | true => exact keeps_pure _
    | false => exact honPm _
  intro t
  refine wpc_zoom rfl (wpc_mono (hroll _) ?_ ?_)
  · exact fun _ x hx => congrArg (fun c : TxCache => (⟨{ c with ptr := 0 }, t.listTxDone⟩ : CallStart)) hx
  · exact fun x hx => congrArg (fun c : TxCache => (⟨{ c with ptr := 0 }, t.listTxDone⟩ : CallStart)) hx

theorem keeps_resetNestingLevel_nextStart : Keeps nextStart (onTx resetNestingLevel) := fun _ =>
  wpc_zoom rfl (wpc_store rfl rfl rfl)

theorem keeps_finishLoop_nextStart : Keeps nextStart (finishLoop b) := by
  refine (keeps_gets _).bind fun _ => (keeps_gets _).bind fun _ => ?_
  split
  · exact keeps_onUser_nextStart _
  · exact keeps_pure _

theorem keeps_recoverUser_nextStart : Keeps nextStart (recoverUser b layout) := by
  have hfinish : Keeps nextStart (onUser UserTxInfo.restart) := keeps_onUser_nextStart _
  refine Keeps.bind ((keeps_onUser_nextStart _).bind fun committed => ?_) fun _ => keeps_store fun _ => rfl
  refine Keeps.bind ?_ fun _ => hfinish
  split
  · exact (keeps_onUser_nextStart _).bind fun _ => keeps_store fun _ => rfl
  · exact (keeps_onUser_nextStart _).bind fun _ => keeps_onUser_nextStart _

/-- A system call whose entry is there is over. -/
theorem after_finishSyscall_nextStart (t : Task) : After (finishSyscall b) (fun _ t' => t'.nextStart.Fresh b.width ∨
    ¬ t.syscallReplayCache.ptr < t.syscallReplayCache.tail ∧ t'.nextStart = t.nextStart) t := by
  rw [finishSyscall, after_bind, after_gets, after_bind, after_gets]
  split
  · rw [commitSyscallTxCache, onTx, after_bind, Transaction.onCache, after_zoom, after_zoom, TxCache.commitResetTail,
      after_store, resetListTransaction, after_store]
    exact Or.inl (CallStart.fresh_committed _ _)
  · next hlt => exact Or.inr ⟨hlt, rfl⟩

/-- After recovery the next system call finds nothing, or what the one found or left in which power failed. -/
theorem after_jitRecovery_nextStart (hg : t.generation ≠ g) :
    After (jitRecovery b layout g) (fun _ t' => t'.nextStart.Fresh b.width ∨
      ¬ t.syscallReplayCache.ptr < t.syscallReplayCache.tail ∧ t'.nextStart = t.nextStart) t := by
  rw [after_congr (jitRecovery_eq hg), after_bind, stages, after_bind]
  refine after_zoom.mpr ?_
  rw [after_store, after_bind]
  refine (((keeps_onTx_replay _ _).toAfter).and ((keeps_rollBack_nextStart _).toAfter)).mono fun _ t₁ ht₁ => ?_
  obtain ⟨hr₁, h₁⟩ := ht₁
  rw [after_bind]
  refine (((keeps_onTx_replay _ _).toAfter).and ((keeps_resetNestingLevel_nextStart _).toAfter)).mono
    fun _ t₂ ht₂ => ?_
  obtain ⟨hr₂, h₂⟩ := ht₂
  have hreplay : t₂.syscallReplayCache = t.syscallReplayCache := congrArg Prod.fst (hr₂.trans hr₁)
  have hnext : t₂.nextStart = t.nextStart := h₂.trans h₁
  rw [after_bind]
  refine (after_finishSyscall_nextStart t₂).mono fun _ t₃ h₃ => ?_
  rw [hreplay, hnext] at h₃
  rw [after_bind]
  refine ((keeps_finishLoop_nextStart _).toAfter).mono fun _ t₄ h₄ => ?_
  refine ((keeps_recoverUser_nextStart _).toAfter).mono fun _ t₅ h₅ => ?_
  rw [after_store]
  have hlast : ({ t₅ with generation := g } : Task).nextStart = t₃.nextStart := Eq.trans h₅ h₄
  rw [hlast]
  exact h₃

end Task

/-- Where the task stands when it comes to the transaction again. Recovered with the fields of `t`, it has only
bypassed transactions since. -/
structure Restarted (t : Task) (s : Sys κ) : Prop where
  cache : s.task.syscallReplayCache.cache = t.syscallReplayCache.cache
  tail : s.task.syscallReplayCache.tail = t.syscallReplayCache.tail
  syscallTxCache : s.task.syscallTxCache = t.syscallTxCache
  listTxDone : s.task.listTxDone = t.listTxDone
  recoveryMode : s.task.userTxInfo.recoveryMode = t.userTxInfo.recoveryMode
  nestingLevel : s.task.userTxInfo.userTx.nestingLevel = t.userTxInfo.userTx.nestingLevel
  outcomes : s.outcomes = []
  starts : s.starts = []

/-- Power fails in the first run of a transaction, at any store from its start to its commit, and the task recovers.
The entries `es` that the first run has added are those of its first system calls. The run after it bypasses these
system calls, each with the same result, and executes those behind them; it comes that far, unless code between the
system calls stops. In both runs a system call that is executed finds no results of another one. Only the first of the
second run finds what is its own, if power failed in that system call. -/
theorem syscalls_replayed {layout : StackLayout} {g : Nat} {body : SysBody b κ} {r : List UInt8} {s c s₂ : Sys κ}
    {t : Task} (hfits : body.Fits 0) (htail : s.task.syscallReplayCache.tail = 0) (hs : s.outcomes = [])
    (hstarts : s.starts = []) (hfresh : s.task.nextStart.Fresh b.width)
    (hc : c ∈ crashes (SysBody.upToCommit b body) s) (hg : c.task.generation ≠ g)
    (hjit : (Task.jitRecovery b layout g c.task).out = some ((), t)) (hre : Restarted t s₂) :
    ∃ es : List Entry, c.task.syscallReplayCache.tail = Entry.total b es ∧ es.map .executed <+: c.outcomes ∧
      (∀ st ∈ c.starts, st.Fresh b.width) ∧
      (body.Returns → ∃ c' ∈ crashes (SysBody.upToCommit b body) s₂, c'.outcomes = es.map .bypassed) ∧
      wpc (SysBody.runSys b body r)
        (fun _ s' => (∃ xs, SysBody.Follows body (es ++ xs) .done ∧
          s'.outcomes = es.map .bypassed ++ xs.map .executed ∧ s'.starts.length = xs.length) ∧
          s'.StartsFresh b (fun st => c.starts.length = es.length + 1 ∧ st = c.task.nextStart) ∧
          s'.task.syscallReplayCache.tail = 0) True
        (fun c' => ((∃ n, c'.outcomes = (es.take n).map .bypassed) ∨
          ∃ xs : List Entry, c'.outcomes = es.map .bypassed ++ xs.map .executed) ∧
          c'.StartsFresh b (fun st => c.starts.length = es.length + 1 ∧ st = c.task.nextStart)) s₂ := by
  obtain ⟨es, hadded, hflag⟩ := (SysBody.wpc_upToCommit hfits htail hs hstarts hfresh).crash hc
  obtain ⟨hcache, ht, hmode, hlevel⟩ := (Task.after_jitRecovery_replay hg).post hjit
  have hnext := (Task.after_jitRecovery_nextStart hg).post hjit
  obtain ⟨⟨t', hfollows⟩, ⟨htotal, hstored, hstartsFresh⟩, ⟨zs, hzs, hout⟩, hrest⟩ := hadded
  rw [List.nil_append] at hfollows htotal hstored
  have ht' : t.syscallReplayCache.tail = c.task.syscallReplayCache.tail := by
    rcases ht with ht | ⟨hcommitted, ht⟩
    · exact ht
    · exact ht.trans (hflag hcommitted).symm
  -- recovery leaves results only where power failed inside a system call
  have hfirst : t.nextStart.Fresh b.width ∨ c.starts.length = es.length + 1 ∧ t.nextStart = c.task.nextStart := by
    rcases hnext with hdone | ⟨hlt, hsame⟩
    · exact Or.inl hdone
    · rcases hrest with ⟨hlen, _⟩ | ⟨_, hend | hclean | ⟨_, hno⟩⟩
      · exact Or.inr ⟨hlen, hsame⟩
      · exact absurd hend hlt
      · exact Or.inl (hsame ▸ hclean)
      · exact hno.elim
  have hsame₂ : s₂.task.nextStart = t.nextStart := by
    rw [Task.nextStart, Task.nextStart, hre.syscallTxCache, hre.listTxDone]
  have hfound : SysBody.Found b (fun st => c.starts.length = es.length + 1 ∧ st = c.task.nextStart) es s₂ :=
    ⟨hre.tail.trans (ht'.trans htotal), hre.cache.trans hcache ▸ hstored, hre.recoveryMode.trans hmode, hre.outcomes,
      hre.starts, hsame₂.symm ▸ hfirst⟩
  refine ⟨es, htotal, ?_, ?_, ?_, ?_⟩
  · rw [hout]
    exact hzs.map _
  · intro st hst
    obtain ⟨i, hi⟩ := List.mem_iff_getElem?.mp hst
    exact (hstartsFresh i st hi).resolve_right fun hno => hno.2
  · exact hfound.reaches hfits hfollows (hre.nestingLevel.trans hlevel)
  · refine wpc_bind (wpc_mono (SysBody.wpc_again hfits hfollows hfound) ?_ fun _ hc => hc)
    rintro _ s₃ ⟨xs, hdone, ho, hcount, hfresh₃⟩
    have hcrash : ∀ c' : Sys κ, c'.outcomes = s₃.outcomes → c'.starts = s₃.starts →
        ((∃ n, c'.outcomes = (es.take n).map .bypassed) ∨ ∃ xs : List Entry, c'.outcomes =
          es.map .bypassed ++ xs.map .executed) ∧
          c'.StartsFresh b (fun st => c.starts.length = es.length + 1 ∧ st = c.task.nextStart) :=
      fun c' hc' hst => ⟨Or.inr ⟨xs, hc'.trans ho⟩, hfresh₃.congr hst⟩
    refine wpc_bind (Sys.wpc_onUserTx (wpc_mono (wpc_trivial _ _) (fun _ x _ => ?_) fun x _ => hcrash _ rfl rfl))
    exact wpc_zoom rfl (wpc_store (hcrash _ rfl rfl) (hcrash _ rfl rfl)
      ⟨⟨xs, hdone, ho, hcount⟩, hfresh₃.congr rfl, rfl⟩)

/-- A task that has just been created. -/
def Task.created : Task where
  userTxInfo :=
    { userTx := ⟨⟨fun _ => 0, Journal.new⟩, TxCache.new, 0⟩
      stackTop := 0
      tailStack := fun _ => 0
      loopCntLog := 0
      loopCntPtr := none
      step := 0
      counters := fun _ => 0
      recoveryMode := false }
  journal := Journal.new
  syscallTxCache := TxCache.new
  nestingLevel := 0
  syscallReplayCache := ⟨0, 0, fun _ => 0⟩
  listTxDone := false
  generation := 0
  stackTop := 0
  stackBottom := 100

/-- A system call that returns 7, and one that returns nothing. -/
def SysBody.twoCalls : SysBody ⟨.w16, 64, false, false⟩ Unit :=
  .call
    { prog := pure [7, 0]
      keeps := keeps_pure _
      T := ⟨2, Nat.two_pos, by decide⟩
      length_eq := fun _ _ _ h => by cases h; rfl }
    fun _ => .callNoret ⟨pure (), keeps_pure _⟩ .done

theorem SysBody.twoCalls_fits : twoCalls.Fits 0 := by
  refine ⟨by decide, fun s r s' _ => ⟨by decide, trivial⟩⟩

/-- Power fails at the end of the second system call, when its entry is there. -/
def Sys.crashed : Sys Unit :=
  ⟨{ Task.created with
      syscallTxCache := ⟨fun _ => 0, 0, 0x8000⟩
      syscallReplayCache := ⟨2, 4, Function.update (Function.update (fun _ => 0) 0 7) 1 0⟩ },
    (), [.executed (.ret [7, 0]), .executed .noret], [⟨TxCache.new, false⟩, ⟨⟨fun _ => 0, 0, 0x8000⟩, false⟩]⟩

theorem SysBody.twoCalls_crashed :
    Sys.crashed ∈ crashes (upToCommit ⟨.w16, 64, false, false⟩ twoCalls) ⟨Task.created, (), [], []⟩ := by
  refine List.mem_of_getElem? (i := 15) ?_
  rewrite [upToCommit, twoCalls, exec]
  rfl

theorem syscalls_replayed_two : ∃ t : Task,
    (Task.jitRecovery ⟨.w16, 64, false, false⟩ .msp430 1 Sys.crashed.task).out = some ((), t) ∧
      ∃ es : List Entry, Entry.total ⟨.w16, 64, false, false⟩ es = 4 ∧
        (∀ st ∈ Sys.crashed.starts, st.Fresh .w16) ∧
        ∃ c ∈ crashes (SysBody.upToCommit _ SysBody.twoCalls) ⟨t, (), [], []⟩, c.outcomes = es.map .bypassed := by
  obtain ⟨t, hjit⟩ : ∃ t, (Task.jitRecovery ⟨.w16, 64, false, false⟩ .msp430 1 Sys.crashed.task).out =
    some ((), t) := ⟨_, rfl⟩
  have hfresh : Task.created.nextStart.Fresh .w16 := ⟨rfl, by decide, by decide, rfl⟩
  have hre : Restarted t (⟨t, (), [], []⟩ : Sys Unit) := ⟨rfl, rfl, rfl, rfl, rfl, rfl, rfl, rfl⟩
  obtain ⟨es, htotal, _, hstarts, hreach, _⟩ := syscalls_replayed (r := []) SysBody.twoCalls_fits rfl rfl rfl hfresh
    SysBody.twoCalls_crashed Nat.zero_ne_one hjit hre
  exact ⟨t, hjit, es, htotal.symm, hstarts, hreach fun _ => trivial⟩

end IntOS
