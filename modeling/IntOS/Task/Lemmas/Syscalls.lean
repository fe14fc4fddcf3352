import IntOS.Task.Syscalls
import IntOS.Tx.Lemmas.Cache

/-!
# Entries of the replay cache

What a run adds to the cache, system call after system call, and what a failure leaves of it.
-/

namespace IntOS

open Persist Persist.Prog

variable {b : Board} {κ α : Type}

/-! ## Entries -/

namespace SyscallReplayCache

theorem le_alignedSz (T : RetType b) : T.size ≤ alignedSz b T.size := by
  obtain ⟨k, hk, _⟩ := b.width.bits_eq_log
  have hlt := T.lt
  have hw : b.width.bytes + 2 ^ (b.width.bits - 1) ≤ 2 ^ b.width.bits := by cases b.width <;> decide
  exact (alignUp_bounds b.width (show archAlign b.width = 2 ^ k from hk) (by unfold archAlign; omega)).1

theorem alignedSz_pos (T : RetType b) : 0 < alignedSz b T.size := Nat.lt_of_lt_of_le T.pos (le_alignedSz T)

end SyscallReplayCache

theorem Board.syscallReplayCacheSz_lt (b : Board) : b.syscallReplayCacheSz < 2 ^ b.width.bits := by
  unfold Board.syscallReplayCacheSz
  cases b.width <;> decide

namespace Entry

/-- By how much the entry advances `tail`, and `ptr` when it is taken. -/
def size (b : Board) : Entry → Nat
  | ret r => SyscallReplayCache.alignedSz b r.length
  | noret => archAlign b.width

def total (b : Board) (es : List Entry) : Nat := (es.map (size b)).sum

/-- The entry is in the cache at `off`. -/
def At (b : Board) (cache : Nat → UInt8) (off : Nat) : Entry → Prop
  | ret r => r.length ≤ SyscallReplayCache.alignedSz b r.length ∧ TxCache.readResult cache off r.length = r
  | noret => True

/-- The entries are in the cache, one behind the other, from `off` on. -/
def Stored (b : Board) (cache : Nat → UInt8) : Nat → List Entry → Prop
  | _, [] => True
  | off, e :: es => e.At b cache off ∧ Stored b cache (off + e.size b) es

@[simp] theorem total_nil : total b [] = 0 := rfl

@[simp] theorem total_append (es fs : List Entry) : total b (es ++ fs) = total b es + total b fs := by
  simp [total]

@[simp] theorem total_singleton (e : Entry) : total b [e] = e.size b := by simp [total]

variable {cache cache' : Nat → UInt8} {off : Nat} {es fs : List Entry}

theorem At.congr {e : Entry} (h : e.At b cache off) (hc : ∀ i, off ≤ i → i < off + e.size b → cache' i = cache i) :
    e.At b cache' off := by
  cases e with
  | noret => trivial
  | ret r =>
      obtain ⟨hle, hr⟩ := h
      refine ⟨hle, Eq.trans (TxCache.readResult_congr fun i h1 h2 => hc i h1 ?_) hr⟩
      exact Nat.lt_of_lt_of_le h2 (Nat.add_le_add_left hle off)

theorem Stored.congr (h : Stored b cache off es) (hc : ∀ i, i < off + total b es → cache' i = cache i) :
    Stored b cache' off es := by
  induction es generalizing off with
  | nil => trivial
  | cons e es ih =>
      have ht : total b (e :: es) = e.size b + total b es := by simp [total]
      rw [ht] at hc
      obtain ⟨h1, h2⟩ := h
      constructor
      · exact h1.congr fun i _ hi => hc i (by omega)
      · exact ih h2 fun i hi => hc i (by omega)

theorem stored_append : Stored b cache off (es ++ fs) ↔
    Stored b cache off es ∧ Stored b cache (off + total b es) fs := by
  induction es generalizing off with
  | nil => simp [Stored]
  | cons e es ih =>
      have ht : total b (e :: es) = e.size b + total b es := by simp [total]
      rw [List.cons_append, Stored, Stored, ih, ht, and_assoc, Nat.add_assoc]

end Entry

/-! ## What system calls find -/

/-- No result of an earlier kernel transaction, and no list transaction, is left for the system call. -/
structure CallStart.Fresh (w : PtrWidth) (st : CallStart) : Prop where
  ptr : st.syscallTxCache.ptr = 0
  txId : st.syscallTxCache.getTxIdOfTail w = 0
  cachePtr : st.syscallTxCache.getTxCachePtrOfTail w = 0
  listTxDone : st.listTxDone = false

/-- What the next system call of the task finds when it is executed. -/
def Task.nextStart (t : Task) : CallStart := ⟨{ t.syscallTxCache with ptr := 0 }, t.listTxDone⟩

namespace Sys

/-- The system calls have found nothing, but for the first, which has perhaps found what `first` says. -/
def StartsFresh (b : Board) (first : CallStart → Prop) (s : Sys κ) : Prop :=
  ∀ i st, s.starts[i]? = some st → st.Fresh b.width ∨ i = 0 ∧ first st

/-- So will the next one. -/
def NextFresh (b : Board) (first : CallStart → Prop) (s : Sys κ) : Prop :=
  s.task.nextStart.Fresh b.width ∨ s.starts = [] ∧ first s.task.nextStart

/-- The next system call has begun. -/
def begun (s : Sys κ) : Sys κ := { s with starts := s.starts ++ [s.task.nextStart] }

variable {first : CallStart → Prop} {s s' : Sys κ}

theorem StartsFresh.congr (h : StartsFresh b first s) (hs : s'.starts = s.starts) : StartsFresh b first s' := by
  unfold StartsFresh
  rw [hs]
  exact h

theorem StartsFresh.nil (h : s.starts = []) : StartsFresh b first s := by
  intro i st hi
  rw [h] at hi
  cases hi

theorem StartsFresh.begun (h : StartsFresh b first s) (hn : NextFresh b first s) : StartsFresh b first s.begun := by
  intro i st hi
  rw [Sys.begun, List.getElem?_append] at hi
  split at hi
  · exact h i st hi
  · next hlt =>
      rw [List.getElem?_singleton] at hi
      split at hi
      · next hzero =>
          cases hi
          refine hn.imp_right fun ⟨hnil, hfirst⟩ => ⟨?_, hfirst⟩
          rw [hnil, List.length_nil] at hzero hlt
          omega
      · cases hi

theorem NextFresh.congr (h : NextFresh b first s) (hs : s'.starts = s.starts)
    (hn : s'.task.nextStart = s.task.nextStart) : NextFresh b first s' := by
  unfold NextFresh
  rw [hs, hn]
  exact h

end Sys

/-! ## One run -/

/-- `s` with another replay cache. -/
def Sys.withReplay (c : SyscallReplayCache) (s : Sys κ) : Sys κ :=
  { s with task := { s.task with syscallReplayCache := c } }

namespace SyscallReplayCache

variable {c : SyscallReplayCache}

theorem wpc_copyEntry {E : Prop} {i : Nat} {entry : List UInt8} (h : i + entry.length ≤ b.syscallReplayCacheSz)
    (s : SyscallReplayCache) :
    wpc (copyEntry b i entry)
      (fun _ s' => ∃ cache, s' = { s with cache := cache } ∧ TxCache.readResult cache i entry.length = entry ∧
        ∀ j, j < i → cache j = s.cache j) E
      (fun c => ∃ cache, c = { s with cache := cache } ∧ ∀ j, j < i → cache j = s.cache j) s := by
  induction entry generalizing i s with
  | nil => exact wpc_pure ⟨s.cache, rfl, fun _ _ => rfl⟩ ⟨s.cache, rfl, rfl, fun _ _ => rfl⟩
  | cons v entry ih =>
      rw [List.length_cons] at h
      have hupd : ∀ j, j < i → Function.update s.cache i v j = s.cache j :=
        fun j hj => Function.update_of_ne (Nat.ne_of_lt hj) _ _
      rw [copyEntry, wpc_check_bind (by omega), wpc_store_bind]
      refine ⟨⟨s.cache, rfl, fun _ _ => rfl⟩, wpc_mono (ih (by omega) _) ?_ ?_⟩
      · rintro _ s' ⟨cache, rfl, hr, hb⟩
        refine ⟨cache, rfl, ?_, fun j hj => (hb j (by omega)).trans (hupd j hj)⟩
        have hv : cache i = v := by rw [hb i (by omega)]; exact Function.update_self _ _ _
        simp only [List.length_cons, TxCache.readResult, hv, hr]
      · rintro c ⟨cache, rfl, hb⟩
        exact ⟨cache, rfl, fun j hj => (hb j (by omega)).trans (hupd j hj)⟩

/-- The entry counts from the store of `tail` on. -/
theorem wpc_addEntryStart {E : Prop} {T : RetType b} {entry : List UInt8} (hlen : entry.length = alignedSz b T.size)
    (hfit : c.tail + alignedSz b T.size ≤ b.syscallReplayCacheSz) :
    wpc (addEntryStart b T.size entry)
      (fun _ c' => c'.ptr = c.ptr ∧ c'.tail = c.tail + alignedSz b T.size ∧
        TxCache.readResult c'.cache c.tail entry.length = entry ∧ ∀ i, i < c.tail → c'.cache i = c.cache i) E
      (fun c' => c'.ptr = c.ptr ∧ (c'.tail = c.tail ∨ c'.tail = c.tail + alignedSz b T.size ∧
        TxCache.readResult c'.cache c.tail entry.length = entry) ∧ ∀ i, i < c.tail → c'.cache i = c.cache i) c := by
  have hpos := alignedSz_pos T
  have hsz := b.syscallReplayCacheSz_lt
  have hstart : c.ptr = c.ptr ∧ (c.tail = c.tail ∨ c.tail = c.tail + alignedSz b T.size ∧
      TxCache.readResult c.cache c.tail entry.length = entry) ∧ ∀ i, i < c.tail → c.cache i = c.cache i :=
    ⟨rfl, Or.inl rfl, fun _ _ => rfl⟩
  rw [addEntryStart, wpc_gets_bind]
  refine wpc_bind (wpc_addUsize (by omega) hstart ?_)
  rw [wpc_check_bind hfit, wpc_check_bind (by omega)]
  refine wpc_bind (wpc_mono (wpc_copyEntry (by omega) c) ?_ ?_)
  · rintro _ c' ⟨cache, rfl, hr, hb⟩
    rw [wpc_store_iff]
    exact ⟨⟨rfl, Or.inl rfl, hb⟩, ⟨rfl, Or.inr ⟨rfl, hr⟩, hb⟩, rfl, rfl, hr, hb⟩
  · rintro c' ⟨cache, rfl, hb⟩
    exact ⟨rfl, Or.inl rfl, hb⟩

end SyscallReplayCache

theorem SysCall.take_length (m : SysCall b κ) {s s' : Sys κ} {r : List UInt8}
    (h : (m.prog s).out = some (r, s')) : (r.take m.T.size).length = m.T.size := by
  rw [List.length_take, m.length_eq s r s' h]
  exact Nat.min_eq_left (SyscallReplayCache.le_alignedSz m.T)

namespace SysBody

open Entry

/-- The system calls behind `t` in a run of the body have added `es`. -/
inductive Follows (body : SysBody b κ) : List Entry → SysBody b κ → Prop
  | start : Follows body [] body
  | code {es : List Entry} {m : UserCode κ} {k : SysBody b κ} : Follows body es (code m k) → Follows body es k
  | call {es : List Entry} {m : SysCall b κ} {k : List UInt8 → SysBody b κ} {s s' : Sys κ} {r : List UInt8} :
      Follows body es (call m k) → (m.prog s).out = some (r, s') →
      Follows body (es ++ [.ret (r.take m.T.size)]) (k (r.take m.T.size))
  | callNoret {es : List Entry} {m : SysCode κ Unit} {k : SysBody b κ} :
      Follows body es (callNoret m k) → Follows body (es ++ [.noret]) k

variable {first : CallStart → Prop} {body t : SysBody b κ} {es xs : List Entry} {s s' : Sys κ} {e : Entry}

theorem Follows.fits (h : Follows body es t) (hf : body.Fits 0) :
    t.Fits (total b es) ∧ total b es ≤ b.syscallReplayCacheSz := by
  induction h with
  | start => exact ⟨hf, Nat.zero_le _⟩
  | code _ ih => exact ih
  | call _ ho ih =>
      obtain ⟨⟨h1, h2⟩, _⟩ := ih
      rw [total_append, total_singleton, Entry.size, SysCall.take_length _ ho]
      exact ⟨h2 _ _ _ ho, h1⟩
  | callNoret _ ih =>
      obtain ⟨⟨h1, h2⟩, _⟩ := ih
      rw [total_append, total_singleton]
      exact ⟨h2, h1⟩

/-- The entries `es` were there when the run began, and it has added `xs`. -/
structure Stocked (first : CallStart → Prop) (es xs : List Entry) (s : Sys κ) : Prop where
  tail : s.task.syscallReplayCache.tail = total b (es ++ xs)
  stored : Entry.Stored b s.task.syscallReplayCache.cache 0 (es ++ xs)
  fresh : s.StartsFresh b first

/-- What a failure leaves. The run has bypassed the system calls of `es`. The next one has begun, or the last one is at
its end, or the next one is still to find nothing. -/
structure Added (first : CallStart → Prop) (body : SysBody b κ) (es xs : List Entry) (s : Sys κ) : Prop where
  follows : ∃ t, Follows body (es ++ xs) t
  stocked : Stocked (b := b) first es xs s
  outcomes : ∃ zs, xs <+: zs ∧ s.outcomes = es.map .bypassed ++ zs.map .executed
  rest : s.starts.length = xs.length + 1 ∧ s.task.syscallReplayCache.ptr = s.task.syscallReplayCache.tail ∨
    s.starts.length = xs.length ∧
      (s.task.syscallReplayCache.ptr < s.task.syscallReplayCache.tail ∨ s.NextFresh b first)

/-- Between two system calls, with `t` still to run. -/
structure Between (first : CallStart → Prop) (body : SysBody b κ) (es xs : List Entry) (t : SysBody b κ) (s : Sys κ) :
    Prop where
  follows : Follows body (es ++ xs) t
  stocked : Stocked (b := b) first es xs s
  ptr : s.task.syscallReplayCache.ptr = s.task.syscallReplayCache.tail
  outcomes : s.outcomes = es.map .bypassed ++ xs.map .executed
  count : s.starts.length = xs.length
  next : s.NextFresh b first

/-- In a system call, which is to be executed. -/
structure Begun (first : CallStart → Prop) (body : SysBody b κ) (es xs : List Entry) (t : SysBody b κ) (s : Sys κ) :
    Prop where
  follows : Follows body (es ++ xs) t
  stocked : Stocked (b := b) first es xs s
  ptr : s.task.syscallReplayCache.ptr = s.task.syscallReplayCache.tail
  outcomes : s.outcomes = es.map .bypassed ++ xs.map .executed
  count : s.starts.length = xs.length + 1

/-- A system call has been executed, and its entry `e` is to be added. -/
structure Executed (first : CallStart → Prop) (body : SysBody b κ) (es xs : List Entry) (e : Entry) (t : SysBody b κ)
    (s : Sys κ) : Prop where
  before : ∃ t, Follows body (es ++ xs) t
  follows : Follows body (es ++ (xs ++ [e])) t
  stocked : Stocked (b := b) first es xs s
  ptr : s.task.syscallReplayCache.ptr = s.task.syscallReplayCache.tail
  outcomes : s.outcomes = es.map .bypassed ++ (xs ++ [e]).map .executed
  count : s.starts.length = xs.length + 1

/-- The last entry of `xs` has been added, and `syscall_end!` goes on. -/
structure Ending (first : CallStart → Prop) (body : SysBody b κ) (es xs : List Entry) (t : SysBody b κ) (s : Sys κ) :
    Prop where
  follows : Follows body (es ++ xs) t
  stocked : Stocked (b := b) first es xs s
  lt : s.task.syscallReplayCache.ptr < s.task.syscallReplayCache.tail
  outcomes : s.outcomes = es.map .bypassed ++ xs.map .executed
  count : s.starts.length = xs.length

theorem Stocked.congr (h : Stocked (b := b) first es xs s)
    (hr : s'.task.syscallReplayCache = s.task.syscallReplayCache) (hs : s'.starts = s.starts) :
    Stocked (b := b) first es xs s' :=
  ⟨hr ▸ h.tail, hr ▸ h.stored, h.fresh.congr hs⟩

theorem Between.added (h : Between first body es xs t s) : Added first body es xs s :=
  ⟨⟨t, h.follows⟩, h.stocked, ⟨xs, List.prefix_rfl, h.outcomes⟩, Or.inr ⟨h.count, Or.inr h.next⟩⟩

theorem Begun.added (h : Begun first body es xs t s) : Added first body es xs s :=
  ⟨⟨t, h.follows⟩, h.stocked, ⟨xs, List.prefix_rfl, h.outcomes⟩, Or.inl ⟨h.count, h.ptr⟩⟩

theorem Ending.added (h : Ending first body es xs t s) : Added first body es xs s :=
  ⟨⟨t, h.follows⟩, h.stocked, ⟨xs, List.prefix_rfl, h.outcomes⟩, Or.inr ⟨h.count, Or.inl h.lt⟩⟩

theorem Executed.notAdded (h : Executed first body es xs e t s) {c : SyscallReplayCache}
    (hp : c.ptr = s.task.syscallReplayCache.ptr) (ht : c.tail = s.task.syscallReplayCache.tail)
    (hc : ∀ i, i < s.task.syscallReplayCache.tail → c.cache i = s.task.syscallReplayCache.cache i) :
    Added first body es xs (Sys.withReplay c s) := by
  have hstored : Entry.Stored b c.cache 0 (es ++ xs) := h.stocked.stored.congr fun i hi => hc i (by
    rwa [h.stocked.tail, ← Nat.zero_add (total b (es ++ xs))])
  refine ⟨h.before, ⟨ht.trans h.stocked.tail, hstored, h.stocked.fresh⟩, ⟨_, List.prefix_append xs [e], h.outcomes⟩, ?_⟩
  exact Or.inl ⟨h.count, hp.trans (h.ptr.trans ht.symm)⟩

theorem Executed.ending (h : Executed first body es xs e t s) {c : SyscallReplayCache} (hpos : 0 < e.size b)
    (hp : c.ptr = s.task.syscallReplayCache.ptr) (ht : c.tail = s.task.syscallReplayCache.tail + e.size b)
    (he : e.At b c.cache s.task.syscallReplayCache.tail)
    (hc : ∀ i, i < s.task.syscallReplayCache.tail → c.cache i = s.task.syscallReplayCache.cache i) :
    Ending first body es (xs ++ [e]) t (Sys.withReplay c s) := by
  have hlt : c.ptr < c.tail := by
    rw [hp, ht, h.ptr]
    omega
  rw [h.stocked.tail] at ht he hc
  have hstored : Entry.Stored b c.cache 0 (es ++ (xs ++ [e])) := by
    rw [← List.append_assoc, stored_append, Nat.zero_add]
    refine ⟨h.stocked.stored.congr fun i hi => hc i ?_, he, trivial⟩
    rwa [Nat.zero_add] at hi
  have htail : c.tail = total b (es ++ (xs ++ [e])) := by
    rw [ht, ← List.append_assoc, total_append (es ++ xs), total_singleton]
  exact ⟨h.follows, ⟨htail, hstored, h.stocked.fresh⟩, hlt, h.outcomes, by simp [Sys.withReplay, h.count]⟩

end SysBody

namespace Sys

theorem own_eq_iff {s s' : Sys κ} : own s' = own s ↔
    s'.task.syscallReplayCache = s.task.syscallReplayCache ∧
      s'.task.userTxInfo.userTx.cache = s.task.userTxInfo.userTx.cache ∧
      s'.task.userTxInfo.recoveryMode = s.task.userTxInfo.recoveryMode ∧ s'.outcomes = s.outcomes ∧
      s'.starts = s.starts := by
  simp [own]

/-- The next system call finds what is among the results. -/
theorem nextStart_of_results {s s' : Sys κ} (h : results s' = results s) : s'.task.nextStart = s.task.nextStart := by
  obtain ⟨h1, h2⟩ := Prod.mk.inj h
  rw [Task.nextStart, Task.nextStart, h1, h2]

theorem wpc_onReplay {m : Prog SyscallReplayCache α} {Q : α → Sys κ → Prop} {E : Prop} {C : Sys κ → Prop} {s : Sys κ}
    (h : wpc m (fun a c => Q a (withReplay c s)) E (fun c => C (withReplay c s)) s.task.syscallReplayCache) :
    wpc (onReplay m) Q E C s :=
  wpc_zoom rfl (wpc_zoom rfl h)

theorem restartSyscallTxCache_eq : (restartSyscallTxCache : Prog (Sys κ) Unit) = store fun s => { s with
    task := { s.task with syscallTxCache := { s.task.syscallTxCache with ptr := 0 } } } := rfl

/-- The system call is executed. -/
theorem wpc_starts {E : Prop} (a : α) (s : Sys κ) :
    wpc (do
      restartSyscallTxCache
      noteStart
      pure a) (fun r s' => r = a ∧ own s' = own s.begun) E
      (fun c => own c = own s ∧ c.task.nextStart = s.task.nextStart ∨ own c = own s.begun) s := by
  rw [restartSyscallTxCache_eq, noteStart, wpc_store_bind, wpc_store_bind]
  exact ⟨Or.inl ⟨rfl, rfl⟩, Or.inl ⟨rfl, rfl⟩, wpc_pure (Or.inr rfl) ⟨rfl, rfl⟩⟩

/-- Without an entry to take the system call is executed. -/
theorem wpc_syscallBegin_none {E : Prop} {s : Sys κ} (size : Nat)
    (h : s.task.syscallReplayCache.ptr = s.task.syscallReplayCache.tail) :
    wpc (syscallBegin b size) (fun r s' => r = none ∧ own s' = own s.begun) E
      (fun c => own c = own s ∧ c.task.nextStart = s.task.nextStart ∨ own c = own s.begun) s := by
  have hlt : ¬ s.task.syscallReplayCache.ptr < s.task.syscallReplayCache.tail := by omega
  refine wpc_bind (wpc_onReplay ?_)
  rw [SyscallReplayCache.getEntry, wpc_gets_bind, wpc_gets_bind, if_neg hlt]
  exact wpc_pure (Or.inl ⟨rfl, rfl⟩) (wpc_starts none s)

theorem wpc_syscallBeginNoret_none {E : Prop} {s : Sys κ}
    (h : s.task.syscallReplayCache.ptr = s.task.syscallReplayCache.tail) :
    wpc (syscallBeginNoret b) (fun r s' => r = none ∧ own s' = own s.begun) E
      (fun c => own c = own s ∧ c.task.nextStart = s.task.nextStart ∨ own c = own s.begun) s := by
  have hlt : ¬ s.task.syscallReplayCache.ptr < s.task.syscallReplayCache.tail := by omega
  refine wpc_bind (wpc_onReplay ?_)
  rw [SyscallReplayCache.getEmptyEntry, wpc_gets_bind, wpc_gets_bind, if_neg hlt]
  exact wpc_pure (Or.inl ⟨rfl, rfl⟩) (wpc_starts none s)

end Sys

theorem CallStart.fresh_committed (w : PtrWidth) (cache : Nat → UInt8) :
    (CallStart.mk ⟨cache, 0, txCommitted w⟩ false).Fresh w := by
  have hid : txIdOf w (txCommitted w) = 0 := by cases w <;> decide
  have hptr : cachePtrOf w (txCommitted w) = 0 := by cases w <;> decide
  exact ⟨rfl, hid, hptr, rfl⟩

namespace SysBody

open Entry

variable {first : CallStart → Prop} {body t : SysBody b κ} {es xs : List Entry} {s s' : Sys κ} {e : Entry}

/-- The stores of `syscall_end!` behind the entry. -/
theorem wpc_syscallEndRest (h : Ending first body es xs t s) :
    wpc (Sys.syscallEndRest b) (fun _ s' => Between first body es xs t s') True
      (fun c => ∃ ys, Added first body es ys c) s := by
  have hcommit : (Sys.onTask (Task.commitSyscallTxCache b) : Prog (Sys κ) Unit) = store fun s : Sys κ => { s with
      task := { s.task with syscallTxCache := { s.task.syscallTxCache with tail := txCommitted b.width } } } := rfl
  have hreset : (Sys.onTask Task.resetListTransaction : Prog (Sys κ) Unit) = store fun s : Sys κ => { s with
      task := { s.task with listTxDone := false } } := rfl
  rw [Sys.syscallEndRest, hcommit, hreset, wpc_store_bind, wpc_store_bind]
  have hending : ∀ c : Sys κ, Sys.own c = Sys.own s → ∃ ys, Added first body es ys c := by
    intro c hc
    obtain ⟨h1, _, _, h4, h5⟩ := Sys.own_eq_iff.mp hc
    have hc : Ending first body es xs t c :=
      ⟨h.follows, h.stocked.congr h1 h5, h1 ▸ h.lt, h4.trans h.outcomes, h5 ▸ h.count⟩
    exact ⟨xs, hc.added⟩
  have hbetween : Between first body es xs t { s with task := { s.task with
      syscallTxCache := { s.task.syscallTxCache with tail := txCommitted b.width }
      listTxDone := false
      syscallReplayCache := { s.task.syscallReplayCache with ptr := s.task.syscallReplayCache.tail } } } :=
    ⟨h.follows, ⟨h.stocked.tail, h.stocked.stored, h.stocked.fresh⟩, rfl, h.outcomes, h.count,
      Or.inl (CallStart.fresh_committed _ _)⟩
  exact ⟨hending _ rfl, hending _ rfl, Sys.wpc_onReplay (wpc_store (hending _ rfl) ⟨xs, hbetween.added⟩ hbetween)⟩

theorem readResult_take (cache : Nat → UInt8) (i : Nat) {k n : Nat} (h : k ≤ n) :
    (TxCache.readResult cache i n).take k = TxCache.readResult cache i k := by
  obtain ⟨d, rfl⟩ := Nat.exists_eq_add_of_le h
  rw [TxCache.readResult_add, List.take_left' (TxCache.readResult_length cache i k)]

theorem wpc_syscallEnd {m : SysCall b κ} {s₀ s₁ : Sys κ} {r : List UInt8}
    (hr : (m.prog s₀).out = some (r, s₁)) (h : Executed first body es xs (.ret (r.take m.T.size)) t s)
    (hfit : total b (es ++ xs) + SyscallReplayCache.alignedSz b m.T.size ≤ b.syscallReplayCacheSz) :
    wpc (Sys.syscallEnd b m.T.size r) (fun _ s' => Between first body es (xs ++ [.ret (r.take m.T.size)]) t s') True
      (fun c => ∃ ys, Added first body es ys c) s := by
  have hlen := m.length_eq _ _ _ hr
  have htake := m.take_length hr
  have hat : ∀ {cache : Nat → UInt8} {off : Nat}, TxCache.readResult cache off r.length = r →
      (Entry.ret (r.take m.T.size)).At b cache off := by
    intro cache off hread
    rw [Entry.At, htake]
    refine ⟨SyscallReplayCache.le_alignedSz m.T, ?_⟩
    rw [← readResult_take cache off (hlen ▸ SyscallReplayCache.le_alignedSz m.T), hread]
  have hsize : (Entry.ret (r.take m.T.size)).size b = SyscallReplayCache.alignedSz b m.T.size := by
    rw [Entry.size, htake]
  have hpos : 0 < (Entry.ret (r.take m.T.size)).size b := hsize ▸ SyscallReplayCache.alignedSz_pos m.T
  rw [← h.stocked.tail] at hfit
  refine wpc_bind (Sys.wpc_onReplay (wpc_mono (SyscallReplayCache.wpc_addEntryStart hlen hfit) ?_ ?_))
  · rintro _ c ⟨hp, ht, hread, hc⟩
    exact wpc_syscallEndRest (h.ending hpos hp (ht.trans (by rw [hsize])) (hat hread) hc)
  · rintro c ⟨hp, ht | ⟨ht, hread⟩, hc⟩
    · exact ⟨xs, h.notAdded hp ht hc⟩
    · exact ⟨_, (h.ending hpos hp (ht.trans (by rw [hsize])) (hat hread) hc).added⟩

theorem wpc_syscallEndNoret (h : Executed first body es xs .noret t s)
    (hfit : total b (es ++ xs) + archAlign b.width ≤ b.syscallReplayCacheSz) :
    wpc (Sys.syscallEndNoret b) (fun _ s' => Between first body es (xs ++ [.noret]) t s') True
      (fun c => ∃ ys, Added first body es ys c) s := by
  have hsz := b.syscallReplayCacheSz_lt
  have hstart : ∃ ys, Added first body es ys s := ⟨xs, h.notAdded rfl rfl fun _ _ => rfl⟩
  rw [← h.stocked.tail] at hfit
  refine wpc_bind (Sys.wpc_onReplay ?_)
  rw [SyscallReplayCache.addEmptyEntryStart, wpc_gets_bind]
  refine wpc_bind (wpc_addUsize (by omega) hstart ?_)
  have hending := h.ending (c := { s.task.syscallReplayCache with
    tail := s.task.syscallReplayCache.tail + archAlign b.width }) b.width.bytes_pos rfl rfl trivial fun _ _ => rfl
  rw [wpc_store_iff]
  exact ⟨hstart, ⟨_, hending.added⟩, wpc_syscallEndRest hending⟩

theorem Between.congr (h : Between first body es xs t s) (hs : Sys.own s' = Sys.own s)
    (hn : s'.task.nextStart = s.task.nextStart) : Between first body es xs t s' := by
  obtain ⟨h1, _, _, h4, h5⟩ := Sys.own_eq_iff.mp hs
  exact ⟨h.follows, h.stocked.congr h1 h5, h1 ▸ h.ptr, h4.trans h.outcomes, h5 ▸ h.count, h.next.congr h5 hn⟩

theorem Between.begun (h : Between first body es xs t s) (hs : Sys.own s' = Sys.own s.begun) :
    Begun first body es xs t s' := by
  obtain ⟨h1, _, _, h4, h5⟩ := Sys.own_eq_iff.mp hs
  have hstocked : Stocked (b := b) first es xs s.begun :=
    ⟨h.stocked.tail, h.stocked.stored, h.stocked.fresh.begun h.next⟩
  refine ⟨h.follows, hstocked.congr h1 h5, h1 ▸ h.ptr, h4.trans h.outcomes, ?_⟩
  rw [h5, Sys.begun, List.length_append, h.count, List.length_singleton]

theorem Begun.congr (h : Begun first body es xs t s) (hs : Sys.own s' = Sys.own s) : Begun first body es xs t s' := by
  obtain ⟨h1, _, _, h4, h5⟩ := Sys.own_eq_iff.mp hs
  exact ⟨h.follows, h.stocked.congr h1 h5, h1 ▸ h.ptr, h4.trans h.outcomes, h5 ▸ h.count⟩

theorem Begun.executed {t' : SysBody b κ} (h : Begun first body es xs t s) (hf : Follows body (es ++ (xs ++ [e])) t') :
    Executed first body es xs e t' { s with outcomes := s.outcomes ++ [.executed e] } := by
  refine ⟨⟨t, h.follows⟩, hf, h.stocked.congr rfl rfl, h.ptr, ?_, h.count⟩
  simp [h.outcomes]

/-- What a failure leaves while a system call begins. -/
theorem Between.added_begin (h : Between first body es xs t s) {c : Sys κ}
    (hc : Sys.own c = Sys.own s ∧ c.task.nextStart = s.task.nextStart ∨ Sys.own c = Sys.own s.begun) :
    ∃ ys, Added first body es ys c := by
  rcases hc with ⟨hc, hn⟩ | hc
  · exact ⟨xs, (h.congr hc hn).added⟩
  · exact ⟨xs, (h.begun hc).added⟩

/-- The system calls without an entry are executed, in the order of the body. -/
theorem wpc_exec (hb : body.Fits 0) (h : Between first body es xs t s) :
    wpc (exec t) (fun _ s' => ∃ ys, Between first body es ys done s') True
      (fun c => ∃ ys, Added first body es ys c) s := by
  induction t generalizing xs s with
  | done => exact wpc_pure ⟨xs, h.added⟩ ⟨xs, h⟩
  | code m k ih =>
      have hcode : ∀ c : Sys κ, (c.own, c.results) = (s.own, s.results) → Between first body es xs (code m k) c :=
        fun c hc => h.congr (Prod.mk.inj hc).1 (Sys.nextStart_of_results (Prod.mk.inj hc).2)
      refine wpc_bind (wpc_mono (m.keeps s) (fun _ s₁ h₁ => ?_) fun c hc => ⟨xs, (hcode c hc).added⟩)
      have h' := hcode s₁ h₁
      exact ih ⟨h'.follows.code, h'.stocked, h'.ptr, h'.outcomes, h'.count, h'.next⟩
  | call m k ih =>
      rw [exec]
      refine wpc_bind (wpc_mono (Sys.wpc_syscallBegin_none m.T.size h.ptr) ?_ fun c hc => h.added_begin hc)
      rintro _ s₁ ⟨rfl, h₁⟩
      have hbegun := h.begun h₁
      have hprog := (m.keeps s₁).and_after (after_out m.prog s₁)
      refine wpc_bind (wpc_mono hprog (fun r s₂ h₂ => ?_) fun c hc => ⟨xs, (hbegun.congr hc).added⟩)
      obtain ⟨h₂, hr⟩ := h₂
      have hmid := hbegun.congr h₂
      obtain ⟨⟨hfit, _⟩, _⟩ := hmid.follows.fits hb
      have hf := hmid.follows.call hr
      rw [List.append_assoc] at hf
      have hex := hmid.executed hf
      refine wpc_bind (wpc_store ⟨xs, hmid.added⟩ ⟨xs, hex.notAdded rfl rfl fun _ _ => rfl⟩ ?_)
      refine wpc_bind (wpc_mono (wpc_syscallEnd hr hex hfit) (fun _ s₃ h₃ => ?_) fun _ hc => hc)
      exact ih _ h₃
  | callNoret m k ih =>
      rw [exec]
      refine wpc_bind (wpc_mono (Sys.wpc_syscallBeginNoret_none h.ptr) ?_ fun c hc => h.added_begin hc)
      rintro _ s₁ ⟨rfl, h₁⟩
      have hbegun := h.begun h₁
      refine wpc_bind (wpc_mono (m.keeps s₁) (fun _ s₂ h₂ => ?_) fun c hc => ⟨xs, (hbegun.congr hc).added⟩)
      have hmid := hbegun.congr h₂
      obtain ⟨⟨hfit, _⟩, _⟩ := hmid.follows.fits hb
      have hf := hmid.follows.callNoret
      rw [List.append_assoc] at hf
      have hex := hmid.executed hf
      refine wpc_bind (wpc_store ⟨xs, hmid.added⟩ ⟨xs, hex.notAdded rfl rfl fun _ _ => rfl⟩ ?_)
      refine wpc_bind (wpc_mono (wpc_syscallEndNoret hex hfit) (fun _ s₃ h₃ => ?_) fun _ hc => hc)
      exact ih h₃

end SysBody

end IntOS
