import IntOS.Queue.Lemmas
import IntOS.Tx.Lemmas.Unlogged

/-!
# Queues are bounded lists, and their operations roll back
-/

namespace IntOS

open Persist Persist.Prog Transaction

variable {w : PtrWidth}

/-! ## Where a body goes -/

/-- Run from `m`, the body logs, reads and writes addresses of `R` only. -/
def Body.StaysIn {α : Type} (R : Nat → Prop) (p : Body w α) (m : Nat → UInt8) : Prop :=
  p.wp R (fun _ => R) (fun _ _ _ => True) [] m

/-- Logged objects are addresses of `R` as well. -/
theorem Body.wp.staysIn {α : Type} {R : Nat → Prop} {W : List (Obj w) → Nat → Prop}
    {Q : α → List (Obj w) → (Nat → UInt8) → Prop} {p : Body w α} {m : Nat → UInt8} (h : p.wp R W Q [] m)
    (hW : ∀ os a, (∀ o ∈ os, ∀ a, o.Contains a → R a) → W os a → R a) : p.StaysIn R m := by
  suffices hgen : ∀ os m, (∀ o ∈ os, ∀ a, o.Contains a → R a) → p.wp R W Q os m →
      p.wp R (fun _ => R) (fun _ _ _ => True) os m from hgen [] m nofun h
  clear h m
  induction p with
  | ret a => exact fun _ _ _ _ => trivial
  | log o k ih =>
      intro os m hos h
      refine ⟨h.1, ih _ m (fun o' ho' => ?_) h.2⟩
      rcases List.mem_cons.mp ho' with rfl | ho'
      · exact h.1
      · exact hos o' ho'
  | load a k ih => exact fun os m hos h => ⟨h.1, ih _ os m hos h.2⟩
  | store a v k ih => exact fun os m hos h => ⟨hW os a hos h.1, ih os _ hos h.2⟩

namespace Queue

variable {q : Queue w} {m m' : Nat → UInt8} {r n : Nat}

theorem Writes.within {f : Nat} (hf : f < q.length) {os : List (Obj w)} {a : Nat}
    (hos : ∀ o ∈ os, ∀ a, o.Contains a → q.Within a) (h : q.Writes f os a) : q.Within a := by
  rcases h with ⟨o, ho, ha⟩ | ha
  · exact hos o ho a ha
  · exact ha.within hf

/-! ## One operation -/

/-- The reply, the new content and the addresses of one operation. -/
structure Serves (q : Queue w) (op : Op) (m : Nat → UInt8) : Prop where
  reply : ((op.body q).eval m).1 = (listStep q.length q.itemSize op (q.content m)).1
  content : q.content ((op.body q).eval m).2 = (listStep q.length q.itemSize op (q.content m)).2
  wellFormed : q.WellFormed ((op.body q).eval m).2
  unchanged : ∀ e, ((op.body q).eval m).1 = .error e → ((op.body q).eval m).2 = m
  staysIn : (op.body q).StaysIn q.Within m

/-- The slot of an operation that the log does not protect: a push fills it, and it is free before. -/
def freeSlot (q : Queue w) (r n : Nat) : Op → Nat
  | .pushBack _ => (r + n) % q.length
  | .pushFront _ => (r + (q.length - 1)) % q.length
  | .dequeue => r

theorem freeSlot_lt (h : q.Holds m r n) (op : Op) : q.freeSlot r n op < q.length := by
  cases op with
  | pushBack => exact Nat.mod_lt _ q.length_pos
  | pushFront => exact Nat.mod_lt _ q.length_pos
  | dequeue => exact h.r_lt

theorem Pushed.content_append {bs : List UInt8} (h : q.Holds m r n) (hn : n < q.length)
    (hp : q.Pushed m r n ((r + n) % q.length) bs m') : q.content m' = q.content m ++ [bs] := by
  rw [hp.holds.content_eq, h.content_eq, Ring.window_append hn hp.others, hp.filled]

theorem Pushed.content_prepend {bs : List UInt8} (h : q.Holds m r n) (hn : n < q.length)
    (hp : q.Pushed m ((r + (q.length - 1)) % q.length) n ((r + (q.length - 1)) % q.length) bs m') :
    q.content m' = bs :: q.content m := by
  rw [hp.holds.content_eq, h.content_eq, Ring.window_prepend h.r_lt hn hp.others, hp.filled]

/-- What an operation computes, with the addresses that it touches. A push that succeeds writes logged words
and its free slot, every other operation logged words only. -/
theorem wp_body (h : q.Holds m r n) (op : Op) (os : List (Obj w)) :
    ∃ W : List (Obj w) → Nat → Prop,
      (W = (fun os a => ∃ o ∈ os, o.Contains a) ∨ n < q.length ∧ op ≠ .dequeue ∧ W = q.Writes (q.freeSlot r n op)) ∧
      (op.body q).wp q.Within W
        (fun a _ m' => a = (listStep q.length q.itemSize op (q.content m)).1 ∧
          q.content m' = (listStep q.length q.itemSize op (q.content m)).2 ∧ q.WellFormed m' ∧
            ∀ e, a = .error e → m' = m) os m := by
  have hlen := h.length_content
  cases op with
  | pushBack item =>
      simp only [listStep, hlen, Op.body]
      rcases Nat.lt_or_eq_of_le h.n_le with hn | hn
      · refine ⟨_, Or.inr ⟨hn, nofun, rfl⟩, ?_⟩
        rw [Body.wp_bind, if_neg (Nat.ne_of_lt hn)]
        refine (wp_pushBack h hn item).mono (fun _ h => h) (fun _ _ h => h) ?_
        rintro _ _ m' ⟨rfl, hp⟩
        exact ⟨rfl, hp.content_append h hn, ⟨_, _, hp.holds⟩, nofun⟩
      · refine ⟨_, Or.inl rfl, ?_⟩
        rw [Body.wp_bind, if_pos hn]
        refine (wp_pushBack_full h hn item).mono (fun _ h => h) (fun _ _ h => h) ?_
        rintro _ _ m' ⟨rfl, rfl⟩
        exact ⟨rfl, rfl, ⟨_, _, h⟩, fun _ _ => rfl⟩
  | pushFront item =>
      simp only [listStep, hlen, Op.body]
      rcases Nat.lt_or_eq_of_le h.n_le with hn | hn
      · refine ⟨_, Or.inr ⟨hn, nofun, rfl⟩, ?_⟩
        rw [Body.wp_bind, if_neg (Nat.ne_of_lt hn)]
        refine (wp_pushFront h hn item).mono (fun _ h => h) (fun _ _ h => h) ?_
        rintro _ _ m' ⟨rfl, hp⟩
        exact ⟨rfl, hp.content_prepend h hn, ⟨_, _, hp.holds⟩, nofun⟩
      · refine ⟨_, Or.inl rfl, ?_⟩
        rw [Body.wp_bind, if_pos hn]
        refine (wp_pushFront_full h hn item).mono (fun _ h => h) (fun _ _ h => h) ?_
        rintro _ _ m' ⟨rfl, rfl⟩
        exact ⟨rfl, rfl, ⟨_, _, h⟩, fun _ _ => rfl⟩
  | dequeue =>
      refine ⟨_, Or.inl rfl, ?_⟩
      cases n with
      | zero =>
          have hempty : q.content m = [] := List.length_eq_zero_iff.mp hlen
          rw [hempty]
          refine (wp_dequeue_empty h rfl q.itemSize).mono (fun _ h => h) (fun _ _ h => h) ?_
          rintro _ _ m' ⟨rfl, rfl⟩
          exact ⟨rfl, hempty, ⟨_, _, h⟩, fun _ _ => rfl⟩
      | succ n =>
          have hcons : q.content m = q.slot m r :: Ring.window (q.slot m) q.length ((r + 1) % q.length) n := by
            rw [h.content_eq, Ring.window_cons h.r_lt]
          rw [hcons]
          refine (wp_dequeue h fun _ _ h => h).mono (fun _ h => h) (fun _ _ h => h) ?_
          rintro _ _ m' ⟨rfl, hh, hs⟩
          refine ⟨rfl, ?_, ⟨_, _, hh⟩, nofun⟩
          rw [hh.content_eq]
          exact Ring.window_congr fun k _ => hs _ (Nat.mod_lt _ q.length_pos)

theorem WellFormed.serves (h : q.WellFormed m) (op : Op) : q.Serves op m := by
  obtain ⟨r, n, h⟩ := h
  obtain ⟨W, hW, hwp⟩ := wp_body h op []
  obtain ⟨_, h1, h2, h3, h4⟩ := hwp.eval
  refine ⟨h1, h2, h3, h4, hwp.staysIn fun os a hos ha => ?_⟩
  rcases hW with rfl | ⟨_, _, rfl⟩
  · obtain ⟨o, ho, hoa⟩ := ha
    exact hos o ho a hoa
  · exact ha.within (freeSlot_lt h op) hos

/-- A new queue is empty. -/
theorem init_holds (q : Queue w) (m : Nat → UInt8) : q.Holds (q.init.eval m).2 0 0 := by
  have h : q.init.wp (fun _ => True) (fun _ _ => True) (fun _ _ m' => q.Holds m' 0 0) [] m := by
    unfold init
    rw [Body.wp_bind]
    apply PMVar.wp_assign (Nat.two_pow_pos _) fun _ _ => trivial
    intro m₁ h₁ _
    rw [Body.wp_bind]
    apply PMVar.wp_assign (Nat.two_pow_pos _) fun _ _ => trivial
    intro m₂ h₂ hoff₂
    apply PMVar.wp_assign (Nat.two_pow_pos _) fun _ _ => trivial
    intro m₃ h₃ hoff₃
    refine ⟨q.length_pos, Nat.zero_le _, ?_, ?_, h₃⟩
    · rw [Nat.zero_mul, ← h₁]
      apply PMVar.read_congr
      intro j hj
      rw [hoff₃ j (not_word_of_word q.read_items hj), hoff₂ j (not_word_of_word q.read_write hj)]
    · rw [Nat.zero_mod, Nat.zero_mul, ← h₂]
      exact PMVar.read_congr fun j hj => hoff₃ j (not_word_of_word q.write_items hj)
  obtain ⟨_, hh⟩ := h.eval
  exact hh

/-! ## Sequences of operations -/

/-- Step by step the queue is the list. -/
theorem runOps_eq_listRun (h : q.WellFormed m) (ops : List Op) :
    (q.runOps ops m).1 = (listRun q.length q.itemSize ops (q.content m)).1 ∧
      q.content (q.runOps ops m).2 = (listRun q.length q.itemSize ops (q.content m)).2 ∧
      q.WellFormed (q.runOps ops m).2 := by
  induction ops generalizing m with
  | nil => exact ⟨rfl, rfl, h⟩
  | cons op ops ih =>
      have hs := h.serves op
      obtain ⟨h1, h2, h3⟩ := ih hs.wellFormed
      rw [hs.content] at h1 h2
      simp only [runOps, listRun]
      rw [hs.reply, h1]
      exact ⟨rfl, h2, h3⟩

end Queue

/-- A queue of any length and item size, from its creation on: every sequence of operations replies and ends
as on a list of at most `length` items. On the way every operation stays within the queue's words and its
`length * item_size` bytes, and an error leaves memory as it is. -/
theorem queue_refines_bounded_list (q : Queue w) (m : Nat → UInt8) (ops : List Queue.Op) :
    (q.runOps ops (q.init.eval m).2).1 = (Queue.listRun q.length q.itemSize ops []).1 ∧
      q.content (q.runOps ops (q.init.eval m).2).2 = (Queue.listRun q.length q.itemSize ops []).2 ∧
      (q.content (q.runOps ops (q.init.eval m).2).2).length ≤ q.length ∧
      ∀ op : Queue.Op,
        (op.body q).StaysIn q.Within (q.runOps ops (q.init.eval m).2).2 ∧
        ∀ e, ((op.body q).eval (q.runOps ops (q.init.eval m).2).2).1 = .error e →
          ((op.body q).eval (q.runOps ops (q.init.eval m).2).2).2 = (q.runOps ops (q.init.eval m).2).2 := by
  have hinit := q.init_holds m
  have hempty : q.content (q.init.eval m).2 = [] := List.length_eq_zero_iff.mp hinit.length_content
  obtain ⟨h1, h2, h3⟩ := Queue.runOps_eq_listRun ⟨_, _, hinit⟩ ops
  rw [hempty] at h1 h2
  refine ⟨h1, h2, ?_, fun op => ⟨(h3.serves op).staysIn, (h3.serves op).unchanged⟩⟩
  obtain ⟨r, n, hh⟩ := h3
  rw [hh.length_content]
  exact hh.n_le

/-! ## Rollback -/

namespace Queue

variable {q : Queue w} {m m' : Nat → UInt8} {r n : Nat}

/-- Where memory differs in a slot outside the window only, the queue is the same. -/
theorem Holds.off (h : q.Holds m r n) {f : Nat} (hf : f < q.length) (hfree : ∀ k, k < n → (r + k) % q.length ≠ f)
    (hoff : ∀ a, q.Within a → ¬ q.InSlot f a → m' a = m a) :
    q.Holds m' r n ∧ q.content m' = q.content m := by
  have hh : q.Holds m' r n := by
    refine ⟨h.r_lt, h.n_le, ?_, ?_, ?_⟩
    · rw [← h.readPos]
      exact PMVar.read_congr fun j hj => hoff j (within_readPos hj) (not_slot_of_word q.buffer_read hf hj)
    · rw [← h.writePos]
      exact PMVar.read_congr fun j hj => hoff j (within_writePos hj) (not_slot_of_word q.buffer_write hf hj)
    · rw [← h.items]
      exact PMVar.read_congr fun j hj =>
        hoff j (within_itemsEnqueued hj) (not_slot_of_word q.buffer_items hf hj)
  refine ⟨hh, ?_⟩
  rw [hh.content_eq, h.content_eq]
  apply Ring.window_congr
  intro k hk
  apply slot_congr
  intro a ha
  exact hoff a (ha.within (Nat.mod_lt _ q.length_pos)) fun hs => hfree k hk (ha.unique hs)

theorem Holds.congr (h : q.Holds m r n) (hsame : ∀ a, q.Within a → m' a = m a) : q.Holds m' r n := by
  refine ⟨h.r_lt, h.n_le, ?_, ?_, ?_⟩
  · rw [PMVar.read_congr fun j hj => hsame j (within_readPos hj), h.readPos]
  · rw [PMVar.read_congr fun j hj => hsame j (within_writePos hj), h.writePos]
  · rw [PMVar.read_congr fun j hj => hsame j (within_itemsEnqueued hj), h.items]

theorem freeSlot_free (op : Op) (hop : op ≠ .dequeue) (hn : n < q.length) :
    ∀ k, k < n → (r + k) % q.length ≠ q.freeSlot r n op := by
  cases op with
  | pushBack => exact fun k hk => Ring.ne_behind hn hk
  | pushFront => exact fun k hk => Ring.ne_before hn hk
  | dequeue => exact absurd rfl hop

/-- The addresses that an operation stores to without logging them. -/
def Unlogged (q : Queue w) (r n : Nat) (op : Op) (a : Nat) : Prop :=
  n < q.length ∧ op ≠ .dequeue ∧ q.InSlot (q.freeSlot r n op) a

theorem Holds.content_of_unlogged (h : q.Holds m r n) (op : Op) (hoff : ∀ a, ¬ q.Unlogged r n op a → m' a = m a) :
    q.WellFormed m' ∧ q.content m' = q.content m := by
  by_cases hp : n < q.length ∧ op ≠ .dequeue
  · obtain ⟨hn, hop⟩ := hp
    obtain ⟨hh, hc⟩ := h.off (freeSlot_lt h op) (freeSlot_free op hop hn)
      fun a _ ha => hoff a fun hu => ha hu.2.2
    exact ⟨⟨r, n, hh⟩, hc⟩
  · have hm : m' = m := funext fun a => hoff a fun hu => hp ⟨hu.1, hu.2.1⟩
    rw [hm]
    exact ⟨⟨r, n, h⟩, rfl⟩

/-- An operation between code that logs before it stores. -/
theorem wp_around {γ β : Type} (h : q.Holds m r n) (op : Op) {pre : Body w γ}
    {rest : Except QueueErr (List UInt8) → Body w β} (hpre : pre.Logged [] m)
    (hsame : ∀ a, q.Within a → (pre.eval m).2 a = m a)
    (hrest : (rest ((op.body q).eval (pre.eval m).2).1).Logged [] ((op.body q).eval (pre.eval m).2).2) :
    (do
      let _ ← pre
      let a ← op.body q
      rest a).wp (fun _ => True) (fun os a => (∃ o ∈ os, o.Contains a) ∨ q.Unlogged r n op a)
        (fun _ _ _ => True) [] m := by
  rw [Body.wp_bind]
  refine (Body.wp_of_logged hpre nofun).mono (fun _ h => h) (fun _ _ => Or.inl) ?_
  intro _ os m₁ he₁
  rw [he₁] at hsame hrest
  obtain ⟨W, hW, hwp⟩ := wp_body (h.congr hsame) op os
  rw [Body.wp_bind]
  refine hwp.and_eval.mono (fun _ _ => trivial) ?_ ?_
  · intro os a ha
    rcases hW with rfl | ⟨hn, hop, rfl⟩
    · exact Or.inl ha
    · exact ha.imp_right fun hs => ⟨hn, hop, hs⟩
  · rintro a os' m₂ ⟨_, he₂⟩
    rw [he₂] at hrest
    exact (Body.wp_of_logged hrest nofun).mono (fun _ h => h) (fun _ _ => Or.inl) fun _ _ _ _ => trivial

end Queue

variable {b : Board}

/-- One operation in a transaction of any kind, with logged code before and after it, where the code before
leaves the queue alone. Wherever power fails before the transaction commits, recovery returns, and it leaves
the queue with the items from before, however often it fails itself. -/
theorem queue_operation_rolls_back {γ α : Type} (b : Board) (q : Queue b.width) (op : Queue.Op)
    (pre : Body b.width γ) (rest : Except QueueErr (List UInt8) → Body b.width (Except ErrorCode α))
    (enc : Except ErrorCode α → List UInt8) (s c : Transaction) (hw : s.pm.journal.WellFormed)
    (ht : s.pm.journal.tail = 0) (hq : q.WellFormed s.pm.mem) (hpre : pre.Logged [] s.pm.mem)
    (hsame : ∀ a, q.Within a → (pre.eval s.pm.mem).2 a = s.pm.mem a)
    (hrest : (rest ((op.body q).eval (pre.eval s.pm.mem).2).1).Logged []
      ((op.body q).eval (pre.eval s.pm.mem).2).2)
    (hc : let f := do
        let _ ← pre
        let a ← op.body q
        rest a
      c ∈ crashes (tryRun b f enc) s ∨ c ∈ crashes (run b f enc) s ∨ c ∈ crashes (runSys b f enc) s ∨
        c ∈ crashes (runNoReplay b f) s)
    (huncommitted : ¬ c.cache.isCommitted b.width) :
    (∃ r, (rollBackIfUncommitted b c).out = some ((), r)) ∧
      ∀ r, Recovers (rollBackIfUncommitted b) c r →
        r.pm.journal.tail = 0 ∧ q.WellFormed r.pm.mem ∧ q.content r.pm.mem = q.content s.pm.mem := by
  obtain ⟨i, n, hh⟩ := hq
  have hwp := Queue.wp_around hh op hpre hsame hrest
  have hcrash : c = s ∨ NotYetOff b (q.Unlogged i n op) s c ∨ c.cache.isCommitted b.width := by
    have hcommit := fun (a : Except ErrorCode α) (s' c' : Transaction) (h : Running b s' c') =>
      wpc_commit_off h (enc a)
    rcases hc with hc | hc | hc | hc
    · refine crashes_off hw ht hwp (fun a s' c' h => ?_) hc
      split
      · exact wpc_commitNoReplay_off h
      · exact hcommit a s' c' h
    · exact crashes_off hw ht hwp hcommit hc
    · exact crashes_off hw ht hwp hcommit hc
    · exact crashes_off hw ht hwp (fun _ _ _ => wpc_commitNoReplay_off) hc
  rcases hcrash with rfl | hn | hcomm
  · obtain ⟨hout, hset⟩ := recovery_of_settles (settles_of_empty (b := b) hw ht)
    refine ⟨hout, fun r hr => ⟨(hset r hr).tail, ?_⟩⟩
    rw [(hset r hr).mem]
    exact ⟨⟨i, n, hh⟩, rfl⟩
  · obtain ⟨hout, hrec⟩ := hn.recovers
    exact ⟨hout, fun r hr => ⟨(hrec r hr).1, hh.content_of_unlogged op (hrec r hr).2⟩⟩
  · exact absurd hcomm huncommitted

/-- Two items of one byte, the words below the buffer. -/
def Queue.ofBytes : Queue .w32 where
  length := 2
  itemSize := 1
  buffer := 100
  readPos := ⟨0, by decide⟩
  writePos := ⟨4, by decide⟩
  tail := 2
  itemsEnqueued := ⟨8, by decide⟩
  length_pos := by decide
  tail_eq := rfl
  tail_lt := by decide
  length_lt := by decide
  read_write := by decide
  read_items := by decide
  write_items := by decide
  buffer_read := by decide
  buffer_write := by decide
  buffer_items := by decide

/-- Power fails after the store of the item, before anything is logged. -/
theorem queue_operation_rolls_back_item :
    let s : Transaction := ⟨⟨fun _ => 0, Journal.new⟩, ⟨fun _ => 0, 0, 0⟩, 0⟩
    let c : Transaction := ⟨⟨Function.update (fun _ => 0) 100 7, Journal.new⟩, ⟨fun _ => 0, 0, 0⟩, 0⟩
    let b : Board := ⟨.w32, 64, false, false⟩
    (∃ r, (rollBackIfUncommitted b c).out = some ((), r)) ∧
      ∀ r, Recovers (rollBackIfUncommitted b) c r →
        r.pm.journal.tail = 0 ∧ Queue.ofBytes.WellFormed r.pm.mem ∧
          Queue.ofBytes.content r.pm.mem = Queue.ofBytes.content s.pm.mem := by
  refine queue_operation_rolls_back (γ := Unit) (α := Unit) ⟨.w32, 64, false, false⟩ Queue.ofBytes
    (.pushBack fun _ => 7) (.ret ()) (fun r => .ret ((r.mapError fun _ => .txRetry).map fun _ => ()))
    (fun _ => []) ⟨⟨fun _ => 0, Journal.new⟩, ⟨fun _ => 0, 0, 0⟩, 0⟩ _ ⟨rfl, rfl⟩ rfl
    ⟨0, 0, by decide, by decide, rfl, rfl, rfl⟩ trivial (fun _ _ => rfl) trivial (Or.inl ?_) (by decide)
  refine List.mem_cons_of_mem _ (mem_trace_bind_right rfl (mem_trace_bind_left ?_))
  exact List.mem_map_of_mem (List.mem_of_getElem? (i := 0) rfl)

end IntOS
