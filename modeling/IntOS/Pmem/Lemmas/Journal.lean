import IntOS.Pmem.Lemmas.Records

/-!
# The undo invariant

`Undoes b m os s`: the journal of `s` holds records for the objects `os`, and undoing them in the memory
of `s` gives `m`. Logging and covered stores preserve it at every store, and recovery restores `m`.
-/

namespace IntOS

open Persist Persist.Prog UndoLog

variable {b : Board}

structure Undoes (b : Board) (m : Nat → UInt8) (os : List (Obj b.width)) (s : Pmem) : Prop where
  wellFormed : s.journal.WellFormed
  tail_le : s.journal.tail ≤ b.pmJournalSize
  laidOut : ∃ rs, LaidOut b.width s.journal.logs s.journal.tail os rs ∧ undo rs s.mem = m

/-- What every failure leaves: some undo log that leads back to `m`. -/
def Undoable (b : Board) (m : Nat → UInt8) (s : Pmem) : Prop := ∃ os, Undoes b m os s

theorem Undoes.undoable {m : Nat → UInt8} {os : List (Obj b.width)} {s : Pmem} (h : Undoes b m os s) :
    Undoable b m s := ⟨os, h⟩

theorem Undoes.empty {s : Pmem} (hw : s.journal.WellFormed) (ht : s.journal.tail = 0) :
    Undoes b s.mem [] s :=
  ⟨hw, by omega, [], by rw [ht]; exact .nil, rfl⟩

/-- Bytes at or above the tail are free. -/
theorem Undoes.setLogs {m : Nat → UInt8} {os : List (Obj b.width)} {s : Pmem} (h : Undoes b m os s)
    (logs : Nat → UInt8) (hl : ∀ j, j < s.journal.tail → logs j = s.journal.logs j) :
    Undoes b m os { s with journal.logs := logs } := by
  obtain ⟨hw, ht, rs, hlay, hu⟩ := h
  exact ⟨hw, ht, rs, hlay.congr fun j hj => (hl j hj).symm, hu⟩

/-- A store to a byte that a record covers. -/
theorem Undoes.store {m : Nat → UInt8} {os : List (Obj b.width)} {s : Pmem} (h : Undoes b m os s)
    {o : Obj b.width} {a : Nat} (ho : o ∈ os) (ha : o.Contains a) (v : UInt8) :
    Undoes b m os { s with mem := Function.update s.mem a v } := by
  obtain ⟨hw, ht, rs, hlay, hu⟩ := h
  exact ⟨hw, ht, rs, hlay, by rw [← hu]; exact undo_update_of_covers (hlay.covers ho ha) _ _⟩

/-! ## Copying -/

namespace Journal

/-- The log area after `n` bytes were copied in. -/
def copied (m logs : Nat → UInt8) (addr i n : Nat) : Nat → UInt8 :=
  fun j => if i ≤ j ∧ j < i + n then m (addr + (j - i)) else logs j

theorem copied_zero (m logs : Nat → UInt8) (addr i : Nat) : copied m logs addr i 0 = logs := by
  funext j
  unfold copied
  rw [if_neg (by omega)]

theorem copied_succ (m logs : Nat → UInt8) (addr i n : Nat) :
    copied m (Function.update logs i (m addr)) (addr + 1) (i + 1) n = copied m logs addr i (n + 1) := by
  funext j
  unfold copied
  by_cases hj : j = i
  · subst hj
    rw [if_neg (by omega), if_pos (by omega), Function.update_self, Nat.sub_self, Nat.add_zero]
  · rw [Function.update_of_ne hj]
    by_cases h : i + 1 ≤ j ∧ j < i + 1 + n
    · rw [if_pos h, if_pos (by omega)]
      congr 1
      omega
    · rw [if_neg h, if_neg (by omega)]

theorem wpc_copyToLogs {E : Prop} (addr i n : Nat) (s : Pmem) :
    wpc (copyToLogs addr i n)
      (fun _ s' => s' = { s with journal.logs := copied s.mem s.journal.logs addr i n }) E
      (fun c => ∃ l, c = { s with journal.logs := l } ∧ ∀ j, j < i → l j = s.journal.logs j) s := by
  induction n generalizing addr i s with
  | zero =>
      refine wpc_pure ⟨_, rfl, fun _ _ => rfl⟩ ?_
      rw [copied_zero]
  | succ n ih =>
      refine wpc_bind (wpc_store ⟨_, rfl, fun _ _ => rfl⟩ ⟨_, rfl, fun j hj => ?_⟩ ?_)
      · exact Function.update_of_ne (by omega) _ _
      refine wpc_mono (ih (addr + 1) (i + 1) _) ?_ ?_
      · rintro _ s' rfl
        simp only [copied_succ]
      · rintro c ⟨l, rfl, hl⟩
        refine ⟨l, rfl, fun j hj => ?_⟩
        rw [hl j (by omega)]
        exact Function.update_of_ne (by omega) _ _

theorem wpc_copyFromLogs {E : Prop} (i addr n : Nat) (s : Pmem) :
    wpc (copyFromLogs i addr n)
      (fun _ s' => s' = { s with mem := restore (savedBytes s.journal.logs i addr n) s.mem }) E
      (fun c => ∃ r, c = { s with mem := restore r s.mem } ∧
        ∀ p ∈ r, p ∈ savedBytes s.journal.logs i addr n) s := by
  induction n generalizing addr i s with
  | zero => exact wpc_pure ⟨[], rfl, by simp⟩ rfl
  | succ n ih =>
      refine wpc_bind (wpc_store ⟨[], rfl, by simp⟩
        ⟨[(addr, s.journal.logs i)], rfl, by simp [savedBytes]⟩ ?_)
      refine wpc_mono (ih (i + 1) (addr + 1) _) ?_ ?_
      · rintro _ s' rfl
        rfl
      · rintro c ⟨r, rfl, hr⟩
        refine ⟨(addr, s.journal.logs i) :: r, rfl, fun p hp => ?_⟩
        simp only [savedBytes, List.mem_cons] at hp ⊢
        exact hp.imp_right (hr p)

theorem wpc_writeLogWord {Q : Unit → Pmem → Prop} {E : Prop} {C : Pmem → Prop} {i v : Nat} {s : Pmem}
    (hE : i < b.pmJournalSize ∨ E) (hC : C s)
    (hC' : C { s with journal.logs := writeBytes s.journal.logs i b.wordSize v })
    (hQ : Q () { s with journal.logs := writeBytes s.journal.logs i b.wordSize v }) :
    wpc (writeLogWord b i v) Q E C s :=
  wpc_bind (wpc_check hC hE.resolve_left fun _ => wpc_store hC hC' hQ)

/-! ## Logging -/

/-- The log area with the record of an object appended at offset `i`. -/
def appended (b : Board) (m logs : Nat → UInt8) (i : Nat) (o : Obj b.width) : Nat → UInt8 :=
  writeBytes (writeBytes (copied m logs o.addr i o.size) (i + archAddrAlignUp b.width o.size) b.wordSize
    o.addr) (i + archAddrAlignUp b.width o.size + b.wordSize) b.wordSize o.size

theorem copied_below (m logs : Nat → UInt8) (addr : Nat) {i n j : Nat} (hj : j < i) :
    copied m logs addr i n j = logs j := by
  unfold copied
  rw [if_neg (by omega)]

theorem appended_below (m logs : Nat → UInt8) (o : Obj b.width) {i j : Nat} (hj : j < i) :
    appended b m logs i o j = logs j := by
  unfold appended
  rw [writeBytes_of_not (Or.inl (by omega)), writeBytes_of_not (Or.inl (by omega)),
    copied_below m logs o.addr hj]

/-- The bytes of the record are those the object has in memory. -/
theorem appended_saved (m logs : Nat → UInt8) (i : Nat) (o : Obj b.width) :
    ∀ p ∈ savedBytes (appended b m logs i o) i o.addr o.size, m p.1 = p.2 := by
  intro p hp
  obtain ⟨k, hk, rfl⟩ := mem_savedBytes.mp hp
  have hle := o.size_le_aligned
  unfold appended
  rw [writeBytes_of_not (Or.inl (by omega)), writeBytes_of_not (Or.inl (by omega))]
  unfold copied
  rw [if_pos (by omega), Nat.add_sub_cancel_left]

end Journal

open Journal

theorem LaidOut.append {logs : Nat → UInt8} {i : Nat} {os : List (Obj b.width)}
    {rs : List (Record Nat UInt8)} (h : LaidOut b.width logs i os rs) (m : Nat → UInt8)
    (o : Obj b.width) :
    LaidOut b.width (appended b m logs i o) (i + recordSize b o.size) (o :: os)
      (savedBytes (appended b m logs i o) i o.addr o.size :: rs) := by
  refine .cons o (h.congr fun j hj => (appended_below m logs o hj).symm) ?_ ?_
  · refine Eq.trans (readBytes_congr ?_) (readBytes_writeBytes (copied m logs o.addr i o.size)
      o.addr_lt_word)
    intro j _ h2
    exact writeBytes_of_not (Or.inl h2)
  · exact readBytes_writeBytes _ o.size_lt_word

/-- The store of `tail` that makes the new record count. -/
theorem Undoes.append {m : Nat → UInt8} {os : List (Obj b.width)} {s : Pmem} (h : Undoes b m os s)
    (o : Obj b.width) (hfit : s.journal.tail + recordSize b o.size ≤ b.pmJournalSize) :
    Undoes b m (o :: os) { s with
      journal.logs := appended b s.mem s.journal.logs s.journal.tail o
      journal.tail := s.journal.tail + recordSize b o.size } := by
  obtain ⟨hw, _, rs, hlay, hu⟩ := h
  refine ⟨hw, hfit, _, LaidOut.append hlay s.mem o, ?_⟩
  rw [undo_cons_self (appended_saved s.mem s.journal.logs s.journal.tail o)]
  exact hu

namespace Journal

/-- `append_log_of` adds a record of the current bytes, and a failure inside it loses nothing. It stops
early only where the journal is full. -/
theorem wpc_appendLogOf {E : Prop} (o : Obj b.width) {m : Nat → UInt8} {os : List (Obj b.width)}
    {s : Pmem} (h : Undoes b m os s)
    (hE : s.journal.tail + recordSize b o.size ≤ b.pmJournalSize ∨ E) :
    wpc (appendLogOf b o) (fun _ s' => Undoes b m (o :: os) s' ∧ s'.mem = s.mem) E (Undoable b m) s := by
  have hs := h.undoable
  have hword : 0 < b.wordSize := b.width.bytes_pos
  unfold appendLogOf checkIntegrity
  refine wpc_bind (wpc_bind (wpc_gets hs (wpc_check hs (fun hn => absurd h.wellFormed hn) fun _ => ?_)))
  refine wpc_bind (wpc_gets hs ?_)
  refine wpc_bind (wpc_check hs hE.resolve_left fun hfit => ?_)
  have hfit' := hfit
  unfold recordSize at hfit'
  refine wpc_bind (wpc_check hs (fun hn => absurd (by omega) hn) fun _ => ?_)
  refine wpc_bind (wpc_mono (wpc_copyToLogs o.addr s.journal.tail o.size s) ?_ ?_)
  · rintro _ s₁ rfl
    have h₁ := h.setLogs (copied s.mem s.journal.logs o.addr s.journal.tail o.size)
      fun j hj => copied_below _ _ _ hj
    have h₂ := h₁.setLogs (writeBytes (copied s.mem s.journal.logs o.addr s.journal.tail o.size)
      (s.journal.tail + archAddrAlignUp b.width o.size) b.wordSize o.addr)
      fun j hj => writeBytes_of_not (Or.inl (Nat.lt_add_right _ hj))
    refine wpc_bind (wpc_writeLogWord (Or.inl (by omega)) h₁.undoable h₂.undoable ?_)
    have h₃ := h.setLogs (appended b s.mem s.journal.logs s.journal.tail o)
      fun j hj => appended_below _ _ o hj
    refine wpc_bind (wpc_writeLogWord (Or.inl (by omega)) h₂.undoable h₃.undoable ?_)
    -- the record counts from the store of `tail` on
    have h₄ := h.append o hfit
    exact wpc_store h₃.undoable h₄.undoable ⟨h₄, rfl⟩
  · rintro c ⟨l, rfl, hl⟩
    exact (h.setLogs l hl).undoable

/-! ## Recovery -/

theorem wpc_readLogWord {Q : Nat → Pmem → Prop} {E : Prop} {C : Pmem → Prop} {i v : Nat} {s : Pmem}
    (hC : C s) (hi : i < b.pmJournalSize) (hv : readBytes s.journal.logs i b.wordSize = v) (hQ : Q v s) :
    wpc (readLogWord b i) Q E C s :=
  wpc_bind (wpc_check hC (fun hn => absurd hi hn) fun _ => wpc_gets hC (by rw [hv]; exact hQ))

/-- One walk over a layout. The journal stays as it is; memory is what undoing the layout gives. -/
theorem wpc_recoverLoop {j : Journal} {rs₀ : List (Record Nat UInt8)} (hj : j.tail ≤ b.pmJournalSize)
    {fuel ptr : Nat} {os : List (Obj b.width)} {rs : List (Record Nat UInt8)} (hlay : LaidOut b.width j.logs ptr os rs)
    (hcov : ∀ r ∈ rs, ∀ p ∈ r, Covers rs₀ p.1) (hf : ptr ≤ fuel) (ht : ptr ≤ j.tail) {m : Nat → UInt8} :
    wpc (recoverLoop b fuel ptr) (fun p s => p = 0 ∧ s = ⟨undo rs m, j⟩) False
      (fun c => ∃ m', c = ⟨m', j⟩ ∧ undo rs₀ m' = undo rs₀ m) ⟨m, j⟩ := by
  induction fuel generalizing ptr os rs m with
  | zero =>
      obtain rfl : ptr = 0 := by omega
      obtain ⟨rfl, rfl⟩ := hlay.zero rfl
      exact wpc_pure ⟨m, rfl, rfl⟩ ⟨rfl, rfl⟩
  | succ fuel ih =>
      cases ptr with
      | zero =>
          obtain ⟨rfl, rfl⟩ := hlay.zero rfl
          exact wpc_pure ⟨m, rfl, rfl⟩ ⟨rfl, rfl⟩
      | succ n =>
          have hwp := b.width.bytes_pos
          obtain ⟨q, o, os', rs', hp, rfl, rfl, hlay', hsize, haddr, hq⟩ := hlay.inv_pos (by omega)
          have hC : ∃ m', (⟨m, j⟩ : Pmem) = ⟨m', j⟩ ∧ undo rs₀ m' = undo rs₀ m := ⟨m, rfl, rfl⟩
          have hws : b.wordSize = b.width.bytes := rfl
          rw [← hws] at hwp hp hsize haddr hq
          unfold recoverLoop
          refine wpc_bind (wpc_check hC (fun hn => absurd (by omega) hn) fun _ => ?_)
          refine wpc_bind (wpc_readLogWord hC (by omega) hsize ?_)
          refine wpc_bind (wpc_check hC (fun hn => absurd (by omega) hn) fun _ => ?_)
          refine wpc_bind (wpc_readLogWord hC (by omega) haddr ?_)
          refine wpc_bind (wpc_check hC (fun hn => absurd (by omega) hn) fun _ => ?_)
          refine wpc_bind (wpc_check hC (fun hn => absurd (by omega) hn) fun _ => ?_)
          simp only [Nat.succ_eq_add_one]
          rw [hq]
          refine wpc_bind (wpc_mono (wpc_copyFromLogs q o.addr o.size ⟨m, j⟩) ?_ ?_)
          case refine_2 =>
            rintro c ⟨r, rfl, hr⟩
            exact ⟨_, rfl, undo_restore_of_covers (fun p hp => hcov _ (by simp) p (hr p hp)) m⟩
          rintro _ s₁ rfl
          have hsame : undo rs₀ (restore (savedBytes j.logs q o.addr o.size) m) = undo rs₀ m :=
            undo_restore_of_covers (hcov _ (by simp)) m
          rw [show n + 1 - (b.wordSize * 2 + archAddrAlignUp b.width o.size) = q by omega]
          refine wpc_mono (ih hlay' (fun r hr => hcov r (List.mem_cons_of_mem _ hr)) (by omega) (by omega))
            (fun _ _ h => h) ?_
          rintro c ⟨m', rfl, hm'⟩
          exact ⟨m', rfl, hm'.trans hsame⟩

theorem covers_of_mem {rs : List (Record Nat UInt8)} {r : Record Nat UInt8} (hr : r ∈ rs) :
    ∀ p ∈ r, Covers rs p.1 := fun p hp => ⟨r, hr, p.2, hp⟩

/-- Recovery from any undoable state restores the memory the log leads back to, never fails, and stays
undoable on the way. -/
theorem wpc_recover {m : Nat → UInt8} {s : Pmem} (h : Undoable b m s) :
    wpc (recover b) (fun _ s' => s' = ⟨m, { s.journal with tail := 0 }⟩) False (Undoable b m) s := by
  obtain ⟨os, hs⟩ := h
  obtain ⟨hw, ht, rs, hlay, hu⟩ := hs
  have hund : ∀ m', undo rs m' = undo rs s.mem → Undoable b m ⟨m', s.journal⟩ :=
    fun m' hm' => ⟨os, hw, ht, rs, hlay, hm'.trans hu⟩
  have hC : Undoable b m s := hund s.mem rfl
  unfold recover
  refine wpc_bind (wpc_gets hC ?_)
  refine wpc_bind (wpc_mono (wpc_recoverLoop (m := s.mem) ht hlay (fun r hr => covers_of_mem hr)
    (Nat.le_refl _) (Nat.le_refl _)) ?_ ?_)
  case refine_2 =>
    rintro c ⟨m', rfl, hm'⟩
    exact hund m' hm'
  rintro p s₁ ⟨rfl, rfl⟩
  have hdone : undo rs (undo rs s.mem) = undo rs s.mem := by
    have hco : ∀ (rs' : List (Record Nat UInt8)) (m' : Nat → UInt8), (∀ r ∈ rs', r ∈ rs) →
        undo rs (undo rs' m') = undo rs m' := by
      intro rs'
      induction rs' with
      | nil => intro m' _; rfl
      | cons r rs' ih =>
          intro m' hsub
          simp only [undo]
          rw [ih _ fun r' hr' => hsub r' (List.mem_cons_of_mem _ hr'),
            undo_restore_of_covers (covers_of_mem (hsub r (by simp)))]
    exact hco rs s.mem fun _ hr => hr
  refine wpc_bind (wpc_check (hund _ hdone) (fun hn => absurd rfl hn) fun _ => ?_)
  have hfin : Undoable b m ⟨undo rs s.mem, { s.journal with tail := 0 }⟩ :=
    ⟨[], hw, Nat.zero_le _, [], .nil, hu⟩
  refine wpc_store (hund _ hdone) hfin ?_
  rw [← hu]

end Journal

/-! ## Bodies -/

/-- A body that logs before it stores keeps the way back at every store, and computes what it computes
without a journal. -/
theorem wpc_body {α : Type} (p : Body b.width α) {m : Nat → UInt8} {os : List (Obj b.width)} {s : Pmem}
    (h : Undoes b m os s) (hl : p.Logged os s.mem) :
    wpc (p.run b) (fun a s' => Undoable b m s' ∧ p.eval s.mem = (a, s'.mem)) True (Undoable b m) s := by
  induction p generalizing os s with
  | ret a => exact wpc_pure h.undoable ⟨h.undoable, rfl⟩
  | log o k ih =>
      refine wpc_bind (wpc_mono (Journal.wpc_appendLogOf o h (Or.inr trivial)) ?_ fun _ hc => hc)
      rintro _ s' ⟨h', hm⟩
      rw [show (Body.log o k).eval s.mem = k.eval s'.mem by rw [hm]; rfl]
      exact ih h' (by rw [hm]; exact hl)
  | load addr k ih => exact wpc_bind (wpc_gets h.undoable (ih _ h hl))
  | store addr v k ih =>
      obtain ⟨⟨o, ho, ha⟩, hl'⟩ := hl
      have h' := h.store ho ha v
      exact wpc_bind (wpc_store h.undoable h'.undoable (ih h' hl'))

end IntOS
