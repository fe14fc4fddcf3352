import IntOS.Pmem.Body
import IntOS.Pmem.Theorems

/-!
# Where a rollback leads

A byte that is stored before a record of it is made stays what it is. `Body.Spares` says exactly when that spoils
nothing: a body that it holds of can be rolled back to the memory wanted at every store, and no other body can.
-/

namespace IntOS

open Persist Persist.Prog UndoLog

variable {b : Board} {α β : Type} {P : (Nat → UInt8) → Prop} {os : List (Obj b.width)} {m mem : Nat → UInt8}
  {s c : Pmem} {a : Nat}

/-- `Journal::recover` after a failure in `c` returns, and it leaves memory with `P`, however often it fails
itself. -/
def RollsBack (b : Board) (P : (Nat → UInt8) → Prop) (c : Pmem) : Prop :=
  (∃ r, (Journal.recover b c).out = some ((), r)) ∧ ∀ r, Recovers (Journal.recover b) c r → P r.mem

theorem Undoable.rollsBack_iff (h : Undoable b m c) : RollsBack b P c ↔ P m := by
  obtain ⟨_, r, hout, hr⟩ := (Journal.wpc_recover h).returns
  constructor
  · intro hroll
    have hP := hroll.2 r (.done hout)
    rwa [hr] at hP
  · intro hP
    refine ⟨⟨r, hout⟩, fun r' hr' => ?_⟩
    refine Recovers.of_wpc (E := False) (Q := fun r => P r.mem) (fun c' hc' => ?_) hr' h
    refine wpc_mono (Journal.wpc_recover hc') ?_ fun _ h => h
    rintro _ s' rfl
    exact hP

/-! ## Records -/

/-- The part of the log area that the records of the objects take. -/
def logSize (b : Board) : List (Obj b.width) → Nat
  | [] => 0
  | o :: os => logSize b os + Journal.recordSize b o.size

/-- Some object contains the byte. -/
def InLog (os : List (Obj b.width)) (a : Nat) : Prop := ∃ o ∈ os, o.Contains a

theorem LaidOut.eq_logSize {logs : Nat → UInt8} {p : Nat} {rs : List (Record Nat UInt8)}
    (h : LaidOut b.width logs p os rs) : p = logSize b os := by
  induction h with
  | nil => rfl
  | cons o _ _ _ ih =>
      rw [ih]
      rfl

theorem LaidOut.inLog {logs : Nat → UInt8} {p : Nat} {rs : List (Record Nat UInt8)}
    (h : LaidOut b.width logs p os rs) (hc : Covers rs a) : InLog os a := by
  induction h with
  | nil =>
      obtain ⟨_, hr, _⟩ := hc
      simp at hr
  | cons o _ _ _ ih =>
      obtain ⟨r, hr, v, hv⟩ := hc
      rcases List.mem_cons.mp hr with rfl | hr
      · obtain ⟨k, hk, he⟩ := mem_savedBytes.mp hv
        obtain ⟨rfl, _⟩ := Prod.mk.inj he
        exact ⟨o, List.mem_cons_self, Nat.le_add_right _ _, Nat.add_lt_add_left hk _⟩
      · obtain ⟨o', ho', ha⟩ := ih ⟨r, hr, v, hv⟩
        exact ⟨o', List.mem_cons_of_mem _ ho', ha⟩

theorem Undoes.tail_eq (h : Undoes b m os s) : s.journal.tail = logSize b os := by
  obtain ⟨_, _, rs, hlay, _⟩ := h
  exact hlay.eq_logSize

/-- A store to a byte that no record saved. -/
theorem Undoes.storeOutside (h : Undoes b m os s) (ha : ¬ InLog os a) (v : UInt8) :
    Undoes b (Function.update m a v) os { s with mem := Function.update s.mem a v } := by
  obtain ⟨hw, ht, rs, hlay, hu⟩ := h
  refine ⟨hw, ht, rs, hlay, ?_⟩
  rw [← hu]
  exact undo_update_of_not_covers (fun hc => ha (hlay.inLog hc)) _ _

/-! ## Bodies -/

namespace Body

/-- `P` holds of the memory that a rollback leads to, at every store of the body: `m` is that memory and `mem` the
one before the rollback. A log that is full ends the body. -/
def Spares (b : Board) (P : (Nat → UInt8) → Prop)
    (Q : α → List (Obj b.width) → (Nat → UInt8) → (Nat → UInt8) → Prop) :
    Body b.width α → List (Obj b.width) → (Nat → UInt8) → (Nat → UInt8) → Prop
  | ret a, os, m, mem => Q a os m mem
  | log o k, os, m, mem => logSize b (o :: os) ≤ b.pmJournalSize → Spares b P Q k (o :: os) m mem
  | load a k, os, m, mem => Spares b P Q (k (mem a)) os m mem
  | store a v k, os, m, mem =>
      (InLog os a → Spares b P Q k os m (Function.update mem a v)) ∧
        (¬ InLog os a → P (Function.update m a v) ∧
          Spares b P Q k os (Function.update m a v) (Function.update mem a v))

/-- The body can be rolled back at every store if and only if it spares what is wanted. -/
theorem rollsBack_iff_spares (p : Body b.width α) (h : Undoes b m os s) (hP : P m) :
    (∀ c ∈ crashes (p.run b) s, RollsBack b P c) ↔ p.Spares b P (fun _ _ _ _ => True) os m s.mem := by
  induction p generalizing os m s with
  | ret a =>
      refine iff_of_true (fun c hc => ?_) trivial
      obtain rfl : c = s := by simpa [crashes, run] using hc
      exact h.undoable.rollsBack_iff.mpr hP
  | log o k ih =>
      simp only [Spares]
      constructor
      · intro hall hfit
        have hroom : s.journal.tail + Journal.recordSize b o.size ≤ b.pmJournalSize := by
          rw [h.tail_eq]
          exact hfit
        obtain ⟨_, s', ho, h', hmem⟩ := (Journal.wpc_appendLogOf (E := False) o h (Or.inl hroom)).returns
        rw [← hmem]
        refine (ih h' hP).mp fun c hc => ?_
        rcases List.mem_cons.mp hc with rfl | hc
        · exact h'.undoable.rollsBack_iff.mpr hP
        · exact hall c (List.mem_cons_of_mem _ (mem_trace_bind_right ho hc))
      · intro hspares c hc
        have happend := Journal.wpc_appendLogOf (E := True) o h (Or.inr trivial)
        rcases List.mem_cons.mp hc with rfl | hc
        · exact h.undoable.rollsBack_iff.mpr hP
        rcases mem_trace_bind hc with hc | ⟨_, s', ho, hc⟩
        · exact (happend.trace hc).rollsBack_iff.mpr hP
        · obtain ⟨h', hmem⟩ := happend.post ho
          have hfit : logSize b (o :: os) ≤ b.pmJournalSize := h'.tail_eq ▸ h'.tail_le
          rw [← hmem] at hspares
          exact (ih h' hP).mpr (hspares hfit) c (List.mem_cons_of_mem _ hc)
  | load a k ih =>
      have hcrashes : crashes ((Body.load a k).run b) s = crashes ((k (s.mem a)).run b) s := by
        simp [crashes, run, gets_bind_apply]
      rw [hcrashes]
      exact ih (s.mem a) h hP
  | store a v k ih =>
      have hcrashes : crashes ((Body.store a v k).run b) s =
          s :: crashes (k.run b) { s with mem := Function.update s.mem a v } := by
        simp [crashes, run, store_bind_apply]
      have hs : RollsBack b P s := h.undoable.rollsBack_iff.mpr hP
      rw [hcrashes]
      simp only [List.forall_mem_cons, hs, true_and, Spares]
      by_cases ha : InLog os a
      · obtain ⟨o, ho, hoa⟩ := ha
        have hsaved : InLog os a := ⟨o, ho, hoa⟩
        simp only [hsaved, forall_const, not_true_eq_false, false_imp_iff, and_true]
        exact ih (h.store ho hoa v) hP
      · have h' := h.storeOutside ha v
        simp only [ha, false_imp_iff, not_false_eq_true, forall_const, true_and]
        constructor
        · intro hall
          have hP' : P (Function.update m a v) := h'.undoable.rollsBack_iff.mp (hall _ (by simp [crashes]))
          exact ⟨hP', (ih h' hP').mp hall⟩
        · rintro ⟨hP', hspares⟩
          exact (ih h' hP').mpr hspares

section
variable {Q : α → List (Obj b.width) → (Nat → UInt8) → (Nat → UInt8) → Prop}

@[simp] theorem spares_pure {x : α} : Spares b P Q (pure x : Body b.width α) os m mem ↔ Q x os m mem := Iff.rfl

@[simp] theorem spares_bind {R : β → List (Obj b.width) → (Nat → UInt8) → (Nat → UInt8) → Prop}
    {p : Body b.width α} {f : α → Body b.width β} :
    Spares b P R (p >>= f) os m mem ↔ Spares b P (fun x os m mem => Spares b P R (f x) os m mem) p os m mem := by
  change Spares b P R (p.bind f) os m mem ↔ _
  induction p generalizing os m mem with
  | ret a => exact Iff.rfl
  | log o k ih => exact forall_congr' fun _ => ih
  | load a k ih => exact ih _
  | store a v k ih => exact and_congr (forall_congr' fun _ => ih) (forall_congr' fun _ => and_congr_right fun _ => ih)

end

@[simp] theorem spares_loadBytes {Q : List UInt8 → List (Obj b.width) → (Nat → UInt8) → (Nat → UInt8) → Prop}
    {n : Nat} : Spares b P Q (loadBytes a n) os m mem ↔ Q (bytesAt mem a n) os m mem := by
  induction n generalizing a Q with
  | zero => exact Iff.rfl
  | succ n ih =>
      simp only [loadBytes, Spares, spares_bind, ih]
      exact Iff.rfl

section
variable {Q : Unit → List (Obj b.width) → (Nat → UInt8) → (Nat → UInt8) → Prop} {bs : List UInt8}

theorem spares_log {o : Obj b.width} : Spares b P Q (.log o (.ret ())) os m mem ↔
    (logSize b (o :: os) ≤ b.pmJournalSize → Q () (o :: os) m mem) := Iff.rfl

/-- A store into what is logged. -/
theorem spares_storeBytes_inLog (h : ∀ j, a ≤ j → j < a + bs.length → InLog os j) :
    Spares b P Q (storeBytes a bs) os m mem ↔ Q () os m (setBytes mem a bs) := by
  induction bs generalizing a mem with
  | nil => exact Iff.rfl
  | cons v bs ih =>
      rw [List.length_cons] at h
      have ha : InLog os a := h a (Nat.le_refl a) (by omega)
      simp only [storeBytes, Spares, ha, forall_const, not_true_eq_false, false_imp_iff, and_true]
      exact ih fun j h1 h2 => h j (by omega) (by omega)

/-- A store beside the log is there after the rollback, as far as it has come. -/
theorem spares_storeBytes_not_inLog (h : ∀ j, a ≤ j → j < a + bs.length → ¬ InLog os j) :
    Spares b P Q (storeBytes a bs) os m mem ↔
      (∀ n, n < bs.length → P (setBytes m a (bs.take (n + 1)))) ∧ Q () os (setBytes m a bs) (setBytes mem a bs) := by
  induction bs generalizing a m mem with
  | nil => simp [storeBytes, setBytes]
  | cons v bs ih =>
      rw [List.length_cons] at h
      have ha : ¬ InLog os a := h a (Nat.le_refl a) (by omega)
      simp only [storeBytes, Spares, ha, false_imp_iff, not_false_eq_true, forall_const, true_and, setBytes]
      rw [ih fun j h1 h2 => h j (by omega) (by omega), ← and_assoc]
      refine and_congr_left fun _ => ?_
      constructor
      · rintro ⟨hfirst, hrest⟩ n hn
        cases n with
        | zero => exact hfirst
        | succ n => exact hrest n (Nat.lt_of_succ_lt_succ hn)
      · intro hall
        exact ⟨hall 0 (Nat.succ_pos _), fun n hn => hall (n + 1) (Nat.succ_lt_succ hn)⟩

end

end Body

/-! ## Words -/

namespace PMVar

variable {x : PMVar b.width} {v j : Nat}

/-- The memory after a store of the word. -/
def set (x : PMVar b.width) (v : Nat) (m : Nat → UInt8) : Nat → UInt8 := setBytes m x.addr (wordBytes v b.width.bytes)

theorem read_set (hv : v < 2 ^ b.width.bits) : x.read (x.set v m) = v := by
  have hbytes := bytesAt_setBytes m x.addr (wordBytes v b.width.bytes)
  rw [length_wordBytes] at hbytes
  rw [read, set, hbytes, wordOf_wordBytes]
  rwa [← b.width.modulus_eq]

theorem set_of_not (hj : ¬ x.obj.Contains j) : x.set v m j = m j := by
  refine setBytes_of_not ?_
  rw [contains_iff] at hj
  rw [length_wordBytes]
  omega

theorem read_set_of_disjoint {y : PMVar b.width} (h : ∀ j, y.obj.Contains j → ¬ x.obj.Contains j) :
    y.read (x.set v m) = y.read m := y.read_congr fun j hj => set_of_not (h j hj)

@[simp] theorem spares_deref {Q : Nat → List (Obj b.width) → (Nat → UInt8) → (Nat → UInt8) → Prop} :
    Body.Spares b P Q x.deref os m mem ↔ Q (x.read mem) os m mem := by
  simp only [deref, Body.spares_bind, Body.spares_loadBytes]
  exact Iff.rfl

theorem spares_assign {Q : Unit → List (Obj b.width) → (Nat → UInt8) → (Nat → UInt8) → Prop}
    (h : ∀ j, x.obj.Contains j → InLog os j) :
    Body.Spares b P Q (x.assign v) os m mem ↔ Q () os m (x.set v mem) := by
  refine Body.spares_storeBytes_inLog fun j h1 h2 => h j ⟨h1, ?_⟩
  rwa [length_wordBytes] at h2

end PMVar

end IntOS
