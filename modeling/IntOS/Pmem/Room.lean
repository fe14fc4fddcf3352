import IntOS.Pmem.Rollback

/-!
# Room in the journal (`src/pmem.rs`)

`append_log_of` asserts that its record fits. The code of a transaction gets to its end if and only if all the records
that it makes fit behind those that are there.
-/

namespace IntOS

open Persist Persist.Prog UndoLog

variable {b : Board} {α β : Type} {os os' : List (Obj b.width)} {o : Obj b.width} {m : Nat → UInt8} {s : Pmem}

@[simp] theorem logSize_append : logSize b (os ++ os') = logSize b os + logSize b os' := by
  induction os with
  | nil => simp [logSize]
  | cons o os ih =>
      simp only [List.cons_append, logSize, ih]
      omega

namespace Journal

/-- Records of the objects fit behind those in the journal. -/
def HasRoom (b : Board) (s : Pmem) (os : List (Obj b.width)) : Prop :=
  s.journal.tail + logSize b os ≤ b.pmJournalSize

theorem appendLogOf_full (h : ¬ s.journal.tail + recordSize b o.size ≤ b.pmJournalSize) :
    (appendLogOf b o s).out = none := by
  have hpanics : After (appendLogOf b o) (fun _ _ => False) s := by
    unfold appendLogOf checkIntegrity
    simp only [after_bind, after_gets, after_check]
    exact fun _ hfit => absurd hfit h
  exact Option.map_eq_none_iff.mp (hpanics.map_out id)

end Journal

namespace Body

section
variable {w : PtrWidth} {m : Nat → UInt8}

/-- The objects that the body logs, from memory `m` on. -/
def objects : Body w α → (Nat → UInt8) → List (Obj w)
  | ret _, _ => []
  | log o k, m => o :: objects k m
  | load a k, m => objects (k (m a)) m
  | store a v k, m => objects k (Function.update m a v)

@[simp] theorem objects_pure (a : α) : (pure a : Body w α).objects m = [] := rfl

theorem objects_bind {p : Body w α} (f : α → Body w β) (m : Nat → UInt8) :
    (p >>= f).objects m = p.objects m ++ (f (p.eval m).1).objects (p.eval m).2 := by
  change (p.bind f).objects m = _
  induction p generalizing m with
  | ret a => rfl
  | log o k ih => exact congrArg (o :: ·) (ih m)
  | load a k ih => exact ih _ m
  | store a v k ih => exact ih _

@[simp] theorem objects_loadBytes (a n : Nat) : (loadBytes a n : Body w _).objects m = [] := by
  induction n generalizing a with
  | zero => rfl
  | succ n ih =>
      change ((do let bs ← loadBytes (a + 1) n; pure (m a :: bs)) : Body w _).objects m = _
      rw [objects_bind, ih]
      rfl

@[simp] theorem objects_storeBytes (a : Nat) (bs : List UInt8) : (storeBytes a bs : Body w Unit).objects m = [] := by
  induction bs generalizing a m with
  | nil => rfl
  | cons v bs ih => exact ih (a + 1)

end

/-- While there is room, a body does what it does without a journal. -/
theorem run_of_room (p : Body b.width α) (h : Undoes b m os s) (hroom : Journal.HasRoom b s (p.objects s.mem)) :
    ∃ s', (p.run b s).out = some ((p.eval s.mem).1, s') ∧ s'.mem = (p.eval s.mem).2 := by
  induction p generalizing m os s with
  | ret a => exact ⟨s, rfl, rfl⟩
  | log o k ih =>
      have hfit : s.journal.tail + Journal.recordSize b o.size ≤ b.pmJournalSize := by
        unfold Journal.HasRoom at hroom
        simp only [objects, logSize] at hroom
        omega
      obtain ⟨_, s₁, hout, h₁, hmem⟩ := (Journal.wpc_appendLogOf (E := False) o h (Or.inl hfit)).returns
      have hroom₁ : Journal.HasRoom b s₁ (k.objects s₁.mem) := by
        unfold Journal.HasRoom at hroom ⊢
        rw [h₁.tail_eq, hmem]
        rw [h.tail_eq] at hroom
        simp only [objects, logSize] at hroom ⊢
        omega
      obtain ⟨s', hout', hmem'⟩ := ih h₁ hroom₁
      refine ⟨s', ?_, ?_⟩
      · rw [run, bind_of_out hout, hout', hmem]
        rfl
      · rw [hmem', hmem]
        rfl
  | load a k ih =>
      obtain ⟨s', hout', hmem'⟩ := ih (s.mem a) h hroom
      refine ⟨s', ?_, hmem'⟩
      rw [run, gets_bind_apply]
      exact hout'
  | store a v k ih =>
      obtain ⟨m', -, h'⟩ := h.storeAny a v
      obtain ⟨s', hout', hmem'⟩ := ih h' hroom
      refine ⟨s', ?_, hmem'⟩
      rw [run, store_bind_apply]
      exact hout'

/-- Otherwise it panics. -/
theorem run_of_full (p : Body b.width α) (h : Undoes b m os s) (hfull : ¬ Journal.HasRoom b s (p.objects s.mem)) :
    (p.run b s).out = none := by
  induction p generalizing m os s with
  | ret a => exact absurd h.tail_le hfull
  | log o k ih =>
      by_cases hfit : s.journal.tail + Journal.recordSize b o.size ≤ b.pmJournalSize
      · obtain ⟨_, s₁, hout, h₁, hmem⟩ := (Journal.wpc_appendLogOf (E := False) o h (Or.inl hfit)).returns
        rw [run, bind_of_out hout]
        refine ih h₁ fun hroom => hfull ?_
        unfold Journal.HasRoom at hroom ⊢
        rw [h₁.tail_eq, hmem] at hroom
        rw [h.tail_eq]
        simp only [objects, logSize] at hroom ⊢
        omega
      · rw [run, bind_of_none (Journal.appendLogOf_full hfit)]
  | load a k ih =>
      rw [run, gets_bind_apply]
      exact ih (s.mem a) h hfull
  | store a v k ih =>
      obtain ⟨m', -, h'⟩ := h.storeAny a v
      rw [run, store_bind_apply]
      exact ih h' hfull

end Body

end IntOS
