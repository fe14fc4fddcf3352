import IntOS.Pmem.Lemmas.Journal

/-!
# The journal is an undo log

Whatever a run logs and stores, and wherever power fails, recovery puts back the memory from before the
run.
-/

namespace IntOS

open Persist Persist.Prog

variable {b : Board} {α : Type}

/-- The crash points of a run that starts with an empty journal are undoable to its initial memory. -/
theorem Body.undoable_of_mem_crashes {p : Body b.width α} {s c : Pmem} (hw : s.journal.WellFormed)
    (ht : s.journal.tail = 0) (hl : p.Logged [] s.mem) (hc : c ∈ crashes (p.run b) s) :
    Undoable b s.mem c := (wpc_body p (Undoes.empty hw ht) hl).crash hc

/-- `Journal::recover` after a failure at any store of a run: it returns, so none of its checks fails, the
journal is empty and memory is what it was before the run. Failures during recovery change nothing of
this. -/
theorem recover_restores (p : Body b.width α) (s c : Pmem) (hw : s.journal.WellFormed)
    (ht : s.journal.tail = 0) (hl : p.Logged [] s.mem) (hc : c ∈ crashes (p.run b) s) :
    (∃ r, (Journal.recover b c).out = some ((), r)) ∧
      ∀ r, Recovers (Journal.recover b) c r → r.journal.tail = 0 ∧ r.mem = s.mem := by
  have hund := Body.undoable_of_mem_crashes hw ht hl hc
  constructor
  · obtain ⟨_, r, ho, _⟩ := (Journal.wpc_recover hund).returns
    exact ⟨r, ho⟩
  · intro r hr
    refine Recovers.of_wpc (E := False) (Q := fun r => r.journal.tail = 0 ∧ r.mem = s.mem) (fun c' hc' => ?_) hr hund
    refine wpc_mono (Journal.wpc_recover hc') ?_ fun _ h => h
    rintro _ s' rfl
    exact ⟨rfl, rfl⟩

/-- An object logged once, a store into it, and power failing after that store. -/
theorem recover_restores_logged_store :
    let o : Obj .w32 := ⟨100, 2, by decide, by decide⟩
    let p : Body .w32 Unit := .log o (.store 101 7 (.ret ()))
    let s : Pmem := ⟨fun _ => 0, Journal.new⟩
    let b : Board := ⟨.w32, 64, false, false⟩
    let c := (crashes (p.run b) s).getLast (by simp [crashes])
    (∃ r, (Journal.recover b c).out = some ((), r)) ∧
      ∀ r, Recovers (Journal.recover b) c r → r.journal.tail = 0 ∧ r.mem = fun _ => 0 :=
  recover_restores (b := ⟨.w32, 64, false, false⟩)
    (.log ⟨100, 2, by decide, by decide⟩ (.store 101 7 (.ret ()))) ⟨fun _ => 0, Journal.new⟩ _ ⟨rfl, rfl⟩ rfl
    ⟨⟨_, List.mem_cons_self, by constructor <;> decide⟩, trivial⟩ (List.getLast_mem _)

/-! ## Interrupted recovery -/

/-- Journals that calls of `append_log_of` produce, a failure inside a call included. Memory changes as it
likes between the calls, and the objects may overlap. -/
inductive Produced (b : Board) : Journal → Prop
  | empty {j : Journal} : j.WellFormed → j.tail = 0 → Produced b j
  | append {j : Journal} {s : Pmem} (o : Obj b.width) (m : Nat → UInt8) : Produced b j →
      (Journal.appendLogOf b o ⟨m, j⟩).out = some ((), s) → Produced b s.journal
  | failed {j : Journal} {c : Pmem} (o : Obj b.width) (m : Nat → UInt8) : Produced b j →
      c ∈ (Journal.appendLogOf b o ⟨m, j⟩).trace → Produced b c.journal

theorem Produced.undoes {j : Journal} (h : Produced b j) (m : Nat → UInt8) :
    ∃ m₀ os, Undoes b m₀ os ⟨m, j⟩ := by
  induction h generalizing m with
  | @empty j hw ht =>
      have hu : Undoes b m [] ⟨m, j⟩ := Undoes.empty (s := ⟨m, j⟩) hw ht
      exact ⟨m, [], hu⟩
  | append o m' _ hout ih =>
      obtain ⟨m₀, os, hu⟩ := ih m'
      obtain ⟨⟨hw, ht, rs, hlay, _⟩, _⟩ := (Journal.wpc_appendLogOf o hu (Or.inr trivial)).post hout
      exact ⟨_, _, hw, ht, rs, hlay, rfl⟩
  | failed o m' _ hc ih =>
      obtain ⟨m₀, os, hu⟩ := ih m'
      obtain ⟨os', hw, ht, rs, hlay, _⟩ := (Journal.wpc_appendLogOf (E := True) o hu (Or.inr trivial)).trace hc
      exact ⟨_, _, hw, ht, rs, hlay, rfl⟩

/-- Recovery can go through the journal, whatever is in memory. -/
def Journal.Walkable (b : Board) (j : Journal) : Prop := ∀ m, ∃ m₀, Undoable b m₀ ⟨m, j⟩

theorem Undoable.walkable {m₀ : Nat → UInt8} {s : Pmem} (h : Undoable b m₀ s) : s.journal.Walkable b := by
  obtain ⟨os, hw, ht, rs, hlay, _⟩ := h
  exact fun m => ⟨_, os, hw, ht, rs, hlay, rfl⟩

theorem Produced.walkable {j : Journal} (h : Produced b j) : j.Walkable b := by
  intro m
  obtain ⟨m₀, os, hu⟩ := h.undoes m
  exact ⟨m₀, hu.undoable⟩

/-- `Journal::recover` returns, and however often it is interrupted and started again it ends with the
memory of one uninterrupted run and an empty journal. -/
theorem recover_retried {j : Journal} (h : Produced b j) (m : Nat → UInt8) :
    ∃ r, (Journal.recover b ⟨m, j⟩).out = some ((), r) ∧ r.journal.tail = 0 ∧
      ∀ r', Recovers (Journal.recover b) ⟨m, j⟩ r' → r'.mem = r.mem ∧ r'.journal.tail = 0 := by
  obtain ⟨m₀, os, hu⟩ := h.undoes m
  obtain ⟨_, r, hout, rfl⟩ := (Journal.wpc_recover hu.undoable).returns
  refine ⟨_, hout, rfl, fun r' hr' => ?_⟩
  refine Recovers.of_wpc (E := False) (Q := fun r' => r'.mem = m₀ ∧ r'.journal.tail = 0) (fun c hc => ?_) hr'
    hu.undoable
  refine wpc_mono (Journal.wpc_recover hc) ?_ fun _ h => h
  rintro _ s' rfl
  exact ⟨rfl, rfl⟩

/-- Two overlapping objects. -/
theorem recover_retried_overlapping :
    ∃ j : Journal, j.tail = 24 ∧ ∀ m, ∃ r, (Journal.recover ⟨.w32, 64, false, false⟩ ⟨m, j⟩).out = some ((), r) ∧
      r.journal.tail = 0 ∧ ∀ r', Recovers (Journal.recover ⟨.w32, 64, false, false⟩) ⟨m, j⟩ r' →
        r'.mem = r.mem ∧ r'.journal.tail = 0 := by
  have hnew : Produced ⟨.w32, 64, false, false⟩ Journal.new := .empty ⟨rfl, rfl⟩ rfl
  have hone := hnew.append ⟨100, 2, by decide, by decide⟩ (fun _ => 1) rfl
  have htwo := hone.append ⟨101, 2, by decide, by decide⟩ (fun _ => 2) rfl
  exact ⟨_, rfl, recover_retried htwo⟩

end IntOS
