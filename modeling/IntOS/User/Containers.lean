import IntOS.User.PVec
import IntOS.User.PQueue

/-!
# Containers in transactions that fail

A failure before the commit leads to `Journal::recover`. The cursors are logged, and the elements are not: a push
stores into a slot that is free now, and that need not have been free before the transaction.
-/

namespace IntOS

open Persist Persist.Prog

variable {b : Board} {s : Pmem}

theorem PVec.rollsBack_iff (v : PVec b.width) (ops : List PVec.Op) (hw : s.journal.WellFormed)
    (ht : s.journal.tail = 0) (hlen : v.len.read s.mem ≤ v.cap) :
    (∀ c ∈ crashes ((v.runOps ops).run b) s, RollsBack b (fun m => v.content m = v.content s.mem) c) ↔
      v.Harmless b s.mem 0 (v.len.read s.mem) ops :=
  (Body.rollsBack_iff_spares (P := fun m => v.content m = v.content s.mem) _ (Undoes.empty hw ht) rfl).trans
  (v.spares_runOps (n := 0) ops rfl hlen .refl)

theorem PQueue.rollsBack_iff (q : PQueue b.width) (ops : List PQueue.Op) (hw : s.journal.WellFormed)
    (ht : s.journal.tail = 0) (hlen : q.len.read s.mem ≤ q.cap) (htail : q.tail.read s.mem < q.cap) :
    (∀ c ∈ crashes ((q.runOps ops).run b) s, RollsBack b (fun m => q.content m = q.content s.mem) c) ↔
      q.Harmless b s.mem 0 (q.tail.read s.mem) (q.len.read s.mem) ops :=
  (Body.rollsBack_iff_spares (P := fun m => q.content m = q.content s.mem) _ (Undoes.empty hw ht) rfl).trans
  (q.spares_runOps (n := 0) ops rfl hlen rfl htail .refl)

theorem w32_base_lt : 0 < 2 ^ PtrWidth.w32.bits := by decide

theorem w32_cap_lt : 2 < 2 ^ PtrWidth.w32.bits := by decide

theorem w32_cursor_lt : 8 < 2 ^ PtrWidth.w32.bits := by decide

/-- Room for two elements of one byte, the cursors below them. -/
def PVec.ofBytes : PVec .w32 where
  raw := ⟨0, 12, by decide, w32_base_lt⟩
  ptr := 100
  cap := 2
  elemSize := 1
  cap_lt := w32_cap_lt
  apart := by decide
  len := ⟨8, w32_cursor_lt⟩
  len_in := fun _ hj => ⟨Nat.zero_le _, Nat.lt_of_lt_of_le hj.2 (by decide)⟩

def PQueue.ofBytes : PQueue .w32 where
  raw := ⟨0, 20, by decide, w32_base_lt⟩
  ptr := 100
  cap := 2
  elemSize := 1
  cap_lt := w32_cap_lt
  apart := by decide
  head := ⟨8, w32_cursor_lt⟩
  tail := ⟨12, by decide⟩
  len := ⟨16, by decide⟩
  head_in := fun _ hj => ⟨Nat.zero_le _, Nat.lt_of_lt_of_le hj.2 (by decide)⟩
  tail_in := fun _ hj => ⟨Nat.zero_le _, Nat.lt_of_lt_of_le hj.2 (by decide)⟩
  len_in := fun _ hj => ⟨Nat.zero_le _, Nat.lt_of_lt_of_le hj.2 (by decide)⟩
  head_tail := by decide
  head_len := by decide
  tail_len := by decide

/-- Whatever fails before the commit, the contents of a vector and of a queue come back if and only if no push writes
over them. -/
theorem contents_roll_back_iff (b : Board) (s : Pmem) (hw : s.journal.WellFormed) (ht : s.journal.tail = 0) :
    (∀ (v : PVec b.width) (ops : List PVec.Op), v.len.read s.mem ≤ v.cap →
      ((∀ c ∈ crashes ((v.runOps ops).run b) s, RollsBack b (fun m => v.content m = v.content s.mem) c) ↔
        v.Harmless b s.mem 0 (v.len.read s.mem) ops)) ∧
    ∀ (q : PQueue b.width) (ops : List PQueue.Op), q.len.read s.mem ≤ q.cap → q.tail.read s.mem < q.cap →
      ((∀ c ∈ crashes ((q.runOps ops).run b) s, RollsBack b (fun m => q.content m = q.content s.mem) c) ↔
        q.Harmless b s.mem 0 (q.tail.read s.mem) (q.len.read s.mem) ops) :=
  ⟨fun v ops hlen => v.rollsBack_iff ops hw ht hlen, fun q ops hlen htail => q.rollsBack_iff ops hw ht hlen htail⟩

/-- An element is pushed and popped. -/
theorem contents_roll_back_push_pop :
    let b : Board := ⟨.w32, 64, false, false⟩
    let s : Pmem := ⟨setBytes (fun _ => 0) 8 [1], Journal.new⟩
    let s' : Pmem := ⟨setBytes (setBytes (fun _ => 0) 12 [1]) 16 [1], Journal.new⟩
    (∀ c ∈ crashes ((PVec.ofBytes.runOps [.push fun _ => 2, .pop]).run b) s,
      RollsBack b (fun m => PVec.ofBytes.content m = PVec.ofBytes.content s.mem) c) ∧
    ∀ c ∈ crashes ((PQueue.ofBytes.runOps [.pushBack fun _ => 2, .popFront]).run b) s',
      RollsBack b (fun m => PQueue.ofBytes.content m = PQueue.ofBytes.content s'.mem) c :=
  ⟨((contents_roll_back_iff ⟨.w32, 64, false, false⟩ _ (by decide) rfl).1 PVec.ofBytes _ (by decide)).mpr
      fun _ _ => ⟨fun hmem => absurd hmem (by decide), fun _ => trivial⟩,
    ((contents_roll_back_iff ⟨.w32, 64, false, false⟩ _ (by decide) rfl).2 PQueue.ofBytes _ (by decide)
      (by decide)).mpr fun _ _ => ⟨fun hmem => absurd hmem (by decide), fun _ => trivial⟩⟩

/-- An element is popped, another is pushed into its slot, and power fails: the old length comes back, and the old
element does not. The slot of a queue's front is free after `clear`. -/
theorem contents_spoilt :
    let b : Board := ⟨.w32, 64, false, false⟩
    let s : Pmem := ⟨setBytes (fun _ => 0) 8 [1], Journal.new⟩
    let s' : Pmem := ⟨setBytes (setBytes (fun _ => 0) 12 [1]) 16 [1], Journal.new⟩
    (PVec.ofBytes.content s.mem = [[0]] ∧
      ∃ c ∈ crashes ((PVec.ofBytes.runOps [.pop, .push fun _ => 2]).run b) s,
        (Journal.recover b c).out.map (fun r => PVec.ofBytes.content r.2.mem) = some [[2]]) ∧
    PQueue.ofBytes.content s'.mem = [[0]] ∧
      ∃ c ∈ crashes ((PQueue.ofBytes.runOps [.clear, .pushBack fun _ => 2]).run b) s',
        (Journal.recover b c).out.map (fun r => PQueue.ofBytes.content r.2.mem) = some [[2]] := by
  decide +kernel

end IntOS
