import IntOS.Lib.UndoLog
import IntOS.Pmem.Journal

/-!
# The records in the log area

`LaidOut` says that the log area below an offset is a sequence of whole records. It carries the undo log
that these records stand for, and depends on the bytes below the offset only.
-/

namespace IntOS

open Persist Persist.Prog UndoLog

variable {w : PtrWidth}

/-- The `n` saved bytes at offset `i`, as a record for the object at `addr`. -/
def savedBytes (logs : Nat → UInt8) : Nat → Nat → Nat → Record Nat UInt8
  | _, _, 0 => []
  | i, addr, n + 1 => (addr, logs i) :: savedBytes logs (i + 1) (addr + 1) n

/-- The log area below the offset holds one record for each object, newest first, and these records are
the undo log `rs`. -/
inductive LaidOut (w : PtrWidth) (logs : Nat → UInt8) :
    Nat → List (Obj w) → List (Record Nat UInt8) → Prop
  | nil : LaidOut w logs 0 [] []
  | cons {p : Nat} {os : List (Obj w)} {rs : List (Record Nat UInt8)} (o : Obj w) :
      LaidOut w logs p os rs →
      readBytes logs (p + archAddrAlignUp w o.size) w.bytes = o.addr →
      readBytes logs (p + archAddrAlignUp w o.size + w.bytes) w.bytes = o.size →
      LaidOut w logs (p + (archAddrAlignUp w o.size + w.bytes + w.bytes)) (o :: os)
        (savedBytes logs p o.addr o.size :: rs)

theorem Obj.size_add_bytes_le (o : Obj w) : o.size + w.bytes ≤ 2 ^ w.bits := by
  have h := o.size_lt
  cases w <;> simp only [PtrWidth.bits, PtrWidth.bytes] at h ⊢ <;> omega

theorem Obj.size_le_aligned (o : Obj w) : o.size ≤ archAddrAlignUp w o.size :=
  (archAddrAlignUp_bounds w o.size_add_bytes_le).1

theorem Obj.size_lt_word (o : Obj w) : o.size < 256 ^ w.bytes := by
  have h := o.size_add_bytes_le
  have hp := w.bytes_pos
  rw [← w.modulus_eq]
  omega

theorem Obj.addr_lt_word (o : Obj w) : o.addr < 256 ^ w.bytes := by
  rw [← w.modulus_eq]
  exact o.addr_lt

/-! ## Saved bytes -/

theorem mem_savedBytes {logs : Nat → UInt8} {i addr n : Nat} {p : Nat × UInt8} :
    p ∈ savedBytes logs i addr n ↔ ∃ k, k < n ∧ p = (addr + k, logs (i + k)) := by
  induction n generalizing i addr with
  | zero => simp [savedBytes]
  | succ n ih =>
      simp only [savedBytes, List.mem_cons, ih]
      constructor
      · rintro (rfl | ⟨k, hk, rfl⟩)
        · exact ⟨0, by omega, rfl⟩
        · exact ⟨k + 1, by omega, by rw [Nat.add_right_comm addr, Nat.add_right_comm i]; rfl⟩
      · rintro ⟨k, hk, rfl⟩
        cases k with
        | zero => exact Or.inl rfl
        | succ k =>
            exact Or.inr ⟨k, by omega, by rw [Nat.add_right_comm addr, Nat.add_right_comm i]; rfl⟩

theorem savedBytes_congr {logs logs' : Nat → UInt8} {i addr n : Nat}
    (h : ∀ k, k < n → logs (i + k) = logs' (i + k)) :
    savedBytes logs i addr n = savedBytes logs' i addr n := by
  induction n generalizing i addr with
  | zero => rfl
  | succ n ih =>
      have h0 : logs i = logs' i := h 0 (by omega)
      simp only [savedBytes, h0]
      rw [ih fun k hk => by have := h (k + 1) (by omega); rwa [← Nat.add_assoc, Nat.add_right_comm] at this]

theorem covers_savedBytes {logs : Nat → UInt8} {o : Obj w} {i a : Nat} (h : o.Contains a) :
    Record.Covers (savedBytes logs i o.addr o.size) a := by
  obtain ⟨h1, h2⟩ := h
  refine ⟨logs (i + (a - o.addr)), mem_savedBytes.mpr ⟨a - o.addr, by omega, ?_⟩⟩
  rw [Nat.add_sub_cancel' h1]

/-! ## Layout -/

namespace LaidOut

variable {logs logs' : Nat → UInt8} {p : Nat} {os : List (Obj w)} {rs : List (Record Nat UInt8)}

/-- The layout reads only the bytes below the offset. -/
theorem congr (h : LaidOut w logs p os rs) (hl : ∀ j, j < p → logs j = logs' j) :
    LaidOut w logs' p os rs := by
  induction h with
  | nil => exact .nil
  | @cons p os rs o _ haddr hsize ih =>
      have hle := o.size_le_aligned
      have hsaved : savedBytes logs p o.addr o.size = savedBytes logs' p o.addr o.size :=
        savedBytes_congr fun k hk => hl _ (by omega)
      rw [hsaved]
      refine .cons o (ih fun j hj => hl j (by omega)) ?_ ?_
      · exact (readBytes_congr fun j _ h2 => hl j (by omega)).symm.trans haddr
      · exact (readBytes_congr fun j _ h2 => hl j (by omega)).symm.trans hsize

theorem covers (h : LaidOut w logs p os rs) {o : Obj w} {a : Nat} (ho : o ∈ os) (ha : o.Contains a) :
    Covers rs a := by
  induction h with
  | nil => simp at ho
  | cons o' _ _ _ ih =>
      simp only [List.mem_cons] at ho
      rcases ho with rfl | ho
      · exact ⟨savedBytes _ _ _ _, List.mem_cons_self, covers_savedBytes ha⟩
      · exact (ih ho).cons _

theorem zero (h : LaidOut w logs p os rs) (hp : p = 0) : os = [] ∧ rs = [] := by
  cases h with
  | nil => exact ⟨rfl, rfl⟩
  | cons o _ _ _ =>
      have := w.bytes_pos
      omega

/-- The walk backwards from the end of a nonempty layout finds the newest record: its size and address
words, and the offset where it begins. -/
theorem inv_pos (h : LaidOut w logs p os rs) (hp : 0 < p) :
    ∃ q o os' rs', p = q + (archAddrAlignUp w o.size + w.bytes + w.bytes) ∧ os = o :: os' ∧
      rs = savedBytes logs q o.addr o.size :: rs' ∧ LaidOut w logs q os' rs' ∧
      readBytes logs (p - w.bytes) w.bytes = o.size ∧
      readBytes logs (p - w.bytes * 2) w.bytes = o.addr ∧
      p - w.bytes * 2 - archAddrAlignUp w o.size = q := by
  cases h with
  | nil => omega
  | @cons q os' rs' o h' haddr hsize =>
      refine ⟨q, o, os', rs', rfl, rfl, rfl, h', ?_, ?_, by omega⟩
      · rw [show ∀ x, q + (x + w.bytes + w.bytes) - w.bytes = q + x + w.bytes by omega]
        exact hsize
      · rw [show ∀ x, q + (x + w.bytes + w.bytes) - w.bytes * 2 = q + x by omega]
        exact haddr

end LaidOut

end IntOS
