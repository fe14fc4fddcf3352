import IntOS.User.RawBuf

/-!
# Persistent vectors (`src/user/pvec.rs`)

A transaction runs a sequence of operations on a vector. A panic ends it.
-/

namespace IntOS

structure PVec (w : PtrWidth) extends RawBuf w where
  len : PMVar w
  len_in : ∀ j, len.obj.Contains j → raw.Contains j

namespace PVec

variable {w : PtrWidth}

def clear (v : PVec w) : Body w Unit := do
  v.asMut
  v.len.assign 0

/-- `PVec::push`: `grow` panics. -/
def push (v : PVec w) (elem : Nat → UInt8) : Body w (Option Unit) := do
  v.asMut
  let len ← v.len.deref
  if len = v.cap then
    pure none
  else do
    v.write len elem
    let len ← v.len.deref
    v.len.assign (usizeAdd w len 1)
    pure (some ())

def pop (v : PVec w) : Body w (Option (List UInt8)) := do
  let len ← v.len.deref
  if len = 0 then
    pure none
  else do
    v.asMut
    let len ← v.len.deref
    v.len.assign (usizeSub w len 1)
    let len ← v.len.deref
    let elem ← v.read len
    pure (some elem)

/-- `PVec::drain`, with what the iterator that it returns yields before it is dropped. -/
def drain (v : PVec w) : Body w (List (List UInt8)) := do
  let len ← v.len.deref
  v.asMut
  v.len.assign 0
  v.readFrom 0 len

inductive Op
  | push (elem : Nat → UInt8)
  | pop
  | clear
  | drain

/-- The operation, and whether it returns. -/
def Op.body (v : PVec w) : Op → Body w Bool
  | push elem => do
      let r ← v.push elem
      pure r.isSome
  | pop => do
      let _ ← v.pop
      pure true
  | clear => do
      v.clear
      pure true
  | drain => do
      let _ ← v.drain
      pure true

def runOps (v : PVec w) : List Op → Body w Unit
  | [] => pure ()
  | op :: ops => do
      let ok ← op.body v
      if ok then
        v.runOps ops
      else
        pure ()

/-- The slots of the elements. -/
def live (v : PVec w) (m : Nat → UInt8) : List Nat := List.range (v.len.read m)

/-- The elements, in order. -/
def content (v : PVec w) (m : Nat → UInt8) : List (List UInt8) := (v.live m).map (v.slot m)

/-- No push writes over an element that the vector had before the transaction, but with its own bytes. After so many
records and with so many elements, a full journal or a full vector ends the sequence. -/
def Harmless (b : Board) (v : PVec b.width) (m₀ : Nat → UInt8) : Nat → Nat → List Op → Prop
  | _, _, [] => True
  | n, len, .push elem :: ops => v.Fits b (n + 1) → len < v.cap →
      (len ∈ v.live m₀ → bytesAt elem 0 v.elemSize = v.slot m₀ len) ∧ v.Harmless b m₀ (n + 1) (len + 1) ops
  | n, 0, .pop :: ops => v.Harmless b m₀ n 0 ops
  | n, len + 1, .pop :: ops => v.Fits b (n + 1) → v.Harmless b m₀ (n + 1) len ops
  | n, _, .clear :: ops => v.Fits b (n + 1) → v.Harmless b m₀ (n + 1) 0 ops
  | n, _, .drain :: ops => v.Fits b (n + 1) → v.Harmless b m₀ (n + 1) 0 ops

/-! ## Rollback -/

theorem live_congr (v : PVec w) (m m' : Nat → UInt8) (h : ∀ j, v.raw.Contains j → m' j = m j) :
    v.live m' = v.live m := by
  rw [live, live, v.len.read_congr fun j hj => h j (v.len_in j hj)]

variable {b : Board} {v : PVec b.width} {m m₀ mem : Nat → UInt8} {n len : Nat} {elem : Nat → UInt8}

theorem spares_clear {Q : Unit → List (Obj b.width) → (Nat → UInt8) → (Nat → UInt8) → Prop}
    {P : (Nat → UInt8) → Prop} :
    Body.Spares b P Q v.clear (List.replicate n v.raw) m mem ↔
      (v.Fits b (n + 1) → Q () (List.replicate (n + 1) v.raw) m (v.len.set 0 mem)) := by
  simp only [clear, Body.spares_bind, RawBuf.spares_asMut, RawBuf.spares_assign v.len_in]

theorem spares_push {Q : Option Unit → List (Obj b.width) → (Nat → UInt8) → (Nat → UInt8) → Prop}
    (hlen : v.len.read mem = len) (hcap : len ≤ v.cap) (h : v.Keeps (v.live m₀) m₀ m) :
    Body.Spares b (fun m => v.content m = v.content m₀) Q (v.push elem) (List.replicate n v.raw) m mem ↔
      (v.Fits b (n + 1) →
        (len = v.cap → Q none (List.replicate (n + 1) v.raw) m mem) ∧
        (len < v.cap → (len ∈ v.live m₀ → bytesAt elem 0 v.elemSize = v.slot m₀ len) ∧
          Q (some ()) (List.replicate (n + 1) v.raw) (v.setSlot m len (bytesAt elem 0 v.elemSize))
            (v.len.set (len + 1) (v.setSlot mem len (bytesAt elem 0 v.elemSize))))) := by
  simp only [push, Body.spares_bind, RawBuf.spares_asMut, PMVar.spares_deref, hlen]
  refine forall_congr' fun _ => ?_
  by_cases hfull : len = v.cap
  · simp [hfull]
  · have hlt : len < v.cap := Nat.lt_of_le_of_ne hcap hfull
    have hbs : (bytesAt elem 0 v.elemSize).length ≤ v.elemSize := le_of_eq (length_bytesAt _ _ _)
    simp only [hfull, ↓reduceIte, hlt, Body.spares_bind, false_imp_iff, true_and, forall_const]
    rw [RawBuf.spares_write hlt h fun bs hbs => RawBuf.content_setSlot_iff v.live_congr h hlt hbs]
    simp only [PMVar.spares_deref, RawBuf.read_setSlot v.len_in hlt hbs, hlen, RawBuf.usizeAdd_one _ hlt,
      RawBuf.spares_assign v.len_in, Body.spares_pure]

theorem spares_pop {Q : Option (List UInt8) → List (Obj b.width) → (Nat → UInt8) → (Nat → UInt8) → Prop}
    {P : (Nat → UInt8) → Prop} (hlen : v.len.read mem = len) (hcap : len ≤ v.cap) :
    Body.Spares b P Q v.pop (List.replicate n v.raw) m mem ↔
      (len = 0 → Q none (List.replicate n v.raw) m mem) ∧
      (0 < len → v.Fits b (n + 1) → Q (some (v.slot (v.len.set (len - 1) mem) (len - 1))) (List.replicate (n + 1) v.raw)
        m (v.len.set (len - 1) mem)) := by
  simp only [pop, Body.spares_bind, PMVar.spares_deref, hlen]
  by_cases hempty : len = 0
  · simp [hempty]
  · have hpos : 0 < len := Nat.pos_of_ne_zero hempty
    have hlarge := v.cap_lt
    have hread : v.len.read (v.len.set (len - 1) mem) = len - 1 := PMVar.read_set (by omega)
    simp only [hempty, ↓reduceIte, hpos, false_imp_iff, true_and, forall_const, Body.spares_bind, RawBuf.spares_asMut,
      PMVar.spares_deref, hlen, RawBuf.usizeSub_one _ hpos hcap, RawBuf.spares_assign v.len_in, hread, RawBuf.read,
      Body.spares_loadBytes, Body.spares_pure]
    exact Iff.rfl

theorem spares_drain {Q : List (List UInt8) → List (Obj b.width) → (Nat → UInt8) → (Nat → UInt8) → Prop}
    {P : (Nat → UInt8) → Prop} (hlen : v.len.read mem = len) :
    Body.Spares b P Q v.drain (List.replicate n v.raw) m mem ↔
      (v.Fits b (n + 1) → Q ((List.range' 0 len).map (v.slot (v.len.set 0 mem))) (List.replicate (n + 1) v.raw) m
        (v.len.set 0 mem)) := by
  simp only [drain, Body.spares_bind, PMVar.spares_deref, hlen, RawBuf.spares_asMut, RawBuf.spares_assign v.len_in,
    RawBuf.spares_readFrom]

/-- A sequence of operations spares the contents if its pushes do. -/
theorem spares_runOps (ops : List Op) (hlen : v.len.read mem = len) (hcap : len ≤ v.cap)
    (h : v.Keeps (v.live m₀) m₀ m) :
    Body.Spares b (fun m => v.content m = v.content m₀) (fun _ _ _ _ => True) (v.runOps ops) (List.replicate n v.raw)
      m mem ↔ v.Harmless b m₀ n len ops := by
  have hlarge := v.cap_lt
  induction ops generalizing n len m mem with
  | nil => exact Iff.rfl
  | cons op ops ih =>
      have hzero : ∀ n, Body.Spares b (fun m => v.content m = v.content m₀) (fun _ _ _ _ => True) (v.runOps ops)
          (List.replicate n v.raw) m (v.len.set 0 mem) ↔ v.Harmless b m₀ n 0 ops := fun n =>
        ih (PMVar.read_set (Nat.two_pow_pos _)) (Nat.zero_le _) h
      cases op with
      | push elem =>
          have hbs : (bytesAt elem 0 v.elemSize).length = v.elemSize := length_bytesAt _ _ _
          simp only [runOps, Op.body, Body.spares_bind, spares_push hlen hcap h, Body.spares_pure, Option.isSome_none,
            Option.isSome_some, Bool.false_eq_true, ↓reduceIte, Harmless, implies_true, true_and]
          refine forall_congr' fun _ => forall_congr' fun hlt => and_congr_right fun hsame => ?_
          refine ih (PMVar.read_set (by omega)) hlt ((h.setSlot_iff hlt (le_of_eq hbs)).mpr fun hmem => ?_)
          rw [RawBuf.slot_setSlot hbs, hsame hmem]
      | pop =>
          simp only [runOps, Op.body, Body.spares_bind, spares_pop hlen hcap, Body.spares_pure, ↓reduceIte]
          cases len with
          | zero => simpa [Harmless] using ih hlen (Nat.zero_le _) h
          | succ len =>
              have hpop : ∀ n, Body.Spares b (fun m => v.content m = v.content m₀) (fun _ _ _ _ => True)
                  (v.runOps ops) (List.replicate n v.raw) m (v.len.set len mem) ↔ v.Harmless b m₀ n len ops :=
                fun n => ih (PMVar.read_set (by omega)) (Nat.le_of_succ_le hcap) h
              simp [Harmless, hpop]
      | clear =>
          simp only [runOps, Op.body, Body.spares_bind, spares_clear, Body.spares_pure, ↓reduceIte, hzero, Harmless]
      | drain =>
          simp only [runOps, Op.body, Body.spares_bind, spares_drain hlen, Body.spares_pure, ↓reduceIte, hzero,
            Harmless]

end PVec

end IntOS
