import IntOS.User.RawBuf

/-!
# Persistent queues (`src/user/pqueue.rs`)

A ring of slots. A transaction runs a sequence of operations on it, and a panic ends it.
-/

namespace IntOS

structure PQueue (w : PtrWidth) extends RawBuf w where
  head : PMVar w
  tail : PMVar w
  len : PMVar w
  head_in : ∀ j, head.obj.Contains j → raw.Contains j
  tail_in : ∀ j, tail.obj.Contains j → raw.Contains j
  len_in : ∀ j, len.obj.Contains j → raw.Contains j
  head_tail : Apart head.addr w.bytes tail.addr w.bytes
  head_len : Apart head.addr w.bytes len.addr w.bytes
  tail_len : Apart tail.addr w.bytes len.addr w.bytes

namespace PQueue

variable {w : PtrWidth}

/-- One is added to a cursor, and the ring closes. -/
def advance (q : PQueue w) (x : PMVar w) : Body w Unit := do
  let i ← x.deref
  x.assign (usizeAdd w i 1)
  let i ← x.deref
  if i = q.cap then
    x.assign 0
  else
    pure ()

/-- `PQueue::push_back`: an assertion fails if there is no room. -/
def pushBack (q : PQueue w) (elem : Nat → UInt8) : Body w (Option Unit) := do
  q.asMut
  let len ← q.len.deref
  if len < q.cap then do
    let tail ← q.tail.deref
    q.write tail elem
    q.advance q.tail
    let len ← q.len.deref
    q.len.assign (usizeAdd w len 1)
    pure (some ())
  else
    pure none

def clear (q : PQueue w) : Body w Unit := do
  q.asMut
  q.tail.assign 0
  q.head.assign 0
  q.len.assign 0

/-- `PQueue::pop_front`. -/
def popFront (q : PQueue w) : Body w (Option (List UInt8)) := do
  let len ← q.len.deref
  if len = 0 then
    pure none
  else do
    q.asMut
    let head ← q.head.deref
    let elem ← q.read head
    q.advance q.head
    let len ← q.len.deref
    q.len.assign (usizeSub w len 1)
    pure (some elem)

inductive Op
  | pushBack (elem : Nat → UInt8)
  | popFront
  | clear

/-- The operation, and whether it returns. -/
def Op.body (q : PQueue w) : Op → Body w Bool
  | pushBack elem => do
      let r ← q.pushBack elem
      pure r.isSome
  | popFront => do
      let _ ← q.popFront
      pure true
  | clear => do
      q.clear
      pure true

def runOps (q : PQueue w) : List Op → Body w Unit
  | [] => pure ()
  | op :: ops => do
      let ok ← op.body q
      if ok then
        q.runOps ops
      else
        pure ()

/-- The slots of the elements, from the front on. -/
def live (q : PQueue w) (m : Nat → UInt8) : List Nat :=
  (List.range (q.len.read m)).map fun k => (q.head.read m + k) % q.cap

/-- The elements, in order. -/
def content (q : PQueue w) (m : Nat → UInt8) : List (List UInt8) := (q.live m).map (q.slot m)

/-- The slot after a slot. -/
def next (q : PQueue w) (i : Nat) : Nat := if i + 1 = q.cap then 0 else i + 1

/-- No push writes over an element that the queue had before the transaction, but with its own bytes. The next push goes
to slot `tail`. After so many records and with so many elements, a full journal or a full queue ends the sequence. -/
def Harmless (b : Board) (q : PQueue b.width) (m₀ : Nat → UInt8) : Nat → Nat → Nat → List Op → Prop
  | _, _, _, [] => True
  | n, tail, len, .pushBack elem :: ops => q.Fits b (n + 1) → len < q.cap →
      (tail ∈ q.live m₀ → bytesAt elem 0 q.elemSize = q.slot m₀ tail) ∧
        q.Harmless b m₀ (n + 1) (q.next tail) (len + 1) ops
  | n, tail, 0, .popFront :: ops => q.Harmless b m₀ n tail 0 ops
  | n, tail, len + 1, .popFront :: ops => q.Fits b (n + 1) → q.Harmless b m₀ (n + 1) tail len ops
  | n, _, _, .clear :: ops => q.Fits b (n + 1) → q.Harmless b m₀ (n + 1) 0 0 ops

/-! ## Cursors -/

theorem live_congr (q : PQueue w) (m m' : Nat → UInt8) (h : ∀ j, q.raw.Contains j → m' j = m j) :
    q.live m' = q.live m := by
  rw [live, live, q.len.read_congr fun j hj => h j (q.len_in j hj), q.head.read_congr fun j hj => h j (q.head_in j hj)]

theorem next_lt {q : PQueue w} {i : Nat} (hi : i < q.cap) : q.next i < q.cap := by
  unfold next
  split <;> omega

/-- The words are distinct. -/
theorem disjoint_of_apart {x y : PMVar w} (h : Apart x.addr w.bytes y.addr w.bytes) (j : Nat) (hj : x.obj.Contains j) :
    ¬ y.obj.Contains j := by
  unfold Apart at h
  rw [PMVar.contains_iff] at hj ⊢
  omega

variable {b : Board} {q : PQueue b.width} {m m₀ mem : Nat → UInt8} {n tail len i v : Nat} {elem : Nat → UInt8}
  {x y : PMVar b.width} {P : (Nat → UInt8) → Prop}

/-- The memory after `advance`. -/
def advanced (q : PQueue b.width) (x : PMVar b.width) (mem : Nat → UInt8) : Nat → UInt8 :=
  if usizeAdd b.width (x.read mem) 1 = q.cap then x.set 0 (x.set (usizeAdd b.width (x.read mem) 1) mem)
  else x.set (usizeAdd b.width (x.read mem) 1) mem

theorem read_advanced (hx : x.read mem = i) (hi : i < q.cap) : x.read (q.advanced x mem) = q.next i := by
  have hlarge := q.cap_lt
  have hset : ∀ mem : Nat → UInt8, x.read (x.set 0 mem) = 0 := fun _ => PMVar.read_set (Nat.two_pow_pos _)
  simp only [advanced, hx, RawBuf.usizeAdd_one _ hi, next]
  split
  · exact hset _
  · exact PMVar.read_set (by omega)

theorem read_advanced_of_disjoint (h : ∀ j, y.obj.Contains j → ¬ x.obj.Contains j) :
    y.read (q.advanced x mem) = y.read mem := by
  unfold advanced
  split
  · rw [PMVar.read_set_of_disjoint h, PMVar.read_set_of_disjoint h]
  · exact PMVar.read_set_of_disjoint h

/-! ## Rollback -/

theorem spares_advance {Q : Unit → List (Obj b.width) → (Nat → UInt8) → (Nat → UInt8) → Prop}
    (hx : ∀ j, x.obj.Contains j → q.raw.Contains j) :
    Body.Spares b P Q (q.advance x) (List.replicate (n + 1) q.raw) m mem ↔
      Q () (List.replicate (n + 1) q.raw) m (q.advanced x mem) := by
  have hread : x.read (x.set (usizeAdd b.width (x.read mem) 1) mem) = usizeAdd b.width (x.read mem) 1 :=
    PMVar.read_set (Nat.mod_lt _ (Nat.two_pow_pos _))
  simp only [advance, Body.spares_bind, PMVar.spares_deref, RawBuf.spares_assign hx, hread, advanced]
  by_cases hwrap : usizeAdd b.width (x.read mem) 1 = q.cap
  · simp only [hwrap, ↓reduceIte, RawBuf.spares_assign hx]
  · simp only [hwrap, ↓reduceIte, Body.spares_pure]

theorem spares_clear {Q : Unit → List (Obj b.width) → (Nat → UInt8) → (Nat → UInt8) → Prop} :
    Body.Spares b P Q q.clear (List.replicate n q.raw) m mem ↔
      (q.Fits b (n + 1) →
        Q () (List.replicate (n + 1) q.raw) m (q.len.set 0 (q.head.set 0 (q.tail.set 0 mem)))) := by
  simp only [clear, Body.spares_bind, RawBuf.spares_asMut, RawBuf.spares_assign q.tail_in,
    RawBuf.spares_assign q.head_in, RawBuf.spares_assign q.len_in]

theorem spares_pushBack {Q : Option Unit → List (Obj b.width) → (Nat → UInt8) → (Nat → UInt8) → Prop}
    (hlen : q.len.read mem = len) (htail : q.tail.read mem = tail) (hlt : tail < q.cap)
    (h : q.Keeps (q.live m₀) m₀ m) :
    Body.Spares b (fun m => q.content m = q.content m₀) Q (q.pushBack elem) (List.replicate n q.raw) m mem ↔
      (q.Fits b (n + 1) →
        (¬ len < q.cap → Q none (List.replicate (n + 1) q.raw) m mem) ∧
        (len < q.cap → (tail ∈ q.live m₀ → bytesAt elem 0 q.elemSize = q.slot m₀ tail) ∧
          Q (some ()) (List.replicate (n + 1) q.raw) (q.setSlot m tail (bytesAt elem 0 q.elemSize))
            (q.len.set (len + 1) (q.advanced q.tail (q.setSlot mem tail (bytesAt elem 0 q.elemSize)))))) := by
  simp only [pushBack, Body.spares_bind, RawBuf.spares_asMut, PMVar.spares_deref, hlen]
  refine forall_congr' fun _ => ?_
  by_cases hroom : len < q.cap
  · have hbs : (bytesAt elem 0 q.elemSize).length ≤ q.elemSize := le_of_eq (length_bytesAt _ _ _)
    have hlen' : q.len.read (q.advanced q.tail (q.setSlot mem tail (bytesAt elem 0 q.elemSize))) = len := by
      rw [read_advanced_of_disjoint (disjoint_of_apart q.tail_len.symm), RawBuf.read_setSlot q.len_in hlt hbs, hlen]
    simp only [hroom, ↓reduceIte, not_true_eq_false, false_imp_iff, true_and, forall_const, Body.spares_bind,
      PMVar.spares_deref, htail]
    rw [RawBuf.spares_write hlt h fun bs hbs => RawBuf.content_setSlot_iff q.live_congr h hlt hbs]
    simp only [spares_advance q.tail_in, hlen', RawBuf.usizeAdd_one _ hroom, RawBuf.spares_assign q.len_in,
      Body.spares_pure]
  · simp [hroom]

theorem spares_popFront {Q : Option (List UInt8) → List (Obj b.width) → (Nat → UInt8) → (Nat → UInt8) → Prop}
    (hlen : q.len.read mem = len) (hcap : len ≤ q.cap) :
    Body.Spares b P Q q.popFront (List.replicate n q.raw) m mem ↔
      (len = 0 → Q none (List.replicate n q.raw) m mem) ∧
      (0 < len → q.Fits b (n + 1) → Q (some (q.slot mem (q.head.read mem))) (List.replicate (n + 1) q.raw) m
        (q.len.set (len - 1) (q.advanced q.head mem))) := by
  simp only [popFront, Body.spares_bind, PMVar.spares_deref, hlen]
  by_cases hempty : len = 0
  · simp [hempty]
  · have hpos : 0 < len := Nat.pos_of_ne_zero hempty
    have hlen' : q.len.read (q.advanced q.head mem) = len := by
      rw [read_advanced_of_disjoint (disjoint_of_apart q.head_len.symm), hlen]
    simp only [hempty, ↓reduceIte, hpos, false_imp_iff, true_and, forall_const, Body.spares_bind, RawBuf.spares_asMut,
      PMVar.spares_deref, RawBuf.read, Body.spares_loadBytes, spares_advance q.head_in, hlen',
      RawBuf.usizeSub_one _ hpos hcap, RawBuf.spares_assign q.len_in, Body.spares_pure]
    exact Iff.rfl

/-- A sequence of operations spares the contents if its pushes do. -/
theorem spares_runOps (ops : List Op) (hlen : q.len.read mem = len) (hcap : len ≤ q.cap)
    (htail : q.tail.read mem = tail) (hlt : tail < q.cap) (h : q.Keeps (q.live m₀) m₀ m) :
    Body.Spares b (fun m => q.content m = q.content m₀) (fun _ _ _ _ => True) (q.runOps ops) (List.replicate n q.raw)
      m mem ↔ q.Harmless b m₀ n tail len ops := by
  have hlarge := q.cap_lt
  have htail_len := disjoint_of_apart q.tail_len
  have htail_head := disjoint_of_apart q.head_tail.symm
  induction ops generalizing n tail len m mem with
  | nil => exact Iff.rfl
  | cons op ops ih =>
      cases op with
      | pushBack elem =>
          have hbs : (bytesAt elem 0 q.elemSize).length = q.elemSize := length_bytesAt _ _ _
          simp only [runOps, Op.body, Body.spares_bind, spares_pushBack hlen htail hlt h, Body.spares_pure,
            Option.isSome_none, Option.isSome_some, Bool.false_eq_true, ↓reduceIte, Harmless, implies_true, true_and]
          refine forall_congr' fun _ => forall_congr' fun hroom => and_congr_right fun hsame => ?_
          refine ih (PMVar.read_set (by omega)) hroom ?_ (next_lt hlt)
            ((h.setSlot_iff hlt (le_of_eq hbs)).mpr fun hmem => ?_)
          · rw [PMVar.read_set_of_disjoint htail_len]
            exact read_advanced ((RawBuf.read_setSlot q.tail_in hlt (le_of_eq hbs)).trans htail) hlt
          · rw [RawBuf.slot_setSlot hbs, hsame hmem]
      | popFront =>
          simp only [runOps, Op.body, Body.spares_bind, spares_popFront hlen hcap, Body.spares_pure, ↓reduceIte]
          cases len with
          | zero => simpa [Harmless] using ih hlen (Nat.zero_le _) htail hlt h
          | succ len =>
              have hpop : ∀ n, Body.Spares b (fun m => q.content m = q.content m₀) (fun _ _ _ _ => True)
                  (q.runOps ops) (List.replicate n q.raw) m (q.len.set len (q.advanced q.head mem)) ↔
                    q.Harmless b m₀ n tail len ops := fun n => by
                refine ih (PMVar.read_set (by omega)) (Nat.le_of_succ_le hcap) ?_ hlt h
                rw [PMVar.read_set_of_disjoint htail_len, read_advanced_of_disjoint htail_head, htail]
              simp [Harmless, hpop]
      | clear =>
          simp only [runOps, Op.body, Body.spares_bind, spares_clear, Body.spares_pure, ↓reduceIte, Harmless]
          refine forall_congr' fun _ => ?_
          refine ih (PMVar.read_set (Nat.two_pow_pos _)) (Nat.zero_le _) ?_ (Nat.zero_lt_of_lt hlt) h
          rw [PMVar.read_set_of_disjoint htail_len, PMVar.read_set_of_disjoint htail_head]
          exact PMVar.read_set (Nat.two_pow_pos _)

end PQueue

end IntOS
