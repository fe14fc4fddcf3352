import IntOS.Pmem.Rollback
import IntOS.Queue.Queue

/-!
# Buffers of persistent containers (`src/user/pvec.rs`, `src/user/pqueue.rs`)

`RawPVec` and `RawPQueue` are boxed: a container reaches its cursors through `PBox::as_mut`, which logs all of them.
The elements are in an allocation of their own. Elements are written with `core::ptr::write`, and nothing logs them.
-/

namespace IntOS

/-- The fields `ptr` and `cap` of `RawPVec` and `RawPQueue`, which `new` writes once, and where they are. -/
structure RawBuf (w : PtrWidth) where
  /-- What `boxed_buf` points at. -/
  raw : Obj w
  ptr : Nat
  cap : Nat
  /-- `size_of::<T>()`. -/
  elemSize : Nat
  cap_lt : cap < 2 ^ w.bits
  apart : Apart ptr (cap * elemSize) raw.addr raw.size

namespace RawBuf

variable {w : PtrWidth}

/-- `boxed_buf.as_mut(j)`. -/
def asMut (r : RawBuf w) : Body w Unit := .log r.raw (.ret ())

/-- `core::ptr::write(ptr.add(i), elem)`. -/
def write (r : RawBuf w) (i : Nat) (elem : Nat → UInt8) : Body w Unit :=
  Body.storeBytes (r.ptr + i * r.elemSize) (bytesAt elem 0 r.elemSize)

/-- `core::ptr::read(ptr.add(i))`. -/
def read (r : RawBuf w) (i : Nat) : Body w (List UInt8) := Body.loadBytes (r.ptr + i * r.elemSize) r.elemSize

/-- An iterator over the slots from `i` on, up to its end. -/
def readFrom (r : RawBuf w) (i : Nat) : Nat → Body w (List (List UInt8))
  | 0 => pure []
  | n + 1 => do
      let elem ← r.read i
      let elems ← r.readFrom (i + 1) n
      pure (elem :: elems)

/-- The bytes of an element. -/
def slot (r : RawBuf w) (m : Nat → UInt8) (i : Nat) : List UInt8 := bytesAt m (r.ptr + i * r.elemSize) r.elemSize

/-- The memory after a write to slot `i` has stored the bytes. -/
def setSlot (r : RawBuf w) (m : Nat → UInt8) (i : Nat) (bs : List UInt8) : Nat → UInt8 :=
  setBytes m (r.ptr + i * r.elemSize) bs

/-- As many records of the cursors fit into the journal. -/
def Fits (b : Board) (r : RawBuf b.width) (n : Nat) : Prop := logSize b (List.replicate n r.raw) ≤ b.pmJournalSize

/-! ## Counters -/

theorem usizeAdd_one (r : RawBuf w) {i : Nat} (hi : i < r.cap) : usizeAdd w i 1 = i + 1 := by
  have hlarge := r.cap_lt
  exact Nat.mod_eq_of_lt (by omega)

theorem usizeSub_one (r : RawBuf w) {i : Nat} (hpos : 0 < i) (hi : i ≤ r.cap) : usizeSub w i 1 = i - 1 := by
  have hlarge := r.cap_lt
  unfold usizeSub
  rw [show i + (2 ^ w.bits - 1) = i - 1 + 2 ^ w.bits by omega, Nat.add_mod_right]
  exact Nat.mod_eq_of_lt (by omega)

/-! ## Slots -/

variable {r : RawBuf w} {m : Nat → UInt8} {i j k : Nat} {bs : List UInt8}

theorem slot_end_le (hi : i < r.cap) : i * r.elemSize + r.elemSize ≤ r.cap * r.elemSize := by
  rw [← Nat.succ_mul]
  exact Nat.mul_le_mul_right _ hi

theorem setSlot_of_raw (hi : i < r.cap) (hbs : bs.length ≤ r.elemSize) (hj : r.raw.Contains j) :
    r.setSlot m i bs j = m j := by
  have hend := slot_end_le hi
  have hapart := r.apart
  obtain ⟨h1, h2⟩ := hj
  unfold Apart at hapart
  exact setBytes_of_not (by omega)

theorem slot_setSlot_of_ne (hbs : bs.length ≤ r.elemSize) (hk : k ≠ i) : r.slot (r.setSlot m i bs) k = r.slot m k := by
  refine bytesAt_congr fun j h1 h2 => setBytes_of_not ?_
  rcases Nat.lt_or_gt_of_ne hk with hlt | hgt
  · have hle : (k + 1) * r.elemSize ≤ i * r.elemSize := Nat.mul_le_mul_right _ hlt
    rw [Nat.succ_mul] at hle
    omega
  · have hle : (i + 1) * r.elemSize ≤ k * r.elemSize := Nat.mul_le_mul_right _ hgt
    rw [Nat.succ_mul] at hle
    omega

theorem slot_setSlot (hbs : bs.length = r.elemSize) : r.slot (r.setSlot m i bs) i = bs := by
  unfold slot setSlot
  rw [← hbs]
  exact bytesAt_setBytes m _ bs

/-- What is written is what the slot holds. -/
theorem setSlot_slot (n : Nat) : r.setSlot m i ((r.slot m i).take n) = m := by
  have hself : ∀ (a l n : Nat), setBytes m a ((bytesAt m a l).take n) = m := by
    intro a l n
    induction l generalizing a n with
    | zero => simp [bytesAt, setBytes]
    | succ l ih =>
        cases n with
        | zero => rfl
        | succ n =>
            simp only [bytesAt, List.take_succ_cons, setBytes, Function.update_eq_self]
            exact ih (a + 1) n
  exact hself _ _ _

/-- The cursors and the elements in the slots `is` are what they were in `m₀`. -/
structure Keeps (r : RawBuf w) (is : List Nat) (m₀ m : Nat → UInt8) : Prop where
  raw : ∀ j, r.raw.Contains j → m j = m₀ j
  slots : ∀ k ∈ is, r.slot m k = r.slot m₀ k

variable {m₀ : Nat → UInt8} {is : List Nat}

theorem Keeps.refl : r.Keeps is m m := ⟨fun _ _ => rfl, fun _ _ => rfl⟩

/-- A write to slot `i` spoils the elements of `is` only if `i` is one of them. -/
theorem Keeps.setSlot_iff (h : r.Keeps is m₀ m) (hi : i < r.cap) (hbs : bs.length ≤ r.elemSize) :
    r.Keeps is m₀ (r.setSlot m i bs) ↔ (i ∈ is → r.slot (r.setSlot m i bs) i = r.slot m₀ i) := by
  constructor
  · exact fun h' hmem => h'.slots i hmem
  · intro hsame
    constructor
    · intro j hj
      rw [setSlot_of_raw hi hbs hj, h.raw j hj]
    · intro k hk
      by_cases hki : k = i
      · subst hki
        exact hsame hk
      · rw [slot_setSlot_of_ne hbs hki, h.slots k hk]

/-- The contents are the bytes of the slots that the cursors name. -/
theorem content_setSlot_iff {live : (Nat → UInt8) → List Nat}
    (hlive : ∀ m m', (∀ j, r.raw.Contains j → m' j = m j) → live m' = live m) (h : r.Keeps (live m₀) m₀ m)
    (hi : i < r.cap) (hbs : bs.length ≤ r.elemSize) :
    (live (r.setSlot m i bs)).map (r.slot (r.setSlot m i bs)) = (live m₀).map (r.slot m₀) ↔
      r.Keeps (live m₀) m₀ (r.setSlot m i bs) := by
  have hraw : ∀ j, r.raw.Contains j → r.setSlot m i bs j = m₀ j := fun j hj => by
    rw [setSlot_of_raw hi hbs hj, h.raw j hj]
  rw [hlive _ _ hraw, List.map_inj_left]
  exact ⟨fun hslots => ⟨hraw, hslots⟩, fun hkeeps => hkeeps.slots⟩

/-- A write to a slot leaves the cursors alone. -/
theorem read_setSlot {x : PMVar w} (hx : ∀ j, x.obj.Contains j → r.raw.Contains j) (hi : i < r.cap)
    (hbs : bs.length ≤ r.elemSize) : x.read (r.setSlot m i bs) = x.read m :=
  x.read_congr fun j hj => setSlot_of_raw hi hbs (hx j hj)

/-! ## Rollback -/

variable {b : Board} {r : RawBuf b.width} {P : (Nat → UInt8) → Prop} {m mem : Nat → UInt8} {n : Nat}
  {Q : Unit → List (Obj b.width) → (Nat → UInt8) → (Nat → UInt8) → Prop}

theorem spares_asMut : Body.Spares b P Q r.asMut (List.replicate n r.raw) m mem ↔
    (r.Fits b (n + 1) → Q () (List.replicate (n + 1) r.raw) m mem) := Body.spares_log

theorem inLog_iff {a : Nat} : InLog (List.replicate (n + 1) r.raw) a ↔ r.raw.Contains a := by
  constructor
  · rintro ⟨o, ho, ha⟩
    rwa [List.eq_of_mem_replicate ho] at ha
  · exact fun ha => ⟨r.raw, by simp, ha⟩

/-- The cursors are logged before one of them is assigned. -/
theorem spares_assign {x : PMVar b.width} {v : Nat} (hx : ∀ j, x.obj.Contains j → r.raw.Contains j) :
    Body.Spares b P Q (x.assign v) (List.replicate (n + 1) r.raw) m mem ↔
      Q () (List.replicate (n + 1) r.raw) m (x.set v mem) :=
  PMVar.spares_assign fun j hj => inLog_iff.mpr (hx j hj)

theorem spares_readFrom {i n : Nat} {os : List (Obj b.width)}
    {Q : List (List UInt8) → List (Obj b.width) → (Nat → UInt8) → (Nat → UInt8) → Prop} :
    Body.Spares b P Q (r.readFrom i n) os m mem ↔ Q ((List.range' i n).map (r.slot mem)) os m mem := by
  induction n generalizing i Q with
  | zero => exact Iff.rfl
  | succ n ih =>
      simp only [readFrom, read, Body.spares_bind, Body.spares_loadBytes, ih, Body.spares_pure]
      exact Iff.rfl

/-- A write spares the elements that were in the slots `is` if it goes to another slot, or if it writes what is
there. -/
theorem spares_write {elem : Nat → UInt8} {is : List Nat} {m₀ : Nat → UInt8} (hi : i < r.cap) (h : r.Keeps is m₀ m)
    (hP : ∀ bs, bs.length ≤ r.elemSize → (P (r.setSlot m i bs) ↔ r.Keeps is m₀ (r.setSlot m i bs))) :
    Body.Spares b P Q (r.write i elem) (List.replicate (n + 1) r.raw) m mem ↔
      (i ∈ is → bytesAt elem 0 r.elemSize = r.slot m₀ i) ∧
        Q () (List.replicate (n + 1) r.raw) (r.setSlot m i (bytesAt elem 0 r.elemSize))
          (r.setSlot mem i (bytesAt elem 0 r.elemSize)) := by
  have hlen : (bytesAt elem 0 r.elemSize).length = r.elemSize := length_bytesAt _ _ _
  have hnot : ∀ j, r.ptr + i * r.elemSize ≤ j →
      j < r.ptr + i * r.elemSize + (bytesAt elem 0 r.elemSize).length →
        ¬ InLog (List.replicate (n + 1) r.raw) j := by
    intro j h1 h2 hs
    rw [inLog_iff] at hs
    have hend := slot_end_le hi
    have hapart := r.apart
    obtain ⟨h3, h4⟩ := hs
    unfold Apart at hapart
    omega
  rw [write, Body.spares_storeBytes_not_inLog hnot]
  refine and_congr_left fun _ => ?_
  have htake : ∀ n, ((bytesAt elem 0 r.elemSize).take (n + 1)).length ≤ r.elemSize := fun n => by
    rw [List.length_take, hlen]
    exact Nat.min_le_right _ _
  constructor
  · intro hall hmem
    by_cases hzero : r.elemSize = 0
    · simp [hzero, slot, bytesAt]
    · have hlast := hall (r.elemSize - 1) (by omega)
      rw [Nat.sub_add_cancel (Nat.pos_of_ne_zero hzero), List.take_of_length_le (le_of_eq hlen)] at hlast
      have hslot := (h.setSlot_iff hi (le_of_eq hlen)).mp ((hP _ (le_of_eq hlen)).mp hlast) hmem
      rwa [slot_setSlot hlen] at hslot
  · intro hsame n _
    refine (hP _ (htake n)).mpr ((h.setSlot_iff hi (htake n)).mpr fun hmem => ?_)
    rw [hsame hmem, ← h.slots i hmem, setSlot_slot]

end RawBuf

end IntOS
