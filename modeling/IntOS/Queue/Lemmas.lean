import IntOS.Lib.Ring
import IntOS.Queue.Queue

/-!
# The ring of a queue

`Holds q m r n`: the queue has `n` items in the slots from `r` on. Each operation gets one specification: the
addresses it touches, its reply and the slots afterwards.
-/

namespace IntOS.Queue

variable {w : PtrWidth}

/-- The bytes of slot `i`. -/
def slot (q : Queue w) (m : Nat → UInt8) (i : Nat) : List UInt8 :=
  bytesAt m (q.buffer + i * q.itemSize) q.itemSize

structure Holds (q : Queue w) (m : Nat → UInt8) (r n : Nat) : Prop where
  r_lt : r < q.length
  n_le : n ≤ q.length
  readPos : q.readPos.read m = r * q.itemSize
  writePos : q.writePos.read m = (r + n) % q.length * q.itemSize
  items : q.itemsEnqueued.read m = n

/-- The positions and the count describe some window of the ring. -/
def WellFormed (q : Queue w) (m : Nat → UInt8) : Prop := ∃ r n, q.Holds m r n

/-- The addresses of a queue: its three words and its buffer of `length * item_size` bytes. -/
def Within (q : Queue w) (a : Nat) : Prop :=
  q.readPos.obj.Contains a ∨ q.writePos.obj.Contains a ∨ q.itemsEnqueued.obj.Contains a ∨
    (q.buffer ≤ a ∧ a < q.buffer + q.length * q.itemSize)

def InSlot (q : Queue w) (i a : Nat) : Prop :=
  q.buffer + i * q.itemSize ≤ a ∧ a < q.buffer + i * q.itemSize + q.itemSize

/-- Every store of the body hits a logged object or slot `i`. -/
def Writes (q : Queue w) (i : Nat) (os : List (Obj w)) (a : Nat) : Prop :=
  (∃ o ∈ os, o.Contains a) ∨ q.InSlot i a

variable {q : Queue w} {m m' : Nat → UInt8} {r n : Nat}

/-! ## Positions -/

theorem slot_end_le {i : Nat} (hi : i < q.length) : i * q.itemSize + q.itemSize ≤ q.tail := by
  rw [q.tail_eq, Nat.mul_comm q.itemSize, ← Nat.succ_mul]
  exact Nat.mul_le_mul_right _ hi

theorem InSlot.within {i a : Nat} (hi : i < q.length) (h : q.InSlot i a) : q.Within a := by
  have hle := slot_end_le (q := q) hi
  rw [q.tail_eq, Nat.mul_comm q.itemSize] at hle
  obtain ⟨h1, h2⟩ := h
  exact Or.inr (Or.inr (Or.inr ⟨by omega, by omega⟩))

/-- A slot lies in the buffer, hence apart from the words. -/
theorem InSlot.in_buffer {i a : Nat} (hi : i < q.length) (h : q.InSlot i a) :
    q.buffer ≤ a ∧ a < q.buffer + q.tail := by
  have hle := slot_end_le (q := q) hi
  obtain ⟨h1, h2⟩ := h
  exact ⟨by omega, by omega⟩

/-- Different slots do not overlap. -/
theorem InSlot.unique {i j a : Nat} (hi : q.InSlot i a) (hj : q.InSlot j a) : i = j := by
  have hlt : ∀ {i j : Nat}, q.InSlot i a → q.InSlot j a → ¬ i < j := by
    intro i j hi hj hij
    have hle : (i + 1) * q.itemSize ≤ j * q.itemSize := Nat.mul_le_mul_right _ hij
    rw [Nat.succ_mul] at hle
    obtain ⟨_, h2⟩ := hi
    obtain ⟨h1, _⟩ := hj
    omega
  have h1 := hlt hi hj
  have h2 := hlt hj hi
  omega

theorem slot_congr {i : Nat} (h : ∀ a, q.InSlot i a → m' a = m a) : q.slot m' i = q.slot m i :=
  bytesAt_congr fun a h1 h2 => h a ⟨h1, h2⟩

theorem next_slot (hr : r < q.length) : q.next (r * q.itemSize) = (r + 1) % q.length * q.itemSize := by
  unfold next
  rw [q.tail_eq, ← Nat.succ_mul, Nat.mul_comm q.itemSize]
  by_cases he : r + 1 = q.length
  · rw [if_pos (by rw [← he]), he, Nat.mod_self, Nat.zero_mul]
  · rw [Nat.mod_eq_of_lt (by omega)]
    split
    case isTrue h =>
      -- the slots are empty, so all positions are 0
      have hs : q.itemSize = 0 := by
        by_contra hne
        exact he (Nat.eq_of_mul_eq_mul_right (by omega) h)
      rw [hs, Nat.mul_zero]
    case isFalse h => rfl

/-- The position that `push_front` steps back to. -/
theorem prev_slot (hr : r < q.length) :
    (if r * q.itemSize = 0 then usizeSub w q.tail q.itemSize else usizeSub w (r * q.itemSize) q.itemSize) =
      (r + (q.length - 1)) % q.length * q.itemSize := by
  have hsub : ∀ x y, y ≤ x → x < 2 ^ w.bits → usizeSub w x y = x - y := by
    intro x y hy hx
    unfold usizeSub
    rw [show x + (2 ^ w.bits - y) = x - y + 2 ^ w.bits by omega, Nat.add_mod_right,
      Nat.mod_eq_of_lt (by omega)]
  have hlt := q.tail_lt
  have hle := slot_end_le (q := q) hr
  cases r with
  | zero =>
      have h0 := slot_end_le (q := q) q.length_pos
      rw [if_pos (Nat.zero_mul _), hsub _ _ (by omega) hlt, Nat.zero_add,
        Nat.mod_eq_of_lt (by have := q.length_pos; omega), q.tail_eq, Nat.mul_comm q.itemSize,
        Nat.sub_mul, Nat.one_mul]
  | succ r =>
      have hmod : (r + 1 + (q.length - 1)) % q.length = r := by
        rw [show r + 1 + (q.length - 1) = r + q.length by omega, Nat.add_mod_right,
          Nat.mod_eq_of_lt (by omega)]
      rw [hmod, Nat.succ_mul]
      split
      case isTrue h =>
        have hs : q.itemSize = 0 := by omega
        rw [hsub _ _ (by rw [hs]; omega) hlt, q.tail_eq, hs]
        omega
      case isFalse h =>
        rw [Nat.succ_mul] at hle
        rw [hsub _ _ (by omega) (by omega)]
        omega

/-! ## The content as a window -/

theorem itemsFrom_eq (hr : r < q.length) :
    q.itemsFrom m (r * q.itemSize) n = Ring.window (q.slot m) q.length r n := by
  induction n generalizing r with
  | zero => rfl
  | succ n ih =>
      rw [itemsFrom, next_slot hr, ih (Nat.mod_lt _ q.length_pos), Ring.window_cons hr]
      rfl

theorem Holds.content_eq (h : q.Holds m r n) : q.content m = Ring.window (q.slot m) q.length r n := by
  rw [content, h.readPos, h.items, itemsFrom_eq h.r_lt]

theorem Holds.length_content (h : q.Holds m r n) : (q.content m).length = n := by
  rw [h.content_eq, Ring.length_window]

/-! ## Parts of an operation -/

section
variable {R : Nat → Prop} {W : List (Obj w) → Nat → Prop} {os : List (Obj w)}

/-- `advance` at a position of the ring. -/
theorem wp_advance {Q : Unit → List (Obj w) → (Nat → UInt8) → Prop} {x : PMVar w} {i : Nat}
    (hi : i < q.length) (hx : x.read m = i * q.itemSize) (hR : ∀ j, x.obj.Contains j → R j)
    (hW : ∀ j, x.obj.Contains j → W os j)
    (hQ : ∀ m', x.read m' = (i + 1) % q.length * q.itemSize →
      (∀ j, ¬ x.obj.Contains j → m' j = m j) → Q () os m') :
    Body.wp R W Q (q.advance x q.itemSize) os m := by
  have hlt := q.tail_lt
  have hle := slot_end_le (q := q) hi
  have hadd : usizeAdd w (i * q.itemSize) q.itemSize = i * q.itemSize + q.itemSize :=
    Nat.mod_eq_of_lt (by omega)
  unfold advance
  rw [Body.wp_bind]
  apply PMVar.wp_deref hR
  rw [Body.wp_bind, hx, hadd]
  apply PMVar.wp_assign (by omega) hW
  intro m₁ hv hoff
  rw [Body.wp_bind]
  apply PMVar.wp_deref hR
  rw [hv]
  have hnext := next_slot hi
  unfold next at hnext
  split at hnext
  case isTrue ht =>
    rw [if_pos ht]
    apply PMVar.wp_assign (Nat.two_pow_pos _) hW
    intro m₂ hv₂ hoff₂
    apply hQ m₂ (hv₂.trans hnext)
    intro j hj
    rw [hoff₂ j hj, hoff j hj]
  case isFalse ht =>
    rw [if_neg ht]
    exact hQ m₁ (hv.trans hnext) hoff

theorem wp_isFull {Q : Bool → List (Obj w) → (Nat → UInt8) → Prop} (h : q.Holds m r n)
    (hR : ∀ j, q.itemsEnqueued.obj.Contains j → R j) (hQ : Q (n = q.length) os m) :
    Body.wp R W Q q.isFull os m := by
  unfold isFull
  rw [Body.wp_bind]
  apply PMVar.wp_deref hR
  rw [h.items]
  exact hQ

theorem wp_isEmpty {Q : Bool → List (Obj w) → (Nat → UInt8) → Prop} (h : q.Holds m r n)
    (hR : ∀ j, q.itemsEnqueued.obj.Contains j → R j) (hQ : Q (n = 0) os m) :
    Body.wp R W Q q.isEmpty os m := by
  unfold isEmpty
  rw [Body.wp_bind]
  apply PMVar.wp_deref hR
  rw [h.items]
  exact hQ

end

/-! ## The words and the slots are apart -/

theorem not_slot_of_word {x : PMVar w} (hx : Apart q.buffer q.tail x.addr w.bytes) {i j : Nat}
    (hi : i < q.length) (h : x.obj.Contains j) : ¬ q.InSlot i j := by
  intro hs
  have hb := hs.in_buffer hi
  rw [PMVar.contains_iff] at h
  unfold Apart at hx
  omega

theorem not_word_of_word {x y : PMVar w} (hxy : Apart x.addr w.bytes y.addr w.bytes) {j : Nat}
    (h : x.obj.Contains j) : ¬ y.obj.Contains j := by
  intro hy
  rw [PMVar.contains_iff] at h hy
  unfold Apart at hxy
  omega

/-! ## The specifications -/

/-- The queue after a push of `bs` into slot `f`. -/
structure Pushed (q : Queue w) (m : Nat → UInt8) (r n f : Nat) (bs : List UInt8) (m' : Nat → UInt8) :
    Prop where
  holds : q.Holds m' r (n + 1)
  filled : q.slot m' f = bs
  others : ∀ i, i < q.length → i ≠ f → q.slot m' i = q.slot m i

theorem wp_storeItem {Q : Unit → List (Obj w) → (Nat → UInt8) → Prop} {os : List (Obj w)} {f : Nat}
    {bs : List UInt8} (hbs : bs.length = q.itemSize)
    (hQ : ∀ m', q.slot m' f = bs → (∀ j, ¬ q.InSlot f j → m' j = m j) → Q () os m') :
    Body.wp q.Within (q.Writes f) Q (Body.storeBytes (q.buffer + f * q.itemSize) bs) os m := by
  apply Body.wp_storeBytes
  · intro j h1 h2
    rw [hbs] at h2
    exact Or.inr ⟨h1, h2⟩
  · apply hQ
    · have hb := bytesAt_setBytes m (q.buffer + f * q.itemSize) bs
      rwa [hbs] at hb
    · intro j hj
      apply setBytes_of_not
      rw [hbs]
      unfold InSlot at hj
      omega

theorem within_readPos {j : Nat} (h : q.readPos.obj.Contains j) : q.Within j := Or.inl h

theorem within_writePos {j : Nat} (h : q.writePos.obj.Contains j) : q.Within j := Or.inr (Or.inl h)

theorem within_itemsEnqueued {j : Nat} (h : q.itemsEnqueued.obj.Contains j) : q.Within j :=
  Or.inr (Or.inr (Or.inl h))

/-- A push or a removal that finds the queue full or empty changes nothing. -/
theorem wp_pushBack_full (h : q.Holds m r n) (hn : n = q.length) (item : Nat → UInt8) {os : List (Obj w)}
    {W : List (Obj w) → Nat → Prop} :
    Body.wp q.Within W (fun a _ m' => a = .error .queueFull ∧ m' = m) (q.pushBack item) os m := by
  unfold pushBack
  rw [Body.wp_bind]
  apply wp_isFull h fun _ => within_itemsEnqueued
  rw [if_pos (decide_eq_true hn)]
  exact ⟨rfl, rfl⟩

theorem wp_pushFront_full (h : q.Holds m r n) (hn : n = q.length) (item : Nat → UInt8) {os : List (Obj w)}
    {W : List (Obj w) → Nat → Prop} :
    Body.wp q.Within W (fun a _ m' => a = .error .queueFull ∧ m' = m) (q.pushFront item) os m := by
  unfold pushFront
  rw [Body.wp_bind]
  apply wp_isFull h fun _ => within_itemsEnqueued
  rw [if_pos (decide_eq_true hn)]
  exact ⟨rfl, rfl⟩

theorem wp_dequeue_empty (h : q.Holds m r n) (hn : n = 0) (size : Nat) {os : List (Obj w)}
    {W : List (Obj w) → Nat → Prop} :
    Body.wp q.Within W (fun a _ m' => a = .error .queueEmpty ∧ m' = m) (q.dequeue size) os m := by
  unfold dequeue
  rw [Body.wp_bind]
  apply wp_isEmpty h fun _ => within_itemsEnqueued
  rw [if_pos (decide_eq_true hn)]
  exact ⟨rfl, rfl⟩

theorem wp_pushBack (h : q.Holds m r n) (hn : n < q.length) (item : Nat → UInt8) {os : List (Obj w)} :
    Body.wp q.Within (q.Writes ((r + n) % q.length))
      (fun a _ m' => a = .ok () ∧ q.Pushed m r n ((r + n) % q.length) (bytesAt item 0 q.itemSize) m')
      (q.pushBack item) os m := by
  have hf : (r + n) % q.length < q.length := Nat.mod_lt _ q.length_pos
  unfold pushBack
  rw [Body.wp_bind]
  apply wp_isFull h fun _ => within_itemsEnqueued
  rw [if_neg (by simpa using Nat.ne_of_lt hn), Body.wp_bind]
  apply PMVar.wp_deref fun _ => within_writePos
  rw [h.writePos, Body.wp_bind]
  apply wp_storeItem (length_bytesAt _ _ _)
  intro m₁ hs₁ hoff₁
  rw [Body.wp_bind]
  apply PMVar.wp_borrowMut fun _ => within_writePos
  rw [Body.wp_bind]
  apply wp_advance hf (i := (r + n) % q.length)
  · rw [← h.writePos]
    exact PMVar.read_congr fun j hj => hoff₁ j (not_slot_of_word q.buffer_write hf hj)
  · exact fun _ => within_writePos
  · exact fun j hj => Or.inl ⟨_, List.mem_cons_self, hj⟩
  intro m₂ hw₂ hoff₂
  rw [Body.wp_bind]
  apply PMVar.wp_borrowMut fun _ => within_itemsEnqueued
  rw [Body.wp_bind]
  apply PMVar.wp_deref fun _ => within_itemsEnqueued
  have hitems : q.itemsEnqueued.read m₂ = n := by
    rw [← h.items]
    apply PMVar.read_congr
    intro j hj
    rw [hoff₂ j fun hw => not_word_of_word q.write_items hw hj,
      hoff₁ j (not_slot_of_word q.buffer_items hf hj)]
  have hlen := q.length_lt
  have hadd : usizeAdd w n 1 = n + 1 := Nat.mod_eq_of_lt (by omega)
  rw [hitems, hadd, Body.wp_bind]
  apply PMVar.wp_assign (by omega) fun j hj => Or.inl ⟨_, List.mem_cons_self, hj⟩
  intro m₃ hi₃ hoff₃
  refine ⟨rfl, ⟨h.r_lt, hn, ?_, ?_, hi₃⟩, ?_, ?_⟩
  · rw [← h.readPos]
    apply PMVar.read_congr
    intro j hj
    rw [hoff₃ j (not_word_of_word q.read_items hj), hoff₂ j (not_word_of_word q.read_write hj),
      hoff₁ j (not_slot_of_word q.buffer_read hf hj)]
  · rw [PMVar.read_congr fun j hj => hoff₃ j (not_word_of_word q.write_items hj), hw₂, Nat.mod_add_mod,
      Nat.add_assoc]
  · rw [← hs₁]
    apply slot_congr
    intro j hj
    rw [hoff₃ j fun hi => not_slot_of_word q.buffer_items hf hi hj,
      hoff₂ j fun hw => not_slot_of_word q.buffer_write hf hw hj]
  · intro i hi hne
    apply slot_congr
    intro j hj
    rw [hoff₃ j fun hw => not_slot_of_word q.buffer_items hi hw hj,
      hoff₂ j fun hw => not_slot_of_word q.buffer_write hi hw hj, hoff₁ j fun hs => hne (hj.unique hs)]

theorem wp_pushFront (h : q.Holds m r n) (hn : n < q.length) (item : Nat → UInt8) {os : List (Obj w)} :
    Body.wp q.Within (q.Writes ((r + (q.length - 1)) % q.length))
      (fun a _ m' => a = .ok () ∧ q.Pushed m ((r + (q.length - 1)) % q.length) n
        ((r + (q.length - 1)) % q.length) (bytesAt item 0 q.itemSize) m')
      (q.pushFront item) os m := by
  have hf : (r + (q.length - 1)) % q.length < q.length := Nat.mod_lt _ q.length_pos
  have hlt : (r + (q.length - 1)) % q.length * q.itemSize < 2 ^ w.bits := by
    have := slot_end_le (q := q) hf
    have := q.tail_lt
    omega
  unfold pushFront
  rw [Body.wp_bind]
  apply wp_isFull h fun _ => within_itemsEnqueued
  rw [if_neg (by simpa using Nat.ne_of_lt hn), Body.wp_bind]
  apply PMVar.wp_borrowMut fun _ => within_readPos
  rw [Body.wp_bind]
  apply PMVar.wp_deref fun _ => within_readPos
  rw [h.readPos, prev_slot h.r_lt, Body.wp_bind]
  apply PMVar.wp_assign hlt fun j hj => Or.inl ⟨_, List.mem_cons_self, hj⟩
  intro m₁ hr₁ hoff₁
  rw [Body.wp_bind]
  apply PMVar.wp_deref fun _ => within_readPos
  rw [hr₁, Body.wp_bind]
  apply wp_storeItem (length_bytesAt _ _ _)
  intro m₂ hs₂ hoff₂
  rw [Body.wp_bind]
  apply PMVar.wp_borrowMut fun _ => within_itemsEnqueued
  rw [Body.wp_bind]
  apply PMVar.wp_deref fun _ => within_itemsEnqueued
  have hitems : q.itemsEnqueued.read m₂ = n := by
    rw [← h.items]
    apply PMVar.read_congr
    intro j hj
    rw [hoff₂ j (not_slot_of_word q.buffer_items hf hj), hoff₁ j fun hr => not_word_of_word q.read_items hr hj]
  have hlen := q.length_lt
  have hadd : usizeAdd w n 1 = n + 1 := Nat.mod_eq_of_lt (by omega)
  rw [hitems, hadd, Body.wp_bind]
  apply PMVar.wp_assign (by omega) fun j hj => Or.inl ⟨_, List.mem_cons_self, hj⟩
  intro m₃ hi₃ hoff₃
  refine ⟨rfl, ⟨hf, hn, ?_, ?_, hi₃⟩, ?_, ?_⟩
  · rw [← hr₁]
    apply PMVar.read_congr
    intro j hj
    rw [hoff₃ j (not_word_of_word q.read_items hj), hoff₂ j (not_slot_of_word q.buffer_read hf hj)]
  · have hpos : ((r + (q.length - 1)) % q.length + (n + 1)) % q.length = (r + n) % q.length := by
      rw [← Nat.add_assoc, Nat.add_right_comm, ← Nat.mod_add_mod, Ring.before_succ h.r_lt]
    rw [hpos, ← h.writePos]
    apply PMVar.read_congr
    intro j hj
    rw [hoff₃ j (not_word_of_word q.write_items hj), hoff₂ j (not_slot_of_word q.buffer_write hf hj),
      hoff₁ j fun hr => not_word_of_word q.read_write hr hj]
  · rw [← hs₂]
    apply slot_congr
    intro j hj
    exact hoff₃ j fun hi => not_slot_of_word q.buffer_items hf hi hj
  · intro i hi hne
    apply slot_congr
    intro j hj
    rw [hoff₃ j fun hw => not_slot_of_word q.buffer_items hi hw hj, hoff₂ j fun hs => hne (hj.unique hs),
      hoff₁ j fun hw => not_slot_of_word q.buffer_read hi hw hj]

/-- The front item, and the window behind it. No slot changes. -/
theorem wp_dequeue (h : q.Holds m r (n + 1)) {os : List (Obj w)} {W : List (Obj w) → Nat → Prop}
    (hW : ∀ os a, (∃ o ∈ os, o.Contains a) → W os a) :
    Body.wp q.Within W
      (fun a _ m' => a = .ok (q.slot m r) ∧ q.Holds m' ((r + 1) % q.length) n ∧
        ∀ i, i < q.length → q.slot m' i = q.slot m i)
      (q.dequeue q.itemSize) os m := by
  unfold dequeue
  rw [Body.wp_bind]
  apply wp_isEmpty h fun _ => within_itemsEnqueued
  rw [if_neg (by simp), Body.wp_bind]
  apply PMVar.wp_deref fun _ => within_readPos
  rw [h.readPos, Body.wp_bind]
  apply Body.wp_loadBytes fun j h1 h2 => InSlot.within h.r_lt ⟨h1, h2⟩
  rw [Body.wp_bind]
  apply PMVar.wp_borrowMut fun _ => within_readPos
  rw [Body.wp_bind]
  apply wp_advance h.r_lt h.readPos fun _ => within_readPos
  · exact fun j hj => hW _ j ⟨_, List.mem_cons_self, hj⟩
  intro m₁ hr₁ hoff₁
  rw [Body.wp_bind]
  apply PMVar.wp_borrowMut fun _ => within_itemsEnqueued
  rw [Body.wp_bind]
  apply PMVar.wp_deref fun _ => within_itemsEnqueued
  have hitems : q.itemsEnqueued.read m₁ = n + 1 := by
    rw [← h.items]
    apply PMVar.read_congr
    exact fun j hj => hoff₁ j fun hr => not_word_of_word q.read_items hr hj
  have hlen := q.length_lt
  have hle := h.n_le
  have hsub : usizeSub w (n + 1) 1 = n := by
    have hp := Nat.two_pow_pos w.bits
    unfold usizeSub
    rw [show n + 1 + (2 ^ w.bits - 1) = n + 2 ^ w.bits by omega, Nat.add_mod_right, Nat.mod_eq_of_lt (by omega)]
  rw [hitems, hsub, Body.wp_bind]
  apply PMVar.wp_assign (by omega) fun j hj => hW _ j ⟨_, List.mem_cons_self, hj⟩
  intro m₂ hi₂ hoff₂
  refine ⟨rfl, ⟨Nat.mod_lt _ q.length_pos, by omega, ?_, ?_, hi₂⟩, ?_⟩
  · rw [← hr₁]
    exact PMVar.read_congr fun j hj => hoff₂ j (not_word_of_word q.read_items hj)
  · rw [Nat.mod_add_mod, Nat.add_assoc, Nat.add_comm 1, ← h.writePos]
    apply PMVar.read_congr
    intro j hj
    rw [hoff₂ j (not_word_of_word q.write_items hj), hoff₁ j fun hr => not_word_of_word q.read_write hr hj]
  · intro i hi
    apply slot_congr
    intro j hj
    rw [hoff₂ j fun hw => not_slot_of_word q.buffer_items hi hw hj,
      hoff₁ j fun hw => not_slot_of_word q.buffer_read hi hw hj]

end IntOS.Queue
