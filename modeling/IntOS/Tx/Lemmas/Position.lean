import IntOS.Tx.Cache

/-!
# Packed positions

`posOf` packs an id and an offset. The masks of `TxCache` read both back, with or without
`TX_COMMITTED`.
-/

namespace IntOS

variable {w : PtrWidth}

/-- The word for an id and a cache offset. -/
def posOf (w : PtrWidth) (id off : Nat) : Nat := id ||| off <<< txCachePtrShift w

/-- The number of transaction ids. -/
def idLimit (w : PtrWidth) : Nat := 2 ^ txCachePtrShift w

/-- The number of cache offsets. -/
def offLimit (w : PtrWidth) : Nat := 2 ^ (txCachePtrShift w - 1)

/-! ## The constants -/

theorem txIdPtrMask_eq (w : PtrWidth) : txIdPtrMask w = 2 ^ txCachePtrShift w - 1 := by
  cases w <;> rfl

theorem txCachePtrMask_shift (w : PtrWidth) :
    txCachePtrMask w >>> txCachePtrShift w = 2 ^ (txCachePtrShift w - 1) - 1 := by
  cases w <;> rfl

theorem txCommitted_eq (w : PtrWidth) : txCommitted w = 2 ^ (2 * txCachePtrShift w - 1) := by
  cases w <;> rfl

theorem txCommitted_eq_mul (w : PtrWidth) : txCommitted w = offLimit w * idLimit w := by
  cases w <;> rfl

theorem two_mul_txCommitted_le (w : PtrWidth) : 2 * txCommitted w ≤ 2 ^ w.bits := by
  cases w <;> decide

theorem txCommitted_pos (w : PtrWidth) : 0 < txCommitted w := by cases w <;> decide

theorem not_and_txIdPtrMask (w : PtrWidth) : w.not (txCommitted w) &&& txIdPtrMask w = txIdPtrMask w := by
  cases w <;> rfl

theorem not_and_txCachePtrMask (w : PtrWidth) :
    w.not (txCommitted w) &&& txCachePtrMask w = txCachePtrMask w := by
  cases w <;> rfl

theorem not_and_txCommitted (w : PtrWidth) : w.not (txCommitted w) &&& txCommitted w = 0 := by
  cases w <;> rfl

theorem txCommitted_and_txIdPtrMask (w : PtrWidth) : txCommitted w &&& txIdPtrMask w = 0 := by
  cases w <;> rfl

theorem txCommitted_and_txCachePtrMask (w : PtrWidth) : txCommitted w &&& txCachePtrMask w = 0 := by
  cases w <;> rfl

theorem txCommitted_shift (w : PtrWidth) : 2 * txCachePtrShift w - 1 < w.bits := by
  cases w <;> decide

/-! ## Reading positions -/

theorem txIdOf_eq (w : PtrWidth) (x : Nat) : txIdOf w x = x % idLimit w := by
  rw [txIdOf, txIdPtrMask_eq, Nat.and_two_pow_sub_one_eq_mod]
  rfl

theorem cachePtrOf_eq (w : PtrWidth) (x : Nat) : cachePtrOf w x = x / idLimit w % offLimit w := by
  rw [cachePtrOf, Nat.shiftRight_and_distrib, txCachePtrMask_shift, Nat.and_two_pow_sub_one_eq_mod,
    Nat.shiftRight_eq_div_pow]
  rfl

theorem posOf_eq {id off : Nat} (h : id < idLimit w) : posOf w id off = off * idLimit w + id := by
  rw [posOf, Nat.lor_comm, ← Nat.shiftLeft_add_eq_or_of_lt h, Nat.shiftLeft_eq]
  rfl

theorem posOf_lt {id off : Nat} (h : id < idLimit w) (h' : off < offLimit w) :
    posOf w id off < txCommitted w := by
  rw [posOf_eq h, txCommitted_eq_mul]
  have h1 : (off + 1) * idLimit w ≤ offLimit w * idLimit w := Nat.mul_le_mul_right _ h'
  rw [Nat.add_mul] at h1
  omega

theorem txIdOf_posOf {id : Nat} (h : id < idLimit w) (off : Nat) : txIdOf w (posOf w id off) = id := by
  rw [txIdOf_eq, posOf_eq h, Nat.mul_comm, Nat.mul_add_mod, Nat.mod_eq_of_lt h]

theorem cachePtrOf_posOf {id off : Nat} (h : id < idLimit w) (h' : off < offLimit w) :
    cachePtrOf w (posOf w id off) = off := by
  have hp : 0 < idLimit w := Nat.lt_of_le_of_lt (Nat.zero_le _) h
  rw [cachePtrOf_eq, posOf_eq h, Nat.mul_comm, Nat.mul_add_div hp, Nat.div_eq_of_lt h, Nat.add_zero,
    Nat.mod_eq_of_lt h']

theorem posOf_zero (w : PtrWidth) : posOf w 0 0 = 0 := by simp [posOf]

theorem posOf_succ {id off : Nat} (h : id + 1 < idLimit w) : posOf w id off + 1 = posOf w (id + 1) off := by
  rw [posOf_eq h, posOf_eq (by omega)]
  omega

/-! ## The flag -/

theorem or_txCommitted_of_lt {x : Nat} (h : x < txCommitted w) :
    x ||| txCommitted w = x + txCommitted w := by
  rw [txCommitted_eq] at h ⊢
  have h1 := Nat.two_pow_add_eq_or_of_lt h 1
  rw [Nat.mul_one] at h1
  rw [Nat.lor_comm, ← h1, Nat.add_comm]

theorem txIdOf_or_txCommitted (w : PtrWidth) (x : Nat) : txIdOf w (x ||| txCommitted w) = txIdOf w x := by
  rw [txIdOf, Nat.and_or_distrib_right, txCommitted_and_txIdPtrMask, Nat.or_zero, txIdOf]

theorem cachePtrOf_or_txCommitted (w : PtrWidth) (x : Nat) :
    cachePtrOf w (x ||| txCommitted w) = cachePtrOf w x := by
  rw [cachePtrOf, Nat.and_or_distrib_right, txCommitted_and_txCachePtrMask, Nat.or_zero, cachePtrOf]

theorem txIdOf_clear (w : PtrWidth) (x : Nat) : txIdOf w (x &&& w.not (txCommitted w)) = txIdOf w x := by
  rw [txIdOf, Nat.and_assoc, not_and_txIdPtrMask, txIdOf]

theorem cachePtrOf_clear (w : PtrWidth) (x : Nat) :
    cachePtrOf w (x &&& w.not (txCommitted w)) = cachePtrOf w x := by
  rw [cachePtrOf, Nat.and_assoc, not_and_txCachePtrMask, cachePtrOf]

theorem clear_and_txCommitted (w : PtrWidth) (x : Nat) :
    x &&& w.not (txCommitted w) &&& txCommitted w = 0 := by
  rw [Nat.and_assoc, not_and_txCommitted, Nat.and_zero]

theorem or_and_txCommitted (w : PtrWidth) (x : Nat) :
    (x ||| txCommitted w) &&& txCommitted w = txCommitted w := by
  apply Nat.eq_of_testBit_eq
  intro i
  rw [Nat.testBit_and, Nat.testBit_or]
  cases x.testBit i <;> simp

theorem testBit_clear (w : PtrWidth) (x i : Nat) :
    (x &&& w.not (txCommitted w)).testBit i =
      (x.testBit i && (decide (i < w.bits) && !decide (2 * txCachePtrShift w - 1 = i))) := by
  have hlt : txCommitted w < 2 ^ w.bits := by
    have h1 := two_mul_txCommitted_le w
    have h2 := txCommitted_pos w
    omega
  rw [Nat.testBit_and, PtrWidth.not, Nat.sub_sub, Nat.add_comm 1, Nat.testBit_two_pow_sub_succ hlt,
    txCommitted_eq, Nat.testBit_two_pow]

theorem clear_of_lt {x : Nat} (h : x < txCommitted w) : x &&& w.not (txCommitted w) = x := by
  apply Nat.eq_of_testBit_eq
  intro i
  rw [testBit_clear]
  cases hx : x.testBit i with
  | false => rfl
  | true =>
      have hi : i < 2 * txCachePtrShift w - 1 := by
        by_contra hn
        rw [txCommitted_eq] at h
        rw [Nat.testBit_lt_two_pow (Nat.lt_of_lt_of_le h (Nat.pow_le_pow_right (by decide) (by omega)))] at hx
        cases hx
      have hb := txCommitted_shift w
      have h1 : i < w.bits := by omega
      have h2 : 2 * txCachePtrShift w - 1 ≠ i := by omega
      simp [h1, h2]

theorem clear_or_txCommitted (w : PtrWidth) (x : Nat) :
    (x ||| txCommitted w) &&& w.not (txCommitted w) = x &&& w.not (txCommitted w) := by
  apply Nat.eq_of_testBit_eq
  intro i
  rw [testBit_clear, testBit_clear, Nat.testBit_or, txCommitted_eq, Nat.testBit_two_pow]
  cases x.testBit i <;> by_cases hi : 2 * txCachePtrShift w - 1 = i <;> simp [hi]

/-! ## Advancing -/

theorem clear_succ_lt (w : PtrWidth) (x : Nat) : (x &&& w.not (txCommitted w)) + 1 < 2 ^ w.bits := by
  have h1 : x &&& w.not (txCommitted w) ≤ w.not (txCommitted w) := Nat.and_le_right
  have h2 : w.not (txCommitted w) + 1 < 2 ^ w.bits := by cases w <;> decide
  omega

/-- One more, where the id does not carry into the offset. -/
theorem succ_position {x : Nat} (h : txIdOf w x + 1 < idLimit w) :
    txIdOf w (x + 1) = txIdOf w x + 1 ∧ cachePtrOf w (x + 1) = cachePtrOf w x := by
  rw [txIdOf_eq] at h
  have hp : 0 < idLimit w := by omega
  have hx := Nat.div_add_mod x (idLimit w)
  have hs : x + 1 = idLimit w * (x / idLimit w) + (x % idLimit w + 1) := by omega
  rw [txIdOf_eq, txIdOf_eq, cachePtrOf_eq, cachePtrOf_eq]
  constructor
  · rw [hs, Nat.mul_add_mod, Nat.mod_eq_of_lt h]
  · rw [hs, Nat.mul_add_div hp, Nat.div_eq_of_lt h, Nat.add_zero]

theorem TxCache.advanceCompositeId_eq {id off sz : Nat} (hid : id + 1 < idLimit w)
    (hoff : off + sz < offLimit w) :
    TxCache.advanceCompositeId w id off sz = posOf w (id + 1) (off + sz) := by
  have hlt : (off + sz) <<< txCachePtrShift w < 2 ^ w.bits := by
    have h1 : posOf w 0 (off + sz) < txCommitted w := posOf_lt (by omega) hoff
    have h2 := two_mul_txCommitted_le w
    rw [posOf, Nat.zero_or] at h1
    omega
  rw [TxCache.advanceCompositeId, Nat.mod_eq_of_lt hlt, posOf]

end IntOS
