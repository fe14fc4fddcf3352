import Mathlib

/-!
# Words of the supported targets, and error codes

`usize` is 16 bits wide on the MSP430, 32 bits on the Cortex-M boards and 64 bits in the host tests.
A word is the natural number it stands for. All targets are little-endian.
-/

namespace IntOS

/-- `task::ErrorCode`. -/
inductive ErrorCode
  | invalidCode
  | noSpace
  | invalidParam
  | txRetry
  | txExit
  | txFatal
deriving DecidableEq, Repr

/-- The ports. `arch_yield` in a critical section switches tasks at once on the MSP430, and at the end of the
section on Cortex-M. -/
inductive Port
  | msp430
  | cortexM
deriving DecidableEq, Repr

/-- `target_pointer_width`. -/
inductive PtrWidth
  | w16
  | w32
  | w64
deriving DecidableEq, Repr

namespace PtrWidth

/-- `size_of::<usize>()`. -/
def bytes : PtrWidth → Nat
  | w16 => 2
  | w32 => 4
  | w64 => 8

def bits (w : PtrWidth) : Nat := 8 * w.bytes

/-- `!x` on `usize`. -/
def not (w : PtrWidth) (x : Nat) : Nat := 2 ^ w.bits - 1 - x

theorem bytes_pos (w : PtrWidth) : 0 < w.bytes := by cases w <;> decide

theorem bits_eq_log (w : PtrWidth) : ∃ k, w.bytes = 2 ^ k ∧ k ≤ w.bits := by
  cases w
  · exact ⟨1, rfl, by decide⟩
  · exact ⟨2, rfl, by decide⟩
  · exact ⟨3, rfl, by decide⟩

theorem modulus_eq (w : PtrWidth) : 2 ^ w.bits = 256 ^ w.bytes := by cases w <;> decide

end PtrWidth

/-- `arch::ARCH_ALIGN`. -/
def archAlign (w : PtrWidth) : Nat := w.bytes

/-- `util::align_up`. -/
def alignUp (w : PtrWidth) (addr align : Nat) : Nat := (addr + align - 1) &&& w.not (align - 1)

/-- `util::arch_addr_align_up`. -/
def archAddrAlignUp (w : PtrWidth) (addr : Nat) : Nat :=
  (addr + archAlign w - 1) &&& w.not (archAlign w - 1)

/-- Clearing the low bits of a word rounds it down. -/
theorem and_clear_low {x n k : Nat} (hx : x < 2 ^ n) (hk : k ≤ n) :
    x &&& (2 ^ n - 1 - (2 ^ k - 1)) = x / 2 ^ k * 2 ^ k := by
  have h1 : 2 ^ n - 1 - (2 ^ k - 1) = 2 ^ k * (2 ^ (n - k) - 1) := by
    have hp : 2 ^ n = 2 ^ k * 2 ^ (n - k) := by rw [← Nat.pow_add]; congr 1; omega
    have hk1 : 1 ≤ 2 ^ k := Nat.one_le_two_pow
    rw [Nat.mul_sub, ← hp]; omega
  rw [h1]
  apply Nat.eq_of_testBit_eq
  intro i
  rw [Nat.testBit_and, Nat.mul_comm (x / 2 ^ k), Nat.testBit_two_pow_mul, Nat.testBit_two_pow_mul,
    Nat.testBit_two_pow_sub_one, Nat.testBit_div_two_pow]
  by_cases hik : k ≤ i
  · by_cases hin : i < n
    · have : i - k < n - k := by omega
      simp [hik, this]
    · have hb : x.testBit i = false :=
        Nat.testBit_lt_two_pow (Nat.lt_of_lt_of_le hx (Nat.pow_le_pow_right (by decide) (by omega)))
      simp [hik, hb]
  · simp [hik]

/-- Rounding up to a power of two stays at or above the address and below the next multiple. -/
theorem alignUp_bounds (w : PtrWidth) {n align k : Nat} (hk : align = 2 ^ k) (h : n + align ≤ 2 ^ w.bits) :
    n ≤ alignUp w n align ∧ alignUp w n align < n + align := by
  have hpos : 0 < align := by rw [hk]; exact Nat.two_pow_pos k
  have hkb : k ≤ w.bits := (Nat.pow_le_pow_iff_right (by decide)).mp (hk ▸ Nat.le_trans (Nat.le_add_left _ _) h)
  have he : alignUp w n align = (n + align - 1) / align * align := by
    unfold alignUp PtrWidth.not
    rw [hk]
    exact and_clear_low (by rw [← hk]; omega) hkb
  have h1 := Nat.div_add_mod (n + align - 1) align
  have h2 := Nat.mod_lt (n + align - 1) hpos
  rw [he, Nat.mul_comm]
  omega

theorem archAddrAlignUp_bounds (w : PtrWidth) {n : Nat} (h : n + w.bytes ≤ 2 ^ w.bits) :
    n ≤ archAddrAlignUp w n ∧ archAddrAlignUp w n < n + w.bytes := by
  obtain ⟨k, hk, _⟩ := w.bits_eq_log
  exact alignUp_bounds w hk h

/-! ## Little-endian words in byte memory -/

/-- Byte `k` of a word. -/
def wordByte (v k : Nat) : UInt8 := UInt8.ofNat (v / 256 ^ k)

/-- The word stored in the `n` bytes from address `i` on. -/
def readBytes (m : Nat → UInt8) (i : Nat) : Nat → Nat
  | 0 => 0
  | n + 1 => (m i).toNat + 256 * readBytes m (i + 1) n

/-- Stores a word of `n` bytes at address `i`, all of it at once. -/
def writeBytes (m : Nat → UInt8) (i n v : Nat) : Nat → UInt8 :=
  fun j => if i ≤ j ∧ j < i + n then wordByte v (j - i) else m j

theorem readBytes_congr {m m' : Nat → UInt8} {i n : Nat} (h : ∀ j, i ≤ j → j < i + n → m j = m' j) :
    readBytes m i n = readBytes m' i n := by
  induction n generalizing i with
  | zero => rfl
  | succ n ih =>
      simp only [readBytes]
      rw [h i (by omega) (by omega), ih fun j h1 h2 => h j (by omega) (by omega)]

theorem readBytes_of_wordByte {m : Nat → UInt8} {i n v : Nat}
    (h : ∀ k, k < n → m (i + k) = wordByte v k) : readBytes m i n = v % 256 ^ n := by
  induction n generalizing i v with
  | zero => simp [readBytes, Nat.mod_one]
  | succ n ih =>
      have h0 : m i = wordByte v 0 := h 0 (by omega)
      have hs : readBytes m (i + 1) n = v / 256 % 256 ^ n := by
        refine ih fun k hk => ?_
        have hk' := h (k + 1) (by omega)
        rw [show i + (k + 1) = i + 1 + k by omega] at hk'
        rw [hk', wordByte, wordByte, Nat.pow_succ', Nat.div_div_eq_div_mul]
      simp only [readBytes, h0, hs]
      have hb : (wordByte v 0).toNat = v % 256 := by
        simp [wordByte]
      rw [hb, Nat.pow_succ', Nat.mod_mul]

/-- A word read back from where it was stored. -/
theorem readBytes_writeBytes (m : Nat → UInt8) {i n v : Nat} (hv : v < 256 ^ n) :
    readBytes (writeBytes m i n v) i n = v := by
  rw [readBytes_of_wordByte (v := v), Nat.mod_eq_of_lt hv]
  intro k hk
  simp only [writeBytes]
  rw [if_pos (by omega)]
  congr 1
  omega

theorem writeBytes_of_not {m : Nat → UInt8} {i n v j : Nat} (h : j < i ∨ i + n ≤ j) :
    writeBytes m i n v j = m j := by
  unfold writeBytes
  rw [if_neg (by omega)]

end IntOS
