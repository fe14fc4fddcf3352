import Mathlib

/-!
# Blocks one after the other

What a bump allocator hands out: half-open stretches of addresses, each above those handed out before it.
-/

namespace Blocks

structure Block where
  start : Nat
  size : Nat
deriving DecidableEq, Repr

namespace Block

def stop (b : Block) : Nat := b.start + b.size

/-- The block holds the address. -/
def Has (b : Block) (a : Nat) : Prop := b.start ≤ a ∧ a < b.stop

/-- No address is in both. A block of size zero is apart from every block. -/
def Apart (b b' : Block) : Prop := ∀ a, ¬ (b.Has a ∧ b'.Has a)

theorem Apart.symm {b b' : Block} (h : b.Apart b') : b'.Apart b := fun a ha => h a ha.symm

theorem apart_of_le {b b' : Block} (h : b.stop ≤ b'.start) : b.Apart b' := by
  rintro a ⟨⟨_, h1⟩, h2, _⟩
  exact absurd (Nat.lt_of_lt_of_le h1 h) (Nat.not_lt_of_le h2)

end Block

/-- The blocks lie between the two addresses, the newest at the head and above the others. -/
def Packed (lo : Nat) : Nat → List Block → Prop
  | hi, [] => lo ≤ hi
  | hi, b :: bs => b.stop ≤ hi ∧ Packed lo b.start bs

variable {lo mid hi : Nat} {b : Block} {bs cs : List Block}

theorem Packed.mono {hi' : Nat} (h : Packed lo hi bs) (hle : hi ≤ hi') : Packed lo hi' bs := by
  cases bs with
  | nil => exact Nat.le_trans h hle
  | cons b bs => exact ⟨Nat.le_trans h.1 hle, h.2⟩

theorem Packed.le (h : Packed lo hi bs) : lo ≤ hi := by
  induction bs generalizing hi with
  | nil => exact h
  | cons b bs ih => exact Nat.le_trans (ih h.2) (Nat.le_trans (Nat.le_add_right _ _) h.1)

theorem Packed.mem (h : Packed lo hi bs) (hb : b ∈ bs) : lo ≤ b.start ∧ b.stop ≤ hi := by
  induction bs generalizing hi with
  | nil => cases hb
  | cons b' bs ih =>
      cases hb with
      | head => exact ⟨h.2.le, h.1⟩
      | tail _ hb =>
          obtain ⟨h1, h2⟩ := ih h.2 hb
          exact ⟨h1, Nat.le_trans h2 (Nat.le_trans (Nat.le_add_right _ _) h.1)⟩

theorem Packed.apart (h : Packed lo hi bs) : bs.Pairwise Block.Apart := by
  induction bs generalizing hi with
  | nil => exact List.Pairwise.nil
  | cons b bs ih =>
      exact List.Pairwise.cons (fun b' hb' => (Block.apart_of_le (h.2.mem hb').2).symm) (ih h.2)

theorem Packed.append (h : Packed lo mid bs) (h' : Packed mid hi cs) : Packed lo hi (cs ++ bs) := by
  induction cs generalizing hi with
  | nil => exact h.mono h'
  | cons c cs ih => exact ⟨h'.1, ih h'.2⟩

end Blocks
