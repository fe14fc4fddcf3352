import Mathlib

/-!
# Windows of a ring of slots

A bounded queue in a ring of `len` slots is the window of its `n` slots from `r` on. Writing the slot
behind the window appends to it, writing the one before it prepends.
-/

namespace Ring

variable {A : Type}

def window (slot : Nat → A) (len r n : Nat) : List A :=
  (List.range n).map fun k => slot ((r + k) % len)

variable {slot slot' : Nat → A} {len r n : Nat}

@[simp] theorem length_window : (window slot len r n).length = n := by simp [window]

theorem window_congr (h : ∀ k, k < n → slot' ((r + k) % len) = slot ((r + k) % len)) :
    window slot' len r n = window slot len r n := by
  apply List.map_congr_left
  intro k hk
  exact h k (List.mem_range.mp hk)

/-- Offsets below the length lead to different slots. -/
theorem offset_inj {i j : Nat} (hi : i < len) (hj : j < len) (h : (r + i) % len = (r + j) % len) :
    i = j := by
  have hm : i % len = j % len := Nat.ModEq.add_left_cancel' r h
  rwa [Nat.mod_eq_of_lt hi, Nat.mod_eq_of_lt hj] at hm

theorem window_succ : window slot len r (n + 1) = window slot len r n ++ [slot ((r + n) % len)] := by
  simp [window, List.range_succ]

/-- The front of a window, and the window behind it. -/
theorem window_cons (hr : r < len) :
    window slot len r (n + 1) = slot r :: window slot len ((r + 1) % len) n := by
  simp only [window, List.range_succ_eq_map, List.map_cons, List.map_map, Nat.add_zero,
    Nat.mod_eq_of_lt hr, List.cons.injEq, true_and]
  apply List.map_congr_left
  intro k _
  simp only [Function.comp_apply, Nat.mod_add_mod]
  congr 2
  omega

/-- The slot behind a window that is not full is none of its slots. -/
theorem ne_behind (hn : n < len) {k : Nat} (hk : k < n) : (r + k) % len ≠ (r + n) % len := by
  intro h
  have := offset_inj (by omega) hn h
  omega

/-- So is the slot before it. -/
theorem ne_before (hn : n < len) {k : Nat} (hk : k < n) : (r + k) % len ≠ (r + (len - 1)) % len := by
  intro h
  have := offset_inj (by omega) (by omega) h
  omega

theorem window_append (hn : n < len) (h : ∀ i, i < len → i ≠ (r + n) % len → slot' i = slot i) :
    window slot' len r (n + 1) = window slot len r n ++ [slot' ((r + n) % len)] := by
  rw [window_succ, window_congr fun k hk => h _ (Nat.mod_lt _ (by omega)) (ne_behind hn hk)]

theorem before_succ (hr : r < len) : ((r + (len - 1)) % len + 1) % len = r := by
  rw [Nat.mod_add_mod, show r + (len - 1) + 1 = r + len by omega, Nat.add_mod_right, Nat.mod_eq_of_lt hr]

theorem window_prepend (hr : r < len) (hn : n < len)
    (h : ∀ i, i < len → i ≠ (r + (len - 1)) % len → slot' i = slot i) :
    window slot' len ((r + (len - 1)) % len) (n + 1) =
      slot' ((r + (len - 1)) % len) :: window slot len r n := by
  rw [window_cons (Nat.mod_lt _ (by omega)), before_succ hr,
    window_congr fun k hk => h _ (Nat.mod_lt _ (by omega)) (ne_before hn hk)]

end Ring
