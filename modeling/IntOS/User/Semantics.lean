import IntOS.User.Info

/-!
# What user code means without failures

`Routine.eval` runs each transaction once, in order. `Mid t x rs y` is the same execution of `t` from `x`
stopped somewhere: `rs` are the results it still holds, and `y` the memory and the counters it has reached.
-/

namespace IntOS

variable {b : Board}

/-- The persistent data of user code. -/
structure Data where
  mem : Nat → UInt8
  counters : Nat → Nat

def Data.setCounter (x : Data) (i v : Nat) : Data := { x with counters := Function.update x.counters i v }

@[simp] theorem Data.setCounter_mem (x : Data) (i v : Nat) : (x.setCounter i v).mem = x.mem := rfl

theorem Data.setCounter_self (x : Data) (i v : Nat) : (x.setCounter i v).counters i = v :=
  Function.update_self _ _ _

theorem Data.setCounter_of_ne (x : Data) {i j : Nat} (v : Nat) (h : j ≠ i) :
    (x.setCounter i v).counters j = x.counters j := Function.update_of_ne h _ _

theorem Data.setCounter_idem (x : Data) (i v : Nat) :
    (x.setCounter i v).setCounter i v = x.setCounter i v := by
  rw [setCounter, setCounter, Function.update_idem]

/-- The number of counter values `c`, `c + step`, ... below `endv`. -/
def roundsLeft (c endv step : Nat) : Nat := (endv - c + step - 1) / step

theorem lt_roundsLeft {c endv step n : Nat} (h : 0 < step) :
    n < roundsLeft c endv step ↔ c + n * step < endv := by
  unfold roundsLeft
  rw [Nat.lt_iff_add_one_le, Nat.le_div_iff_mul_le h, Nat.add_mul]
  omega

/-- The counter stops at the first value not below the end. -/
theorem endv_le_of_roundsLeft {c endv step : Nat} (h : 0 < step) :
    endv ≤ c + roundsLeft c endv step * step := by
  have hlast : ¬ c + roundsLeft c endv step * step < endv :=
    fun hlt => Nat.lt_irrefl _ ((lt_roundsLeft h).mpr hlt)
  omega

/-- `n` rounds, with the counter at `c` before the first. -/
def evalRounds (body : Nat → Data → Data) (i step : Nat) : Nat → Nat → Data → Data
  | 0, _, x => x
  | n + 1, c, x => evalRounds body i step n (c + step) ((body c x).setCounter i (c + step))

theorem evalRounds_succ (body : Nat → Data → Data) (i step n c : Nat) (x : Data) :
    evalRounds body i step (n + 1) c x =
      (body (c + n * step) (evalRounds body i step n c x)).setCounter i (c + (n + 1) * step) := by
  induction n generalizing c x with
  | zero => simp [evalRounds]
  | succ n ih =>
      have hadd : ∀ k, c + step + k * step = c + (k + 1) * step := fun k => by
        rw [Nat.add_assoc, Nat.add_comm step, Nat.succ_mul]
      rw [evalRounds, ih, evalRounds, hadd, hadd]

theorem evalRounds_counter (body : Nat → Data → Data) (i step n c : Nat) {x : Data}
    (h : x.counters i = c) : (evalRounds body i step n c x).counters i = c + n * step := by
  cases n with
  | zero => simpa [evalRounds] using h
  | succ n => rw [evalRounds_succ, Data.setCounter_self]

namespace Routine

/-- The effect of the routine, each transaction taken once. -/
def eval : Routine b → Data → Data
  | done, x => x
  | run f k, x => eval (k (f.body.eval x.mem).1) { x with mem := (f.body.eval x.mem).2 }
  | nvForLoop i begin endv step body k, x =>
      eval k (evalRounds (fun c => eval (body c)) i step (roundsLeft begin endv step) begin
        (x.setCounter i begin))

/-- The data after `n` rounds of a loop that is entered with `x`. -/
def after (i begin step : Nat) (body : Nat → Routine b) (x : Data) (n : Nat) : Data :=
  evalRounds (fun c => eval (body c)) i step n begin (x.setCounter i begin)

theorem after_succ (i begin step : Nat) (body : Nat → Routine b) (x : Data) (n : Nat) :
    after i begin step body x (n + 1) =
      (eval (body (begin + n * step)) (after i begin step body x n)).setCounter i
        (begin + (n + 1) * step) := evalRounds_succ _ _ _ _ _ _

theorem after_counter (i begin step : Nat) (body : Nat → Routine b) (x : Data) (n : Nat) :
    (after i begin step body x n).counters i = begin + n * step :=
  evalRounds_counter _ _ _ _ _ (x.setCounter_self i begin)

/-- The results that the routine holds in the cache when it has run: a loop leaves that of its first
transaction only. -/
def live : Routine b → Data → List (List UInt8)
  | done, _ => []
  | run f k, x =>
      (f.body.eval x.mem).1 :: live (k (f.body.eval x.mem).1) { x with mem := (f.body.eval x.mem).2 }
  | nvForLoop i begin endv step body k, x =>
      [] :: live k (after i begin step body x (roundsLeft begin endv step))

/-- The routine has a loop over the counter `i`. -/
def Uses (i : Nat) : Routine b → Prop
  | done => False
  | run _ k => ∃ r, Uses i (k r)
  | nvForLoop j _ _ _ body k => i = j ∨ (∃ c, Uses i (body c)) ∨ Uses i k

/-- Each loop has a counter that neither its body nor what follows it uses. -/
def OwnCounters : Routine b → Prop
  | done => True
  | run _ k => ∀ r, OwnCounters (k r)
  | nvForLoop i _ _ _ body k =>
      (∀ c, ¬ Uses i (body c) ∧ OwnCounters (body c)) ∧ ¬ Uses i k ∧ OwnCounters k

inductive Mid : Routine b → Data → List (List UInt8) → Data → Prop
  | start (t : Routine b) (x : Data) : Mid t x [] x
  /-- The counter of a loop is set, but the transaction that sets it has not committed. -/
  | set (i begin endv step : Nat) (body : Nat → Routine b) (k : Routine b) (x : Data) :
      Mid (nvForLoop i begin endv step body k) x [] (x.setCounter i begin)
  | run (f : UserTx b) (k : List UInt8 → Routine b) {x y : Data} {rs : List (List UInt8)} :
      Mid (k (f.body.eval x.mem).1) { x with mem := (f.body.eval x.mem).2 } rs y →
      Mid (run f k) x ((f.body.eval x.mem).1 :: rs) y
  | round {i begin endv step : Nat} {body : Nat → Routine b} (k : Routine b) {x y : Data}
      {rs : List (List UInt8)} (n : Nat) : begin + n * step < endv →
      Mid (body (begin + n * step)) (after i begin step body x n) rs y →
      Mid (nvForLoop i begin endv step body k) x ([] :: rs) y
  | rest {i begin endv step : Nat} {body : Nat → Routine b} {k : Routine b} {x y : Data}
      {rs : List (List UInt8)} :
      Mid k (after i begin step body x (roundsLeft begin endv step)) rs y →
      Mid (nvForLoop i begin endv step body k) x ([] :: rs) y

theorem Mid.finish (t : Routine b) (x : Data) : Mid t x (live t x) (eval t x) := by
  induction t generalizing x with
  | done => exact .start _ _
  | run f k ih => exact .run f k (ih _ _)
  | nvForLoop i begin endv step body k _ ih => exact .rest (ih _)

/-- Only `done` leaves the cache as it is. -/
theorem eval_of_live_nil {t : Routine b} {x : Data} (h : live t x = []) : eval t x = x := by
  cases t with
  | done => rfl
  | run f k => simp [live] at h
  | nvForLoop i begin endv step body k => simp [live] at h

/-- A counter that the routine has no loop over stays as it is. -/
theorem eval_counter {i : Nat} {t : Routine b} (h : ¬ Uses i t) (x : Data) :
    (eval t x).counters i = x.counters i := by
  induction t generalizing x with
  | done => rfl
  | run f k ih => exact ih _ (fun hu => h ⟨_, hu⟩) _
  | nvForLoop j begin endv step body k ihb ihk =>
      have hij : i ≠ j := fun he => h (Or.inl he)
      have hbody : ∀ n, (after j begin step body x n).counters i = x.counters i := by
        intro n
        induction n with
        | zero => exact x.setCounter_of_ne begin hij
        | succ n ih =>
            rw [after_succ, Data.setCounter_of_ne _ _ hij, ihb _ (fun hu => h (Or.inr (Or.inl ⟨_, hu⟩))), ih]
      exact (ihk (fun hu => h (Or.inr (Or.inr hu))) _).trans (hbody _)

theorem after_counter_of_not_uses {i j begin step : Nat} {body : Nat → Routine b} (hij : i ≠ j)
    (h : ∀ c, ¬ Uses i (body c)) (x : Data) (n : Nat) :
    (after j begin step body x n).counters i = x.counters i := by
  induction n with
  | zero => exact x.setCounter_of_ne begin hij
  | succ n ih => rw [after_succ, Data.setCounter_of_ne _ _ hij, eval_counter (h _), ih]

theorem Mid.counter {i : Nat} {t : Routine b} {x y : Data} {rs : List (List UInt8)} (h : Mid t x rs y)
    (hu : ¬ Uses i t) : y.counters i = x.counters i := by
  induction h with
  | start => rfl
  | set j begin _ _ _ _ x => exact x.setCounter_of_ne begin fun he => hu (Or.inl he)
  | run f k _ ih => exact ih fun h => hu ⟨_, h⟩
  | @round j begin endv step body k x y rs n _ _ ih =>
      rw [ih fun h => hu (Or.inr (Or.inl ⟨_, h⟩))]
      exact after_counter_of_not_uses (fun he => hu (Or.inl he)) (fun c h => hu (Or.inr (Or.inl ⟨c, h⟩))) x n
  | @rest j begin endv step body k x y rs _ ih =>
      rw [ih fun h => hu (Or.inr (Or.inr h))]
      exact after_counter_of_not_uses (fun he => hu (Or.inl he)) (fun c h => hu (Or.inr (Or.inl ⟨c, h⟩))) x _

end Routine

end IntOS
