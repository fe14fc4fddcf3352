import IntOS.User.Lemmas.Routine

/-!
# Persistent loops run every round once

Over every schedule of power failures a task ends with the memory and the counters that its code computes
when each transaction runs once, in order.
-/

namespace IntOS

open Persist Persist.Prog UserTxInfo

variable {b : Board}

/-- What `UserTxInfo::init` leaves. -/
structure Fresh (x : Data) (u : UserTxInfo) : Prop where
  mem : u.userTx.pm.mem = x.mem
  counters : u.counters = x.counters
  wellFormed : u.userTx.pm.journal.WellFormed
  journalTail : u.userTx.pm.journal.tail = 0
  nestingLevel : u.userTx.nestingLevel = 0
  ptr : u.userTx.cache.ptr = 0
  tail : u.userTx.cache.tail = 0
  stackTop : u.stackTop = 0

theorem fresh_of_init (u : UserTxInfo) :
    ∃ u', (UserTxInfo.init u).out = some ((), u') ∧ Fresh ⟨u.userTx.pm.mem, u.counters⟩ u' :=
  ⟨_, rfl, ⟨rfl, rfl, ⟨rfl, rfl⟩, rfl, rfl, rfl, rfl, rfl⟩⟩

theorem Fresh.readyAt {x : Data} {u : UserTxInfo} (h : Fresh x u) : ReadyAt b 0 [] [] x u := by
  have hpos : ∀ p, p = 0 → IsPos b.width p [] := by
    rintro p rfl
    exact Or.inl (position_nil _).symm
  exact ⟨⟨⟨hpos _ h.tail, rfl⟩, hpos _ h.ptr, h.mem, h.wellFormed, h.journalTail, h.nestingLevel⟩,
    h.counters, h.stackTop, Or.inl rfl⟩

theorem fits_nil (b : Board) : Fits b [] := by
  refine ⟨?_, Nat.zero_le _⟩
  cases b.width <;> decide

namespace Routine

/-- The start of every attempt is in the middle of the routine, and so is every failure. -/
theorem reachable_inv {t : Routine b} {fuel : Nat} {x : Data} {u : UserTxInfo} (hw : b.width ≠ .w32)
    (hu : Fresh x u) (ho : OwnCounters t) (hb : Bounded (· < fuel) t 0 [] x) {ph : Phase} {s : UserTxInfo}
    (h : Reachable (jitRecovery b) (exec fuel t) (fun _ _ => True) u ph s) :
    (ph = .up → ∃ rs y, Mid t x rs y ∧ ReadyAt b 0 [] rs y s) ∧
      (ph = .down → Resumable b t [] x s) := by
  refine Reachable.of_wpc (E := False) (I := fun s => ∃ rs y, Mid t x rs y ∧ ReadyAt b 0 [] rs y s)
    (J := Resumable b t [] x) ⟨[], x, .start _ _, hu.readyAt⟩ ?_ ?_ h
  · rintro s c ⟨rs, y, hm, hr⟩ hc _
    exact (runs hw fuel t 0 [] rs x y s hb ho (fits_nil b) hm hr).crash hc
  · rintro c ⟨rs, y, hm, hl⟩
    refine wpc_mono (wpc_jitRecovery hl) ?_ ?_
    · exact fun _ s hr => ⟨rs, y, hm, hr⟩
    · exact fun c' hl' => ⟨rs, y, hm, hl'⟩

/-- A loop runs its body for the values `begin + n * step` below the end, in order, and leaves the counter
at the first value that is not below the end. -/
theorem eval_nvForLoop {i begin endv step : Nat} (hs : 0 < step) (body : Nat → Routine b) (k : Routine b)
    (x : Data) :
    eval (.nvForLoop i begin endv step body k) x =
        eval k (after i begin step body x (roundsLeft begin endv step)) ∧
      (after i begin step body x (roundsLeft begin endv step)).counters i =
        begin + roundsLeft begin endv step * step ∧
      endv ≤ begin + roundsLeft begin endv step * step ∧
      (∀ n, n < roundsLeft begin endv step ↔ begin + n * step < endv) ∧
      after i begin step body x 0 = x.setCounter i begin ∧
      ∀ n, after i begin step body x (n + 1) =
        (eval (body (begin + n * step)) (after i begin step body x n)).setCounter i
          (begin + (n + 1) * step) :=
  ⟨rfl, after_counter _ _ _ _ _ _, endv_le_of_roundsLeft hs, fun _ => lt_roundsLeft hs, rfl,
    after_succ _ _ _ _ _⟩

/-- Whatever failures there were, the next attempt runs through, if nothing interrupts it, and ends with
what the routine computes without failures. Recovery never fails. -/
theorem exec_exactly_once (t : Routine b) (x : Data) (u : UserTxInfo) (hw : b.width ≠ .w32)
    (hu : Fresh x u) (ho : OwnCounters t) (hb : Bounded (fun _ => True) t 0 [] x) :
    ∃ fuel₀, ∀ fuel, fuel₀ ≤ fuel →
      (∀ s, Reachable (jitRecovery b) (exec fuel t) (fun _ _ => True) u .up s →
        ∃ s', (exec fuel t s).out = some ((), s') ∧ s'.userTx.pm.mem = (eval t x).mem ∧
          s'.counters = (eval t x).counters) ∧
      ∀ c, Reachable (jitRecovery b) (exec fuel t) (fun _ _ => True) u .down c →
        ∃ s, (jitRecovery b c).out = some ((), s) := by
  obtain ⟨fuel₀, hfuel⟩ := hb.enough_fuel
  refine ⟨fuel₀, fun fuel hle => ?_⟩
  have hb := hfuel fuel hle
  constructor
  · intro s hs
    obtain ⟨rs, y, hm, hr⟩ := (reachable_inv hw hu ho hb hs).1 rfl
    obtain ⟨_, s', hout, hr', _⟩ := (runs hw fuel t 0 [] rs x y s hb ho (fits_nil b) hm hr).returns
    exact ⟨s', hout, hr'.tx.mem, hr'.counters⟩
  · intro c hc
    obtain ⟨rs, y, _, hl⟩ := (reachable_inv hw hu ho hb hc).2 rfl
    obtain ⟨_, s, hout, _⟩ := (wpc_jitRecovery hl).returns
    exact ⟨s, hout⟩

end Routine

/-! ## Loops over one counter -/

/-- A user transaction that increments the byte at `addr`. -/
def incTx {b : Board} (addr : Nat) (ha : addr < 2 ^ b.width.bits) (hone : 1 < 2 ^ (b.width.bits - 1))
    (hj : Journal.recordSize b 1 ≤ b.pmJournalSize) : UserTx b where
  body := .log ⟨addr, 1, hone, ha⟩ (.load addr fun v => .store addr (v + 1) (.ret []))
  size := 0
  length_res := fun _ => rfl
  logged := fun _ => ⟨⟨_, List.mem_cons_self, ⟨Nat.le_refl _, Nat.lt_succ_self _⟩⟩, trivial⟩
  completes := by
    intro pm hw ht
    have hlog := Journal.wpc_appendLogOf (E := False) ⟨addr, 1, hone, ha⟩ (Undoes.empty hw ht)
      (Or.inl (by rw [ht, Nat.zero_add]; exact hj))
    obtain ⟨_, pm', hout, _⟩ := hlog.returns
    rw [Body.run, bind_of_out hout]
    exact Option.some_ne_none _

/-- Zeroed memory after `UserTxInfo::init`. -/
def zeroedInfo : UserTxInfo :=
  ⟨⟨⟨fun _ => 0, Journal.new⟩, ⟨fun _ => 0, 0, 0⟩, 0⟩, 0, fun _ => 0, 0, none, 0, fun _ => 0, false⟩

/-- A debug build for the MSP430. -/
def msp430Debug : Board := ⟨.w16, 64, false, true⟩

def incByte : UserTx msp430Debug := incTx 100 (by decide) (by decide) (by decide)

namespace Routine

/-- `nv_for_loop!(i, cnt, 0 => 2, { .. })` with one increment in its body. -/
theorem exec_exactly_once_inc :
    ∃ fuel s', (exec fuel (.nvForLoop 0 0 2 1 (fun _ => .run incByte fun _ => .done) .done)
        zeroedInfo).out = some ((), s') ∧ s'.userTx.pm.mem 100 = 2 ∧ s'.counters 0 = 2 := by
  have hbody : ∀ n x, Bounded (fun _ => True) (.run incByte fun _ => .done) 1 [[]]
      (after 0 0 1 (fun _ => .run incByte fun _ => .done) x n) :=
    fun n x => ⟨⟨(by decide : 2 < 256), Nat.zero_le _⟩, trivial⟩
  obtain ⟨fuel, h⟩ := exec_exactly_once
    (.nvForLoop 0 0 2 1 (fun _ => .run incByte fun _ => .done) .done) ⟨fun _ => 0, fun _ => 0⟩ zeroedInfo
    (by decide) ⟨rfl, rfl, ⟨rfl, rfl⟩, rfl, rfl, rfl, rfl, rfl⟩
    ⟨fun _ => ⟨fun ⟨_, h⟩ => h, fun _ => trivial⟩, id, trivial⟩
    ⟨by decide, by decide, ⟨by decide, by decide⟩, trivial, by decide, fun n _ => hbody n _, trivial⟩
  obtain ⟨s', hout, hmem, hcnt⟩ := (h fuel (Nat.le_refl _)).1 _ .start
  exact ⟨fuel, s', hout, by rw [hmem]; rfl, by rw [hcnt]; rfl⟩

/-- A second attempt, after a failure at store `n` of the first. -/
def secondAttempt (b : Board) (m : Prog UserTxInfo Unit) (u : UserTxInfo) (n : Nat) : Option UserTxInfo := do
  let c ← (crashes m u)[n]?
  let (_, s) ← (jitRecovery b c).out
  let (_, s') ← (m s).out
  pure s'

theorem reachable_of_secondAttempt {m : Prog UserTxInfo Unit} {u s' : UserTxInfo} {n : Nat}
    (h : secondAttempt b m u n = some s') :
    ∃ s, Reachable (jitRecovery b) m (fun _ _ => True) u .up s ∧ (m s).out = some ((), s') := by
  simp only [secondAttempt, Option.bind_eq_bind, Option.bind_eq_some_iff] at h
  obtain ⟨c, hc, ⟨_, s⟩, hboot, ⟨_, s''⟩, hout, heq⟩ := h
  cases heq
  exact ⟨s, .booted (.failed .start (List.mem_of_getElem? hc) trivial) hboot, hout⟩

/-- A loop nested in another over the same counter, and one after another over the same counter, repeat a
round after a failure; a step past the largest `usize` panics. -/
theorem shared_counter_repeats :
    (∃ s s', Reachable (jitRecovery msp430Debug)
        (exec 3 (.nvForLoop 0 0 2 1
          (fun _ => .nvForLoop 0 0 1 1 (fun _ => .run incByte fun _ => .done) .done) .done))
        (fun _ _ => True) zeroedInfo .up s ∧
      (exec 3 (.nvForLoop 0 0 2 1
        (fun _ => .nvForLoop 0 0 1 1 (fun _ => .run incByte fun _ => .done) .done) .done) s).out =
        some ((), s') ∧ s'.userTx.pm.mem 100 = 3) ∧
    (∃ s s', Reachable (jitRecovery msp430Debug)
        (exec 3 (.nvForLoop 0 0 1 1 (fun _ => .run incByte fun _ => .done)
          (.nvForLoop 0 0 1 1 (fun _ => .done) .done)))
        (fun _ _ => True) zeroedInfo .up s ∧
      (exec 3 (.nvForLoop 0 0 1 1 (fun _ => .run incByte fun _ => .done)
          (.nvForLoop 0 0 1 1 (fun _ => .done) .done)) s).out = some ((), s') ∧
      s'.userTx.pm.mem 100 = 2) ∧
    ∀ fuel, (exec fuel (.nvForLoop (b := msp430Debug) 0 65534 65535 2 (fun _ => .done) .done)
      zeroedInfo).out = none := by
  have hsecond : ∀ {m n v}, (secondAttempt msp430Debug m zeroedInfo n).map (·.userTx.pm.mem 100) = some v →
      ∃ s s', Reachable (jitRecovery msp430Debug) m (fun _ _ => True) zeroedInfo .up s ∧
        (m s).out = some ((), s') ∧ s'.userTx.pm.mem 100 = v := by
    intro m n v h
    obtain ⟨s', hs', hv⟩ := Option.map_eq_some_iff.mp h
    obtain ⟨s, hs, hout⟩ := reachable_of_secondAttempt hs'
    exact ⟨s, s', hs, hout, hv⟩
  refine ⟨hsecond (n := 46) (by decide +kernel), hsecond (n := 29) (by decide +kernel), ?_⟩
  intro fuel
  cases fuel with
  | zero => rfl
  | succ n => rfl

end Routine

end IntOS
