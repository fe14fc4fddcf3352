import IntOS.User.Lemmas.Steps

/-!
# Running a routine from the middle

From a state in the middle of a routine, with the results it holds to be replayed, the routine runs to its
end, and every failure leaves a state in its middle again.
-/

namespace IntOS

open Persist Persist.Prog UserTxInfo

variable {b : Board} {pre rs : List (List UInt8)} {x y : Data} {u : UserTxInfo} {depth fuel : Nat}

namespace Routine

/-- The limits that the execution from `x` keeps to, `depth` loops deep and with the results `pre` before
it: results fit the cache, loops the stack and counters a `usize`. `turns` may limit the rounds of a loop. -/
def Bounded (turns : Nat → Prop) : Routine b → Nat → List (List UInt8) → Data → Prop
  | done, _, _, _ => True
  | run f k, depth, pre, x =>
      Fits b (pre ++ [res f x]) ∧ Bounded turns (k (res f x)) depth (pre ++ [res f x]) (next f x)
  | nvForLoop i begin endv step body k, depth, pre, x =>
      depth < defaultStackDepth ∧ 0 < step ∧ Fits b (pre ++ [[]]) ∧
      turns (roundsLeft begin endv step) ∧
      begin + roundsLeft begin endv step * step < 2 ^ b.width.bits ∧
      (∀ n, begin + n * step < endv → Bounded turns (body (begin + n * step)) (depth + 1) (pre ++ [[]])
        (after i begin step body x n)) ∧
      Bounded turns k depth (pre ++ [[]]) (after i begin step body x (roundsLeft begin endv step))

/-- What has run of a routine within its limits fits the cache. -/
theorem Mid.fits {t : Routine b} (h : Mid t x rs y) {turns : Nat → Prop}
    (hb : Bounded turns t depth pre x) (hf : Fits b pre) :
    Fits b (pre ++ rs) := by
  induction h generalizing pre depth with
  | start => rwa [List.append_nil]
  | set => rwa [List.append_nil]
  | run f k _ ih =>
      rw [List.append_cons]
      exact ih hb.2 hb.1
  | round k n hn _ ih =>
      obtain ⟨_, _, hset, _, _, hbody, _⟩ := hb
      rw [List.append_cons]
      exact ih (hbody n hn) hset
  | rest _ ih =>
      obtain ⟨_, _, hset, _, _, _, hk⟩ := hb
      rw [List.append_cons]
      exact ih hk hset

/-- The rounds of a bounded routine are finitely many. -/
theorem Bounded.enough_fuel {t : Routine b} (h : Bounded (fun _ => True) t depth pre x) :
    ∃ fuel₀, ∀ fuel, fuel₀ ≤ fuel → Bounded (· < fuel) t depth pre x := by
  induction t generalizing depth pre x with
  | done => exact ⟨0, fun _ _ => trivial⟩
  | run f k ih =>
      obtain ⟨fuel₀, hk⟩ := ih _ h.2
      exact ⟨fuel₀, fun fuel hle => ⟨h.1, hk fuel hle⟩⟩
  | nvForLoop i begin endv step body k ihb ihk =>
      obtain ⟨hd, hs, hset, _, hword, hbody, hk⟩ := h
      obtain ⟨fuelk, hk⟩ := ihk hk
      have hrounds : ∀ m, ∃ fuel₀, ∀ n, n < m → begin + n * step < endv → ∀ fuel, fuel₀ ≤ fuel →
          Bounded (· < fuel) (body (begin + n * step)) (depth + 1) (pre ++ [[]])
            (after i begin step body x n) := by
        intro m
        induction m with
        | zero => exact ⟨0, fun n hn => absurd hn (Nat.not_lt_zero n)⟩
        | succ m ih =>
            obtain ⟨fuel₁, h₁⟩ := ih
            by_cases hm : begin + m * step < endv
            · obtain ⟨fuel₂, h₂⟩ := ihb _ (hbody m hm)
              refine ⟨max fuel₁ fuel₂, fun n hn hlt fuel hle => ?_⟩
              rcases Nat.lt_succ_iff_lt_or_eq.mp hn with hn | rfl
              · exact h₁ n hn hlt fuel (Nat.le_trans (Nat.le_max_left _ _) hle)
              · exact h₂ fuel (Nat.le_trans (Nat.le_max_right _ _) hle)
            · refine ⟨fuel₁, fun n hn hlt fuel hle => ?_⟩
              rcases Nat.lt_succ_iff_lt_or_eq.mp hn with hn | rfl
              · exact h₁ n hn hlt fuel hle
              · exact absurd hlt hm
      obtain ⟨fuelb, hb⟩ := hrounds (roundsLeft begin endv step)
      refine ⟨max (roundsLeft begin endv step + 1) (max fuelb fuelk), fun fuel hle => ?_⟩
      obtain ⟨hturns, hle⟩ := Nat.max_le.mp hle
      obtain ⟨hleb, hlek⟩ := Nat.max_le.mp hle
      exact ⟨hd, hs, hset, hturns, hword,
        fun n hn => hb n ((lt_roundsLeft hs).mpr hn) hn fuel hleb, hk fuel hlek⟩

/-- The routine may be resumed from what a failure left. -/
def Resumable (b : Board) (t : Routine b) (pre : List (List UInt8)) (x : Data) (u : UserTxInfo) : Prop :=
  ∃ rs y, Mid t x rs y ∧ Left b (pre ++ rs) y u

/-- Running `t` from anywhere in it. -/
def Runs (b : Board) (fuel : Nat) (t : Routine b) : Prop :=
  ∀ (depth : Nat) (pre rs : List (List UInt8)) (x y : Data) (u : UserTxInfo),
    Bounded (· < fuel) t depth pre x → OwnCounters t → Fits b pre → Mid t x rs y →
    ReadyAt b depth pre rs y u →
    wpc (exec fuel t)
      (fun _ u' => ReadyAt b depth (pre ++ live t x) [] (eval t x) u' ∧
        ∀ j, j < depth → u'.tailStack j = u.tailStack j) False (Resumable b t pre x) u

theorem Runs.done : Runs b fuel (done : Routine b) := by
  intro depth pre rs x y u _ _ hf hm hr
  cases hm with
  | start =>
      have hl := hr.left_nil hf
      refine wpc_pure ⟨[], x, .start _ _, by rwa [List.append_nil]⟩ ⟨?_, fun _ _ => rfl⟩
      rw [live, List.append_nil]
      exact hr

theorem Runs.run {f : UserTx b} {k : List UInt8 → Routine b} (ih : ∀ r, Runs b fuel (k r)) :
    Runs b fuel (run f k) := by
  intro depth pre rs x y u hb ho hf hm hr
  obtain ⟨hfit, hk⟩ := hb
  have hrun : ∀ rs' y' u', Mid (k (res f x)) (next f x) rs' y' →
      ReadyAt b depth (pre ++ [res f x]) rs' y' u' → u'.tailStack = u.tailStack →
      wpc (exec fuel (k (res f x)))
        (fun _ u'' => ReadyAt b depth (pre ++ live (.run f k) x) [] (eval (.run f k) x) u'' ∧
          ∀ j, j < depth → u''.tailStack j = u.tailStack j) False (Resumable b (.run f k) pre x) u' := by
    intro rs' y' u' hm' hr' hstack
    refine wpc_mono (ih (res f x) depth (pre ++ [res f x]) rs' _ y' u' hk (ho _) hfit hm' hr') ?_ ?_
    · rintro _ u'' ⟨hready, hkeep⟩
      rw [← List.append_cons] at hready
      exact ⟨hready, fun j hj => (hkeep j hj).trans (by rw [hstack])⟩
    · rintro c ⟨rs'', y'', hm'', hl⟩
      rw [← List.append_cons] at hl
      exact ⟨_, y'', .run f k hm'', hl⟩
  cases hm with
  | start =>
      refine wpc_bind (wpc_mono (wpc_run_fresh hr hfit) ?_ ?_)
      · rintro a u' ⟨rfl, hr', hstack⟩
        exact hrun [] _ u' (.start _ _) hr' hstack
      · rintro c (hl | hl)
        · exact ⟨[], x, .start _ _, by rwa [List.append_nil]⟩
        · exact ⟨[res f x], next f x, .run f k (.start _ _), hl⟩
  | @run _ _ _ _ rs' hm' =>
      have hfits : Fits b (pre ++ res f x :: rs') := by
        rw [List.append_cons]
        exact hm'.fits hk hfit
      refine wpc_bind (wpc_mono (wpc_run_replay hr hfits (f.length_res _)) ?_ ?_)
      · rintro a u' ⟨rfl, hr', hstack⟩
        exact hrun rs' y u' hm' hr' hstack
      · exact fun c hl => ⟨_, y, .run f k hm', hl⟩

/-! ## Loops -/

section
variable {i begin endv step : Nat} {body : Nat → Routine b} {k : Routine b}

theorem Resumable.round {n : Nat} (hn : begin + n * step < endv)
    (h : Resumable b (body (begin + n * step)) (pre ++ [[]]) (after i begin step body x n) u) :
    Resumable b (.nvForLoop i begin endv step body k) pre x u := by
  obtain ⟨rs, y, hm, hl⟩ := h
  rw [← List.append_cons] at hl
  exact ⟨_, y, .round k n hn hm, hl⟩

theorem Resumable.rest
    (h : Resumable b k (pre ++ [[]]) (after i begin step body x (roundsLeft begin endv step)) u) :
    Resumable b (.nvForLoop i begin endv step body k) pre x u := by
  obtain ⟨rs, y, hm, hl⟩ := h
  rw [← List.append_cons] at hl
  exact ⟨_, y, .rest hm, hl⟩

theorem Resumable.of_left {t : Routine b} (hm : Mid t x rs y) (h : Left b (pre ++ rs) y u) :
    Resumable b t pre x u := ⟨rs, y, hm, h⟩

theorem Resumable.of_left_start {t : Routine b} (h : Left b pre x u) : Resumable b t pre x u :=
  .of_left (.start t x) (by rwa [List.append_nil])

/-- Where a loop stands after `n` rounds: in the next one, or past the last. -/
def InLoop (i begin endv step : Nat) (body : Nat → Routine b) (k : Routine b) (x : Data) (n : Nat)
    (rs : List (List UInt8)) (y : Data) : Prop :=
  (n < roundsLeft begin endv step ∧ Mid (body (begin + n * step)) (after i begin step body x n) rs y) ∨
    (n = roundsLeft begin endv step ∧
      Mid k (after i begin step body x (roundsLeft begin endv step)) rs y)

theorem InLoop.resumable {n : Nat} (hs : 0 < step) (h : InLoop i begin endv step body k x n rs y)
    (hl : Left b (pre ++ [[]] ++ rs) y u) :
    Resumable b (.nvForLoop i begin endv step body k) pre x u := by
  rcases h with ⟨hn, hm⟩ | ⟨_, hm⟩
  · exact .round ((lt_roundsLeft hs).mp hn) (.of_left hm hl)
  · exact .rest (.of_left hm hl)

theorem InLoop.counter {n : Nat} (ho : OwnCounters (.nvForLoop i begin endv step body k))
    (h : InLoop i begin endv step body k x n rs y) : y.counters i = begin + n * step := by
  obtain ⟨hbody, hk, _⟩ := ho
  rcases h with ⟨_, hm⟩ | ⟨rfl, hm⟩
  · rw [hm.counter (hbody _).1, after_counter]
  · rw [hm.counter hk, after_counter]

theorem InLoop.start {n : Nat} (hn : n ≤ roundsLeft begin endv step) :
    InLoop i begin endv step body k x n [] (after i begin step body x n) := by
  rcases Nat.lt_or_eq_of_le hn with hlt | rfl
  · exact Or.inl ⟨hlt, .start _ _⟩
  · exact Or.inr ⟨rfl, .start _ _⟩

/-- One round, from anywhere in it to the start of the next. -/
theorem wpc_round (hw : b.width ≠ .w32) (ihb : ∀ c, Runs b fuel (body c)) {n : Nat}
    (hb : Bounded (· < fuel) (.nvForLoop i begin endv step body k) depth pre x)
    (ho : OwnCounters (.nvForLoop i begin endv step body k)) (hn : n < roundsLeft begin endv step)
    (hm : Mid (body (begin + n * step)) (after i begin step body x n) rs y)
    (hr : ReadyAt b depth (pre ++ [[]]) rs y u) :
    wpc (Routine.round b i step (fun cnt => exec fuel (body cnt)) (begin + n * step))
      (fun _ u' => ReadyAt b depth (pre ++ [[]]) [] (after i begin step body x (n + 1)) u' ∧
        ∀ j, j < depth → u'.tailStack j = u.tailStack j) False
      (Resumable b (.nvForLoop i begin endv step body k) pre x) u := by
  obtain ⟨hd, hs, hset, _, hword, hbody, _⟩ := hb
  have hlt := (lt_roundsLeft hs).mp hn
  have hbn := hbody n hlt
  have hone : Mid (body (begin + n * step)) (after i begin step body x n) _ _ := Mid.finish _ _
  have hfits := hm.fits hbn hset
  refine wpc_bind (wpc_mono (wpc_enter hw hr hfits hd) ?_ fun c hl => .round hlt (.of_left hm hl))
  rintro _ u₁ ⟨hr₁, htop, hkeep₁⟩
  refine wpc_bind (wpc_mono (ihb _ _ _ _ _ _ _ hbn (ho.1 _).2 hset hm hr₁) ?_ fun c hc => .round hlt hc)
  rintro _ u₂ ⟨hr₂, hkeep₂⟩
  have hsucc : after i begin step body x (n + 1) =
      (eval (body (begin + n * step)) (after i begin step body x n)).setCounter i
        (begin + n * step + step) := by
    rw [after_succ, Nat.succ_mul, Nat.add_assoc]
  have hov : begin + n * step + step < 2 ^ b.width.bits := by
    have hle : (n + 1) * step ≤ roundsLeft begin endv step * step := Nat.mul_le_mul_right _ hn
    rw [Nat.succ_mul] at hle
    omega
  have hstack : (u₂.tailStack depth).toNat = position b.width (pre ++ [[]]) ||| txCommitted b.width := by
    rw [hkeep₂ depth (Nat.lt_succ_self _)]
    exact htop
  rw [hsucc]
  refine wpc_mono (wpc_exit hr₂ (hone.fits hbn hset) hstack hd hov) ?_ ?_
  · rintro _ u₃ ⟨hr₃, hkeep₃⟩
    refine ⟨hr₃, fun j hj => ?_⟩
    rw [hkeep₃, hkeep₂ j (Nat.lt_succ_of_lt hj), hkeep₁ j hj]
  · rintro c (hl | hl | ⟨hnil, hl⟩)
    · exact .round hlt (.of_left hone hl)
    · rw [← hsucc] at hl
      exact (InLoop.start (Nat.succ_le_of_lt hn)).resumable hs (by rwa [List.append_nil])
    · rw [eval_of_live_nil hnil] at hl
      exact .round hlt (.of_left_start hl)

/-- The rounds that are left. -/
theorem wpc_rounds (hw : b.width ≠ .w32) (ihb : ∀ c, Runs b fuel (body c))
    (hb : Bounded (· < fuel) (.nvForLoop i begin endv step body k) depth pre x)
    (ho : OwnCounters (.nvForLoop i begin endv step body k)) {fuel' n : Nat}
    (hfuel : roundsLeft begin endv step < n + fuel')
    (hin : InLoop i begin endv step body k x n rs y) (hf : Fits b (pre ++ [[]] ++ rs))
    (hr : ReadyAt b depth (pre ++ [[]]) rs y u) :
    wpc (rounds b i endv step (fun cnt => exec fuel (body cnt)) fuel')
      (fun _ u' => ∃ rs' y', Mid k (after i begin step body x (roundsLeft begin endv step)) rs' y' ∧
        ReadyAt b depth (pre ++ [[]]) rs' y' u' ∧ ∀ j, j < depth → u'.tailStack j = u.tailStack j) False
      (Resumable b (.nvForLoop i begin endv step body k) pre x) u := by
  have hs := hb.2.1
  have hset := hb.2.2.1
  induction fuel' generalizing n rs y u with
  | zero =>
      rcases hin with ⟨hn, _⟩ | ⟨hn, _⟩
      · omega
      · omega
  | succ fuel' ih =>
      have hC := hin.resumable hs (hr.left hf)
      have hcnt : u.counters i = begin + n * step := by rw [hr.counters, hin.counter ho]
      refine wpc_bind (wpc_gets hC ?_)
      rw [hcnt]
      rcases hin with ⟨hn, hm⟩ | ⟨rfl, hm⟩
      · have hlt := (lt_roundsLeft hs).mp hn
        rw [if_neg (by omega)]
        refine wpc_bind (wpc_mono (wpc_round hw ihb hb ho hn hm hr) ?_ fun _ h => h)
        rintro _ u₁ ⟨hr₁, hkeep₁⟩
        have hnext : InLoop i begin endv step body k x (n + 1) [] _ := .start (Nat.succ_le_of_lt hn)
        refine wpc_mono (ih (by omega) hnext (by rwa [List.append_nil]) hr₁) ?_ fun _ h => h
        rintro _ u₂ ⟨rs', y', hm', hr', hkeep'⟩
        exact ⟨rs', y', hm', hr', fun j hj => (hkeep' j hj).trans (hkeep₁ j hj)⟩
      · rw [if_pos (endv_le_of_roundsLeft hs)]
        exact wpc_pure hC ⟨rs, y, hm, hr, fun _ _ => rfl⟩

theorem Runs.nvForLoop (hw : b.width ≠ .w32) (ihb : ∀ c, Runs b fuel (body c)) (ihk : Runs b fuel k) :
    Runs b fuel (.nvForLoop i begin endv step body k) := by
  intro depth pre rs x y u hb ho hf hm hr
  have hs := hb.2.1
  have hset := hb.2.2.1
  have hk := hb.2.2.2.2.2.2
  -- the rounds from `n` on, then the rest
  have hloop : ∀ n rs' y' u', InLoop i begin endv step body k x n rs' y' →
      Fits b (pre ++ [[]] ++ rs') → ReadyAt b depth (pre ++ [[]]) rs' y' u' → u'.tailStack = u.tailStack →
      wpc (rounds b i endv step (fun cnt => exec fuel (body cnt)) fuel >>= fun _ => exec fuel k)
        (fun _ u'' => ReadyAt b depth (pre ++ live (.nvForLoop i begin endv step body k) x) []
            (eval (.nvForLoop i begin endv step body k) x) u'' ∧
          ∀ j, j < depth → u''.tailStack j = u.tailStack j) False
        (Resumable b (.nvForLoop i begin endv step body k) pre x) u' := by
    intro n rs' y' u' hin hfits hr' hstack
    have hfuel : roundsLeft begin endv step < fuel := hb.2.2.2.1
    refine wpc_bind (wpc_mono (wpc_rounds hw ihb hb ho (n := n) (by omega) hin hfits hr') ?_ fun _ h => h)
    rintro _ u₁ ⟨rs₁, y₁, hm₁, hr₁, hkeep₁⟩
    refine wpc_mono (ihk depth _ rs₁ _ y₁ u₁ hk ho.2.2 hset hm₁ hr₁) ?_ fun _ h => h.rest
    rintro _ u₂ ⟨hr₂, hkeep₂⟩
    rw [← List.append_cons] at hr₂
    refine ⟨hr₂, fun j hj => ?_⟩
    rw [hkeep₂ j hj, hkeep₁ j hj, hstack]
  have hfirst : ∀ u', ReadyAt b depth (pre ++ [[]]) [] (x.setCounter i begin) u' →
      u'.tailStack = u.tailStack → _ := fun u' =>
    hloop 0 [] _ u' (InLoop.start (Nat.zero_le _)) (by rwa [List.append_nil])
  have hcrash : ∀ c, Left b pre x c ∨ Left b pre (x.setCounter i begin) c ∨
      Left b (pre ++ [[]]) (x.setCounter i begin) c →
      Resumable b (.nvForLoop i begin endv step body k) pre x c := by
    rintro c (hl | hl | hl)
    · exact .of_left_start hl
    · exact .of_left (.set i begin endv step body k x) (by rwa [List.append_nil])
    · exact (InLoop.start (Nat.zero_le _)).resumable hs (by rwa [List.append_nil])
  have hreplay : ∀ n rs', rs = [] :: rs' → InLoop i begin endv step body k x n rs' y →
      Fits b (pre ++ [] :: rs') → wpc (exec fuel (.nvForLoop i begin endv step body k))
        (fun _ u'' => ReadyAt b depth (pre ++ live (.nvForLoop i begin endv step body k) x) []
            (eval (.nvForLoop i begin endv step body k) x) u'' ∧
          ∀ j, j < depth → u''.tailStack j = u.tailStack j) False
        (Resumable b (.nvForLoop i begin endv step body k) pre x) u := by
    rintro n rs' rfl hin hfits
    refine wpc_bind (wpc_mono (wpc_fastRunSet_replay hr hfits) ?_ fun c hl => ?_)
    · rintro _ u' ⟨hr', hstack⟩
      exact hloop n rs' y u' hin (by rwa [← List.append_cons]) hr' hstack
    · rw [List.append_cons] at hl
      exact hin.resumable hs hl
  have hfits := hm.fits hb hf
  cases hm with
  | start =>
      refine wpc_bind (wpc_mono (wpc_fastRunSet_fresh hr hset) ?_ hcrash)
      exact fun _ u' ⟨hr', hstack⟩ => hfirst u' hr' hstack
  | set =>
      have hset' := wpc_fastRunSet_fresh (i := i) (v := begin) hr hset
      rw [Data.setCounter_idem] at hset'
      refine wpc_bind (wpc_mono hset' ?_ ?_)
      · exact fun _ u' ⟨hr', hstack⟩ => hfirst u' hr' hstack
      · exact fun c hl => hcrash c (Or.inr (hl.elim Or.inl id))
  | round k n hn hm =>
      exact hreplay n _ rfl (Or.inl ⟨(lt_roundsLeft hs).mpr hn, hm⟩) hfits
  | rest hm => exact hreplay _ _ rfl (Or.inr ⟨rfl, hm⟩) hfits

end

theorem runs (hw : b.width ≠ .w32) (fuel : Nat) (t : Routine b) : Runs b fuel t := by
  induction t with
  | done => exact .done
  | run f k ih => exact .run ih
  | nvForLoop i begin endv step body k ihb ihk => exact .nvForLoop hw ihb ihk

end Routine

end IntOS
