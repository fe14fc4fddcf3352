import IntOS.Lib.Persist

/-!
# Programs that may be started again

A program is retryable when a failure anywhere in it does not matter, as long as the program is started again
afterwards. A sequence is retryable when each part is, and has nothing left to do once the next part has begun.
-/

namespace Persist

open Prog

variable {σ τ α : Type} {I J : σ → Prop} {m f : Prog σ Unit} {s c : σ}

/-- Started again after a failure, the program ends as it would have ended. -/
def Retryable (I : σ → Prop) (m : Prog σ Unit) : Prop :=
  ∀ s, I s → ∀ c ∈ (m s).trace, I c ∧ (m c).out = (m s).out

/-- The program returns and changes nothing. -/
def Skips (m : Prog σ Unit) (s : σ) : Prop := (m s).out = some ((), s)

theorem out_bind {β : Type} (m : Prog σ α) (f : α → Prog σ β) (s : σ) :
    ((m >>= f) s).out = (m s).out.bind fun p => (f p.1 p.2).out := by
  cases h : (m s).out with
  | none => rw [bind_of_none h]; rfl
  | some p => rw [bind_of_out h]; rfl

theorem Skips.bind (hm : Skips m s) (hf : Skips f s) : Skips (m >>= fun _ => f) s := by
  unfold Skips at hm
  rw [Skips, out_bind, hm]
  exact hf

theorem Retryable.bind (hm : Retryable I m) (hf : Retryable J f) (hsub : ∀ s, J s → I s)
    (hend : ∀ s s', I s → (m s).out = some ((), s') → J s') (hskip : ∀ s, J s → Skips m s) :
    Retryable I (m >>= fun _ => f) := by
  intro s hs c hc
  rcases mem_trace_bind hc with hc | ⟨_, s', ho, hc⟩
  · obtain ⟨hi, he⟩ := hm s hs c hc
    refine ⟨hi, ?_⟩
    rw [out_bind, out_bind, he]
  · have hj := hend s s' hs ho
    obtain ⟨hj', he⟩ := hf s' hj c hc
    have hsk := hskip c hj'
    unfold Skips at hsk
    refine ⟨hsub c hj', ?_⟩
    rw [out_bind, out_bind, hsk, ho]
    exact he

/-- A choice that the program does not influence. -/
theorem Retryable.congr (h : Retryable I m) (he : ∀ s, I s → f s = m s) : Retryable I f := by
  intro s hs c hc
  rw [he s hs] at hc ⊢
  obtain ⟨hi, ho⟩ := h s hs c hc
  rw [he c hi]
  exact ⟨hi, ho⟩

theorem Retryable.cases {p : σ → Prop} (hp : Retryable (fun s => I s ∧ p s) m)
    (hn : Retryable (fun s => I s ∧ ¬ p s) m) : Retryable I m := by
  intro s hs c hc
  by_cases h : p s
  · obtain ⟨⟨hi, _⟩, ho⟩ := hp s ⟨hs, h⟩ c hc
    exact ⟨hi, ho⟩
  · obtain ⟨⟨hi, _⟩, ho⟩ := hn s ⟨hs, h⟩ c hc
    exact ⟨hi, ho⟩

/-- The part of the state that the program works on, with what it leaves alone. -/
theorem Retryable.zoom {get : τ → σ} {set : σ → τ → τ} {I' : τ → Prop} (h : Retryable I m)
    (hget : ∀ s t, get (set s t) = s) (hset : ∀ s s' t, set s (set s' t) = set s t)
    (hsub : ∀ t, I' t → I (get t)) (hkeep : ∀ s t, I' t → I s → I' (set s t)) :
    Retryable I' (Prog.zoom get set m) := by
  intro t ht c hc
  obtain ⟨s, hs, rfl⟩ := List.mem_map.mp hc
  obtain ⟨hi, he⟩ := h (get t) (hsub t ht) s hs
  refine ⟨hkeep s t ht hi, ?_⟩
  simp only [Prog.zoom, hget, he, hset]

/-! ## Failures of recovery -/

/-- What any number of failures of `boot` leaves, with `boot` started again after each. -/
inductive Interrupted (boot : Prog σ Unit) : σ → σ → Prop
  | refl (s : σ) : Interrupted boot s s
  | again {s c c' : σ} : c ∈ (boot s).trace → Interrupted boot c c' → Interrupted boot s c'

/-- The crash condition of a recovery that is its own precondition. -/
theorem Interrupted.of_wpc {Q C : σ → Prop} {E : Prop} (hb : ∀ c, C c → wpc m (fun _ => Q) E C c)
    (h : Interrupted m s c) (hs : C s) : C c := by
  induction h with
  | refl s => exact hs
  | again hc _ ih => exact ih ((hb _ hs).trace hc)

/-! ## Stages -/

/-- A part of a retryable sequence: it starts in `I` and ends in `J`, where it has nothing left to do. -/
structure Stage (I J : σ → Prop) (m : Prog σ Unit) : Prop where
  retry : Retryable I m
  ends : ∀ s s', I s → (m s).out = some ((), s') → J s'
  skips : ∀ s, J s → Skips m s

theorem Stage.bind (h : Stage I J m) (hsub : ∀ s, J s → I s) (hf : Retryable J f) :
    Retryable I (m >>= fun _ => f) := h.retry.bind hf hsub h.ends h.skips

theorem Stage.after (h : Stage I J m) (hs : I s) : After m (fun _ => J) s := by
  unfold After
  cases ho : (m s).out with
  | none => trivial
  | some p => exact h.ends s p.2 hs ho

/-- A store that the states of `J` have behind them. -/
theorem stage_store {g : σ → σ} (hsub : ∀ s, J s → I s) (hJ : ∀ s, I s → J (g s)) (hg : ∀ s, J s → g s = s) :
    Stage I J (store g) where
  retry := by
    intro s hs c hc
    obtain rfl : c = g s := by simpa [store] using hc
    refine ⟨hsub _ (hJ s hs), ?_⟩
    simp only [store, hg _ (hJ s hs)]
  ends := by
    intro s s' hs ho
    cases ho
    exact hJ s hs
  skips := by
    intro s hs
    simp only [Skips, store, hg s hs]

end Persist
