import IntOS.Lib.Persist

/-!
# Runs under an assumption on their states

`wpcOn A` is `wpc` for runs all of whose states satisfy `A`. The state in which such a run returns is one that its
stores leave, so the assumption holds there as well, and for the program that comes next.
-/

namespace Persist

open Prog

variable {σ τ α β : Type}

/-- If every state of the run satisfies `A`, a failure leaves a state of `C` and a return gives `Q`. -/
def wpcOn (A : σ → Prop) (m : Prog σ α) (Q : α → σ → Prop) (C : σ → Prop) (s : σ) : Prop :=
  (∀ c ∈ crashes m s, A c) → wpc m (fun a s' => s' ∈ crashes m s ∧ Q a s') True C s

section
variable {A : σ → Prop} {Q Q' : α → σ → Prop} {R : β → σ → Prop} {C C' : σ → Prop} {s : σ}

theorem mem_crashes_self (m : Prog σ α) (s : σ) : s ∈ crashes m s := List.mem_cons_self

theorem wpcOn_pure {a : α} (hC : C s) (hQ : Q a s) : wpcOn A (pure a) Q C s :=
  fun _ => wpc_pure hC ⟨mem_crashes_self _ _, hQ⟩

theorem wpcOn_gets {g : σ → α} (hC : C s) (hQ : Q (g s) s) : wpcOn A (gets g) Q C s :=
  fun _ => wpc_gets hC ⟨mem_crashes_self _ _, hQ⟩

theorem wpcOn_fail (hC : C s) : wpcOn A fail Q C s := fun _ => wpc_fail hC trivial

theorem wpcOn_check {p : Prop} [Decidable p] {Q : Unit → σ → Prop} (hC : C s) (hQ : p → Q () s) :
    wpcOn A (check p) Q C s :=
  fun _ => wpc_check hC (fun _ => trivial) fun hp => ⟨mem_crashes_self _ _, hQ hp⟩

theorem wpcOn_store {g : σ → σ} {Q : Unit → σ → Prop} (hC : C s) (h : A s → C (g s) ∧ Q () (g s)) :
    wpcOn A (store g) Q C s := by
  intro hA
  obtain ⟨hC', hQ⟩ := h (hA s (mem_crashes_self _ _))
  refine wpc_store hC hC' ⟨?_, hQ⟩
  simp [crashes, store]

theorem wpcOn_mono {m : Prog σ α} (h : wpcOn A m Q C s) (hQ : ∀ a s', Q a s' → Q' a s') (hC : ∀ c, C c → C' c) :
    wpcOn A m Q' C' s :=
  fun hA => wpc_mono (h hA) (fun a s' hs' => ⟨hs'.1, hQ a s' hs'.2⟩) hC

/-- What the first part leaves is a state of the run. -/
theorem wpcOn_bind {m : Prog σ α} {f : α → Prog σ β} (h : wpcOn A m (fun a => wpcOn A (f a) R C) C s) :
    wpcOn A (m >>= f) R C s := by
  intro hA
  have hm : ∀ c ∈ crashes m s, c ∈ crashes (m >>= f) s := by
    intro c hc
    rcases List.mem_cons.mp hc with rfl | hc
    · exact mem_crashes_self _ _
    · exact List.mem_cons_of_mem _ (mem_trace_bind_left hc)
  have hw := h fun c hc => hA c (hm c hc)
  cases ho : (m s).out with
  | none =>
      refine ⟨fun c hc => hw.crash ?_, ?_⟩
      · rwa [crashes, bind_of_none ho] at hc
      · rw [bind_of_none ho]
        trivial
  | some p =>
      obtain ⟨a, s'⟩ := p
      obtain ⟨hs', hf⟩ := hw.post ho
      have hrest : ∀ c ∈ crashes (f a) s', c ∈ crashes (m >>= f) s := by
        intro c hc
        rcases List.mem_cons.mp hc with rfl | hc
        · exact hm _ hs'
        · exact List.mem_cons_of_mem _ (mem_trace_bind_right ho hc)
      have hw' := hf fun c hc => hA c (hrest c hc)
      refine ⟨fun c hc => ?_, ?_⟩
      · rcases List.mem_cons.mp hc with rfl | hc
        · exact hw.start
        · rcases mem_trace_bind hc with hc | ⟨b, r, ho', hc⟩
          · exact hw.trace hc
          · rw [ho] at ho'
            cases ho'
            exact hw'.trace hc
      · rw [bind_of_out ho]
        have hpost := hw'.2
        cases ho' : (f a s').out with
        | none => trivial
        | some q =>
            rw [ho'] at hpost
            exact ⟨hrest _ hpost.1, hpost.2⟩

theorem wpcOn_zoom {get : τ → σ} {set : σ → τ → τ} {m : Prog σ α} {A : τ → Prop} {Q : α → τ → Prop} {C : τ → Prop}
    {t : τ} (hlens : set (get t) t = t)
    (h : wpcOn (fun s => A (set s t)) m (fun a s => Q a (set s t)) (fun s => C (set s t)) (get t)) :
    wpcOn A (zoom get set m) Q C t := by
  have hmem : ∀ c ∈ crashes m (get t), set c t ∈ crashes (zoom get set m) t := by
    intro c hc
    rcases List.mem_cons.mp hc with rfl | hc
    · rw [hlens]
      exact mem_crashes_self _ _
    · exact List.mem_cons_of_mem _ (List.mem_map_of_mem hc)
  intro hA
  have hw := h fun c hc => hA _ (hmem c hc)
  refine wpc_zoom hlens (wpc_mono hw ?_ fun _ hc => hc)
  exact fun _ s' hs' => ⟨hmem s' hs'.1, hs'.2⟩

end

/-! ## What every store leaves in a relation -/

/-- Every state of the run is in the relation `R` to the first one. -/
def Evolves (A : σ → Prop) (R : σ → σ → Prop) (m : Prog σ α) : Prop :=
  ∀ s, wpcOn A m (fun _ => R s) (R s) s

section
variable {A : σ → Prop} {R : σ → σ → Prop}

theorem evolves_pure (hr : ∀ s, R s s) (a : α) : Evolves A R (pure a) := fun s => wpcOn_pure (hr s) (hr s)

theorem evolves_gets (hr : ∀ s, R s s) (g : σ → α) : Evolves A R (gets g) := fun s => wpcOn_gets (hr s) (hr s)

theorem evolves_fail (hr : ∀ s, R s s) : Evolves A R (fail : Prog σ α) := fun s => wpcOn_fail (hr s)

theorem evolves_check (hr : ∀ s, R s s) (p : Prop) [Decidable p] : Evolves A R (check p) := fun s =>
  wpcOn_check (hr s) fun _ => hr s

theorem evolves_store (hr : ∀ s, R s s) {g : σ → σ} (h : ∀ s, A s → R s (g s)) : Evolves A R (store g) := fun s =>
  wpcOn_store (hr s) fun hA => ⟨h s hA, h s hA⟩

theorem Evolves.bind {m : Prog σ α} {f : α → Prog σ β} (hm : Evolves A R m) (hf : ∀ a, Evolves A R (f a))
    (ht : ∀ {x y z}, R x y → R y z → R x z) : Evolves A R (m >>= f) := by
  intro s
  apply wpcOn_bind
  refine wpcOn_mono (hm s) ?_ fun _ hc => hc
  exact fun a s' hs' => wpcOn_mono (hf a s') (fun _ _ hr => ht hs' hr) fun _ hr => ht hs' hr

end

/-! ## What every store keeps -/

/-- From a state of `P` every store leaves one, and what is returned satisfies `Q`. -/
def Stays (P : σ → Prop) (m : Prog σ α) (Q : α → Prop) : Prop :=
  ∀ s, P s → wpc m (fun a s' => P s' ∧ Q a) True P s

section
variable {P : σ → Prop} {Q : α → Prop} {R : β → Prop}

theorem stays_pure {a : α} (h : Q a) : Stays P (pure a) Q := fun _ hs => wpc_pure hs ⟨hs, h⟩

theorem stays_gets {g : σ → α} (h : ∀ s, P s → Q (g s)) : Stays P (gets g) Q := fun s hs =>
  wpc_gets hs ⟨hs, h s hs⟩

theorem stays_fail : Stays P (fail : Prog σ α) Q := fun _ hs => wpc_fail hs trivial

theorem stays_check (p : Prop) [Decidable p] : Stays P (check p) fun _ => True := fun _ hs =>
  wpc_check hs (fun _ => trivial) fun _ => ⟨hs, trivial⟩

theorem stays_store {g : σ → σ} (h : ∀ s, P s → P (g s)) : Stays P (store g) fun _ => True := fun s hs =>
  wpc_store hs (h s hs) ⟨h s hs, trivial⟩

theorem Stays.bind {m : Prog σ α} {f : α → Prog σ β} (hm : Stays P m Q) (hf : ∀ a, Q a → Stays P (f a) R) :
    Stays P (m >>= f) R := by
  intro s hs
  apply wpc_bind
  refine wpc_mono (hm s hs) ?_ fun _ hc => hc
  exact fun a s' hs' => hf a hs'.2 s' hs'.1

theorem stays_fail_bind {f : α → Prog σ β} : Stays P (fail >>= f) R :=
  Stays.bind (Q := fun _ => False) stays_fail fun _ h => h.elim

theorem stays_zoom {get : τ → σ} {set : σ → τ → τ} {m : Prog σ α} {P' : τ → Prop} (hm : Stays P m Q)
    (hlens : ∀ t, set (get t) t = t) (hget : ∀ t, P' t → P (get t)) (hset : ∀ s t, P' t → P s → P' (set s t)) :
    Stays P' (zoom get set m) Q := by
  intro t ht
  apply wpc_zoom (hlens t)
  refine wpc_mono (hm (get t) (hget t ht)) ?_ ?_
  · exact fun _ s hs => ⟨hset s t ht hs.1, hs.2⟩
  · exact fun s hs => hset s t ht hs

/-- What holds of something that the program does not change stays. -/
theorem Keeps.stays {ρ : Type} {f : σ → ρ} {m : Prog σ α} (h : Keeps f m) (P : ρ → Prop) :
    Stays (fun s => P (f s)) m fun _ => True := by
  intro s hs
  have hkept : ∀ c, f c = f s → P (f c) := fun _ hc => hc.symm ▸ hs
  exact wpc_mono (h s) (fun _ c hc => ⟨hkept c hc, trivial⟩) hkept

end

/-! ## Runs that meet a condition on their way -/

/-- If the program returns, one of its stores has left a state of `P`, or what it returns satisfies `Q`. -/
def Meets (P : σ → Prop) (m : Prog σ α) (Q : α → σ → Prop) (s : σ) : Prop :=
  After m (fun a s' => (∃ c ∈ (m s).trace, P c) ∨ Q a s') s

section
variable {P I : σ → Prop} {Q Q' : α → σ → Prop} {R : β → σ → Prop} {s : σ}

theorem After.meets {m : Prog σ α} (h : After m Q s) : Meets P m Q s := After.mono h fun _ _ => Or.inr

theorem Stays.meets {m : Prog σ α} (h : Stays I m fun _ => True) (hs : I s) : Meets P m (fun _ => I) s :=
  After.meets (After.mono (h s hs).2 fun _ _ hs' => hs'.1)

theorem Meets.mono {m : Prog σ α} (h : Meets P m Q s) (hQ : ∀ a s', Q a s' → Q' a s') : Meets P m Q' s :=
  After.mono h fun a s' => Or.imp_right (hQ a s')

theorem meets_store {g : σ → σ} {Q : Unit → σ → Prop} (h : ¬ P (g s) → Q () (g s)) : Meets P (store g) Q s := by
  by_cases hp : P (g s)
  · exact Or.inl ⟨g s, List.mem_singleton_self _, hp⟩
  · exact Or.inr (h hp)

theorem meets_bind {m : Prog σ α} {f : α → Prog σ β} (h : Meets P m (fun a s' => Meets P (f a) R s') s) :
    Meets P (m >>= f) R s := by
  rw [Meets, after_bind]
  refine ((after_out m s).and h).mono ?_
  rintro a s' ⟨ho, ⟨c, hc, hp⟩ | hf⟩
  · exact After.of_forall fun _ _ => Or.inl ⟨c, mem_trace_bind_left hc, hp⟩
  · refine After.mono hf ?_
    rintro b s'' (⟨c, hc, hp⟩ | hr)
    · exact Or.inl ⟨c, mem_trace_bind_right ho hc, hp⟩
    · exact Or.inr hr

/-- Whatever the first part leaves. -/
theorem meets_then {m : Prog σ α} {f : α → Prog σ β} (h : ∀ a s', Meets P (f a) R s') : Meets P (m >>= f) R s :=
  meets_bind (After.of_forall h).meets

/-- A condition that is never met. -/
theorem Meets.after {m : Prog σ α} (h : Meets (fun _ => False) m Q s) : After m Q s :=
  After.mono h fun _ _ hs' => hs'.resolve_left fun ⟨_, _, hp⟩ => hp

end

/-! ## Programs that stop early or not at all -/

/-- The program stops only as long as all its states satisfy `P`. -/
def wpcEarly (P : σ → Prop) (m : Prog σ α) (Q : α → σ → Prop) (C : σ → Prop) (s : σ) : Prop :=
  wpc m Q True C s ∧ ((m s).out = none → ∀ c ∈ crashes m s, P c)

section
variable {P C : σ → Prop} {Q : α → σ → Prop} {R : β → σ → Prop} {s : σ}

/-- A program that does not stop. -/
theorem wpc.early {m : Prog σ α} (h : wpc m Q False C s) : wpcEarly P m Q C s := by
  obtain ⟨a, s', ho, _⟩ := h.returns
  refine ⟨wpc_of_out h (Or.inr trivial), fun hnone => ?_⟩
  cases hnone.symm.trans ho

theorem wpcEarly_bind {m : Prog σ α} {f : α → Prog σ β}
    (h : wpc m (fun a s' => wpcEarly P (f a) R C s') True (fun c => C c ∧ P c) s) : wpcEarly P (m >>= f) R C s := by
  refine ⟨wpc_bind (wpc_mono h (fun _ _ hf => hf.1) fun _ hc => hc.1), fun hnone c hc => ?_⟩
  rcases List.mem_cons.mp hc with rfl | hc
  · exact h.start.2
  rcases mem_trace_bind hc with hc | ⟨a, s', ho, hc⟩
  · exact (h.trace hc).2
  · rw [bind_of_out ho] at hnone
    exact (h.post ho).2 hnone c (List.mem_cons_of_mem _ hc)

/-- What comes next does not stop. -/
theorem wpcEarly_then {m : Prog σ α} {f : α → Prog σ β} (h : wpcEarly P m (fun a s' => wpc (f a) R False C s') C s) :
    wpcEarly P (m >>= f) R C s := by
  refine ⟨wpc_bind (wpc_mono h.1 (fun _ _ hf => wpc_of_out hf (Or.inr trivial)) fun _ hc => hc), fun hnone c hc => ?_⟩
  cases ho : (m s).out with
  | none =>
      rw [crashes, bind_of_none ho] at hc
      exact h.2 ho c hc
  | some p =>
      obtain ⟨_, _, hf, _⟩ := (h.1.post ho).returns
      rw [bind_of_out ho] at hnone
      cases hnone.symm.trans hf

end

end Persist
