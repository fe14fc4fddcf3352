import Mathlib

/-!
# Programs over persistent memory

A program runs on a persistent state and may lose power between any two of its stores. `Run` keeps
every state a failure can leave, so one definition of a program gives both its result and its crash
points. `wpc` is the weakest precondition with a crash condition: what a run returns, and what holds
in every state a failure leaves.
-/

namespace Persist

/-- One run: the state after each store, oldest first, and the outcome. A run that fails a check stops
without one. -/
structure Run (σ α : Type) where
  trace : List σ
  out : Option (α × σ)

def Prog (σ α : Type) : Type := σ → Run σ α

variable {σ τ α β : Type}

namespace Prog

protected def pure (a : α) : Prog σ α := fun s => ⟨[], some (a, s)⟩

protected def bind (m : Prog σ α) (f : α → Prog σ β) : Prog σ β := fun s =>
  match m s with
  | ⟨tr, none⟩ => ⟨tr, none⟩
  | ⟨tr, some (a, s')⟩ => ⟨tr ++ (f a s').trace, (f a s').out⟩

instance : Monad (Prog σ) where
  pure := Prog.pure
  bind := Prog.bind

/-- Reading is free: no failure separates it from the store that follows. -/
def gets (f : σ → α) : Prog σ α := fun s => ⟨[], some (f s, s)⟩

/-- One atomic store. -/
def store (f : σ → σ) : Prog σ Unit := fun s => ⟨[f s], some ((), f s)⟩

/-- The program stops: a panic, or code whose behaviour is undefined. -/
def fail : Prog σ α := fun _ => ⟨[], none⟩

def check (p : Prop) [Decidable p] : Prog σ Unit := if p then pure () else fail

/-- Runs a program on the part of a larger state that it owns. -/
def zoom (get : τ → σ) (set : σ → τ → τ) (m : Prog σ α) : Prog τ α := fun t =>
  ⟨(m (get t)).trace.map fun s => set s t, (m (get t)).out.map fun p => (p.1, set p.2 t)⟩

/-- The states a failure can leave, the initial one included. -/
def crashes (m : Prog σ α) (s : σ) : List σ := s :: (m s).trace

theorem bind_apply (m : Prog σ α) (f : α → Prog σ β) (s : σ) :
    (m >>= f) s = match m s with
      | ⟨tr, none⟩ => ⟨tr, none⟩
      | ⟨tr, some (a, s')⟩ => ⟨tr ++ (f a s').trace, (f a s').out⟩ := rfl

@[simp] theorem pure_apply (a : α) (s : σ) : (pure a : Prog σ α) s = ⟨[], some (a, s)⟩ := rfl

@[simp] theorem gets_bind_apply (g : σ → α) (f : α → Prog σ β) (s : σ) :
    (gets g >>= f) s = f (g s) s := by
  simp only [bind_apply, gets, List.nil_append]

@[simp] theorem store_bind_apply (g : σ → σ) (f : Unit → Prog σ β) (s : σ) :
    (store g >>= f) s = ⟨g s :: (f () (g s)).trace, (f () (g s)).out⟩ := by
  simp only [bind_apply, store, List.singleton_append]

@[simp] theorem fail_bind_apply (f : α → Prog σ β) (s : σ) :
    ((fail : Prog σ α) >>= f) s = ⟨[], none⟩ := rfl

@[simp] theorem pure_bind_apply (a : α) (f : α → Prog σ β) (s : σ) :
    ((pure a : Prog σ α) >>= f) s = f a s := by
  simp only [bind_apply, pure_apply, List.nil_append]

theorem zoom_bind_apply {get : τ → σ} {set : σ → τ → τ} (m : Prog σ α) (f : α → Prog τ β) (t : τ) :
    (zoom get set m >>= f) t = match m (get t) with
      | ⟨tr, none⟩ => ⟨tr.map fun s => set s t, none⟩
      | ⟨tr, some (a, s')⟩ =>
          ⟨(tr.map fun s => set s t) ++ (f a (set s' t)).trace, (f a (set s' t)).out⟩ := by
  rw [bind_apply]
  unfold zoom
  rcases m (get t) with ⟨tr, _ | ⟨a, s'⟩⟩
  · rfl
  · rfl

theorem bind_of_out {m : Prog σ α} {f : α → Prog σ β} {s s' : σ} {a : α}
    (h : (m s).out = some (a, s')) :
    (m >>= f) s = ⟨(m s).trace ++ (f a s').trace, (f a s').out⟩ := by
  rw [bind_apply]
  rcases hm : m s with ⟨tr, o⟩
  rw [hm] at h
  simp only at h
  subst h
  rfl

theorem bind_of_none {m : Prog σ α} {f : α → Prog σ β} {s : σ} (h : (m s).out = none) :
    (m >>= f) s = ⟨(m s).trace, none⟩ := by
  rw [bind_apply]
  rcases hm : m s with ⟨tr, o⟩
  rw [hm] at h
  simp only at h
  subst h
  rfl

theorem bind_assoc_apply {γ : Type} (m : Prog σ α) (f : α → Prog σ β) (g : β → Prog σ γ) (s : σ) :
    ((m >>= f) >>= g) s = (m >>= fun a => f a >>= g) s := by
  cases h : (m s).out with
  | none => rw [bind_of_none h, bind_of_none (by rw [bind_of_none h]), bind_of_none h]
  | some p =>
      obtain ⟨a, s'⟩ := p
      rw [bind_of_out (f := fun a => f a >>= g) h]
      cases h' : (f a s').out with
      | none =>
          have hb : ((m >>= f) s).out = none := by rw [bind_of_out h]; exact h'
          rw [bind_of_none hb, bind_of_out h, bind_of_none h']
      | some q =>
          obtain ⟨b, s''⟩ := q
          have hb : ((m >>= f) s).out = some (b, s'') := by rw [bind_of_out h]; exact h'
          rw [bind_of_out hb, bind_of_out h, bind_of_out h', List.append_assoc]

theorem assoc {γ : Type} (m : Prog σ α) (f : α → Prog σ β) (g : β → Prog σ γ) :
    (m >>= f) >>= g = m >>= fun a => f a >>= g := funext (bind_assoc_apply m f g)

/-- A store of a sequence belongs to one of its parts. -/
theorem mem_trace_bind {m : Prog σ α} {f : α → Prog σ β} {s c : σ} (hc : c ∈ ((m >>= f) s).trace) :
    c ∈ (m s).trace ∨ ∃ a s', (m s).out = some (a, s') ∧ c ∈ (f a s').trace := by
  cases h : (m s).out with
  | none =>
      rw [bind_of_none h] at hc
      exact Or.inl hc
  | some p =>
      rw [bind_of_out h, List.mem_append] at hc
      exact hc.imp_right fun hc => ⟨p.1, p.2, rfl, hc⟩

theorem mem_trace_bind_left {m : Prog σ α} {f : α → Prog σ β} {s c : σ} (hc : c ∈ (m s).trace) :
    c ∈ ((m >>= f) s).trace := by
  cases h : (m s).out with
  | none =>
      rw [bind_of_none h]
      exact hc
  | some p =>
      rw [bind_of_out h]
      exact List.mem_append_left _ hc

theorem mem_trace_bind_right {m : Prog σ α} {f : α → Prog σ β} {s s' c : σ} {a : α}
    (ho : (m s).out = some (a, s')) (hc : c ∈ (f a s').trace) : c ∈ ((m >>= f) s).trace := by
  rw [bind_of_out ho]
  exact List.mem_append_right _ hc

/-- All stores but a last one that always comes after them. -/
theorem mem_trace_of_mem_dropLast {m : Prog σ α} {g : σ → σ} {s c : σ}
    (hc : c ∈ ((m >>= fun _ => store g) s).trace.dropLast) : c ∈ (m s).trace := by
  cases h : (m s).out with
  | none =>
      rw [bind_of_none h] at hc
      exact (List.dropLast_sublist _).mem hc
  | some p =>
      rw [bind_of_out h] at hc
      simpa [store] using hc

theorem check_bind_apply (p : Prop) [Decidable p] (f : Unit → Prog σ β) (s : σ) :
    (check p >>= f) s = if p then f () s else ⟨[], none⟩ := by
  unfold check
  split <;> simp

end Prog

open Prog

/-! ## The weakest precondition with a crash condition -/

/-- From `s`: a failure leaves a state of `C`, a return gives `Q`, and the run may stop on a failed check
only if `E` allows it. -/
def wpc (m : Prog σ α) (Q : α → σ → Prop) (E : Prop) (C : σ → Prop) (s : σ) : Prop :=
  (∀ c ∈ crashes m s, C c) ∧
    match (m s).out with
    | none => E
    | some (a, s') => Q a s'

section
variable {Q Q' : α → σ → Prop} {R : β → σ → Prop} {E : Prop} {C C' : σ → Prop} {s : σ}

theorem wpc.crash {m : Prog σ α} (h : wpc m Q E C s) {c : σ} (hc : c ∈ crashes m s) : C c :=
  h.1 c hc

theorem wpc.start {m : Prog σ α} (h : wpc m Q E C s) : C s := h.1 s (by simp [crashes])

theorem wpc.post {m : Prog σ α} (h : wpc m Q E C s) {a : α} {s' : σ}
    (ho : (m s).out = some (a, s')) : Q a s' := by
  have := h.2
  rw [ho] at this
  exact this

theorem wpc.trace {m : Prog σ α} (h : wpc m Q E C s) {c : σ} (hc : c ∈ (m s).trace) : C c :=
  h.1 c (List.mem_cons_of_mem _ hc)

/-- A program that may not fail returns. -/
theorem wpc.returns {m : Prog σ α} (h : wpc m Q False C s) :
    ∃ a s', (m s).out = some (a, s') ∧ Q a s' := by
  have h2 := h.2
  cases ho : (m s).out with
  | none => rw [ho] at h2; exact h2.elim
  | some p => rw [ho] at h2; exact ⟨p.1, p.2, rfl, h2⟩

/-- A program that returns from here does not fail here. -/
theorem wpc_of_out {E' : Prop} {m : Prog σ α} (h : wpc m Q E C s) (ho : (m s).out ≠ none ∨ E') :
    wpc m Q E' C s := by
  refine ⟨h.1, ?_⟩
  have h2 := h.2
  cases hm : (m s).out with
  | none => exact ho.resolve_left fun hne => hne hm
  | some p => rw [hm] at h2; exact h2

theorem wpc_mono {m : Prog σ α} (h : wpc m Q E C s) (hQ : ∀ a s', Q a s' → Q' a s')
    (hC : ∀ c, C c → C' c) : wpc m Q' E C' s := by
  refine ⟨fun c hc => hC c (h.1 c hc), ?_⟩
  have h2 := h.2
  cases ho : (m s).out with
  | none => rw [ho] at h2; exact h2
  | some p => rw [ho] at h2; exact hQ _ _ h2

/-- The crash condition may be sharpened by an invariant of the same run. -/
theorem wpc_and {m : Prog σ α} (h : wpc m Q E C s) (h' : wpc m Q' E C' s) :
    wpc m (fun a s => Q a s ∧ Q' a s) E (fun s => C s ∧ C' s) s := by
  refine ⟨fun c hc => ⟨h.1 c hc, h'.1 c hc⟩, ?_⟩
  have h2 := h.2
  have h2' := h'.2
  cases ho : (m s).out with
  | none => rw [ho] at h2; exact h2
  | some p => rw [ho] at h2 h2'; exact ⟨h2, h2'⟩

/-- Another crash condition for the same run. -/
theorem wpc_of_crashes {m : Prog σ α} (h : wpc m Q E C s) (hC : ∀ c ∈ crashes m s, C' c) : wpc m Q E C' s :=
  ⟨hC, h.2⟩

/-- A run that is known. -/
theorem wpc_of_run {m : Prog σ α} {s' : σ} {tr : List σ} {a : α} (h : m s = ⟨tr, some (a, s')⟩) (hC : C s)
    (htr : ∀ c ∈ tr, C c) (hQ : Q a s') : wpc m Q E C s := by
  constructor
  · intro c hc
    rw [crashes, h, List.mem_cons] at hc
    rcases hc with rfl | hc
    · exact hC
    · exact htr c hc
  · rw [h]
    exact hQ

theorem wpc_trivial (m : Prog σ α) (s : σ) : wpc m (fun _ _ => True) True (fun _ => True) s := by
  refine ⟨fun _ _ => trivial, ?_⟩
  cases (m s).out with
  | none => trivial
  | some p => trivial

theorem wpc_pure {a : α} (hC : C s) (hQ : Q a s) : wpc (pure a) Q E C s :=
  ⟨by simpa [crashes] using hC, hQ⟩

theorem wpc_bind {m : Prog σ α} {f : α → Prog σ β}
    (h : wpc m (fun a => wpc (f a) R E C) E C s) : wpc (m >>= f) R E C s := by
  have h2 := h.2
  cases ho : (m s).out with
  | none =>
      rw [ho] at h2
      refine ⟨fun c hc => h.1 c ?_, ?_⟩
      · rwa [crashes, bind_of_none ho] at hc
      · rw [bind_of_none ho]; exact h2
  | some p =>
      obtain ⟨a, s'⟩ := p
      rw [ho] at h2
      refine ⟨fun c hc => ?_, ?_⟩
      · rw [crashes, bind_of_out ho] at hc
        simp only [List.mem_cons, List.mem_append] at hc
        rcases hc with rfl | hc | hc
        · exact h.start
        · exact h.1 c (List.mem_cons_of_mem _ hc)
        · exact h2.1 c (List.mem_cons_of_mem _ hc)
      · rw [bind_of_out ho]; exact h2.2

theorem wpc_gets {g : σ → α} (hC : C s) (hQ : Q (g s) s) : wpc (gets g) Q E C s :=
  ⟨by simpa [crashes, gets] using hC, hQ⟩

theorem wpc_store {g : σ → σ} {Q : Unit → σ → Prop} (hC : C s) (hC' : C (g s)) (hQ : Q () (g s)) :
    wpc (store g) Q E C s :=
  ⟨by simpa [crashes, store] using ⟨hC, hC'⟩, hQ⟩

theorem wpc_check {p : Prop} [Decidable p] {Q : Unit → σ → Prop} (hC : C s) (hE : ¬ p → E)
    (hQ : p → Q () s) : wpc (check p) Q E C s := by
  unfold check
  split
  · exact wpc_pure hC (hQ ‹_›)
  · exact ⟨by simpa [crashes, fail] using hC, hE ‹_›⟩

theorem wpc_fail {Q : α → σ → Prop} (hC : C s) (hE : E) : wpc fail Q E C s :=
  ⟨by simpa [crashes, fail] using hC, hE⟩

theorem wpc_zoom {get : τ → σ} {set : σ → τ → τ} {m : Prog σ α} {Q : α → τ → Prop} {C : τ → Prop}
    {t : τ} (hlens : set (get t) t = t)
    (h : wpc m (fun a s => Q a (set s t)) E (fun s => C (set s t)) (get t)) :
    wpc (zoom get set m) Q E C t := by
  refine ⟨fun c hc => ?_, ?_⟩
  · simp only [crashes, zoom, List.mem_cons, List.mem_map] at hc
    rcases hc with rfl | ⟨s, hs, rfl⟩
    · have := h.start; rwa [hlens] at this
    · exact h.1 s (List.mem_cons_of_mem _ hs)
  · have h2 := h.2
    simp only [zoom]
    cases ho : (m (get t)).out with
    | none => rw [ho] at h2; exact h2
    | some p => rw [ho] at h2; exact h2

end

/-! ## Symbolic execution -/

section
variable {Q : α → σ → Prop} {R : β → σ → Prop} {E : Prop} {C : σ → Prop} {s : σ}

theorem wpc_congr {m m' : Prog σ α} (h : m s = m' s) : wpc m Q E C s ↔ wpc m' Q E C s := by
  rw [wpc, wpc, crashes, crashes, h]

theorem wpc_gets_bind {g : σ → α} {f : α → Prog σ β} : wpc (gets g >>= f) R E C s ↔ wpc (f (g s)) R E C s :=
  wpc_congr (gets_bind_apply g f s)

theorem wpc_store_iff {g : σ → σ} {Q : Unit → σ → Prop} : wpc (store g) Q E C s ↔ C s ∧ C (g s) ∧ Q () (g s) := by
  simp [wpc, crashes, store, and_assoc]

theorem wpc_store_bind {g : σ → σ} {f : Unit → Prog σ β} :
    wpc (store g >>= f) R E C s ↔ C s ∧ wpc (f ()) R E C (g s) := by
  rw [wpc, wpc, crashes, crashes, store_bind_apply, List.forall_mem_cons, and_assoc]

theorem wpc_check_bind {p : Prop} [Decidable p] (hp : p) {f : Unit → Prog σ β} :
    wpc (check p >>= f) R E C s ↔ wpc (f ()) R E C s := by
  apply wpc_congr
  rw [check_bind_apply, if_pos hp]

theorem wpc_assoc {γ : Type} {m : Prog σ γ} {f : γ → Prog σ α} {g : α → Prog σ β} :
    wpc ((m >>= f) >>= g) R E C s ↔ wpc (m >>= fun a => f a >>= g) R E C s :=
  wpc_congr (bind_assoc_apply m f g s)

end

/-! ## Runs without failures -/

/-- The program returns from `s`, with `Q`. -/
def Ends (m : Prog σ α) (Q : α → σ → Prop) (s : σ) : Prop :=
  match (m s).out with
  | none => False
  | some (a, s') => Q a s'

section
variable {Q Q' : α → σ → Prop} {R : β → σ → Prop} {s : σ}

@[simp] theorem ends_pure {a : α} : Ends (pure a) Q s ↔ Q a s := Iff.rfl

@[simp] theorem ends_gets {g : σ → α} : Ends (gets g) Q s ↔ Q (g s) s := Iff.rfl

@[simp] theorem ends_store {g : σ → σ} {Q : Unit → σ → Prop} : Ends (store g) Q s ↔ Q () (g s) := Iff.rfl

@[simp] theorem ends_fail : Ends (fail : Prog σ α) Q s ↔ False := Iff.rfl

@[simp] theorem ends_check {p : Prop} [Decidable p] {Q : Unit → σ → Prop} :
    Ends (check p) Q s ↔ p ∧ Q () s := by
  unfold check
  split
  case isTrue hp => rw [ends_pure, and_iff_right hp]
  case isFalse hp => rw [ends_fail, iff_false_right (fun h => hp h.1), not_false_iff]; trivial

@[simp] theorem ends_bind {m : Prog σ α} {f : α → Prog σ β} :
    Ends (m >>= f) R s ↔ Ends m (fun a => Ends (f a) R) s := by
  unfold Ends
  cases ho : (m s).out with
  | none => rw [bind_of_none ho]
  | some p => rw [bind_of_out ho]

theorem ends_zoom {get : τ → σ} {set : σ → τ → τ} {m : Prog σ α} {Q : α → τ → Prop} {t : τ} :
    Ends (zoom get set m) Q t ↔ Ends m (fun a s => Q a (set s t)) (get t) := by
  unfold Ends zoom
  cases (m (get t)).out with
  | none => exact Iff.rfl
  | some p => exact Iff.rfl

theorem ends_congr {m m' : Prog σ α} (h : m s = m' s) : Ends m Q s ↔ Ends m' Q s := by
  rw [Ends, Ends, h]

theorem Ends.returns {m : Prog σ α} (h : Ends m Q s) : ∃ a s', (m s).out = some (a, s') ∧ Q a s' := by
  unfold Ends at h
  cases ho : (m s).out with
  | none => rw [ho] at h; exact h.elim
  | some p => rw [ho] at h; exact ⟨p.1, p.2, rfl, h⟩

theorem Ends.post {m : Prog σ α} (h : Ends m Q s) {a : α} {s' : σ} (ho : (m s).out = some (a, s')) :
    Q a s' := by
  unfold Ends at h
  rw [ho] at h
  exact h

theorem Ends.mono {m : Prog σ α} (h : Ends m Q s) (hQ : ∀ a s', Q a s' → Q' a s') : Ends m Q' s := by
  unfold Ends at h ⊢
  cases ho : (m s).out with
  | none => rw [ho] at h; exact h
  | some p => rw [ho] at h; exact hQ _ _ h

/-- Two facts about the result of one run. -/
theorem Ends.of_wpc {m : Prog σ Unit} {Q : Unit → σ → Prop} {E : Prop} {C : σ → Prop} {s' : σ} (h : Ends m Q s)
    (hw : wpc m (fun _ r => r = s') E C s) : Q () s' := by
  obtain ⟨_, r, ho, hq⟩ := h.returns
  exact hw.post ho ▸ hq

/-- A program whose result is known. -/
theorem Ends.iff {m : Prog σ Unit} {Q : Unit → σ → Prop} {s' : σ} (h : Ends m (fun _ r => r = s') s) :
    Ends m Q s ↔ Q () s' := by
  obtain ⟨_, r, ho, rfl⟩ := h.returns
  unfold Ends
  rw [ho]

theorem wpc.ends {m : Prog σ α} {C : σ → Prop} (h : wpc m Q False C s) : Ends m Q s := h.2

theorem wpc_of_ends {m : Prog σ α} {E : Prop} {C : σ → Prop} (h : Ends m Q s) (hC : ∀ c ∈ crashes m s, C c) :
    wpc m Q E C s := by
  obtain ⟨a, s', ho, hq⟩ := h.returns
  refine ⟨hC, ?_⟩
  rw [ho]
  exact hq

/-- A run that returns, with a fact about its states. -/
theorem wpc_and_of_ends {m : Prog σ α} {E : Prop} {C : σ → Prop} (h : Ends m Q s) (hw : wpc m Q' True C s) :
    wpc m (fun a s' => Q a s' ∧ Q' a s') E C s := by
  obtain ⟨a, s', ho, hq⟩ := h.returns
  refine ⟨hw.1, ?_⟩
  rw [ho]
  exact ⟨hq, hw.post ho⟩

/-- If the program returns from `s`, then with `Q`. -/
def After (m : Prog σ α) (Q : α → σ → Prop) (s : σ) : Prop :=
  match (m s).out with
  | none => True
  | some (a, s') => Q a s'

@[simp] theorem after_pure {a : α} : After (pure a) Q s ↔ Q a s := Iff.rfl

@[simp] theorem after_gets {g : σ → α} : After (gets g) Q s ↔ Q (g s) s := Iff.rfl

@[simp] theorem after_store {g : σ → σ} {Q : Unit → σ → Prop} : After (store g) Q s ↔ Q () (g s) := Iff.rfl

@[simp] theorem after_fail : After (fail : Prog σ α) Q s ↔ True := Iff.rfl

@[simp] theorem after_check {p : Prop} [Decidable p] {Q : Unit → σ → Prop} :
    After (check p) Q s ↔ (p → Q () s) := by
  unfold check
  split
  case isTrue hp => rw [after_pure, forall_prop_of_true hp]
  case isFalse hp => rw [after_fail, true_iff]; exact fun h => absurd h hp

@[simp] theorem after_bind {m : Prog σ α} {f : α → Prog σ β} :
    After (m >>= f) R s ↔ After m (fun a => After (f a) R) s := by
  unfold After
  cases ho : (m s).out with
  | none => rw [bind_of_none ho]
  | some p => rw [bind_of_out ho]

theorem after_zoom {get : τ → σ} {set : σ → τ → τ} {m : Prog σ α} {Q : α → τ → Prop} {t : τ} :
    After (zoom get set m) Q t ↔ After m (fun a s => Q a (set s t)) (get t) := by
  unfold After zoom
  cases (m (get t)).out with
  | none => exact Iff.rfl
  | some p => exact Iff.rfl

theorem after_congr {m m' : Prog σ α} (h : m s = m' s) : After m Q s ↔ After m' Q s := by
  rw [After, After, h]

theorem After.post {m : Prog σ α} (h : After m Q s) {a : α} {s' : σ} (ho : (m s).out = some (a, s')) :
    Q a s' := by
  unfold After at h
  rw [ho] at h
  exact h

/-- What is returned is what the program returns. -/
theorem after_out (m : Prog σ α) (s : σ) : After m (fun a s' => (m s).out = some (a, s')) s := by
  unfold After
  cases (m s).out with
  | none => trivial
  | some p => rfl

theorem After.mono {m : Prog σ α} (h : After m Q s) (hQ : ∀ a s', Q a s' → Q' a s') : After m Q' s := by
  unfold After at h ⊢
  cases ho : (m s).out with
  | none => trivial
  | some p => rw [ho] at h; exact hQ _ _ h

theorem After.of_forall {m : Prog σ α} (hQ : ∀ a s', Q a s') : After m Q s := by
  unfold After
  cases (m s).out with
  | none => trivial
  | some p => exact hQ p.1 p.2

theorem Ends.and {m : Prog σ α} (h : Ends m Q s) (h' : Ends m Q' s) :
    Ends m (fun a s' => Q a s' ∧ Q' a s') s := by
  unfold Ends at h h' ⊢
  cases ho : (m s).out with
  | none =>
      rw [ho] at h
      exact h.elim
  | some p =>
      rw [ho] at h h'
      exact ⟨h, h'⟩

theorem After.and {m : Prog σ α} (h : After m Q s) (h' : After m Q' s) :
    After m (fun a s' => Q a s' ∧ Q' a s') s := by
  unfold After at h h' ⊢
  cases ho : (m s).out with
  | none => trivial
  | some p =>
      rw [ho] at h h'
      exact ⟨h, h'⟩

/-- What holds after a run holds where it ends. -/
theorem Ends.and_after {m : Prog σ α} (h : Ends m Q s) (h' : After m Q' s) :
    Ends m (fun a s' => Q a s' ∧ Q' a s') s := by
  unfold Ends at h ⊢
  unfold After at h'
  cases ho : (m s).out with
  | none =>
      rw [ho] at h
      exact h.elim
  | some p =>
      rw [ho] at h h'
      exact ⟨h, h'⟩

theorem wpc.toAfter {m : Prog σ α} {E : Prop} {C : σ → Prop} (h : wpc m Q E C s) : After m Q s := by
  have h2 := h.2
  unfold After
  cases ho : (m s).out with
  | none => trivial
  | some p => rw [ho] at h2; exact h2

theorem wpc.and_after {m : Prog σ α} {E : Prop} {C : σ → Prop} (h : wpc m Q E C s) (h' : After m Q' s) :
    wpc m (fun a s' => Q a s' ∧ Q' a s') E C s := by
  refine ⟨h.1, ?_⟩
  have h2 := h.2
  unfold After at h'
  cases ho : (m s).out with
  | none =>
      rw [ho] at h2
      exact h2
  | some p =>
      rw [ho] at h2 h'
      exact ⟨h2, h'⟩

theorem Ends.after {m : Prog σ α} (h : Ends m Q s) : After m Q s := by
  unfold Ends at h
  unfold After
  cases ho : (m s).out with
  | none => trivial
  | some p => rw [ho] at h; exact h

/-- What is proved of every return. -/
theorem After.of_ends {m : Prog σ α} (h : Ends m (fun _ _ => True) s → Ends m Q s) : After m Q s := by
  unfold Ends at h
  unfold After
  cases ho : (m s).out with
  | none => trivial
  | some p =>
      rw [ho] at h
      exact h trivial

/-- What is read off a run that returns. -/
theorem Ends.map_out {m : Prog σ α} {f : α × σ → τ} {v : τ} (h : Ends m (fun a s' => f (a, s') = v) s) :
    (m s).out.map f = some v := by
  obtain ⟨a, s', ho, hv⟩ := h.returns
  rw [ho, Option.map_some, hv]

theorem After.map_out {m : Prog σ α} (f : α × σ → τ) (h : After m (fun _ _ => False) s) : (m s).out.map f = none := by
  cases ho : (m s).out with
  | none => rfl
  | some p => exact (h.post ho).elim

end

/-! ## What a program leaves alone -/

/-- No store of the program changes `f`. -/
def Keeps (f : σ → τ) (m : Prog σ α) : Prop :=
  ∀ s, wpc m (fun _ s' => f s' = f s) True (fun c => f c = f s) s

section
variable {ρ : Type} {f : σ → ρ}

theorem keeps_pure (a : α) : Keeps f (pure a) := fun _ => wpc_pure rfl rfl

theorem keeps_gets (g : σ → α) : Keeps f (gets g) := fun _ => wpc_gets rfl rfl

theorem keeps_store {g : σ → σ} (h : ∀ s, f (g s) = f s) : Keeps f (store g) := fun s =>
  wpc_store rfl (h s) (h s)

theorem keeps_fail : Keeps f (fail : Prog σ α) := fun _ => wpc_fail rfl trivial

theorem keeps_check (p : Prop) [Decidable p] : Keeps f (check p) := fun _ =>
  wpc_check rfl (fun _ => trivial) fun _ => rfl

theorem Keeps.bind {m : Prog σ α} {g : α → Prog σ β} (hm : Keeps f m) (hg : ∀ a, Keeps f (g a)) :
    Keeps f (m >>= g) := by
  intro s
  apply wpc_bind
  refine wpc_mono (hm s) (fun a s' hs' => ?_) fun _ hc => hc
  have h := hg a s'
  rw [hs'] at h
  exact h

theorem keeps_zoom {get : ρ → σ} {set : σ → ρ → ρ} {m : Prog σ α} {f : ρ → τ} (h : ∀ s t, f (set s t) = f t) :
    Keeps f (zoom get set m) := by
  intro t
  refine ⟨fun c hc => ?_, ?_⟩
  · simp only [crashes, zoom, List.mem_cons, List.mem_map] at hc
    rcases hc with rfl | ⟨s, _, rfl⟩
    · rfl
    · exact h s t
  · simp only [zoom]
    cases (m (get t)).out with
    | none => trivial
    | some p => exact h p.2 t

theorem Keeps.zoom {get : ρ → σ} {set : σ → ρ → ρ} {m : Prog σ α} {f : σ → τ} (hm : Keeps f m)
    (hlens : ∀ t, set (get t) t = t) (hget : ∀ s t, get (set s t) = s) :
    Keeps (fun t => f (get t)) (zoom get set m) := by
  intro t
  refine wpc_zoom (hlens t) (wpc_mono (hm (get t)) ?_ ?_)
  · intro _ s hs
    exact (congrArg f (hget s t)).trans hs
  · intro s hs
    exact (congrArg f (hget s t)).trans hs

theorem Keeps.comp {m : Prog σ α} {f : σ → τ} (hm : Keeps f m) (g : τ → ρ) : Keeps (fun s => g (f s)) m := by
  intro s
  refine wpc_mono (hm s) ?_ ?_
  · exact fun _ _ h => congrArg g h
  · exact fun _ h => congrArg g h

theorem Keeps.trace {m : Prog σ α} (hm : Keeps f m) {s c : σ} (hc : c ∈ (m s).trace) : f c = f s :=
  (hm s).trace hc

end

/-! ## Commit points -/

/-- A run that returns with `Q`. Its first `n` stores leave states of `C`, the later ones states of
`C'`. -/
structure CommitsAt (m : Prog σ α) (n : Nat) (Q : α → σ → Prop) (C C' : σ → Prop) (s : σ) : Prop where
  before : ∀ c ∈ (m s).trace.take n, C c
  after : ∀ c ∈ (m s).trace.drop n, C' c
  returns : ∃ a s', (m s).out = some (a, s') ∧ Q a s'

section
variable {Q Q' : α → σ → Prop} {R : β → σ → Prop} {C C' : σ → Prop} {E : Prop} {s s' : σ}

/-- The store that is the commit point. -/
theorem CommitsAt.commit {g : σ → σ} {f : Unit → Prog σ β} (h : wpc (f ()) R False C' (g s)) :
    CommitsAt (Prog.store g >>= f) 0 R C C' s where
  before := fun c hc => by
    rw [List.take_zero] at hc
    cases hc
  after := fun c hc => by
    rw [store_bind_apply, List.drop_zero] at hc
    exact h.crash hc
  returns := by
    rw [store_bind_apply]
    exact h.returns

theorem CommitsAt.wpc {m : Prog σ α} {n : Nat} (h : CommitsAt m n Q C C' s) (hs : C s) :
    wpc m Q E (fun c => C c ∨ C' c) s := by
  obtain ⟨a, s', ho, hq⟩ := h.returns
  constructor
  · intro c hc
    rw [crashes, List.mem_cons, ← List.take_append_drop n (m s).trace, List.mem_append] at hc
    rcases hc with rfl | hc | hc
    · exact Or.inl hs
    · exact Or.inl (h.before c hc)
    · exact Or.inr (h.after c hc)
  · rw [ho]
    exact hq

/-- The commit point of a sequence lies in its second part. -/
theorem CommitsAt.bind {m : Prog σ α} {f : α → Prog σ β} {a : α} {n k : Nat}
    (ho : (m s).out = some (a, s')) (hm : ∀ c ∈ (m s).trace, C c) (hk : (m s).trace.length + n = k)
    (hf : CommitsAt (f a) n R C C' s') : CommitsAt (m >>= f) k R C C' s := by
  obtain ⟨h1, h2, h3⟩ := hf
  subst hk
  constructor
  · intro c hc
    rw [bind_of_out ho, List.take_length_add_append, List.mem_append] at hc
    rcases hc with hc | hc
    · exact hm c hc
    · exact h1 c hc
  · intro c hc
    rw [bind_of_out ho, List.drop_length_add_append] at hc
    exact h2 c hc
  · rw [bind_of_out ho]
    exact h3

theorem CommitsAt.gets {g : σ → α} {f : α → Prog σ β} {n : Nat} (h : CommitsAt (f (g s)) n R C C' s) :
    CommitsAt (gets g >>= f) n R C C' s := by
  constructor
  · rw [gets_bind_apply]; exact h.before
  · rw [gets_bind_apply]; exact h.after
  · rw [gets_bind_apply]; exact h.returns

theorem CommitsAt.check {p : Prop} [Decidable p] {f : Unit → Prog σ β} {n : Nat} (hp : p)
    (h : CommitsAt (f ()) n R C C' s) : CommitsAt (check p >>= f) n R C C' s := by
  constructor
  · rw [check_bind_apply, if_pos hp]; exact h.before
  · rw [check_bind_apply, if_pos hp]; exact h.after
  · rw [check_bind_apply, if_pos hp]; exact h.returns

theorem CommitsAt.store {g : σ → σ} {f : Unit → Prog σ β} {n : Nat} (hg : C (g s))
    (h : CommitsAt (f ()) n R C C' (g s)) : CommitsAt (store g >>= f) (n + 1) R C C' s := by
  refine CommitsAt.bind rfl (fun c hc => ?_) (Nat.add_comm 1 n) h
  rw [List.mem_singleton.mp hc]
  exact hg

/-- A failure at store `i`, counted from 1, with 0 for the state before the first. -/
theorem CommitsAt.get {m : Prog σ α} {n : Nat} (h : CommitsAt m n Q C C' s) (hs : C s) {i : Nat} {c : σ}
    (hc : (crashes m s)[i]? = some c) : (i ≤ n → C c) ∧ (n < i → C' c) := by
  cases i with
  | zero =>
      simp only [crashes, List.getElem?_cons_zero, Option.some.injEq] at hc
      subst hc
      exact ⟨fun _ => hs, fun hn => absurd hn (Nat.not_lt_zero _)⟩
  | succ i =>
      simp only [crashes, List.getElem?_cons_succ] at hc
      constructor
      · intro hi
        refine h.before c (List.mem_of_getElem? (i := i) ?_)
        rw [List.getElem?_take_of_lt hi]
        exact hc
      · intro hn
        refine h.after c (List.mem_of_getElem? (i := i - n) ?_)
        rw [List.getElem?_drop, Nat.add_sub_cancel' (Nat.le_of_lt_succ hn)]
        exact hc

end

/-! ## Recovery that may itself lose power -/

/-- `boot` is started again from wherever the last failure left it, until it completes. -/
inductive Recovers (boot : Prog σ Unit) : σ → σ → Prop
  | done {s s' : σ} : (boot s).out = some ((), s') → Recovers boot s s'
  | again {s c s' : σ} : c ∈ (boot s).trace → Recovers boot c s' → Recovers boot s s'

/-- A recovery whose crash condition is its own precondition reaches its postcondition through any
number of failures. -/
theorem Recovers.of_wpc {boot : Prog σ Unit} {Q C : σ → Prop} {E : Prop}
    (hb : ∀ c, C c → wpc boot (fun _ => Q) E C c) {s s' : σ} (h : Recovers boot s s') :
    C s → Q s' := by
  induction h with
  | done ho => exact fun hs => (hb _ hs).post ho
  | again hc _ ih => exact fun hs => ih ((hb _ hs).trace hc)

/-! ## Schedules of power failures -/

inductive Phase
  /-- An attempt of the main program is about to start. -/
  | up
  /-- Power has failed and recovery is about to start. -/
  | down

/-- The states in which attempts and recoveries start, over all schedules of power failures. `ok` says of
an attempt started in `s` whether the schedule may interrupt it in `c`. -/
inductive Reachable (boot : Prog σ Unit) (main : Prog σ α) (ok : σ → σ → Prop) (s₀ : σ) :
    Phase → σ → Prop
  | start : Reachable boot main ok s₀ .up s₀
  | failed {s c : σ} : Reachable boot main ok s₀ .up s → c ∈ crashes main s → ok s c →
      Reachable boot main ok s₀ .down c
  | failedAgain {c c' : σ} : Reachable boot main ok s₀ .down c → c' ∈ (boot c).trace →
      Reachable boot main ok s₀ .down c'
  | booted {c s : σ} : Reachable boot main ok s₀ .down c → (boot c).out = some ((), s) →
      Reachable boot main ok s₀ .up s

/-- An invariant of the starts of attempts and one of the failures between them, each leading to the other,
hold over every schedule. -/
theorem Reachable.of_wpc {boot : Prog σ Unit} {main : Prog σ α} {ok : σ → σ → Prop} {s₀ : σ}
    {I J : σ → Prop} {E : Prop} (h₀ : I s₀) (hmain : ∀ s c, I s → c ∈ crashes main s → ok s c → J c)
    (hboot : ∀ c, J c → wpc boot (fun _ => I) E J c) {ph : Phase} {s : σ}
    (h : Reachable boot main ok s₀ ph s) : (ph = .up → I s) ∧ (ph = .down → J s) := by
  induction h with
  | start => exact ⟨fun _ => h₀, nofun⟩
  | failed _ hc hok ih => exact ⟨nofun, fun _ => hmain _ _ (ih.1 rfl) hc hok⟩
  | failedAgain _ hc ih => exact ⟨nofun, fun _ => (hboot _ (ih.2 rfl)).trace hc⟩
  | booted _ ho ih => exact ⟨fun _ => (hboot _ (ih.2 rfl)).post ho, nofun⟩

end Persist
