import Mathlib

/-!
# What happens in a run

A step carries the events in it, and a run those of its steps, the oldest first. An invariant may then speak about
everything that has happened. Where the events are calls with their replies, and an object answers those of each step
as they were answered, it answers those of the run so, one after the other.
-/

namespace History

variable {σ ε A ω ρ : Type}

/-- A run from `s`, with its events. -/
inductive Run (Step : σ → List ε → σ → Prop) (s : σ) : List ε → σ → Prop
  | refl : Run Step s [] s
  | tail {h es : List ε} {s' s'' : σ} : Run Step s h s' → Step s' es s'' → Run Step s (h ++ es) s''

section
variable {Step : σ → List ε → σ → Prop} {s s' s'' : σ} {h h' es : List ε}

theorem Run.single (hs : Step s es s') : Run Step s es s' := by
  have hrun := Run.refl.tail hs
  rwa [List.nil_append] at hrun

theorem Run.trans (hrun : Run Step s h s') (hrun' : Run Step s' h' s'') : Run Step s (h ++ h') s'' := by
  induction hrun' with
  | refl => rwa [List.append_nil]
  | tail _ hs ih =>
      rw [← List.append_assoc]
      exact ih.tail hs

/-- What holds before anything has happened, and is kept by each step together with its events. -/
theorem Run.invariant {I : List ε → σ → Prop} (hrun : Run Step s h s') (hstart : I [] s)
    (hstep : ∀ {h s es s'}, I h s → Step s es s' → I (h ++ es) s') : I h s' := by
  induction hrun with
  | refl => exact hstart
  | tail _ hs ih => exact hstep ih hs

/-- If each step is a run of another relation with the same events, so is each run. -/
theorem Run.simulates {τ : Type} {Spec : τ → List ε → τ → Prop} (abs : σ → τ) {I : σ → Prop} (hrun : Run Step s h s')
    (hstart : I s) (hstep : ∀ {s es s'}, I s → Step s es s' → I s' ∧ Run Spec (abs s) es (abs s')) :
    Run Spec (abs s) h (abs s') := by
  have hboth : I s' ∧ Run Spec (abs s) h (abs s') := by
    refine hrun.invariant (I := fun h s' => I s' ∧ Run Spec (abs s) h (abs s')) ⟨hstart, .refl⟩ ?_
    rintro h s es s' ⟨hinv, hspec⟩ hs
    obtain ⟨hinv', hspec'⟩ := hstep hinv hs
    exact ⟨hinv', hspec.trans hspec'⟩
  exact hboth.2

end

/-! ## Events that are read off the states -/

/-- The steps of a relation, with what `note` reads off each. -/
def Noted (Step : σ → σ → Prop) (note : σ → σ → List ε) (s : σ) (es : List ε) (s' : σ) : Prop :=
  Step s s' ∧ es = note s s'

/-! ## Objects -/

/-- From `a`, the object answers the calls one after the other with these replies, and goes to `b`. -/
def Answers (apply : ω → A → ρ × A) : List (ω × ρ) → A → A → Prop
  | [], a, b => a = b
  | (op, r) :: h, a, b => (apply op a).1 = r ∧ Answers apply h (apply op a).2 b

section
variable {apply : ω → A → ρ × A} {a b c : A} {h h' : List (ω × ρ)} {op : ω}

theorem answers_append : Answers apply (h ++ h') a c ↔ ∃ b, Answers apply h a b ∧ Answers apply h' b c := by
  induction h generalizing a with
  | nil => simp [Answers]
  | cons x h ih => simp [Answers, ih, and_assoc]

theorem Answers.trans (hab : Answers apply h a b) (hbc : Answers apply h' b c) : Answers apply (h ++ h') a c :=
  answers_append.mpr ⟨b, hab, hbc⟩

/-- What each call keeps, whatever the object is asked. -/
theorem Answers.keeps {I : List (ω × ρ) → A → Prop} (hans : Answers apply h a b) (hstart : I [] a)
    (hstep : ∀ {h a} op, I h a → I (h ++ [(op, (apply op a).1)]) (apply op a).2) : I h b := by
  suffices hgen : ∀ past, I past a → I (past ++ h) b from hgen [] hstart
  clear hstart
  induction h generalizing a with
  | nil =>
      intro past hpast
      rw [List.append_nil]
      exact hans ▸ hpast
  | cons x h ih =>
      obtain ⟨op, r⟩ := x
      obtain ⟨rfl, hrest⟩ := hans
      intro past hpast
      have hnext := ih hrest _ (hstep op hpast)
      rwa [List.append_assoc, List.singleton_append] at hnext

end

/-- If the object answers the calls of each step, it answers those of the run. -/
theorem Run.answers {Step : σ → List ε → σ → Prop} {apply : ω → A → ρ × A} (call : ε → ω × ρ) (abs : σ → A)
    {I : σ → Prop} {s s' : σ} {h : List ε} (hrun : Run Step s h s') (hstart : I s)
    (hstep : ∀ {s es s'}, I s → Step s es s' → I s' ∧ Answers apply (es.map call) (abs s) (abs s')) :
    Answers apply (h.map call) (abs s) (abs s') := by
  have hboth : I s' ∧ Answers apply (h.map call) (abs s) (abs s') := by
    refine hrun.invariant (I := fun h s' => I s' ∧ Answers apply (h.map call) (abs s) (abs s')) ⟨hstart, rfl⟩ ?_
    rintro h s es s' ⟨hinv, hans⟩ hs
    obtain ⟨hinv', hans'⟩ := hstep hinv hs
    rw [List.map_append]
    exact ⟨hinv', hans.trans hans'⟩
  exact hboth.2

end History
