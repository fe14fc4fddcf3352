import IntOS.Lib.History

/-!
# Tables of alarms

An alarm is set for a time, which may be moved, and cancelled. Of the alarms that are set, only one with the earliest
time goes off, when that time has come, and it is not set any more then.
-/

namespace Alarms

open History

variable {N T : Type}

inductive Event (N T : Type)
  | set (n : N) (due : T)
  | cancel (n : N)
  | fire (n : N) (now : T)
deriving DecidableEq

/-- The alarm that an event is about. -/
def Event.alarm : Event N T → N
  | set n _ => n
  | cancel n => n
  | fire n _ => n

variable [DecidableEq N] [Preorder T]

/-- The times for which the alarms are set. -/
inductive Step : (N → Option T) → List (Event N T) → (N → Option T) → Prop
  | set (a : N → Option T) (n : N) (due : T) : Step a [.set n due] (Function.update a n (some due))
  | cancel (a : N → Option T) (n : N) : Step a [.cancel n] (Function.update a n none)
  | fire {a : N → Option T} {n : N} {due now : T} : a n = some due → due ≤ now →
      (∀ m due', a m = some due' → due ≤ due') → Step a [.fire n now] (Function.update a n none)

/-- The alarm is set last in the history, for this time. -/
def SetLast (h : List (Event N T)) (n : N) (due : T) : Prop :=
  ∃ h₁ h₂, h = h₁ ++ .set n due :: h₂ ∧ ∀ e ∈ h₂, e.alarm ≠ n

variable {h h₁ h₂ : List (Event N T)} {a : N → Option T} {n m : N} {due now : T} {e : Event N T}

omit [DecidableEq N] [Preorder T] in
theorem setLast_append_ne (hne : e.alarm ≠ n) : SetLast (h ++ [e]) n due ↔ SetLast h n due := by
  constructor
  · rintro ⟨h₁, h₂, heq, hlast⟩
    rcases List.eq_nil_or_concat h₂ with rfl | ⟨h₂, x, rfl⟩
    · obtain ⟨_, he⟩ := List.append_inj' heq rfl
      exact absurd (congrArg Event.alarm (List.singleton_inj.mp he)) hne
    · rw [List.concat_eq_append, ← List.cons_append, ← List.append_assoc] at heq
      obtain ⟨rfl, _⟩ := List.append_inj' heq rfl
      exact ⟨h₁, h₂, rfl, fun e he => hlast e (by simp [he])⟩
  · rintro ⟨h₁, h₂, rfl, hlast⟩
    refine ⟨h₁, h₂ ++ [e], by simp, fun e' he => ?_⟩
    rcases List.mem_append.mp he with he | he
    · exact hlast e' he
    · rw [List.mem_singleton.mp he]
      exact hne

omit [DecidableEq N] [Preorder T] in
/-- The last event of an alarm says whether it is set, and for when. -/
theorem setLast_append_self (hn : e.alarm = n) : SetLast (h ++ [e]) n due ↔ e = .set n due := by
  constructor
  · rintro ⟨h₁, h₂, heq, hlast⟩
    rcases List.eq_nil_or_concat h₂ with rfl | ⟨h₂, x, rfl⟩
    · obtain ⟨_, hx⟩ := List.append_inj' heq rfl
      exact List.singleton_inj.mp hx
    · rw [List.concat_eq_append, ← List.cons_append, ← List.append_assoc] at heq
      obtain ⟨_, hx⟩ := List.append_inj' heq rfl
      cases hx
      exact absurd hn (hlast e (by simp))
  · rintro rfl
    exact ⟨h, [], rfl, fun e he => absurd he List.not_mem_nil⟩

/-- The table is what the history says. -/
theorem run_setLast (hrun : Run Step (fun _ => none) h a) (n : N) (due : T) : a n = some due ↔ SetLast h n due := by
  refine hrun.invariant (I := fun h a => ∀ n due, a n = some due ↔ SetLast h n due) ?_ ?_ n due
  · intro n due
    refine iff_of_false (fun h => by cases h) ?_
    rintro ⟨h₁, h₂, heq, _⟩
    simp at heq
  · intro h a es a' ih hs n due
    have hevent : ∀ {e : Event N T} {v : Option T}, (e.alarm = n → (v = some due ↔ e = .set n due)) →
        (Function.update a e.alarm v n = some due ↔ SetLast (h ++ [e]) n due) := by
      intro e v hv
      by_cases hn : e.alarm = n
      · rw [setLast_append_self hn, hn, Function.update_self]
        exact hv hn
      · rw [setLast_append_ne hn, Function.update_of_ne (Ne.symm hn)]
        exact ih n due
    cases hs with
    | set m due' =>
        refine hevent (e := .set m due') ?_
        rintro rfl
        simp [Event.alarm]
    | cancel m => exact hevent (e := .cancel m) (by simp)
    | @fire m due' now hset hdue hmin => exact hevent (e := .fire m now) (by simp)

/-- Each alarm that goes off was set, has neither been moved nor cancelled nor gone off since, is not early, and no
other one that is set at that moment has an earlier time. -/
theorem run_fire (hrun : Run Step (fun _ => none) h a) (hfire : h = h₁ ++ .fire n now :: h₂) :
    ∃ due, SetLast h₁ n due ∧ due ≤ now ∧ ∀ m due', SetLast h₁ m due' → due ≤ due' := by
  suffices hall : ∀ h₁ n now h₂, h = h₁ ++ .fire n now :: h₂ →
      ∃ due, SetLast h₁ n due ∧ due ≤ now ∧ ∀ m due', SetLast h₁ m due' → due ≤ due' from hall h₁ n now h₂ hfire
  clear hfire
  induction hrun with
  | refl => simp
  | @tail h es a a' hrun hs ih =>
      intro h₁ n now h₂ heq
      have hone : ∃ e, es = [e] := by cases hs <;> exact ⟨_, rfl⟩
      obtain ⟨e, rfl⟩ := hone
      rcases List.eq_nil_or_concat h₂ with rfl | ⟨h₂, x, rfl⟩
      · obtain ⟨rfl, he⟩ := List.append_inj' heq rfl
        cases he
        cases hs with
        | fire hset hdue hmin =>
            refine ⟨_, (run_setLast hrun _ _).mp hset, hdue, fun m due' hm => ?_⟩
            exact hmin m due' ((run_setLast hrun _ _).mpr hm)
      · rw [List.concat_eq_append, ← List.cons_append, ← List.append_assoc] at heq
        obtain ⟨rfl, _⟩ := List.append_inj' heq rfl
        exact ih h₁ n now h₂ rfl

end Alarms
