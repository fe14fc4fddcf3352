import IntOS.Lib.Persist

/-!
# What does not matter to a program

A change of the state commutes with a program that neither reads nor writes what is changed.
-/

namespace Persist

open Prog

variable {σ τ α β : Type} {f : σ → σ}

/-- The program does the same from `f s` as from `s`. -/
def Commutes (f : σ → σ) (m : Prog σ α) : Prop :=
  ∀ s, m (f s) = ⟨(m s).trace.map f, (m s).out.map fun p => (p.1, f p.2)⟩

theorem commutes_pure (a : α) : Commutes f (pure a) := fun _ => rfl

theorem commutes_gets {g : σ → α} (h : ∀ s, g (f s) = g s) : Commutes f (gets g) := by
  intro s
  simp only [gets, h, List.map_nil, Option.map_some]

theorem commutes_store {g : σ → σ} (h : ∀ s, g (f s) = f (g s)) : Commutes f (store g) := by
  intro s
  simp only [store, h, List.map_cons, List.map_nil, Option.map_some]

theorem commutes_fail : Commutes f (fail : Prog σ α) := fun _ => rfl

theorem commutes_check (p : Prop) [Decidable p] : Commutes f (check p) := by
  unfold check
  split
  · exact commutes_pure ()
  · exact commutes_fail

theorem Commutes.bind {m : Prog σ α} {g : α → Prog σ β} (hm : Commutes f m) (hg : ∀ a, Commutes f (g a)) :
    Commutes f (m >>= g) := by
  intro s
  cases ho : (m s).out with
  | none =>
      have ho' : (m (f s)).out = none := by rw [hm, ho]; rfl
      rw [bind_of_none ho, bind_of_none ho', hm]
      rfl
  | some p =>
      have ho' : (m (f s)).out = some (p.1, f p.2) := by rw [hm, ho]; rfl
      rw [bind_of_out ho, bind_of_out ho', hm, hg]
      simp only [List.map_append]

theorem Commutes.zoom {get : τ → σ} {set : σ → τ → τ} {m : Prog σ α} (hm : Commutes f m)
    (hget : ∀ s t, get (set s t) = s) (hset : ∀ s s' t, set s (set s' t) = set s t) :
    Commutes (fun t => set (f (get t)) t) (zoom get set m) := by
  intro t
  simp only [Prog.zoom, hget, hm (get t), List.map_map, Option.map_map]
  congr 1
  · exact List.map_congr_left fun s _ => by simp only [Function.comp_apply, hget, hset]
  · exact congrArg (fun g => Option.map g (m (get t)).out) (funext fun p => by
      simp only [Function.comp_apply, hget, hset])

theorem Commutes.ends {m : Prog σ α} {Q : α → σ → Prop} {s : σ} (hm : Commutes f m) :
    Ends m Q (f s) ↔ Ends m (fun a r => Q a (f r)) s := by
  unfold Ends
  rw [hm]
  cases (m s).out with
  | none => exact Iff.rfl
  | some p => exact Iff.rfl

/-- A program that reads something that the change leaves here. -/
theorem Commutes.ends_gets_bind {g : σ → α} {k : α → Prog σ β} {Q : β → σ → Prop} {s : σ} (hg : g (f s) = g s)
    (hk : ∀ a, Commutes f (k a)) : Ends (gets g >>= k) Q (f s) ↔ Ends (gets g >>= k) (fun b r => Q b (f r)) s := by
  rw [ends_bind, ends_bind, ends_gets, ends_gets, hg]
  exact (hk _).ends

end Persist
