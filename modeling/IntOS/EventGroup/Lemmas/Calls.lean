import IntOS.EventGroup.Lemmas.Others

/-!
# Calls through a run

What holds of the calls of all tasks in every run, whatever they are and wherever power fails.
-/

namespace IntOS

open Persist Persist.Prog

namespace EventGroup

variable {width : PtrWidth} {cfg : Config} {port : Port} {waitList t u : Nat} {m c : Machine width} {a : Activity width}
  {s s' : System width} {e : System.Event}

theorem call_restarted (a : Activity width) : a.restarted.call = a.call := by
  unfold Activity.restarted
  cases h : a.call with
  | none => exact h
  | some c => rfl

theorem restarted_calling {c : Call width} (h : a.call = some c) : a.restarted = .calling c := by
  rw [Activity.restarted, h]

/-- Control bits are not event bits, and the results are those of a call that is not over. -/
structure Tidy (s : System width) : Prop where
  eventBits : eventsOf s.machine.eventBits = s.machine.eventBits
  outside : ∀ t, (s.activity t).call = none → s.machine.txResults t = []
  ended : ∀ t c, s.activity t = .calling c → s.machine.entry t ≠ none → s.machine.txResults t = []

theorem Tidy.running (h : Tidy s) (hu : s.Executes u) (hact : s.activity u ≠ .idle)
    (hout : ((s.activity u).prog cfg port waitList s.machine).out = some (a, m)) :
    Tidy { s.noting u m with machine := m, activity := Function.update s.activity u a } := by
  have hspares : Spares u s.machine m :=
    (((spares_prog (s.activity u)) s.machine (.start hu.1 h.eventBits)).post hout).1
  have hprog := (after_prog hu.1 hact (h.ended u)).post hout
  refine ⟨hspares.eventBits, fun t ht => ?_, fun t c ht he => ?_⟩
  · by_cases htu : t = u
    · subst htu
      simp only [Function.update_self] at ht
      rcases hprog with ⟨call, _, hcall, _⟩ | ⟨_, hnil⟩
      · cases hcall.symm.trans ht
      · exact hnil
    · simp only [Function.update_of_ne htu] at ht
      exact (hspares.txResults t htu).trans (h.outside t ht)
  · by_cases htu : t = u
    · subst htu
      simp only [Function.update_self] at ht
      rcases hprog with ⟨_, _, _, hne⟩ | ⟨hidle, _⟩
      · exact absurd ht (hne c)
      · cases hidle.symm.trans ht
    · simp only [Function.update_of_ne htu] at ht
      exact (hspares.txResults t htu).trans (h.ended t c ht (hspares.entry t htu ▸ he))

theorem Tidy.restarted {took released : Nat → Bool} (hbits : eventsOf c.eventBits = c.eventBits)
    (houtside : ∀ t, (s.activity t).call = none → c.txResults t = []) (hr : Restarted c m) :
    Tidy { machine := m, activity := fun t => (s.activity t).restarted, took := took, released := released } where
  eventBits := by
    rw [hr.eventBits]
    exact hbits
  outside := by
    intro t ht
    rw [call_restarted] at ht
    by_cases he : c.entry t = none
    · exact (hr.txResults t he).trans (houtside t ht)
    · exact hr.ended t he
  ended := fun t _ _ he => hr.ended t (hr.entry ▸ he)

theorem Tidy.failing (h : Tidy s) (hu : s.Executes u)
    (hc : c ∈ crashes ((s.activity u).prog cfg port waitList) s.machine)
    (hr : Restarted c m) :
    Tidy { s.noting u c with machine := m, activity := fun t => (s.activity t).restarted } := by
  have hspares : Spares u s.machine c := ((spares_prog (s.activity u)) s.machine (.start hu.1 h.eventBits)).crash hc
  refine Tidy.restarted hspares.eventBits (fun t ht => ?_) hr
  by_cases htu : t = u
  · subst htu
    have hnil := h.outside t ht
    cases ha : s.activity t with
    | idle =>
        rw [ha] at hc
        cases List.mem_singleton.mp hc
        exact hnil
    | elsewhere =>
        rw [ha] at hc
        exact ((wpc_syscallEnd_results hu.1).crash hc).short.elim (·.trans hnil) id
    | _ =>
        rw [ha] at ht
        cases ht
  · exact (hspares.txResults t htu).trans (h.outside t ht)

theorem tidy_start : Tidy (System.start cfg : System width) where
  eventBits := by simp [System.start, eventsOf]
  outside := fun _ _ => rfl
  ended := fun _ _ => nofun

/-- A task that begins a syscall has no results. -/
theorem Tidy.begun {f : Nat → Option (Outcome width)} {took released : Nat → Bool} (h : Tidy s)
    (hidle : s.activity t = .idle) (hf : ∀ v, v ≠ t → f v = s.machine.entry v) :
    Tidy { machine := { s.machine with entry := f }, activity := Function.update s.activity t a, took := took,
           released := released } := by
  have hnil : s.machine.txResults t = [] := h.outside t (by simp [hidle, Activity.call])
  refine ⟨h.eventBits, fun v hv => ?_, fun v c hv he => ?_⟩
  · by_cases hvt : v = t
    · exact hvt ▸ hnil
    · simp only [Function.update_of_ne hvt] at hv
      exact h.outside v hv
  · by_cases hvt : v = t
    · exact hvt ▸ hnil
    · simp only [Function.update_of_ne hvt] at hv
      exact h.ended v c hv (hf v hvt ▸ he)

theorem Tidy.step (h : Tidy s) (hstep : System.Step cfg port waitList e s s') : Tidy s' := by
  cases hstep with
  | call c ht hidle => exact h.begun hidle fun v hv => Function.update_of_ne hv _ _
  | run ht hact hout => exact h.running ht hact hout
  | bypass ht hcalling => exact ⟨h.eventBits, h.outside, h.ended⟩
  | syscallBegin ht hidle => exact h.begun hidle fun v hv => Function.update_of_ne hv _ _
  | other ho hother hout => exact ⟨h.eventBits, h.outside, h.ended⟩
  | fail ht hc hr => exact h.failing ht hc (restarted_reboot hr)
  | failOther ho hother hk hr =>
      have hr := restarted_reboot hr
      refine Tidy.restarted (s := s) ?_ ?_ hr
      · exact h.eventBits
      · exact h.outside

end EventGroup

end IntOS
