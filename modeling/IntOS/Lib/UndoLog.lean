import Mathlib

/-!
# Undo logs

A record holds the values that some addresses had when it was made. Undoing a log writes its records
back, the newest first.
-/

namespace UndoLog

variable {A V : Type}

/-- The addresses of one object with the values saved for them. -/
abbrev Record (A V : Type) := List (A × V)

def Record.Covers (r : Record A V) (a : A) : Prop := ∃ v, (a, v) ∈ r

/-- Some record of the log saved the address. -/
def Covers (rs : List (Record A V)) (a : A) : Prop := ∃ r ∈ rs, Record.Covers r a

theorem Covers.cons {rs : List (Record A V)} {a : A} (r : Record A V) (h : Covers rs a) :
    Covers (r :: rs) a := by
  obtain ⟨r', hm, hc⟩ := h
  exact ⟨r', List.mem_cons_of_mem _ hm, hc⟩

variable [DecidableEq A]

def restore : Record A V → (A → V) → A → V
  | [], m => m
  | (a, v) :: r, m => restore r (Function.update m a v)

/-- Undoes a log, newest record at the head. -/
def undo : List (Record A V) → (A → V) → A → V
  | [], m => m
  | r :: rs, m => undo rs (restore r m)

@[simp] theorem restore_nil (m : A → V) : restore [] m = m := rfl

@[simp] theorem undo_nil (m : A → V) : undo [] m = m := rfl

theorem restore_update_comm {r : Record A V} {a : A} (h : ¬ Record.Covers r a) (m : A → V) (v : V) :
    restore r (Function.update m a v) = Function.update (restore r m) a v := by
  induction r generalizing m with
  | nil => rfl
  | cons p r ih =>
      obtain ⟨b, w⟩ := p
      have hne : b ≠ a := fun e => h ⟨w, by simp [e]⟩
      have hr : ¬ Record.Covers r a := fun ⟨x, hx⟩ => h ⟨x, List.mem_cons_of_mem _ hx⟩
      simp only [restore]
      rw [Function.update_comm hne.symm, ih hr]

/-- A store to a saved address does not change what the record restores. -/
theorem restore_update_of_covers {r : Record A V} {a : A} (h : Record.Covers r a) (m : A → V) (v : V) :
    restore r (Function.update m a v) = restore r m := by
  induction r generalizing m with
  | nil => obtain ⟨_, hx⟩ := h; simp at hx
  | cons p r ih =>
      obtain ⟨b, w⟩ := p
      simp only [restore]
      by_cases hb : b = a
      · subst hb; rw [Function.update_idem]
      · have hr : Record.Covers r a := by
          obtain ⟨x, hx⟩ := h
          simp only [List.mem_cons, Prod.mk.injEq] at hx
          rcases hx with ⟨e, _⟩ | hx
          · exact absurd e.symm hb
          · exact ⟨x, hx⟩
        rw [Function.update_comm (Ne.symm hb), ih hr]

/-- A record of the values that memory holds now restores nothing. -/
theorem restore_self {r : Record A V} {m : A → V} (h : ∀ p ∈ r, m p.1 = p.2) : restore r m = m := by
  induction r with
  | nil => rfl
  | cons p r ih =>
      obtain ⟨a, v⟩ := p
      have hav : m a = v := h (a, v) (by simp)
      simp only [restore]
      rw [← hav, Function.update_eq_self]
      exact ih fun q hq => h q (List.mem_cons_of_mem _ hq)

theorem undo_update_of_covers {rs : List (Record A V)} {a : A} (h : Covers rs a) (m : A → V) (v : V) :
    undo rs (Function.update m a v) = undo rs m := by
  induction rs generalizing m with
  | nil => obtain ⟨_, hr, _⟩ := h; simp at hr
  | cons r rs ih =>
      simp only [undo]
      by_cases hr : Record.Covers r a
      · rw [restore_update_of_covers hr]
      · have hrs : Covers rs a := by
          obtain ⟨r', hm, hc⟩ := h
          simp only [List.mem_cons] at hm
          rcases hm with rfl | hm
          · exact absurd hc hr
          · exact ⟨r', hm, hc⟩
        rw [restore_update_comm hr, ih hrs]

/-- What no record saved stays. -/
theorem undo_update_of_not_covers {rs : List (Record A V)} {a : A} (h : ¬ Covers rs a) (m : A → V) (v : V) :
    undo rs (Function.update m a v) = Function.update (undo rs m) a v := by
  induction rs generalizing m with
  | nil => rfl
  | cons r rs ih =>
      have hr : ¬ Record.Covers r a := fun hr => h ⟨r, List.mem_cons_self, hr⟩
      have hrs : ¬ Covers rs a := fun hrs => h (hrs.cons r)
      simp only [undo]
      rw [restore_update_comm hr, ih hrs]

theorem restore_congr {r : Record A V} {m m' : A → V} {a : A} (h : m' a = m a) :
    restore r m' a = restore r m a := by
  induction r generalizing m m' with
  | nil => exact h
  | cons p r ih =>
      obtain ⟨b, v⟩ := p
      apply ih
      by_cases hb : a = b
      · subst hb; rw [Function.update_self, Function.update_self]
      · rw [Function.update_of_ne hb, Function.update_of_ne hb, h]

theorem undo_congr {rs : List (Record A V)} {m m' : A → V} {a : A} (h : m' a = m a) :
    undo rs m' a = undo rs m a := by
  induction rs generalizing m m' with
  | nil => exact h
  | cons r rs ih => exact ih (restore_congr h)

/-- Undoing treats each address on its own. -/
theorem undo_update_of_ne {rs : List (Record A V)} {a b : A} (h : b ≠ a) {m : A → V} {v : V} :
    undo rs (Function.update m a v) b = undo rs m b := undo_congr (Function.update_of_ne h v m)

/-- Restoring part of a record of the log is invisible to the log. -/
theorem undo_restore_of_covers {rs : List (Record A V)} {r : Record A V}
    (h : ∀ p ∈ r, Covers rs p.1) (m : A → V) : undo rs (restore r m) = undo rs m := by
  induction r generalizing m with
  | nil => rfl
  | cons p r ih =>
      simp only [restore]
      rw [ih (fun q hq => h q (List.mem_cons_of_mem _ hq)),
        undo_update_of_covers (h p (by simp))]

/-- Logging the current values leaves what the log restores unchanged. -/
theorem undo_cons_self {rs : List (Record A V)} {r : Record A V} {m : A → V}
    (h : ∀ p ∈ r, m p.1 = p.2) : undo (r :: rs) m = undo rs m := by
  simp only [undo, restore_self h]

end UndoLog
