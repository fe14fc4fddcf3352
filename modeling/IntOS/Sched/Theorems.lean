import IntOS.Sched.Runs

/-!
# No task is lost or duplicated
-/

namespace IntOS

open Persist Persist.Prog

namespace Kernel

variable {cfg : Config} {k : Kernel} {t : Nat}

/-- In every reachable state each task is in one of its ready list and the delayed list, blocked in the
latter only, and waits in at most one wait list, only while it is delayed. The fields `list` say so, and no
list has a node twice. -/
theorem no_task_lost_or_duplicated (h : Reachable cfg k) (ht : t < k.taskCnt) :
    (((∀ l, InList k (.sched t) l ↔ l = .ready (k.priority t)) ∧ k.status t ≠ .blocked) ∨
      ((∀ l, InList k (.sched t) l ↔ l = .delayed) ∧ k.status t = .blocked)) ∧
    (∀ l, InList k (.event t) l → (∃ w, l = .waiting w) ∧ InList k (.sched t) .delayed) ∧
    (∀ l m, InList k (.event t) l → InList k (.event t) m → l = m) ∧
    (∀ n l, k.lists.list n = some l ↔ InList k n l) ∧
    ∀ l, ∃ xs : List NodeRef, xs.Nodup ∧ k.lists.len l = xs.length ∧ ∀ n, n ∈ xs ↔ InList k n l := by
  have hinv := h.inv
  refine ⟨?_, ?_, ?_, fun n l => hinv.inList_iff.symm, fun l => ?_⟩
  · rcases hinv.placed t ht with ⟨hs, _, hb⟩ | ⟨hs, _, hb⟩
    · refine Or.inl ⟨fun l => ?_, hb⟩
      rw [hinv.inList_iff, hs, Option.some.injEq, eq_comm]
    · refine Or.inr ⟨fun l => ?_, hb⟩
      rw [hinv.inList_iff, hs, Option.some.injEq, eq_comm]
  · intro l hl
    rw [hinv.inList_iff] at hl ⊢
    rcases hinv.placed t ht with ⟨_, he, _⟩ | ⟨hs, he, _⟩
    · rw [he] at hl
      cases hl
    · exact ⟨he l hl, hs⟩
  · intro l m hl hm
    rw [hinv.inList_iff] at hl hm
    exact Option.some.inj (hl.symm.trans hm)
  · obtain ⟨xs, hnd, hlen, hxs⟩ := hinv.enum l
    exact ⟨xs, hnd, hlen, fun n => (hxs n).1⟩

theorem no_task_lost_or_duplicated_sleeping :
    (∀ l, InList sleeping (.sched 0) l ↔ l = .delayed) ∧ ∀ l, InList sleeping (.sched 1) l ↔ l = .ready 7 := by
  constructor
  · rcases (no_task_lost_or_duplicated reachable_sleeping (t := 0) (by decide)).1 with ⟨_, hb⟩ | ⟨hl, _⟩
    · exact absurd rfl hb
    · exact hl
  · rcases (no_task_lost_or_duplicated reachable_sleeping (t := 1) (by decide)).1 with ⟨hl, _⟩ | ⟨_, hb⟩
    · exact hl
    · cases hb

end Kernel

end IntOS
