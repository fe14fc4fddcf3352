import IntOS.List.Journaled
import IntOS.List.Lemmas.CrashInsert

/-!
# What the list operations leave that log to a journal

The states are those of the operations without a journal.
-/

namespace IntOS

open Persist Persist.Prog Chain

variable {N L : Type} [DecidableEq N]

namespace Journaled

variable {cfg : NodeJournal} {debug : Bool} {s : Journaled N L} {l : L} {n : N} {k : Nat}
  {Q : Unit → Journaled N L → Prop}

theorem setPrevOf_leaves {ptr v : Option N} (hroom : Room cfg (k + 1) s)
    (h : ∀ tail saved, Room cfg k ⟨{ s.lists with prev := updateOf s.lists.prev ptr v }, tail, saved⟩ →
      Q () ⟨{ s.lists with prev := updateOf s.lists.prev ptr v }, tail, saved⟩) :
    Ends (setPrevOf cfg ptr v) Q s := by
  cases ptr with
  | none => exact h s.tail s.saved hroom.less
  | some p =>
      unfold setPrevOf
      rw [ends_bind]
      exact ends_asMut hroom fun saved hroom => h _ _ (hroom.lists _)

theorem setNextOf_leaves {ptr v : Option N} (hroom : Room cfg (k + 1) s)
    (h : ∀ tail saved, Room cfg k ⟨{ s.lists with next := updateOf s.lists.next ptr v }, tail, saved⟩ →
      Q () ⟨{ s.lists with next := updateOf s.lists.next ptr v }, tail, saved⟩) :
    Ends (setNextOf cfg ptr v) Q s := by
  cases ptr with
  | none => exact h s.tail s.saved hroom.less
  | some p =>
      unfold setNextOf
      rw [ends_bind]
      exact ends_asMut hroom fun saved hroom => h _ _ (hroom.lists _)

variable [DecidableEq L]

/-- A node of a null-terminated list. -/
theorem remove_leaves (hn : s.lists.list n ≠ none) (hlen : 0 < s.lists.len l)
    (hone : s.lists.len l = 1 → Lists.Lone s.lists l n) (hroom : Room cfg (k + 3) s) :
    Ends (remove cfg debug l n) (fun _ r => r.lists = Lists.removed s.lists l n ∧ Room cfg k r) s := by
  unfold remove removeImpl
  rw [ends_bind]
  refine ends_asMut hroom fun saved hroom => ?_
  simp only [ends_bind, ends_gets, ends_onLists, Lists.ends_debugAssert, hn, if_false]
  refine ⟨fun _ => hlen, ?_⟩
  by_cases h1 : s.lists.len l = 1
  · obtain ⟨hp, hx, hc, hh⟩ := hone h1
    simp only [h1, if_true, ends_bind, ends_onLists, Lists.setCursor, Lists.setHead, Lists.setList, ends_store,
      Lists.ends_decLen]
    refine ⟨Nat.one_pos, ?_, hroom.less.less.lists _⟩
    have hcur : Function.update s.lists.cursor l none = s.lists.cursor := by rw [← hc, Function.update_eq_self]
    simp [Lists.removed, hp, hx, hc, hh, h1, hcur, updateOf]
  · simp only [h1, if_false, ends_bind, ends_gets]
    refine setNextOf_leaves hroom fun tail saved hroom => ?_
    rw [ends_bind, ends_gets, ends_bind, ends_gets, ends_bind]
    refine setPrevOf_leaves hroom fun tail saved hroom => ?_
    simp only [updateOf_self, ends_bind, ends_gets]
    by_cases hc : s.lists.cursor l = some n <;> by_cases hh : s.lists.head l = some n
    all_goals
      simp only [hc, hh, if_true, if_false, Lists.setCursor, Lists.setHead, Lists.setList, ends_onLists, ends_bind,
        ends_gets, ends_store, Lists.ends_decLen, updateOf_self]
      refine ⟨hlen, ?_, hroom.lists _⟩
      simp [Lists.removed, hc, hh]

end Journaled

end IntOS
