import IntOS.Lib.Chain
import IntOS.List.PList

/-!
# What the lists hold

`Holds ring s seq`: every list `l` of `s` holds the nodes `seq l`, in this order from its cursor (a ring) or
from its head (a null-terminated list), and the field `list` of a node names the list that holds it.
-/

namespace IntOS

open Persist Persist.Prog Chain

variable {N L : Type}

namespace Lists

structure RingAt (s : Lists N L) (l : L) (xs : List N) : Prop where
  len : s.len l = xs.length
  cursor : s.cursor l = xs.head?
  head : (xs = [] ∧ s.head l = none) ∨ ∃ h ∈ xs, s.head l = some h
  links : Ring s.prev s.next xs

structure LinearAt (s : Lists N L) (l : L) (xs : List N) : Prop where
  len : s.len l = xs.length
  cursor : s.cursor l = none
  head : s.head l = xs.head?
  links : Linked s.prev s.next none xs none

structure Holds (ring : L → Prop) (s : Lists N L) (seq : L → List N) : Prop where
  owner : ∀ l n, s.list n = some l ↔ n ∈ seq l
  nodup : ∀ l, (seq l).Nodup
  rings : ∀ l, ring l → RingAt s l (seq l)
  linears : ∀ l, ¬ ring l → LinearAt s l (seq l)

variable {ring : L → Prop} {s s' : Lists N L} {seq : L → List N} {l m : L} {n : N} {xs ys : List N}

theorem RingAt.congr (h : RingAt s l xs) (hlen : s'.len l = s.len l) (hcursor : s'.cursor l = s.cursor l)
    (hhead : s'.head l = s.head l) (hprev : ∀ x ∈ xs, s'.prev x = s.prev x)
    (hnext : ∀ x ∈ xs, s'.next x = s.next x) : RingAt s' l xs := by
  refine ⟨hlen.trans h.len, hcursor.trans h.cursor, ?_, h.links.congr hprev hnext⟩
  rw [hhead]
  exact h.head

theorem LinearAt.congr (h : LinearAt s l xs) (hlen : s'.len l = s.len l)
    (hcursor : s'.cursor l = s.cursor l) (hhead : s'.head l = s.head l)
    (hprev : ∀ x ∈ xs, s'.prev x = s.prev x) (hnext : ∀ x ∈ xs, s'.next x = s.next x) :
    LinearAt s' l xs :=
  ⟨hlen.trans h.len, hcursor.trans h.cursor, hhead.trans h.head, h.links.congr hprev hnext⟩

theorem holds_new (ring : L → Prop) : Holds ring (new : Lists N L) (fun _ => []) where
  owner := fun _ _ => by simp [new]
  nodup := fun _ => List.nodup_nil
  rings := fun _ _ => ⟨rfl, rfl, Or.inl ⟨rfl, rfl⟩, trivial⟩
  linears := fun _ _ => ⟨rfl, rfl, rfl, trivial⟩

/-- A node is in one list. -/
theorem Holds.eq_of_mem (h : Holds ring s seq) (hl : n ∈ seq l) (hm : n ∈ seq m) : l = m := by
  rw [← h.owner] at hl hm
  exact Option.some.inj (hl.symm.trans hm)

theorem Holds.list_eq_none (h : Holds ring s seq) (hn : s.list n = none) (l : L) : n ∉ seq l := by
  rw [← h.owner, hn]
  exact nofun

/-- The neighbours of a node are in its list. -/
theorem Holds.neighbours (h : Holds ring s seq) (hn : n ∈ seq l) {z : N} :
    (s.prev n = some z → z ∈ seq l) ∧ (s.next n = some z → z ∈ seq l) := by
  by_cases hl : ring l
  · exact (h.rings l hl).links.neighbours hn
  · have hlinks := (h.linears l hl).links.neighbours hn (z := z)
    exact ⟨fun hp => (hlinks.1 hp).resolve_right nofun, fun hx => (hlinks.2 hx).resolve_right nofun⟩

/-- The links of nodes in no list do not matter. -/
theorem Holds.frame (h : Holds ring s seq) (hlist : s'.list = s.list) (hlen : s'.len = s.len)
    (hcursor : s'.cursor = s.cursor) (hhead : s'.head = s.head) (hprev : ∀ n, s.list n ≠ none → s'.prev n = s.prev n)
    (hnext : ∀ n, s.list n ≠ none → s'.next n = s.next n) : Holds ring s' seq := by
  have hin : ∀ m, ∀ x ∈ seq m, s.list x ≠ none := by
    intro m x hx
    rw [(h.owner m x).mpr hx]
    exact Option.some_ne_none _
  refine ⟨?_, h.nodup, fun m hm => ?_, fun m hm => ?_⟩
  · rw [hlist]
    exact h.owner
  · exact (h.rings m hm).congr (by rw [hlen]) (by rw [hcursor]) (by rw [hhead])
      (fun x hx => hprev x (hin m x hx)) fun x hx => hnext x (hin m x hx)
  · exact (h.linears m hm).congr (by rw [hlen]) (by rw [hcursor]) (by rw [hhead])
      (fun x hx => hprev x (hin m x hx)) fun x hx => hnext x (hin m x hx)

/-- The log has no part in it. -/
theorem Holds.setMicroOpOldLen (h : Holds ring s seq) (v : Nat) : Holds ring { s with microOpOldLen := v } seq :=
  h.frame rfl rfl rfl rfl (fun _ _ => rfl) fun _ _ => rfl

theorem Holds.len (h : Holds ring s seq) (l : L) : s.len l = (seq l).length := by
  by_cases hl : ring l
  · exact (h.rings l hl).len
  · exact (h.linears l hl).len

section
variable [DecidableEq L]

/-- An operation on the list `l` that keeps to its nodes and the nodes of `ys`. -/
theorem Holds.change (h : Holds ring s seq) (hown : ∀ m x, s'.list x = some m ↔ x ∈ Function.update seq l ys m)
    (hnd : ys.Nodup) (hlen : ∀ m, m ≠ l → s'.len m = s.len m)
    (hcursor : ∀ m, m ≠ l → s'.cursor m = s.cursor m) (hhead : ∀ m, m ≠ l → s'.head m = s.head m)
    (hprev : ∀ x, x ∉ seq l → x ∉ ys → s'.prev x = s.prev x)
    (hnext : ∀ x, x ∉ seq l → x ∉ ys → s'.next x = s.next x) (hring : ring l → RingAt s' l ys)
    (hlinear : ¬ ring l → LinearAt s' l ys) : Holds ring s' (Function.update seq l ys) := by
  have hother : ∀ m, m ≠ l → ∀ x ∈ seq m, x ∉ seq l ∧ x ∉ ys := by
    intro m hm x hx
    refine ⟨fun hl => hm (h.eq_of_mem hx hl), fun hy => ?_⟩
    have h1 : s'.list x = some m := by
      rw [hown, Function.update_of_ne hm]
      exact hx
    have h2 : s'.list x = some l := by
      rw [hown, Function.update_self]
      exact hy
    exact hm (Option.some.inj (h1.symm.trans h2))
  refine ⟨hown, fun m => ?_, fun m hm => ?_, fun m hm => ?_⟩
  · by_cases hml : m = l
    · subst hml
      rwa [Function.update_self]
    · rw [Function.update_of_ne hml]
      exact h.nodup m
  · by_cases hml : m = l
    · subst hml
      rw [Function.update_self]
      exact hring hm
    · rw [Function.update_of_ne hml]
      exact (h.rings m hm).congr (hlen m hml) (hcursor m hml) (hhead m hml)
        (fun x hx => hprev x (hother m hml x hx).1 (hother m hml x hx).2)
        fun x hx => hnext x (hother m hml x hx).1 (hother m hml x hx).2
  · by_cases hml : m = l
    · subst hml
      rw [Function.update_self]
      exact hlinear hm
    · rw [Function.update_of_ne hml]
      exact (h.linears m hm).congr (hlen m hml) (hcursor m hml) (hhead m hml)
        (fun x hx => hprev x (hother m hml x hx).1 (hother m hml x hx).2)
        fun x hx => hnext x (hother m hml x hx).1 (hother m hml x hx).2

variable [DecidableEq N]

theorem Holds.owner_insert (h : Holds ring s seq) (hn : s.list n = none)
    (hys : ∀ x, x ∈ ys ↔ x = n ∨ x ∈ seq l) (m : L) (x : N) :
    Function.update s.list n (some l) x = some m ↔ x ∈ Function.update seq l ys m := by
  by_cases hx : x = n
  · subst hx
    rw [Function.update_self, Option.some.injEq]
    by_cases hm : m = l
    · subst hm
      rw [Function.update_self, hys]
      simp
    · rw [Function.update_of_ne hm]
      exact iff_of_false (fun he => hm he.symm) (h.list_eq_none hn m)
  · rw [Function.update_of_ne hx, h.owner]
    by_cases hm : m = l
    · subst hm
      rw [Function.update_self, hys, or_iff_right hx]
    · rw [Function.update_of_ne hm]

theorem Holds.owner_erase (h : Holds ring s seq) (hn : n ∈ seq l)
    (hys : ∀ x, x ∈ ys ↔ x ≠ n ∧ x ∈ seq l) (m : L) (x : N) :
    Function.update s.list n none x = some m ↔ x ∈ Function.update seq l ys m := by
  by_cases hx : x = n
  · subst hx
    rw [Function.update_self]
    refine iff_of_false nofun fun hm => ?_
    by_cases hml : m = l
    · subst hml
      rw [Function.update_self, hys] at hm
      exact hm.1 rfl
    · rw [Function.update_of_ne hml] at hm
      exact hml (h.eq_of_mem hm hn)
  · rw [Function.update_of_ne hx, h.owner]
    by_cases hm : m = l
    · subst hm
      rw [Function.update_self, hys, and_iff_right hx]
    · rw [Function.update_of_ne hm]

end

end Lists

end IntOS
