import IntOS.List.Lemmas.Alone

/-!
# The circular ready list, without failures

Runs of the three operations on one `PList`, from the empty one. Between them other code does as it likes with
nodes in no list or in other lists.
-/

namespace IntOS

open Persist Persist.Prog Chain

variable {N L : Type} [DecidableEq N] [DecidableEq L]

namespace Circular

open IntOS.Lists

inductive Event (N : Type)
  | insertBeforeCursor (n : N)
  | remove (n : N)
  | next
  | elsewhere

/-- What other code leaves alone: the list and its nodes. -/
structure Untouched (l : L) (s s' : Lists N L) : Prop where
  len : s'.len l = s.len l
  cursor : s'.cursor l = s.cursor l
  head : s'.head l = s.head l
  list : ∀ n, s'.list n = some l ↔ s.list n = some l
  prev : ∀ n, s.list n = some l → s'.prev n = s.prev n
  next : ∀ n, s.list n = some l → s'.next n = s.next n

inductive Step (debug : Bool) (l : L) : Event N → Lists N L → Lists N L → Prop
  | insertBeforeCursor {s s' : Lists N L} {n : N} : s.list n = none →
      (optimizedInsertBeforeCursor l n s).out = some ((), s') → Step debug l (.insertBeforeCursor n) s s'
  | remove {s s' : Lists N L} {n : N} : s.list n = none ∨ s.list n = some l →
      (optimizedRemove debug l n s).out = some ((), s') → Step debug l (.remove n) s s'
  | next {s s' : Lists N L} {r : Option N} : (nextItem l s).out = some (r, s') → Step debug l .next s s'
  | elsewhere {s s' : Lists N L} : Untouched l s s' → Step debug l .elsewhere s s'

/-- A run from an empty list, the last event first. -/
inductive Run (debug : Bool) (l : L) : List (Event N) → Lists N L → Prop
  | start {s : Lists N L} : s.len l = 0 → s.cursor l = none → s.head l = none → (∀ n, s.list n ≠ some l) →
      Run debug l [] s
  | step {s s' : Lists N L} {es : List (Event N)} {e : Event N} : Run debug l es s → Step debug l e s s' →
      Run debug l (e :: es) s'

/-- The node was inserted and not removed since. -/
def Inserted : List (Event N) → N → Prop
  | [], _ => False
  | .insertBeforeCursor m :: es, n => n = m ∨ Inserted es n
  | .remove m :: es, n => n ≠ m ∧ Inserted es n
  | .next :: es, n => Inserted es n
  | .elsewhere :: es, n => Inserted es n

/-- What `k` calls of `next` return. -/
def visit (l : L) : Nat → Prog (Lists N L) (List (Option N))
  | 0 => pure []
  | k + 1 => do
      let x ← nextItem l
      let xs ← visit l k
      pure (x :: xs)

variable {debug : Bool} {l : L} {s s' : Lists N L} {es : List (Event N)} {e : Event N} {xs ys : List N} {n : N}

/-! ## What a run keeps -/

/-- The ring holds `xs` from the cursor on, and these are the nodes inserted and not removed. -/
structure Cyclic (l : L) (es : List (Event N)) (s : Lists N L) (xs : List N) : Prop where
  ring : RingOf s l xs
  inserted : ∀ n, n ∈ xs ↔ Inserted es n

omit [DecidableEq N] [DecidableEq L] in
theorem Cyclic.untouched (h : Cyclic l es s xs) (hu : Untouched l s s') : Cyclic l (.elsewhere :: es) s' xs := by
  have hlist : ∀ x ∈ xs, s.list x = some l := fun x hx => (h.ring.owner x).mpr hx
  refine ⟨⟨?_, fun n => (hu.list n).trans (h.ring.owner n), h.ring.nodup⟩, h.inserted⟩
  exact h.ring.toRingAt.congr hu.len hu.cursor hu.head (fun x hx => hu.prev x (hlist x hx)) fun x hx =>
    hu.next x (hlist x hx)

theorem Cyclic.step (h : Cyclic l es s xs) (hstep : Step debug l e s s') : ∃ ys, Cyclic l (e :: es) s' ys := by
  cases hstep with
  | insertBeforeCursor hn hout =>
      refine ⟨_, (h.ring.insertBeforeCursor hn).post hout, fun m => ?_⟩
      rw [List.mem_append, List.mem_singleton, h.inserted, or_comm]
      exact Iff.rfl
  | @remove _ _ n hn hout =>
      refine ⟨_, (h.ring.remove hn).post hout, fun m => ?_⟩
      rw [h.ring.nodup.mem_erase_iff, h.inserted]
      exact Iff.rfl
  | next hout =>
      cases xs with
      | nil =>
          obtain ⟨_, rfl⟩ := h.ring.nextItem_nil.post hout
          exact ⟨[], h.ring, h.inserted⟩
      | cons x xs =>
          refine ⟨_, (h.ring.nextItem.post hout).2, fun m => ?_⟩
          rw [← show m ∈ x :: xs ↔ Inserted (.next :: es) m from h.inserted m, List.mem_append, List.mem_singleton,
            List.mem_cons, or_comm]
  | elsewhere hu => exact ⟨xs, h.untouched hu⟩

theorem Run.cyclic (h : Run debug l es s) : ∃ xs, Cyclic l es s xs := by
  induction h with
  | start hlen hcursor hhead hlist =>
      exact ⟨[], ⟨⟨hlen, hcursor, Or.inl ⟨rfl, hhead⟩, trivial⟩, fun n => iff_of_false (hlist n) List.not_mem_nil,
        List.nodup_nil⟩, fun _ => iff_of_false List.not_mem_nil id⟩
  | step _ hstep ih =>
      obtain ⟨xs, hxs⟩ := ih
      exact hxs.step hstep

/-! ## Around the ring -/

omit [DecidableEq N] in
/-- Going on from the front of `xs ++ ys` over the nodes `xs` visits the node after each of them. -/
theorem ends_visit {z : N} (h : RingOf s l (xs ++ ys)) (hz : (ys ++ xs).head? = some z) :
    Ends (visit l xs.length) (fun r s' => r = (xs ++ [z]).tail.map some ∧ RingOf s' l (ys ++ xs)) s := by
  induction xs generalizing ys s with
  | nil =>
      rw [List.append_nil]
      exact ⟨rfl, h⟩
  | cons x xs ih =>
      have hcons : x :: xs ++ ys = x :: (xs ++ ys) := rfl
      have hmove : ys ++ x :: xs = ys ++ [x] ++ xs := List.append_cons ys x xs
      rw [hcons] at h
      rw [hmove] at hz ⊢
      rw [List.length_cons]
      unfold visit
      rw [ends_bind]
      refine h.nextItem.mono ?_
      rintro r₁ s₁ ⟨rfl, h₁⟩
      rw [List.append_assoc] at h₁ ⊢
      rw [ends_bind]
      refine (ih h₁ hz).mono ?_
      rintro r₂ s₂ ⟨rfl, h₂⟩
      refine ⟨?_, h₂⟩
      cases xs with
      | nil =>
          rw [List.append_nil] at hz
          rw [List.nil_append, hz]
          rfl
      | cons y xs => rfl

omit [DecidableEq N] in
/-- `len` calls of `next` go once around. -/
theorem ends_visit_len (h : RingOf s l xs) :
    Ends (visit l (s.len l)) (fun r s' => r.Nodup ∧ (∀ n, some n ∈ r ↔ n ∈ xs) ∧ none ∉ r ∧
      s'.cursor l = s.cursor l) s := by
  rw [h.len]
  cases xs with
  | nil => exact ⟨List.nodup_nil, fun n => by simp, List.not_mem_nil, rfl⟩
  | cons z xs =>
      have hring : RingOf s l (z :: xs ++ []) := by rwa [List.append_nil]
      refine (ends_visit hring rfl).mono ?_
      rintro r s' ⟨rfl, h'⟩
      have hnd : (xs ++ [z]).Nodup := List.nodup_append_comm.mp h.nodup
      refine ⟨hnd.map fun _ _ => Option.some.inj, fun n => ?_, by simp, h'.cursor.trans h.cursor.symm⟩
      simp [or_comm]

/-- After every run the members form one ring, linked both ways; `len` is their number; they are the nodes whose
`list` is this list, and those inserted and not removed; cursor and head are among them. From there each operation
returns, a new node comes right before the cursor, and `len` calls of `next` visit each member once and end where
they began. -/
theorem circular_list_correct (h : Run debug l es s) :
    ∃ xs : List N, Ring s.prev s.next xs ∧ (∀ x ∈ xs, ∀ y ∈ xs, s.next x = some y ↔ s.prev y = some x) ∧
      s.len l = xs.length ∧ xs.Nodup ∧ (∀ n, s.list n = some l ↔ n ∈ xs) ∧ (∀ n, n ∈ xs ↔ Inserted es n) ∧
      (0 < s.len l → (∃ c ∈ xs, s.cursor l = some c) ∧ ∃ x ∈ xs, s.head l = some x) ∧
      (s.len l = 0 → s.cursor l = none ∧ s.head l = none) ∧
      (∀ n, s.list n = none → Ends (optimizedInsertBeforeCursor l n) (fun _ r => RingOf r l (xs ++ [n]) ∧
        ∃ c, r.cursor l = some c ∧ r.prev c = some n) s) ∧
      (∀ n, s.list n = none ∨ s.list n = some l →
        Ends (optimizedRemove debug l n) (fun _ r => RingOf r l (xs.erase n)) s) ∧
      Ends (visit l (s.len l)) (fun r s' => r.Nodup ∧ (∀ n, some n ∈ r ↔ n ∈ xs) ∧ none ∉ r ∧
        s'.cursor l = s.cursor l) s := by
  obtain ⟨xs, hxs⟩ := h.cyclic
  have hring := hxs.ring
  refine ⟨xs, hring.links, fun x hx y hy => hring.links.agree hx hy, hring.len, hring.nodup, hring.owner, hxs.inserted,
    fun hlen => ?_, fun hlen => ?_, fun n hn => ?_, fun n hn => hring.remove hn, ends_visit_len hring⟩
  · cases xs with
    | nil => exact absurd hring.len (Nat.ne_of_gt hlen)
    | cons c xs => exact ⟨⟨c, List.mem_cons_self, hring.cursor⟩, hring.head.resolve_left nofun⟩
  · obtain rfl := List.length_eq_zero_iff.mp (hring.len.symm.trans hlen)
    exact ⟨hring.cursor, hring.head.elim And.right fun ⟨x, hx, _⟩ => (List.not_mem_nil hx).elim⟩
  · refine (hring.insertBeforeCursor hn).mono fun _ r hr => ⟨hr, ?_⟩
    cases xs with
    | nil => exact ⟨n, hr.cursor, hr.links.1⟩
    | cons c xs =>
        refine ⟨c, hr.cursor, hr.links.1.trans ?_⟩
        rw [List.getLast?_append]
        rfl

/-! ## A run -/

/-- The state after an insertion. -/
def afterInsert (l : L) (n : N) (s : Lists N L) : Lists N L :=
  match (optimizedInsertBeforeCursor l n s).out with
  | none => s
  | some (_, r) => r

theorem Run.insertBeforeCursor (h : Run debug l es s) (hn : s.list n = none) :
    Run debug l (.insertBeforeCursor n :: es) (afterInsert l n s) := by
  obtain ⟨xs, hxs⟩ := h.cyclic
  obtain ⟨_, r, hout, _⟩ := (hxs.ring.insertBeforeCursor hn).returns
  have hs : afterInsert l n s = r := by rw [afterInsert, hout]
  rw [hs]
  exact h.step (.insertBeforeCursor hn hout)

def twoNodes : Lists Nat Unit := afterInsert () 1 (afterInsert () 0 Lists.new)

theorem run_twoNodes : Run true () [.insertBeforeCursor 1, .insertBeforeCursor 0] twoNodes := by
  have hstart : Run true () [] (Lists.new : Lists Nat Unit) := .start rfl rfl rfl fun _ => nofun
  exact (hstart.insertBeforeCursor rfl).insertBeforeCursor rfl

theorem circular_list_correct_twoNodes : ∃ xs : List Nat, xs.length = 2 ∧ Ring twoNodes.prev twoNodes.next xs := by
  obtain ⟨xs, hlinks, _, hlen, _⟩ := circular_list_correct run_twoNodes
  exact ⟨xs, hlen.symm, hlinks⟩

end Circular

end IntOS
