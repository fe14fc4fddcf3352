import IntOS.List.Lemmas.Alone

/-!
# The null-terminated sorted list, without failures

Runs of the three operations on one `PList`, from the empty one. Between them other code does as it likes with
nodes in no list or in other lists, and so changes their keys and leaves what it wants in their links.
-/

namespace IntOS

open Persist Persist.Prog Chain

variable {N L K : Type} [DecidableEq N] [DecidableEq L] [LinearOrder K]

/-- The nodes and lists, and the key of each node (its `value`). -/
structure Keyed (N L K : Type) where
  lists : Lists N L
  key : N → K

/-- `new_node.value > node.value`. -/
def Keyed.greater (key : N → K) (n x : N) : Bool := decide (key x < key n)

/-- The new node comes after the nodes of smaller keys and before those of equal and greater ones. -/
theorem Lists.LinearOf.insertByKey {r : Lists N L} {l : L} {xs : List N} {n : N} {key : N → K} {debug : Bool}
    {fuel : Nat} (h : LinearOf r l xs) (hs : xs.Pairwise fun x y => key x ≤ key y) (hn : r.list n = none)
    (hf : xs.length ≤ fuel) :
    Ends (optimizedInsertSorted debug fuel (Keyed.greater key n) l n) (fun _ r' => ∃ ys zs, xs = ys ++ zs ∧
      (∀ y ∈ ys, key y < key n) ∧ (∀ z ∈ zs, key n ≤ key z) ∧ LinearOf r' l (ys ++ n :: zs) ∧
      (ys ++ n :: zs).Pairwise fun x y => key x ≤ key y) r := by
  refine (h.insertSorted hn hf).mono ?_
  rintro _ r' ⟨ys, zs, rfl, hys, hzs, hr⟩
  obtain ⟨h1, h2, h3⟩ := List.pairwise_append.mp hs
  have hlt : ∀ y ∈ ys, key y < key n := fun y hy => of_decide_eq_true (hys y hy)
  have hle : ∀ z ∈ zs, key n ≤ key z := by
    intro z hz
    cases zs with
    | nil => cases hz
    | cons x zs =>
        have hx : key n ≤ key x := not_lt.mp (of_decide_eq_false (hzs x rfl))
        rcases List.mem_cons.mp hz with rfl | hz
        · exact hx
        · exact le_trans hx ((List.pairwise_cons.mp h2).1 z hz)
  refine ⟨ys, zs, rfl, hlt, hle, hr, List.pairwise_append.mpr ⟨h1, List.pairwise_cons.mpr ⟨hle, h2⟩, ?_⟩⟩
  intro y hy z hz
  rcases List.mem_cons.mp hz with rfl | hz
  · exact le_of_lt (hlt y hy)
  · exact h3 y hy z hz

/-- The same, as `SortedPList::insert` calls it. -/
theorem Lists.LinearOf.insert {r : Lists N L} {l : L} {xs : List N} {n : N} {key : N → K} {debug : Bool}
    {op : ListOpCode} {fuel : Nat} (h : LinearOf r l xs) (hs : xs.Pairwise fun x y => key x ≤ key y)
    (hn : r.list n = none) (hf : xs.length ≤ fuel) :
    Ends (Lists.insertSorted debug op fuel (Keyed.greater key n) l n) (fun _ r' => ∃ ys zs, xs = ys ++ zs ∧
      LinearOf r' l (ys ++ n :: zs) ∧ (ys ++ n :: zs).Pairwise fun x y => key x ≤ key y) r := by
  unfold Lists.insertSorted
  rw [ends_bind, ends_startOpLog]
  have hends : Ends (optimizedInsertSorted debug fuel (Keyed.greater key n) l n) _
      { r with microOpOldLen := microOpOldLenOf op (r.len l) } := (h.setMicroOpOldLen _).insertByKey hs hn hf
  exact hends.mono fun _ _ ⟨ys, zs, hxs, _, _, hr, hascending⟩ => ⟨ys, zs, hxs, hr, hascending⟩

namespace Keyed

inductive Event (N : Type)
  | insertSorted (n : N)
  | remove (n : N)
  | popFront (popped : Option N)
  | elsewhere

/-- What other code leaves alone: the list, its nodes and their keys. -/
structure Untouched (l : L) (s s' : Keyed N L K) : Prop where
  len : s'.lists.len l = s.lists.len l
  cursor : s'.lists.cursor l = s.lists.cursor l
  head : s'.lists.head l = s.lists.head l
  list : ∀ n, s'.lists.list n = some l ↔ s.lists.list n = some l
  prev : ∀ n, s.lists.list n = some l → s'.lists.prev n = s.lists.prev n
  next : ∀ n, s.lists.list n = some l → s'.lists.next n = s.lists.next n
  key : ∀ n, s.lists.list n = some l → s'.key n = s.key n

/-- `optimized_insert_sorted` goes on for at most as many rounds as the list has nodes. -/
def insertSorted (debug : Bool) (l : L) (n : N) (s : Keyed N L K) : Prog (Lists N L) Unit :=
  Lists.optimizedInsertSorted debug (s.lists.len l) (greater s.key n) l n

inductive Step (debug : Bool) (l : L) : Event N → Keyed N L K → Keyed N L K → Prop
  | insertSorted {s : Keyed N L K} {n : N} {r : Lists N L} : s.lists.list n = none →
      (s.insertSorted debug l n s.lists).out = some ((), r) → Step debug l (.insertSorted n) s { s with lists := r }
  | remove {s : Keyed N L K} {n : N} {r : Lists N L} : s.lists.list n = none ∨ s.lists.list n = some l →
      (Lists.optimizedRemove debug l n s.lists).out = some ((), r) → Step debug l (.remove n) s { s with lists := r }
  | popFront {s : Keyed N L K} {popped : Option N} {r : Lists N L} :
      (Lists.optimizedPopFront l s.lists).out = some (popped, r) →
      Step debug l (.popFront popped) s { s with lists := r }
  | elsewhere {s s' : Keyed N L K} : Untouched l s s' → Step debug l .elsewhere s s'

/-- A run from an empty list, the last event first. -/
inductive Run (debug : Bool) (l : L) : List (Event N) → Keyed N L K → Prop
  | start {s : Keyed N L K} : s.lists.len l = 0 → s.lists.cursor l = none → s.lists.head l = none →
      (∀ n, s.lists.list n ≠ some l) → Run debug l [] s
  | step {s s' : Keyed N L K} {es : List (Event N)} {e : Event N} : Run debug l es s → Step debug l e s s' →
      Run debug l (e :: es) s'

/-- The node was inserted and not removed since. -/
def Inserted : List (Event N) → N → Prop
  | [], _ => False
  | .insertSorted m :: es, n => n = m ∨ Inserted es n
  | .remove m :: es, n => n ≠ m ∧ Inserted es n
  | .popFront popped :: es, n => popped ≠ some n ∧ Inserted es n
  | .elsewhere :: es, n => Inserted es n

/-- The list holds `xs`, in the order of the keys, and these are the nodes inserted and not removed. -/
structure Sorted (l : L) (es : List (Event N)) (s : Keyed N L K) (xs : List N) : Prop where
  linear : Lists.LinearOf s.lists l xs
  ascending : xs.Pairwise fun x y => s.key x ≤ s.key y
  inserted : ∀ n, n ∈ xs ↔ Inserted es n

variable {debug : Bool} {l : L} {s s' : Keyed N L K} {es : List (Event N)} {e : Event N} {xs : List N} {n : N}

/-! ## The three operations -/

/-- The new node comes after the nodes of smaller keys and before those of equal and greater ones. -/
theorem Sorted.insertSorted (h : Sorted l es s xs) (hn : s.lists.list n = none) :
    Ends (s.insertSorted debug l n) (fun _ r => ∃ ys zs, xs = ys ++ zs ∧ (∀ y ∈ ys, s.key y < s.key n) ∧
      (∀ z ∈ zs, s.key n ≤ s.key z) ∧ Lists.LinearOf r l (ys ++ n :: zs)) s.lists :=
  (h.linear.insertByKey h.ascending hn (Nat.le_of_eq h.linear.len.symm)).mono
    fun _ _ ⟨ys, zs, hxs, hys, hzs, hr, _⟩ => ⟨ys, zs, hxs, hys, hzs, hr⟩

theorem Sorted.step (h : Sorted l es s xs) (hstep : Step debug l e s s') : ∃ ys, Sorted l (e :: es) s' ys := by
  cases hstep with
  | @insertSorted _ n r hn hout =>
      obtain ⟨ys, zs, rfl, _, _, hr, hascending⟩ :=
        (h.linear.insertByKey h.ascending hn (Nat.le_of_eq h.linear.len.symm)).post hout
      refine ⟨ys ++ n :: zs, hr, hascending, fun m => ?_⟩
      have hm := h.inserted m
      simp only [List.mem_append, List.mem_cons] at hm ⊢
      rw [Inserted, ← hm]
      exact or_left_comm
  | @remove _ n r hn hout =>
      have hr := (h.linear.remove hn).post hout
      refine ⟨xs.erase n, hr, h.ascending.sublist List.erase_sublist, fun m => ?_⟩
      rw [h.linear.nodup.mem_erase_iff, h.inserted]
      exact Iff.rfl
  | @popFront _ popped r hout =>
      obtain ⟨rfl, hr⟩ := h.linear.popFront.post hout
      refine ⟨xs.tail, hr, h.ascending.sublist (List.tail_sublist xs), fun m => ?_⟩
      rw [Inserted, ← h.inserted]
      cases xs with
      | nil => simp
      | cons x xs =>
          have hx := (List.nodup_cons.mp h.linear.nodup).1
          simp only [List.tail_cons, List.head?_cons, ne_eq, Option.some.injEq, List.mem_cons]
          constructor
          · exact fun hm => ⟨fun he => hx (he ▸ hm), Or.inr hm⟩
          · exact fun ⟨hne, hm⟩ => hm.resolve_left fun he => hne he.symm
  | elsewhere hu =>
      have hlist : ∀ x ∈ xs, s.lists.list x = some l := fun x hx => (h.linear.owner x).mpr hx
      refine ⟨xs, ⟨?_, fun n => (hu.list n).trans (h.linear.owner n), h.linear.nodup⟩, ?_, h.inserted⟩
      · exact h.linear.toLinearAt.congr hu.len hu.cursor hu.head (fun x hx => hu.prev x (hlist x hx)) fun x hx =>
          hu.next x (hlist x hx)
      · refine h.ascending.imp_of_mem ?_
        intro x y hx hy hle
        rwa [hu.key x (hlist x hx), hu.key y (hlist y hy)]

theorem Run.sorted (h : Run debug l es s) : ∃ xs, Sorted l es s xs := by
  induction h with
  | start hlen hcursor hhead hlist =>
      exact ⟨[], ⟨⟨hlen, hcursor, hhead, trivial⟩, fun n => iff_of_false (hlist n) List.not_mem_nil, List.nodup_nil⟩,
        List.Pairwise.nil, fun _ => iff_of_false List.not_mem_nil id⟩
  | step _ hstep ih =>
      obtain ⟨xs, hxs⟩ := ih
      exact hxs.step hstep

/-- After every run the chain from the head is null-terminated and linked both ways, `len` is its length, its nodes
are those whose `list` is this list, and those inserted and not removed, in the order of the keys. From there each
operation returns: a new node goes before the nodes of equal key, a removed one goes out, the front is popped. -/
theorem sorted_list_correct (h : Run debug l es s) :
    ∃ xs : List N, s.lists.head l = xs.head? ∧ (∀ x, s.lists.head l = some x → s.lists.prev x = none) ∧
      Linked s.lists.prev s.lists.next none xs none ∧
      (∀ x ∈ xs, ∀ y ∈ xs, s.lists.next x = some y ↔ s.lists.prev y = some x) ∧
      s.lists.len l = xs.length ∧ xs.Nodup ∧ (∀ n, s.lists.list n = some l ↔ n ∈ xs) ∧
      (xs.Pairwise fun x y => s.key x ≤ s.key y) ∧ (∀ n, n ∈ xs ↔ Inserted es n) ∧
      (∀ n, s.lists.list n = none → Ends (s.insertSorted debug l n) (fun _ r => ∃ ys zs, xs = ys ++ zs ∧
        (∀ y ∈ ys, s.key y < s.key n) ∧ (∀ z ∈ zs, s.key n ≤ s.key z) ∧ Lists.LinearOf r l (ys ++ n :: zs)) s.lists) ∧
      (∀ n, s.lists.list n = none ∨ s.lists.list n = some l →
        Ends (Lists.optimizedRemove debug l n) (fun _ r => Lists.LinearOf r l (xs.erase n)) s.lists) ∧
      Ends (Lists.optimizedPopFront l) (fun popped r => popped = xs.head? ∧ Lists.LinearOf r l xs.tail) s.lists := by
  obtain ⟨xs, hxs⟩ := h.sorted
  have hlinks := hxs.linear.links
  refine ⟨xs, hxs.linear.head, fun x hx => ?_, hlinks, fun x hx y hy => hlinks.agree hx hy, hxs.linear.len,
    hxs.linear.nodup, hxs.linear.owner, hxs.ascending, hxs.inserted, fun n hn => hxs.insertSorted hn,
    fun n hn => hxs.linear.remove hn, hxs.linear.popFront⟩
  rw [hxs.linear.head] at hx
  obtain ⟨ys, rfl⟩ : ∃ ys, xs = x :: ys := ⟨_, List.eq_cons_of_mem_head? hx⟩
  exact hlinks.1

/-! ## A run -/

/-- The state after an insertion. -/
def afterInsert (debug : Bool) (l : L) (n : N) (s : Keyed N L K) : Keyed N L K :=
  match (s.insertSorted debug l n s.lists).out with
  | none => s
  | some (_, r) => { s with lists := r }

theorem Run.insertSorted (h : Run debug l es s) (hn : s.lists.list n = none) :
    Run debug l (.insertSorted n :: es) (s.afterInsert debug l n) := by
  obtain ⟨xs, hxs⟩ := h.sorted
  have hends : Ends (s.insertSorted debug l n) _ s.lists := hxs.insertSorted hn
  obtain ⟨_, r, hout, _⟩ := hends.returns
  have hs : s.afterInsert debug l n = { s with lists := r } := by rw [afterInsert, hout]
  rw [hs]
  exact h.step (.insertSorted hn hout)

/-- Node 0 has key 4, nodes 1 and 2 have key 3, and they enter in this order. -/
def threeKeys : Keyed Nat Unit Nat :=
  ((Keyed.mk Lists.new fun n => if n = 0 then 4 else 3).afterInsert true () 0).afterInsert true () 1
    |>.afterInsert true () 2

theorem run_threeKeys : Run true () [.insertSorted 2, .insertSorted 1, .insertSorted 0] threeKeys := by
  have hstart : Run true () [] (Keyed.mk (Lists.new : Lists Nat Unit) fun n => if n = 0 then 4 else 3) :=
    .start rfl rfl rfl fun _ => nofun
  exact ((hstart.insertSorted rfl).insertSorted rfl).insertSorted rfl

theorem sorted_list_correct_threeKeys :
    ∃ xs : List Nat, xs.head? = some 2 ∧ xs.length = 3 ∧
      Linked threeKeys.lists.prev threeKeys.lists.next none xs none := by
  obtain ⟨xs, hhead, _, hlinks, _, hlen, _⟩ := sorted_list_correct run_threeKeys
  exact ⟨xs, hhead.symm, hlen.symm, hlinks⟩

end Keyed

end IntOS
