import IntOS.Pmem.Room
import IntOS.User.Containers

/-!
# Iterators over elements (`src/user/pvec.rs`)

`IntoIter` and `Drain` are `RawValIter`: two pointers, between which the elements are that are left.
-/

namespace IntOS

open Persist

/-! ## What bodies compute -/

namespace PMVar

variable {b : Board} {x : PMVar b.width} {m : Nat → UInt8}

@[simp] theorem eval_deref : x.deref.eval m = (x.read m, m) := by
  unfold deref
  rw [Body.eval_bind, Body.eval_loadBytes]
  rfl

@[simp] theorem eval_assign (v : Nat) : (x.assign v).eval m = ((), x.set v m) := Body.eval_storeBytes _ _

@[simp] theorem objects_deref : x.deref.objects m = [] := by
  unfold deref
  rw [Body.objects_bind, Body.objects_loadBytes]
  rfl

@[simp] theorem objects_assign (v : Nat) : (x.assign v).objects m = [] := Body.objects_storeBytes _ _

end PMVar

namespace RawBuf

variable {b : Board} {r : RawBuf b.width} {x : PMVar b.width} {m : Nat → UInt8} {i k v : Nat}

@[simp] theorem eval_asMut : r.asMut.eval m = ((), m) := rfl

@[simp] theorem eval_read : (r.read i).eval m = (r.slot m i, m) := Body.eval_loadBytes _ _

@[simp] theorem eval_write (elem : Nat → UInt8) :
    (r.write i elem).eval m = ((), r.setSlot m i (bytesAt elem 0 r.elemSize)) := Body.eval_storeBytes _ _

@[simp] theorem objects_asMut : r.asMut.objects m = [r.raw] := rfl

@[simp] theorem objects_read : (r.read i).objects m = [] := Body.objects_loadBytes _ _

@[simp] theorem objects_write (elem : Nat → UInt8) : (r.write i elem).objects m = [] := Body.objects_storeBytes _ _

/-- A cursor is not among the elements. -/
theorem slot_set (hx : ∀ j, x.obj.Contains j → r.raw.Contains j) (hk : k < r.cap) :
    r.slot (x.set v m) k = r.slot m k := by
  refine bytesAt_congr fun j h1 h2 => PMVar.set_of_not fun hj => ?_
  have hend := slot_end_le hk
  have hapart := r.apart
  obtain ⟨h3, h4⟩ := hx j hj
  unfold Apart at hapart
  omega

end RawBuf

/-! ## Iterators -/

/-- `RawValIter`: where the elements begin and end that are left. -/
structure RawValIter where
  start : Nat
  stop : Nat

/-- A step of an iterator. -/
inductive Pull
  | next
  | nextBack
deriving DecidableEq

namespace RawValIter

variable {w : PtrWidth}

/-- `next` on elements of `size` bytes. -/
def next (size : Nat) (it : RawValIter) : Body w (Option (List UInt8) × RawValIter) :=
  if it.start = it.stop then
    pure (none, it)
  else do
    let elem ← Body.loadBytes it.start size
    pure (some elem, { it with start := it.start + size })

/-- `next_back`. -/
def nextBack (size : Nat) (it : RawValIter) : Body w (Option (List UInt8) × RawValIter) :=
  if it.start = it.stop then
    pure (none, it)
  else do
    let elem ← Body.loadBytes (it.stop - size) size
    pure (some elem, { it with stop := it.stop - size })

def sizeHint (size : Nat) (it : RawValIter) : Nat := (it.stop - it.start) / if size = 0 then 1 else size

def step (size : Nat) : Pull → RawValIter → Body w (Option (List UInt8) × RawValIter)
  | .next => next size
  | .nextBack => nextBack size

/-- What the steps yield, and the iterator after them. Its drop yields the rest to nobody. -/
def pulls (size : Nat) : List Pull → RawValIter → Body w (List (Option (List UInt8)) × RawValIter)
  | [], it => pure ([], it)
  | p :: ps, it => do
      let x ← step size p it
      let xs ← pulls size ps x.2
      pure (x.1 :: xs.1, xs.2)

/-- A step on a list that is taken from at both ends. -/
def pull {α : Type} : Pull → List α → Option α × List α
  | .next, l => (l.head?, l.tail)
  | .nextBack, l => (l.getLast?, l.dropLast)

def pulled {α : Type} : List Pull → List α → List (Option α) × List α
  | [], l => ([], l)
  | p :: ps, l => ((pull p l).1 :: (pulled ps (pull p l).2).1, (pulled ps (pull p l).2).2)

/-- What the steps of one kind have yielded, in their order. -/
def yielded {α : Type} (p : Pull) (ps : List Pull) (xs : List (Option α)) : List α :=
  (ps.zip xs).filterMap fun x => if x.1 = p then x.2 else none

/-- Whatever the order of the steps, each element is yielded at one of the ends or is left. -/
theorem pulled_once {α : Type} (ps : List Pull) (l : List α) :
    yielded .next ps (pulled ps l).1 ++ (pulled ps l).2 ++ (yielded .nextBack ps (pulled ps l).1).reverse = l := by
  induction ps generalizing l with
  | nil => simp [pulled, yielded]
  | cons p ps ih =>
      cases p with
      | next =>
          cases l with
          | nil => simpa [pulled, pull, yielded] using ih []
          | cons x l => simpa [pulled, pull, yielded] using ih l
      | nextBack =>
          rcases List.eq_nil_or_concat l with rfl | ⟨l, x, rfl⟩
          · simpa [pulled, pull, yielded] using ih []
          · have hih := ih l
            simp only [yielded] at hih
            simp only [pulled, pull, yielded, List.concat_eq_append, List.dropLast_concat, List.getLast?_concat,
              List.zip_cons_cons, List.filterMap_cons, if_true, List.reverse_cons, reduceCtorEq, if_false]
            rw [← List.append_assoc, hih]

variable {b : Board} {r : RawBuf b.width} {m : Nat → UInt8} {i j : Nat}

/-- The elements of the slots from `i` on, up to `j`. -/
def elements (r : RawBuf b.width) (m : Nat → UInt8) (i j : Nat) : List (List UInt8) :=
  (List.range' i (j - i)).map (r.slot m)

theorem elements_cons (h : i < j) : elements r m i j = r.slot m i :: elements r m (i + 1) j := by
  rw [elements, elements, show j - i = j - (i + 1) + 1 by omega, List.range'_succ]
  rfl

theorem elements_concat (h : i < j) : elements r m i j = elements r m i (j - 1) ++ [r.slot m (j - 1)] := by
  have hlast : i + 1 * (j - 1 - i) = j - 1 := by omega
  rw [elements, elements, show j - i = j - 1 - i + 1 by omega, List.range'_concat, List.map_append, hlast]
  rfl

/-- An iterator over the slots from `i` on, up to `j`. -/
def between (r : RawBuf b.width) (i j : Nat) : RawValIter := ⟨r.ptr + i * r.elemSize, r.ptr + j * r.elemSize⟩

theorem between_ne (hsize : 0 < r.elemSize) (h : i < j) : (between r i j).start ≠ (between r i j).stop := by
  intro heq
  have heq' := Nat.add_left_cancel heq
  have hmul := Nat.mul_lt_mul_of_pos_right h hsize
  omega

theorem eval_step (hsize : 0 < r.elemSize) (hij : i ≤ j) (p : Pull) : ∃ i' j', i' ≤ j' ∧
    (step r.elemSize p (between r i j) : Body b.width _).eval m =
      (((pull p (elements r m i j)).1, between r i' j'), m) ∧
    (pull p (elements r m i j)).2 = elements r m i' j' := by
  rcases Nat.lt_or_eq_of_le hij with hlt | rfl
  · cases p with
    | next =>
        refine ⟨i + 1, j, hlt, ?_, ?_⟩
        · simp only [step, next, if_neg (between_ne hsize hlt), Body.eval_bind, Body.eval_loadBytes, Body.eval_pure,
            elements_cons hlt, pull, List.head?_cons]
          simp [between, Nat.succ_mul, Nat.add_assoc, RawBuf.slot]
        · rw [elements_cons hlt]
          rfl
    | nextBack =>
        have hstop : r.ptr + j * r.elemSize - r.elemSize = r.ptr + (j - 1) * r.elemSize := by
          obtain ⟨k, rfl⟩ : ∃ k, j = k + 1 := ⟨j - 1, by omega⟩
          rw [Nat.succ_mul, Nat.add_sub_cancel]
          omega
        refine ⟨i, j - 1, by omega, ?_, ?_⟩
        · simp only [step, nextBack, if_neg (between_ne hsize hlt), Body.eval_bind, Body.eval_loadBytes, Body.eval_pure,
            elements_concat hlt, pull, List.getLast?_concat]
          simp [between, hstop, RawBuf.slot]
        · rw [elements_concat hlt]
          exact List.dropLast_concat
  · have hnil : elements r m i i = [] := by simp [elements]
    refine ⟨i, i, Nat.le_refl _, ?_⟩
    rw [hnil]
    cases p with
    | next => simp [step, next, pull, between]
    | nextBack => simp [step, nextBack, pull, between]

/-- The steps of an iterator are those on the list of its elements. -/
theorem eval_pulls (hsize : 0 < r.elemSize) (ps : List Pull) (hij : i ≤ j) : ∃ i' j', i' ≤ j' ∧
    (pulls r.elemSize ps (between r i j) : Body b.width _).eval m =
      (((pulled ps (elements r m i j)).1, between r i' j'), m) ∧
    (pulled ps (elements r m i j)).2 = elements r m i' j' := by
  induction ps generalizing i j with
  | nil => exact ⟨i, j, hij, rfl, rfl⟩
  | cons p ps ih =>
      obtain ⟨i', j', hij', heval, hpull⟩ := eval_step (m := m) hsize hij p
      obtain ⟨i'', j'', hij'', heval', hpulled⟩ := ih hij'
      refine ⟨i'', j'', hij'', ?_, ?_⟩
      · simp only [pulls, Body.eval_bind, heval, heval', Body.eval_pure, pulled, hpull]
      · simp only [pulled, hpull, hpulled]

/-- An iterator over elements of no size begins where it ends. -/
theorem eval_pulls_of_eq {size : Nat} (ps : List Pull) {it : RawValIter} (h : it.start = it.stop) :
    (pulls size ps it : Body b.width _).eval m = ((ps.map fun _ => none, it), m) := by
  have hstep : ∀ p : Pull, (step size p it : Body b.width _).eval m = ((none, it), m) := by
    intro p
    cases p with
    | next => simp [step, next, h]
    | nextBack => simp [step, nextBack, h]
  induction ps with
  | nil => rfl
  | cons p ps ih => simp only [pulls, Body.eval_bind, hstep, ih, Body.eval_pure, List.map_cons]

theorem objects_pulls {size : Nat} (ps : List Pull) (it : RawValIter) :
    (pulls size ps it : Body b.width _).objects m = [] := by
  have hstep : ∀ (p : Pull) (it : RawValIter) (m : Nat → UInt8), (step size p it : Body b.width _).objects m = [] := by
    intro p it m
    cases p with
    | next =>
        simp only [step, next]
        split
        · rfl
        · simp [Body.objects_bind]
    | nextBack =>
        simp only [step, nextBack]
        split
        · rfl
        · simp [Body.objects_bind]
  induction ps generalizing it m with
  | nil => rfl
  | cons p ps ih => simp only [pulls, Body.objects_bind, hstep, ih, Body.objects_pure, List.append_nil]

@[simp] theorem length_elements : (elements r m i j).length = j - i := by simp [elements]

theorem sizeHint_between (hsize : 0 < r.elemSize) : (between r i j).sizeHint r.elemSize = j - i := by
  simp only [sizeHint, between, if_neg hsize.ne']
  rw [Nat.add_sub_add_left, ← Nat.sub_mul, Nat.mul_div_cancel _ hsize]

theorem length_pulled {α : Type} (ps : List Pull) (l : List α) : (pulled ps l).1.length = ps.length := by
  induction ps generalizing l with
  | nil => rfl
  | cons p ps ih => exact congrArg (· + 1) (ih _)

/-- Once nothing is yielded, nothing is left. -/
theorem pulled_none {α : Type} {ps : List Pull} {l : List α} (h : none ∈ (pulled ps l).1) : (pulled ps l).2 = [] := by
  have hnil : ∀ ps : List Pull, (pulled ps ([] : List α)).2 = [] := by
    intro ps
    induction ps with
    | nil => rfl
    | cons p ps ih => cases p <;> exact ih
  induction ps generalizing l with
  | nil => cases h
  | cons p ps ih =>
      rcases List.mem_cons.mp h with h | h
      · have hl : l = [] := by cases p <;> simpa [pull] using h.symm
        subst hl
        exact hnil (p :: ps)
      · exact ih h

end RawValIter

namespace PVec

/-- `into_iter`. -/
def intoIter {w : PtrWidth} (v : PVec w) : Body w RawValIter := do
  let len ← v.len.deref
  pure ⟨v.ptr, v.ptr + len * v.elemSize⟩

variable {b : Board} {v : PVec b.width} {m : Nat → UInt8}

theorem eval_intoIter : v.intoIter.eval m = (RawValIter.between v.toRawBuf 0 (v.len.read m), m) := by
  unfold intoIter
  rw [Body.eval_bind, PMVar.eval_deref]
  simp [RawValIter.between]

theorem elements_content : RawValIter.elements v.toRawBuf m 0 (v.len.read m) = v.content m := by
  rw [RawValIter.elements, content, live, Nat.sub_zero, List.range_eq_range']

/-- In whatever order an iterator over a vector is asked for elements at its ends, it yields those at the front from
the first one on and those at the back from the last one on, each element once, until none is left. It knows how many
are left, and changes nothing. Of elements of no size it yields none. -/
theorem iter_yields (v : PVec b.width) (m : Nat → UInt8) (ps : List Pull) :
    ∃ xs it rest, (do
        let it ← v.intoIter
        RawValIter.pulls v.elemSize ps it : Body b.width _).eval m = ((xs, it), m) ∧
      xs.length = ps.length ∧
      RawValIter.yielded .next ps xs ++ rest ++ (RawValIter.yielded .nextBack ps xs).reverse = v.content m ∧
      (0 < v.elemSize → it.sizeHint v.elemSize = rest.length ∧ (none ∈ xs → rest = [])) ∧
      (v.elemSize = 0 → it.sizeHint v.elemSize = 0 ∧ ∀ x ∈ xs, x = none) := by
  rcases Nat.eq_zero_or_pos v.elemSize with hzero | hsize
  · have hnone : ∀ p, RawValIter.yielded p ps (ps.map fun _ => (none : Option (List UInt8))) = [] := by
      intro p
      unfold RawValIter.yielded
      rw [List.filterMap_eq_nil_iff]
      intro x hx
      obtain ⟨-, hx⟩ := List.of_mem_zip hx
      rw [List.eq_of_mem_map_const hx, ite_self]
    refine ⟨ps.map fun _ => none, RawValIter.between v.toRawBuf 0 (v.len.read m), v.content m, ?_,
      List.length_map _, ?_, fun h => absurd hzero h.ne', fun _ => ⟨?_, fun x hx => List.eq_of_mem_map_const hx⟩⟩
    · rw [Body.eval_bind, eval_intoIter]
      exact RawValIter.eval_pulls_of_eq ps (by simp [RawValIter.between, hzero])
    · rw [hnone, hnone, List.nil_append, List.reverse_nil, List.append_nil]
    · simp [RawValIter.sizeHint, RawValIter.between, hzero]
  · obtain ⟨i, j, _, heval, hleft⟩ := RawValIter.eval_pulls (m := m) hsize ps (Nat.zero_le (v.len.read m))
    rw [elements_content] at heval hleft
    refine ⟨_, RawValIter.between v.toRawBuf i j, (RawValIter.pulled ps (v.content m)).2, ?_,
      RawValIter.length_pulled ps _, RawValIter.pulled_once ps _, fun _ => ⟨?_, RawValIter.pulled_none⟩,
      fun h => absurd h hsize.ne'⟩
    · rw [Body.eval_bind, eval_intoIter]
      exact heval
    · rw [hleft, RawValIter.sizeHint_between hsize, RawValIter.length_elements]

/-- Of two elements, one is taken from each end. -/
theorem iter_yields_two :
    ∃ xs it rest, (do
        let it ← PVec.ofBytes.intoIter
        RawValIter.pulls 1 [.nextBack, .next, .next] it : Body .w32 _).eval
          (setBytes (fun _ => 0) 8 [2]) = ((xs, it), setBytes (fun _ => 0) 8 [2]) ∧
      RawValIter.yielded .next [.nextBack, .next, .next] xs ++ rest ++
        (RawValIter.yielded .nextBack [.nextBack, .next, .next] xs).reverse = [[0], [0]] ∧
      it.sizeHint 1 = rest.length ∧
      (none ∈ xs → rest = []) := by
  obtain ⟨xs, it, rest, heval, _, hyielded, hsized, _⟩ := iter_yields (b := ⟨.w32, 64, false, false⟩) PVec.ofBytes
    (setBytes (fun _ => 0) 8 [2]) [.nextBack, .next, .next]
  exact ⟨xs, it, rest, heval, hyielded, hsized (by decide)⟩

end PVec

end IntOS
