import IntOS.Sched.Runs

/-!
# What the lists of the scheduler hold

The lists as sequences of nodes, each from its cursor or its head, and what the list transactions do to
them. `Effect` says once what an operation does; the order in which tasks run and wake is read off it.
-/

namespace IntOS

open Persist Persist.Prog IntOS.Lists

abbrev Contents := ListRef → List NodeRef

namespace Contents

/-- The place of a new node in a list in the order of `gt`. -/
def insertSorted (gt : NodeRef → Bool) (n : NodeRef) (xs : List NodeRef) : List NodeRef :=
  xs.takeWhile gt ++ n :: xs.dropWhile gt

/-- A task enters the ready list `p`, before the cursor: after all others. -/
def join (p t : Nat) (q : Contents) : Contents
  | .ready p' => if p' = p then q (.ready p') ++ [.sched t] else q (.ready p')
  | l => q l

/-- A task leaves the delayed list and its wait list for its ready list. -/
def wake (prio : Nat → Nat) (t : Nat) (q : Contents) : Contents
  | .ready p => if p = prio t then q (.ready p) ++ [.sched t] else q (.ready p)
  | .delayed => (q .delayed).erase (.sched t)
  | .waiting w => (q (.waiting w)).erase (.event t)

/-- A task leaves its ready list for the delayed list. -/
def sleep (wk : Nat → Nat) (t : Nat) (q : Contents) : Contents
  | .ready p => (q (.ready p)).erase (.sched t)
  | .delayed => insertSorted (Kernel.wakesLater wk t) (.sched t) (q .delayed)
  | .waiting w => q (.waiting w)

/-- A task enters a wait list in the order of priorities. -/
def wait (prio : Nat → Nat) (w t : Nat) (q : Contents) : Contents :=
  Function.update q (.waiting w) (insertSorted (Kernel.moreImportant prio t) (.event t) (q (.waiting w)))

/-- A task enters the wait list of an event group. -/
def waitFront (w t : Nat) (q : Contents) : Contents := Function.update q (.waiting w) (.event t :: q (.waiting w))

/-- The cursor of the ready list `p` moves on. -/
def turn (p : Nat) (q : Contents) : Contents := Function.update q (.ready p) ((q (.ready p)).rotate 1)

variable {gt : NodeRef → Bool} {n : NodeRef} {xs ys : List NodeRef} {q : Contents} {p t w : Nat}

theorem insertSorted_append (hxs : ∀ x ∈ xs, gt x) (hys : ∀ y, ys.head? = some y → gt y = false) :
    insertSorted gt n (xs ++ ys) = xs ++ n :: ys := by
  have htake : ys.takeWhile gt = [] := by
    cases ys with
    | nil => rfl
    | cons y ys => simp [hys y rfl]
  have hdrop : ys.dropWhile gt = ys := by
    cases ys with
    | nil => rfl
    | cons y ys => simp [hys y rfl]
  rw [insertSorted, List.takeWhile_append_of_pos hxs, List.dropWhile_append_of_pos hxs, htake, hdrop, List.append_nil]

theorem mem_insertSorted {m : NodeRef} : m ∈ insertSorted gt n xs ↔ m = n ∨ m ∈ xs := by
  have h : m ∈ xs ↔ m ∈ xs.takeWhile gt ++ xs.dropWhile gt := by rw [List.takeWhile_append_dropWhile]
  rw [h]
  simp only [insertSorted, List.mem_append, List.mem_cons]
  exact or_left_comm

theorem join_eq : join p t q = Function.update q (.ready p) (q (.ready p) ++ [.sched t]) := by
  funext l
  cases l with
  | ready p' =>
      by_cases hp : p' = p
      · subst hp
        simp [join]
      · simp [join, hp]
  | delayed => rfl
  | waiting w => rfl

end Contents

namespace Kernel

/-- The lists of `k` hold `q`. -/
def Shows (k : Kernel) (q : Contents) : Prop := Holds ListRef.IsReady k.lists q

variable {cfg : Config} {k k' : Kernel} {q q' : Contents} {t w : Nat} {Q : Unit → Kernel → Prop}

theorem Inv.shows (h : Inv k) : ∃ q, Shows k q := h.linked.imp fun _ h => h.1

theorem Shows.mem (h : Shows k q) {n : NodeRef} {l : ListRef} : n ∈ q l ↔ k.lists.list n = some l := (h.owner l n).symm

theorem Shows.cursor (h : Shows k q) (p : Nat) : k.lists.cursor (.ready p) = (q (.ready p)).head? :=
  (h.rings (.ready p) trivial).cursor

theorem Shows.head (h : Shows k q) {l : ListRef} (hl : ¬ l.IsReady) : k.lists.head l = (q l).head? :=
  (h.linears l hl).head

/-- The node after the cursor. -/
theorem Shows.peekNext (h : Shows k q) (p : Nat) : peekNext k.lists (.ready p) = ((q (.ready p)).rotate 1).head? := by
  have hlinks := (h.rings (.ready p) trivial).links
  unfold Lists.peekNext
  rw [h.cursor p]
  cases hq : q (.ready p) with
  | nil => rfl
  | cons c xs =>
      rw [hq] at hlinks
      rw [List.rotate_cons_succ, List.rotate_zero, List.head?_cons, Option.bind_some, hlinks.2.1, List.head?_append]
      rfl

/-! ## The operations on the sequences -/

/-- Nothing that the order of the tasks depends on changes. -/
structure Rests (k k' : Kernel) : Prop where
  taskCnt : k'.taskCnt = k.taskCnt
  priority : k'.priority = k.priority
  status : k'.status = k.status
  current : k'.current = k.current

/-- A task changes its state. -/
structure Turns (k : Kernel) (t : Nat) (v : TaskState) (k' : Kernel) : Prop where
  taskCnt : k'.taskCnt = k.taskCnt
  priority : k'.priority = k.priority
  status : k'.status = Function.update k.status t v
  current : k'.current = k.current

/-- Some delayed tasks wake up, one after the other. -/
inductive Wakes : Kernel → Contents → Kernel → Contents → Prop
  | rest {k k' : Kernel} {q : Contents} : Rests k k' → Wakes k q k' q
  | wake {k k₁ k' : Kernel} {q q' : Contents} {t : Nat} : .sched t ∈ q .delayed → Turns k t .ready k₁ →
      Wakes k₁ (q.wake k.priority t) k' q' → Wakes k q k' q'

structure Creates (k : Kernel) (prio : Nat) (k' : Kernel) : Prop where
  lt : prio < numPriorityLevels
  taskCnt : k'.taskCnt = k.taskCnt + 1
  priority : k'.priority = Function.update k.priority k.taskCnt prio
  status : k'.status = Function.update k.status k.taskCnt .ready
  current : k'.current = k.current ∨ k.schedulerStarted = false ∧ k'.current = some k.taskCnt

structure Switches (k : Kernel) (i prevTask t : Nat) (k' : Kernel) : Prop where
  ne : t ≠ prevTask
  next : nextTask k = some (i, t)
  prev : k.current = some prevTask
  taskCnt : k'.taskCnt = k.taskCnt
  priority : k'.priority = k.priority
  status : k'.status = Function.update (Function.update k.status t .running) prevTask
    (if k.status prevTask = .blocked then .blocked else .ready)
  current : k'.current = some t

/-- What each operation does. -/
inductive Effect : Op → Kernel → Contents → Kernel → Contents → Prop
  | wakes {op : Op} {k k' : Kernel} {q q' : Contents} : Wakes k q k' q' → Effect op k q k' q'
  | create {prio : Nat} {k k' : Kernel} {q : Contents} : Creates k prio k' →
      Effect (.createTask prio) k q k' (q.join prio k.taskCnt)
  | delay {nticks t : Nat} {k k' : Kernel} {q : Contents} : k.current = some t → k.status t ≠ .blocked →
      Turns k t .blocked k' → Effect (.taskDelay nticks) k q k' (q.sleep k'.wakeupTime t)
  | block {w wakeupTime t : Nat} {k k' : Kernel} {q : Contents} : k.current = some t → k.status t ≠ .blocked →
      Turns k t .blocked k' →
      Effect (.block w wakeupTime) k q k' ((q.sleep k'.wakeupTime t).wait k.priority w t)
  | blockUnsorted {w wakeupTime t : Nat} {k k' : Kernel} {q : Contents} : k.current = some t →
      k.status t ≠ .blocked → Turns k t .blocked k' →
      Effect (.blockUnsorted w wakeupTime) k q k' ((q.sleep k'.wakeupTime t).waitFront w t)
  | switch {i prevTask t : Nat} {k k' : Kernel} {q : Contents} : Switches k i prevTask t k' →
      Effect .taskSwitch k q k' (q.turn i)

end Kernel

end IntOS
