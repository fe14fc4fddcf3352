import IntOS.List.Lemmas.Journaled
import IntOS.Semaphore.Wakeup

/-!
# `semaphore_give` without `opt_list`

One transaction counts and wakes the first waiter; what it changes is logged to the journal. The version with
`opt_list` decides whether to yield before the waiter is woken, while it is not ready.
-/

namespace IntOS

open Persist Persist.Prog IntOS.Lists

/-! ## Both versions -/

namespace Semaphore

variable {α : Type}

/-- The sizes that `append_log_of` checks. -/
structure Journal extends NodeJournal where
  semSz : Nat
  statusSz : Nat
  /-- The record of a status is a small one. -/
  statusSz_le : statusSz ≤ max recordSz listSz

structure JournaledMachine where
  machine : Machine
  tail : Nat
  saved : List (Saved NodeRef ListRef)

namespace JournaledMachine

def onMachine (m : Prog Machine α) : Prog JournaledMachine α :=
  zoom (·.machine) (fun m s => { s with machine := m }) m

def journaled (s : JournaledMachine) : Journaled NodeRef ListRef := ⟨s.machine.kernel.lists, s.tail, s.saved⟩

def relinked (s : JournaledMachine) (r : Journaled NodeRef ListRef) : JournaledMachine where
  machine := { s.machine with kernel := { s.machine.kernel with lists := r.lists } }
  tail := r.tail
  saved := r.saved

def onJournaled (m : Prog (Journaled NodeRef ListRef) α) : Prog JournaledMachine α :=
  zoom journaled (fun r s => s.relinked r) m

/-- `append_log_of` what is neither a node nor a list. Only a rollback reads what it saves. -/
def appendLogOf (j : Journal) (recordSz : Nat) : Prog JournaledMachine Unit := do
  let tail ← gets (·.tail)
  check (tail + recordSz ≤ j.journalSize)
  store fun s => { s with tail := tail + recordSz }

/-- `Task::remove_from_delayed_list`. -/
def removeFromDelayedList (cfg : Config) (j : Journal) (t : Nat) : Prog JournaledMachine Unit := do
  onJournaled (Journaled.borrowMut j.toNodeJournal .delayed)
  onJournaled (Journaled.remove j.toNodeJournal cfg.debugAssertions .delayed (.sched t))

/-- `Task::add_node_to_ready_list`. -/
def addNodeToReadyList (cfg : Config) (j : Journal) (t : Nat) : Prog JournaledMachine Unit := do
  let prio ← gets (·.machine.kernel.priority t)
  onJournaled (Journaled.borrowMut j.toNodeJournal (.ready prio))
  onJournaled (Journaled.insertBeforeCursorImpl j.toNodeJournal cfg.debugAssertions (.ready prio) (.sched t))
  appendLogOf j j.statusSz
  onMachine (onKernel (Kernel.setStatus t .ready))

/-- `Semaphore::wakeup_blocked_task`. -/
def wakeupBlockedTask (cfg : Config) (j : Journal) (sem : Semaphore) : Prog JournaledMachine (Option Nat) := do
  match ← onJournaled (Journaled.popFront j.toNodeJournal (.waiting sem.waitList)) with
  | none => pure none
  | some eventNode => do
      removeFromDelayedList cfg j eventNode.task
      addNodeToReadyList cfg j eventNode.task
      pure (some eventNode.task)

/-- `Semaphore::give`: the woken task. -/
def give (cfg : Config) (j : Journal) (sem : Semaphore) : Prog JournaledMachine (Option Nat) := do
  let count ← gets (·.machine.count)
  if count = sem.size then
    pure none
  else do
    check (count < sem.size)
    onMachine (store fun m => { m with count := m.count + 1 })
    wakeupBlockedTask cfg j sem

/-- The transaction of `semaphore_give`, which sets `yield_now`. -/
def semaphoreGive (cfg : Config) (j : Journal) (sem : Semaphore) : Prog JournaledMachine Bool := do
  appendLogOf j j.semSz
  match ← give cfg j sem with
  | none => pure false
  | some task => do
      let current ← onMachine (onKernel Kernel.getCurrent)
      gets fun s => s.machine.kernel.priority task < s.machine.kernel.priority current

end JournaledMachine

/-- The count, the wait list, the delayed list and the ready rings with all nodes, and the statuses. -/
structure Observed where
  count : Nat
  lists : Lists NodeRef ListRef
  status : Nat → TaskState

/-- The log of the list operations is no part of the lists. -/
def Machine.observed (m : Machine) : Observed :=
  ⟨m.count, { m.kernel.lists with microOpOldLen := 0 }, m.kernel.status⟩

/-- What `semaphore_give` leaves, with its `yield_now`. -/
def given (cfg : Config) (sem : Semaphore) (m : Machine) : Option (Bool × Observed) :=
  (semaphoreGive cfg sem m).out.map (Prod.map id Machine.observed)

/-- A task gives whose bit `list_tx_done` is clear. The lists are well linked, a task that waits for the semaphore is
in the delayed list, and the journal has room for what one call changes. -/
structure Giving (j : Journal) (sem : Semaphore) (t : Nat) (s : JournaledMachine) : Prop where
  linked : Kernel.WellOrdered s.machine.kernel.wakeupTime s.machine.kernel.lists
  waiting : ∀ n, s.machine.kernel.lists.list n = some (.waiting sem.waitList) →
    n = .event n.task ∧ s.machine.kernel.lists.list (.sched n.task) = some .delayed
  current : s.machine.kernel.current = some t
  clear : s.machine.kernel.listTxDone t = false
  room : Journaled.Room j.toNodeJournal 10 { s.journaled with tail := s.tail + j.semSz }

/-! ## The version with `opt_list` -/

variable {cfg : Config} {j : Journal} {sem : Semaphore} {m : Machine} {s : JournaledMachine} {t u : Nat}

section
open Kernel

theorem Giving.of_inv (h : Inv s.machine.kernel) (hcur : s.machine.kernel.current = some t)
    (hclear : s.machine.kernel.listTxDone t = false)
    (hroom : Journaled.Room j.toNodeJournal 10 { s.journaled with tail := s.tail + j.semSz }) : Giving j sem t s where
  linked := h.linked
  waiting _ hn := (h.waiting hn).2
  current := hcur
  clear := hclear
  room := hroom

/-- The head of the wait list is an event node. -/
theorem Giving.first (h : Giving j sem t s) {n : NodeRef}
    (hhead : s.machine.kernel.lists.head (.waiting sem.waitList) = some n) : ∃ u, n = .event u :=
  ⟨n.task, (h.waiting n (h.linked.popped id hhead).1).1⟩

/-- It decides about the yield before the wake-up. -/
def yieldNow (k : Kernel) (w t : Nat) : Bool :=
  (k.lists.head (.waiting w)).any fun n => k.priority n.task < k.priority t && k.status n.task == .ready

variable {r : Journaled NodeRef ListRef} {Q : Unit → JournaledMachine → Prop} {i : Nat}

theorem ends_onJournaled {α : Type} {p : Prog (Journaled NodeRef ListRef) α} {P : α → Journaled NodeRef ListRef → Prop}
    {Q : α → JournaledMachine → Prop} (h : Ends p P r) (hQ : ∀ a r', P a r' → Q a (s.relinked r')) :
    Ends (JournaledMachine.onJournaled p) Q (s.relinked r) := ends_zoom.mpr (h.mono hQ)

theorem ends_borrowMut {l : ListRef} (hroom : Journaled.Room j.toNodeJournal (i + 1) r)
    (h : ∀ r', r'.lists = r.lists → Journaled.Room j.toNodeJournal i r' → Q () (s.relinked r')) :
    Ends (JournaledMachine.onJournaled (Journaled.borrowMut j.toNodeJournal l)) Q (s.relinked r) := by
  refine ends_onJournaled (P := fun _ r' => r'.lists = r.lists ∧ Journaled.Room j.toNodeJournal i r') ?_ ?_
  · exact Journaled.ends_borrowMut hroom fun saved hroom => ⟨rfl, hroom⟩
  · exact fun _ r' hr => h r' hr.1 hr.2

theorem ends_removeFromDelayedList {wk : Nat → Nat} (hlinked : WellOrdered wk r.lists)
    (hn : r.lists.list (.sched u) = some .delayed) (hroom : Journaled.Room j.toNodeJournal (i + 4) r)
    (h : ∀ r', r'.lists = removed r.lists .delayed (.sched u) → Journaled.Room j.toNodeJournal i r' →
      Q () (s.relinked r')) :
    Ends (JournaledMachine.removeFromDelayedList cfg j u) Q (s.relinked r) := by
  unfold JournaledMachine.removeFromDelayedList
  rw [ends_bind]
  refine ends_borrowMut hroom fun r₁ hlists hroom => ?_
  obtain ⟨hlen, hone, _⟩ := hlinked.linear id hn
  have hsome : r.lists.list (.sched u) ≠ none := fun he => Option.some_ne_none _ (hn.symm.trans he)
  rw [← hlists] at hlen hone hsome h
  refine ends_onJournaled (Journaled.remove_leaves hsome hlen hone hroom) ?_
  exact fun _ r' hr => h r' hr.1 hr.2

end

end Semaphore

end IntOS
