import IntOS.Lib.History
import IntOS.Queue.Wakeup
import IntOS.Sched.Lemmas.Clock

/-!
# What the calls on a queue return

The rounds in which calls end are the points at which they take effect: in their order, the calls are those on a
bounded list. A call that fails has waited for its ticks.
-/

namespace IntOS

open Persist Persist.Prog History

variable {w : PtrWidth} {cfg : Config} {q : Queue w} {lists : QueueLists}

namespace Queue

variable {op : Op} {l : List (List UInt8)} {n z : Nat}

theorem listStep_error {e : QueueErr} (he : (listStep n z op l).1 = .error e) :
    listStep n z op l = (.error (System.Role.err op.role), l) := by
  cases op with
  | pushBack item =>
      simp only [listStep] at he ⊢
      split
      case isTrue => rfl
      case isFalse hroom =>
        rw [if_neg hroom] at he
        cases he
  | pushFront item =>
      simp only [listStep] at he ⊢
      split
      case isTrue => rfl
      case isFalse hroom =>
        rw [if_neg hroom] at he
        cases he
  | dequeue =>
      cases l with
      | nil => rfl
      | cons x l => cases he

/-! ## The items of a history -/

/-- The item that a call puts in. -/
def sentBy (z : Nat) : Op × Except QueueErr (List UInt8) → Option (List UInt8)
  | (.pushBack item, .ok _) => some (bytesAt item 0 z)
  | (.pushFront item, .ok _) => some (bytesAt item 0 z)
  | _ => none

/-- The item that a call takes out. -/
def receivedBy : Op × Except QueueErr (List UInt8) → Option (List UInt8)
  | (.dequeue, .ok x) => some x
  | _ => none

/-- A call adds what it sends to the list, and takes what it receives out of it. -/
theorem listStep_perm (op : Op) (l : List (List UInt8)) :
    (l ++ (sentBy z (op, (listStep n z op l).1)).toList).Perm
      ((receivedBy (op, (listStep n z op l).1)).toList ++ (listStep n z op l).2) := by
  cases op with
  | pushBack item =>
      simp only [listStep]
      split
      · simp [sentBy, receivedBy]
      · simp [sentBy, receivedBy]
  | pushFront item =>
      simp only [listStep]
      split
      · simp [sentBy, receivedBy]
      · simp [sentBy, receivedBy]
  | dequeue =>
      cases l with
      | nil => simp [listStep, sentBy, receivedBy]
      | cons x l => simp [listStep, sentBy, receivedBy]

/-- Items come out at one end and go in at the other. -/
theorem listStep_fifo (hop : ∀ item, op ≠ .pushFront item) :
    l ++ (sentBy z (op, (listStep n z op l).1)).toList =
      (receivedBy (op, (listStep n z op l).1)).toList ++ (listStep n z op l).2 := by
  cases op with
  | pushBack item =>
      simp only [listStep]
      split
      · simp [sentBy, receivedBy]
      · simp [sentBy, receivedBy]
  | pushFront item => exact absurd rfl (hop item)
  | dequeue =>
      cases l with
      | nil => simp [listStep, sentBy, receivedBy]
      | cons x l => simp [listStep, sentBy, receivedBy]

theorem filterMap_append_one {α β : Type} (f : α → Option β) (xs : List α) (x : α) :
    (xs ++ [x]).filterMap f = xs.filterMap f ++ (f x).toList := by
  rw [List.filterMap_append]
  cases hx : f x with
  | none => simp [hx]
  | some y => simp [hx]

theorem perm_of_answers {h : List (Op × Except QueueErr (List UInt8))} (hans : Answers (listStep n z) h [] l) :
    (h.filterMap (sentBy z)).Perm (h.filterMap receivedBy ++ l) := by
  refine hans.keeps (I := fun h l => (h.filterMap (sentBy z)).Perm (h.filterMap receivedBy ++ l)) .nil ?_
  intro h l op hperm
  rw [filterMap_append_one, filterMap_append_one, List.append_assoc]
  refine (hperm.append_right _).trans ?_
  rw [List.append_assoc]
  exact (listStep_perm op l).append_left _

theorem fifo_of_answers {h : List (Op × Except QueueErr (List UInt8))} (hans : Answers (listStep n z) h [] l)
    (hback : ∀ x ∈ h, ∀ item, x.1 ≠ .pushFront item) :
    h.filterMap (sentBy z) = h.filterMap receivedBy ++ l := by
  refine hans.keeps (I := fun h l => (∀ x ∈ h, ∀ item, x.1 ≠ .pushFront item) →
    h.filterMap (sentBy z) = h.filterMap receivedBy ++ l) (fun _ => rfl) ?_ hback
  intro h l op hfifo hmem
  have hop : ∀ item, op ≠ .pushFront item := hmem (op, _) (List.mem_append_right _ List.mem_cons_self)
  rw [filterMap_append_one, filterMap_append_one, hfifo fun x hx => hmem x (List.mem_append_left _ hx),
    List.append_assoc, List.append_assoc, listStep_fifo hop]

theorem length_of_answers {h : List (Op × Except QueueErr (List UInt8))} (hans : Answers (listStep n z) h [] l) :
    l.length ≤ n := by
  refine hans.keeps (I := fun _ l => l.length ≤ n) (Nat.zero_le n) ?_
  intro h l op hlen
  cases op with
  | pushBack item =>
      simp only [listStep]
      split
      · exact hlen
      · simp only [List.length_append, List.length_singleton]
        omega
  | pushFront item =>
      simp only [listStep]
      split
      · exact hlen
      · simp only [List.length_cons]
        omega
  | dequeue =>
      cases l with
      | nil => exact hlen
      | cons x l => exact Nat.le_of_succ_le hlen

end Queue

namespace System

open Kernel

variable {s s' s₀ s₁ : System} {t : Nat}

/-! ## Calls take effect in the order of their last rounds -/

/-- A call at its end. -/
structure Return where
  task : Nat
  op : Queue.Op
  res : Except QueueErr (List UInt8)

/-- The call whose last round is this step. -/
def returns (s s' : System) : List Return :=
  match s.kernel.current with
  | none => []
  | some t =>
      match s.activity t, s'.activity t with
      | .trying op _, .leaving res => [⟨t, op, res⟩]
      | _, _ => []

/-- The operation and its reply. -/
def Return.call (r : Return) : Queue.Op × Except QueueErr (List UInt8) := (r.op, r.res)

theorem returns_of_executes (ht : s.Executes t) : returns s s' =
    match s.activity t, s'.activity t with
    | .trying op _, .leaving res => [⟨t, op, res⟩]
    | _, _ => [] := by
  rw [returns, ht.1]

/-- The activities stay, so no call ends. -/
theorem returns_of_same (hact : s'.activity = s.activity) : returns s s' = [] := by
  unfold returns
  rw [hact]
  cases s.kernel.current with
  | none => rfl
  | some t =>
      dsimp only
      cases s.activity t <;> rfl

/-- A round answers as the list does, or leaves the items as they are and goes on. -/
theorem after_round {m : Machine} {op : Queue.Op} {c : Countdown} (h : q.WellFormed m.mem) :
    After (Machine.round cfg q lists op c) (fun o m' => match o with
      | .yield _ => q.content m'.mem = q.content m.mem
      | .exit res => Queue.listStep q.length q.itemSize op (q.content m.mem) = (res, q.content m'.mem)) m := by
  have hs := h.serves op
  rw [round_eq]
  simp only [Machine.queueRound, Machine.tryRunRelaxed, after_bind, after_gets, after_store, after_pure]
  cases hr : ((op.body q).eval m.mem).1 with
  | error e =>
      have hlist := Queue.listStep_error (hs.reply.symm.trans hr)
      have hsame := hs.unchanged e hr
      rw [hsame]
      by_cases hwait : c.waitTicks ≠ 0
      · simp only [if_pos hwait, after_bind, after_gets, Machine.onKernel]
        refine after_zoom.mpr (After.of_forall fun _ _ => ?_)
        rw [after_bind]
        exact after_zoom.mpr (After.of_forall fun _ _ => rfl)
      · simp only [if_neg hwait]
        exact hlist
  | ok item =>
      simp only [after_bind, Machine.onKernel]
      refine after_zoom.mpr (After.of_forall fun _ _ => ?_)
      exact Prod.ext (hs.reply.symm.trans hr) hs.content.symm

theorem Counted.answers (h : Counted q lists s) (hs : Step cfg q lists s s') :
    Answers (Queue.listStep q.length q.itemSize) ((returns s s').map Return.call) (q.content s.machine.mem)
      (q.content s'.machine.mem) := by
  cases hs with
  | call op waitTicks ht ha =>
      rw [returns_of_executes ht, ha]
      rfl
  | @round _ op c o m' ht ha hout =>
      have hround := (after_round h.wellFormed).post hout
      rw [returns_of_executes ht, ha]
      dsimp only
      rw [Function.update_self]
      cases o with
      | yield c' => exact hround.symm
      | exit res =>
          simp only [Outcome.activity, List.map_singleton, Return.call, Answers, hround]
          exact ⟨trivial, trivial⟩
  | resume ht ha =>
      rw [returns_of_executes ht, ha]
      rfl
  | syscallBegin ht ha =>
      rw [returns_of_executes ht, ha]
      rfl
  | syscallEnd ht ha hout =>
      rw [returns_of_executes ht]
      rcases ha with ha | ⟨res, ha⟩
      · rw [ha]
        rfl
      · rw [ha]
        rfl
  | @other op k ho hother hout =>
      have hnone : returns s { s with machine := { s.machine with kernel := k } } = [] := returns_of_same rfl
      rw [hnone]
      rfl

/-- A task that leaves with its reply has left before, or its call ends in this step. -/
theorem Step.leaving {res : Except QueueErr (List UInt8)} (hs : Step cfg q lists s s')
    (hres : s'.activity t = .leaving res) :
    (s.activity t = .leaving res ∧ ∀ r ∈ returns s s', r.task ≠ t) ∨ ∃ op, returns s s' = [⟨t, op, res⟩] := by
  have hquiet : s.activity t = .leaving res → ∀ r ∈ returns s s', r.task ≠ t := by
    intro hleft r hr hrt
    unfold returns at hr
    cases hcur : s.kernel.current with
    | none => simp [hcur] at hr
    | some u =>
        rw [hcur] at hr
        dsimp only at hr
        split at hr
        case h_1 op c res' hu hu' =>
          rw [List.mem_singleton.mp hr] at hrt
          dsimp only at hrt
          rw [hrt, hleft] at hu
          cases hu
        case h_2 => cases hr
  suffices hor : s.activity t = .leaving res ∨ ∃ op, returns s s' = [⟨t, op, res⟩] from
    hor.imp_left fun hleft => ⟨hleft, hquiet hleft⟩
  have hmoved : ∀ {u a}, a ≠ .leaving res → Function.update s.activity u a t = .leaving res →
      s.activity t = .leaving res := by
    intro u a ha hu
    by_cases htu : t = u
    · rw [htu, Function.update_self] at hu
      exact absurd hu ha
    · rwa [Function.update_of_ne htu] at hu
  cases hs with
  | call op waitTicks ht ha => exact Or.inl (hmoved (fun h => by cases h) hres)
  | @round u op c o m' ht ha hout =>
      by_cases htu : t = u
      · subst htu
        dsimp only at hres
        rw [Function.update_self] at hres
        refine Or.inr ⟨op, ?_⟩
        rw [returns_of_executes ht, ha]
        dsimp only
        rw [Function.update_self, hres]
      · dsimp only at hres
        rw [Function.update_of_ne htu] at hres
        exact Or.inl hres
  | resume ht ha => exact Or.inl (hmoved (fun h => by cases h) hres)
  | syscallBegin ht ha => exact Or.inl (hmoved (fun h => by cases h) hres)
  | syscallEnd ht ha hout => exact Or.inl (hmoved (fun h => by cases h) hres)
  | other ho hother hout => exact Or.inl hres

/-- A new queue is empty. -/
theorem content_start (cfg : Config) (q : Queue w) (m : Nat → UInt8) : q.content (start cfg q m).machine.mem = [] :=
  List.length_eq_zero_iff.mp (q.init_holds m).length_content

/-- The calls of a run, in the order of their last rounds, are those on the list. -/
theorem run_answers {m : Nat → UInt8} {h : List Return}
    (hrun : Run (Noted (Step cfg q lists) returns) (start cfg q m) h s) :
    Answers (Queue.listStep q.length q.itemSize) (h.map Return.call) [] (q.content s.machine.mem) := by
  have hans : Answers (Queue.listStep q.length q.itemSize) (h.map Return.call)
      (q.content (start cfg q m).machine.mem) (q.content s.machine.mem) := by
    refine Run.answers Return.call (fun s => q.content s.machine.mem) hrun (counted_start cfg q lists m) ?_
    rintro s es s' hc ⟨hs, rfl⟩
    exact ⟨hc.step hs, hc.answers hs⟩
  rwa [content_start] at hans

/-- In every run of any number of tasks, the calls on the queue take effect one after the other, each in its last
round: they are answered as a list of at most `length` items answers them in that order, which holds the content of
the queue at the end, and each task leaves with the reply of its last call. -/
theorem queue_linearizable {m : Nat → UInt8} {h : List Return}
    (hrun : Run (Noted (Step cfg q lists) returns) (start cfg q m) h s) :
    Answers (Queue.listStep q.length q.itemSize) (h.map Return.call) [] (q.content s.machine.mem) ∧
      ∀ t res, s.activity t = .leaving res → ∃ h₁ op h₂, h = h₁ ++ ⟨t, op, res⟩ :: h₂ ∧ ∀ r ∈ h₂, r.task ≠ t := by
  refine ⟨run_answers hrun, ?_⟩
  refine hrun.invariant (I := fun h s => ∀ t res, s.activity t = .leaving res →
    ∃ h₁ op h₂, h = h₁ ++ ⟨t, op, res⟩ :: h₂ ∧ ∀ r ∈ h₂, r.task ≠ t) (fun _ _ h => by cases h) ?_
  rintro h s es s' ih ⟨hs, rfl⟩ t res hres
  rcases hs.leaving hres with ⟨hleft, hnone⟩ | ⟨op, hlast⟩
  · obtain ⟨h₁, op, h₂, rfl, hne⟩ := ih t res hleft
    refine ⟨h₁, op, h₂ ++ returns s s', ?_, fun r hr => ?_⟩
    · rw [List.append_assoc, List.cons_append]
    · rcases List.mem_append.mp hr with hr | hr
      · exact hne r hr
      · exact hnone r hr
  · rw [hlast]
    exact ⟨h, op, [], rfl, fun r hr => by cases hr⟩

/-- What is not a call has no place in the history. -/
theorem run_foreign {m : Nat → UInt8} {h : List Return}
    (hrun : Run (Noted (Step cfg q lists) returns) (start cfg q m) h s) (op : Kernel.Op) (ho : op.Enabled s.kernel)
    (hother : Other lists s op) (hsome : (op.prog cfg s.kernel).out.isSome = true) :
    Run (Noted (Step cfg q lists) returns) (start cfg q m) h
      { s with machine := { s.machine with kernel := op.exec cfg s.kernel } } := by
  have hrun' := hrun.tail ⟨Step.other ho hother (op.out_exec hsome), (returns_of_same rfl).symm⟩
  rwa [List.append_nil] at hrun'

/-- A receiver finds the new queue empty and waits, a sender puts two items into it, and the receiver takes the
first. -/
theorem run_sentAndReceived : ∃ s,
    Run (Noted (Step qemuDebug Queue.ofBytes ⟨0, 1, Nat.zero_ne_one⟩) returns)
      (start qemuDebug Queue.ofBytes fun _ => 0)
      [⟨1, .pushBack fun _ => 5, .ok []⟩, ⟨1, .pushBack fun _ => 6, .ok []⟩, ⟨0, .dequeue, .ok [5]⟩] s ∧
      s.activity 0 = .leaving (.ok [5]) := by
  have hstart : Run (Noted (Step qemuDebug Queue.ofBytes ⟨0, 1, Nat.zero_ne_one⟩) returns)
    (start qemuDebug Queue.ofBytes fun _ => 0) [] _ := .refl
  have hrun := run_foreign (run_foreign (run_foreign hstart (.createTask 0) trivial trivial rfl) (.createTask 7) trivial
    trivial rfl) .startKernel trivial trivial rfl
  have hcall := hrun.tail ⟨.call (t := 0) .dequeue 5 ⟨rfl, (fun h => by cases h)⟩ rfl, rfl⟩
  have hwaits := hcall.tail ⟨.round (t := 0) ⟨rfl, (fun h => by cases h)⟩ rfl rfl, rfl⟩
  have hswitch := run_foreign hwaits .taskSwitch rfl trivial rfl
  have hsend := hswitch.tail ⟨.call (t := 1) (.pushBack fun _ => 5) 0 ⟨rfl, (fun h => by cases h)⟩ rfl, rfl⟩
  have hsent := hsend.tail ⟨.round (t := 1) ⟨rfl, (fun h => by cases h)⟩ rfl rfl, rfl⟩
  have hend := hsent.tail ⟨.syscallEnd (t := 1) ⟨rfl, (fun h => by cases h)⟩ (Or.inr ⟨_, rfl⟩) rfl, rfl⟩
  have hsend' := hend.tail ⟨.call (t := 1) (.pushBack fun _ => 6) 0 ⟨rfl, (fun h => by cases h)⟩ rfl, rfl⟩
  have hsent' := hsend'.tail ⟨.round (t := 1) ⟨rfl, (fun h => by cases h)⟩ rfl rfl, rfl⟩
  have hback := run_foreign hsent' .taskSwitch rfl trivial rfl
  have hagain := hback.tail ⟨.resume (t := 0) ⟨rfl, (fun h => by cases h)⟩ rfl, rfl⟩
  have hdone := hagain.tail ⟨.round (t := 0) ⟨rfl, (fun h => by cases h)⟩ rfl rfl, rfl⟩
  exact ⟨_, hdone, rfl⟩

theorem queue_linearizable_sentAndReceived : ∃ s,
    Run (Noted (Step qemuDebug Queue.ofBytes ⟨0, 1, Nat.zero_ne_one⟩) returns)
      (start qemuDebug Queue.ofBytes fun _ => 0)
      [⟨1, .pushBack fun _ => 5, .ok []⟩, ⟨1, .pushBack fun _ => 6, .ok []⟩, ⟨0, .dequeue, .ok [5]⟩] s ∧
      Answers (Queue.listStep 2 1)
        [(.pushBack fun _ => 5, .ok []), (.pushBack fun _ => 6, .ok []), (.dequeue, .ok [5])] []
        (Queue.ofBytes.content s.machine.mem) ∧
      ∃ h₁ op h₂, [⟨1, .pushBack fun _ => 5, .ok []⟩, ⟨1, .pushBack fun _ => 6, .ok []⟩, ⟨0, .dequeue, .ok [5]⟩] =
        h₁ ++ (⟨0, op, .ok [5]⟩ : Return) :: h₂ := by
  obtain ⟨s, hrun, hleaving⟩ := run_sentAndReceived
  obtain ⟨hanswers, hlast⟩ := queue_linearizable hrun
  obtain ⟨h₁, op, h₂, heq, _⟩ := hlast 0 _ hleaving
  exact ⟨s, hrun, hanswers, h₁, op, h₂, heq⟩

/-- In every run, the items that calls have put in are those that calls have taken out and those in the queue, each
as often, and the queue holds at most `length`. If all are sent to the back, they are so in order. -/
theorem queue_delivers {m : Nat → UInt8} {h : List Return}
    (hrun : Run (Noted (Step cfg q lists) returns) (start cfg q m) h s) :
    ((h.map Return.call).filterMap (Queue.sentBy q.itemSize)).Perm
        ((h.map Return.call).filterMap Queue.receivedBy ++ q.content s.machine.mem) ∧
      (q.content s.machine.mem).length ≤ q.length ∧
      ((∀ r ∈ h, ∀ item, r.op ≠ .pushFront item) →
        (h.map Return.call).filterMap (Queue.sentBy q.itemSize) =
          (h.map Return.call).filterMap Queue.receivedBy ++ q.content s.machine.mem) := by
  have hans := run_answers hrun
  refine ⟨Queue.perm_of_answers hans, Queue.length_of_answers hans, fun hback => Queue.fifo_of_answers hans ?_⟩
  intro x hx
  obtain ⟨r, hr, rfl⟩ := List.mem_map.mp hx
  exact hback r hr

/-- The second item is in the queue. -/
theorem queue_delivers_sentAndReceived : ∃ s,
    Run (Noted (Step qemuDebug Queue.ofBytes ⟨0, 1, Nat.zero_ne_one⟩) returns)
      (start qemuDebug Queue.ofBytes fun _ => 0)
      [⟨1, .pushBack fun _ => 5, .ok []⟩, ⟨1, .pushBack fun _ => 6, .ok []⟩, ⟨0, .dequeue, .ok [5]⟩] s ∧
      [[5], [6]] = [[5]] ++ Queue.ofBytes.content s.machine.mem := by
  obtain ⟨s, hrun, _⟩ := run_sentAndReceived
  refine ⟨s, hrun, (queue_delivers hrun).2.2 ?_⟩
  intro r hr item hop
  simp only [List.mem_cons, List.not_mem_nil, or_false] at hr
  rcases hr with rfl | rfl | rfl
  all_goals cases hop

end System

/-! ## A call that fails has waited -/

/-- A countdown that was started with `n` ticks at the time `start`, at the time `now`. -/
structure Countdown.Since (start n now : Nat) (c : Countdown) : Prop where
  le : start ≤ now
  unset : c.wakeupTimeSet = false → c.waitTicks = n
  set : c.wakeupTimeSet = true → start + n ≤ c.wakeupTime ∧ (c.waitTicks = 0 → c.wakeupTime ≤ now)

namespace Countdown.Since

variable {start n now now' : Nat} {c : Countdown}

theorem begin (start n : Nat) : Countdown.Since start n start ⟨n, false, 0⟩ where
  le := Nat.le_refl _
  unset _ := rfl
  set h := by cases h

theorem later (h : c.Since start n now) (hle : now ≤ now') : c.Since start n now' where
  le := h.le.trans hle
  unset := h.unset
  set hset := ⟨(h.set hset).1, fun hzero => ((h.set hset).2 hzero).trans hle⟩

/-- The countdown is at its end only when the ticks are over. -/
theorem elapsed (h : c.Since start n now) (hzero : c.waitTicks = 0) : start + n ≤ now := by
  cases hset : c.wakeupTimeSet with
  | false =>
      have hle := h.le
      have hn := h.unset hset
      omega
  | true =>
      obtain ⟨hle, hover⟩ := h.set hset
      exact hle.trans (hover hzero)

/-- The first wait fixes the wakeup time, and the following ones keep it. -/
theorem wait (h : c.Since start n now) (hne : c.waitTicks ≠ 0) {v : Nat}
    (hv : v = if c.wakeupTimeSet then c.wakeupTime else now + c.waitTicks) :
    Countdown.Since start n now { c with wakeupTimeSet := true, wakeupTime := v } where
  le := h.le
  unset h := by cases h
  set _ := by
    refine ⟨?_, fun hzero => absurd hzero hne⟩
    dsimp only
    cases hset : c.wakeupTimeSet with
    | false =>
        rw [hset, if_neg Bool.false_ne_true] at hv
        have hle := h.le
        have hn := h.unset hset
        omega
    | true =>
        rw [hset, if_pos rfl] at hv
        rw [hv]
        exact (h.set hset).1

theorem update (h : c.Since start n now) (hset : c.wakeupTimeSet = true) :
    (updateCountdown now c).Since start n now where
  le := h.le
  unset hunset := by cases hset.symm.trans hunset
  set _ := by
    refine ⟨(h.set hset).1, fun hzero => ?_⟩
    simp only [updateCountdown] at hzero ⊢
    split at hzero
    · assumption
    · omega

end Countdown.Since

namespace System

open Kernel

variable {s s' s₀ : System} {t : Nat} {start n : Nat}

/-- The wakeup time of a wait. -/
theorem after_wakeupTime (now : Nat) (c : Countdown) (k : Kernel) :
    After (if c.wakeupTimeSet then pure c.wakeupTime else addTime cfg now c.waitTicks)
      (fun v k' => k' = k ∧ v = if c.wakeupTimeSet then c.wakeupTime else now + c.waitTicks) k := by
  split
  · exact ⟨rfl, rfl⟩
  · simp only [addTime, after_bind, after_check, after_pure]
    exact fun _ => ⟨trivial, trivial⟩

/-- A round that ends in an error has found the countdown at its end. -/
theorem after_round_since {m : Machine} {op : Queue.Op} {c : Countdown}
    (h : c.Since start n m.kernel.tickCounter) :
    After (Machine.round cfg q lists op c) (fun o _ => match o with
      | .yield c' => c'.wakeupTimeSet = true ∧ c'.Since start n m.kernel.tickCounter
      | .exit (.error e) => e = Role.err op.role ∧ start + n ≤ m.kernel.tickCounter
      | .exit (.ok _) => True) m := by
  rw [round_eq]
  simp only [Machine.queueRound, Machine.tryRunRelaxed, after_bind, after_gets, after_store, after_pure]
  cases ((op.body q).eval m.mem).1 with
  | error e =>
      dsimp only
      split
      case isTrue hne =>
        simp only [after_bind, after_gets, Machine.onKernel]
        refine after_zoom.mpr ((after_wakeupTime _ c _).mono ?_)
        rintro v _ ⟨rfl, hv⟩
        rw [after_bind]
        refine after_zoom.mpr (After.of_forall fun _ _ => ?_)
        exact ⟨rfl, h.wait hne hv⟩
      case isFalse hzero => exact ⟨rfl, h.elapsed (not_not.mp hzero)⟩
  | ok item =>
      simp only [after_bind, Machine.onKernel]
      exact after_zoom.mpr (After.of_forall fun _ _ => trivial)

/-- A step before the task `t` is out of its call, in which the clock does not wrap around. -/
def Meanwhile (cfg : Config) (q : Queue w) (lists : QueueLists) (t : Nat) (s s' : System) : Prop :=
  Step cfg q lists s s' ∧ s.activity t ≠ .idle ∧ s.kernel.tickCounter ≤ s'.kernel.tickCounter

/-- How far the call of `op` is that began at the time `start` with `n` ticks. -/
def Waits (op : Queue.Op) (start n now : Nat) : Activity → Prop
  | .idle => True
  | .trying op' c => op' = op ∧ c.Since start n now
  | .yielding op' c => op' = op ∧ c.wakeupTimeSet = true ∧ c.Since start n now
  | .leaving (.error e) => e = Role.err op.role ∧ start + n ≤ now
  | .leaving (.ok _) => True
  | .elsewhere => False

theorem Waits.later {op : Queue.Op} {now now' : Nat} {a : Activity} (h : Waits op start n now a) (hle : now ≤ now') :
    Waits op start n now' a := by
  cases a with
  | idle => trivial
  | trying op' c => exact ⟨h.1, h.2.later hle⟩
  | yielding op' c => exact ⟨h.1, h.2.1, h.2.2.later hle⟩
  | leaving res =>
      cases res with
      | error e => exact ⟨h.1, h.2.trans hle⟩
      | ok item => trivial
  | elsewhere => exact h

theorem Waits.step {op : Queue.Op} (h : Waits op start n s.kernel.tickCounter (s.activity t))
    (hs : Meanwhile cfg q lists t s s') : Waits op start n s'.kernel.tickCounter (s'.activity t) := by
  obtain ⟨hs, hbusy, hclock⟩ := hs
  refine Waits.later ?_ hclock
  have hmoved : ∀ {u a}, (u = t → Waits op start n s.kernel.tickCounter a) →
      Waits op start n s.kernel.tickCounter (Function.update s.activity u a t) := by
    intro u a ha
    by_cases htu : u = t
    · rw [← htu, Function.update_self]
      exact ha htu
    · rwa [Function.update_of_ne (Ne.symm htu)]
  cases hs with
  | call op' waitTicks ht ha =>
      refine hmoved fun htu => ?_
      rw [htu] at ha
      exact absurd ha hbusy
  | @round u op' c o m' ht ha hout =>
      refine hmoved fun htu => ?_
      rw [htu] at ha
      rw [ha] at h
      obtain ⟨rfl, hsince⟩ := h
      have hround := (after_round_since hsince).post hout
      cases o with
      | yield c' => exact ⟨rfl, hround.1, hround.2⟩
      | exit res =>
          cases res with
          | error e => exact hround
          | ok item => trivial
  | resume ht ha =>
      refine hmoved fun htu => ?_
      rw [htu] at ha
      rw [ha] at h
      exact ⟨h.1, h.2.2.update h.2.1⟩
  | syscallBegin ht ha =>
      refine hmoved fun htu => ?_
      rw [htu] at ha
      exact absurd ha hbusy
  | syscallEnd ht ha hout => exact hmoved fun _ => trivial
  | other ho hother hout => exact h

/-- A call with `waitTicks` ticks that fails does so when they are over, whoever runs in between, how often the task
is woken and who takes the item or the slot before it. A sender learns that the queue is full and a receiver that it
is empty. -/
theorem queue_call_waits {op : Queue.Op} {waitTicks : Nat} {e : QueueErr}
    (hcall : s₀.activity t = .trying op ⟨waitTicks, false, 0⟩)
    (hrun : Relation.ReflTransGen (Meanwhile cfg q lists t) s₀ s) (he : s.activity t = .leaving (.error e)) :
    s₀.kernel.tickCounter + waitTicks ≤ s.kernel.tickCounter ∧ e = Role.err op.role := by
  have hwaits : Waits op s₀.kernel.tickCounter waitTicks s.kernel.tickCounter (s.activity t) := by
    clear he
    induction hrun with
    | refl =>
        rw [hcall]
        exact ⟨rfl, .begin _ _⟩
    | tail _ hs ih => exact ih.step hs
  rw [he] at hwaits
  exact ⟨hwaits.2, hwaits.1⟩

/-- Of two tasks, the first begins to receive from the new queue. -/
def receiving : System where
  machine := ⟨Op.startKernel.exec qemuDebug ((Op.createTask 7).exec qemuDebug
    ((Op.createTask 0).exec qemuDebug (Kernel.new qemuDebug))), (Queue.ofBytes.init.eval fun _ => 0).2⟩
  activity := Function.update (fun _ => .idle) 0 (.trying .dequeue ⟨1, false, 0⟩)
  woken := fun _ => ∅

def failedFrom (now : Nat) : Outcome × Machine → Bool
  | (.exit (.error _), m) => now ≤ m.kernel.tickCounter
  | _ => false

theorem meanwhile_foreign (hrun : Relation.ReflTransGen (Meanwhile cfg q lists t) s₀ s) (op : Kernel.Op)
    (ho : op.Enabled s.kernel) (hother : Other lists s op) (hsome : (op.prog cfg s.kernel).out.isSome = true)
    (hbusy : s.activity t ≠ .idle) (hclock : s.kernel.tickCounter ≤ (op.exec cfg s.kernel).tickCounter) :
    Relation.ReflTransGen (Meanwhile cfg q lists t) s₀
      { s with machine := { s.machine with kernel := op.exec cfg s.kernel } } :=
  hrun.tail ⟨.other ho hother (op.out_exec hsome), hbusy, hclock⟩

theorem meanwhile_failed {op : Queue.Op} {c : Countdown} (hrun : Relation.ReflTransGen (Meanwhile cfg q lists t) s₀ s)
    (ht : s.Executes t) (ha : s.activity t = .trying op c)
    (hfails : (Machine.round cfg q lists op c s.machine).out.any (failedFrom s.kernel.tickCounter) = true) :
    ∃ s' e, Relation.ReflTransGen (Meanwhile cfg q lists t) s₀ s' ∧ s'.activity t = .leaving (.error e) := by
  obtain ⟨⟨o, m⟩, hout, hfails⟩ := (Option.any_eq_true _ _).mp hfails
  cases o with
  | yield c' => cases hfails
  | exit res =>
      cases res with
      | ok item => cases hfails
      | error e =>
          have hbusy : s.activity t ≠ .idle := by
            rw [ha]
            exact fun h => by cases h
          refine ⟨_, e, hrun.tail ⟨.round ht ha hout, hbusy, of_decide_eq_true hfails⟩, ?_⟩
          exact Function.update_self ..

/-- A tick comes while it waits. -/
theorem queue_call_waits_one : ∃ (s : System) (e : QueueErr),
    Relation.ReflTransGen (Meanwhile qemuDebug Queue.ofBytes ⟨0, 1, Nat.zero_ne_one⟩ 0) receiving s ∧
      s.activity 0 = .leaving (.error e) ∧ receiving.kernel.tickCounter + 1 ≤ s.kernel.tickCounter ∧
        e = .queueEmpty := by
  have hstart : Relation.ReflTransGen (Meanwhile qemuDebug Queue.ofBytes ⟨0, 1, Nat.zero_ne_one⟩ 0) receiving
    receiving := .refl
  have hround := hstart.tail ⟨.round (t := 0) ⟨rfl, (fun h => by cases h)⟩ rfl rfl, (fun h => by cases h),
    Nat.le_refl 0⟩
  have htick := meanwhile_foreign hround .processTick trivial trivial (by decide +kernel) (fun h => by cases h)
    (by decide +kernel)
  have hback := htick.tail ⟨.resume (t := 0) ⟨by decide +kernel, by decide +kernel⟩ rfl, (fun h => by cases h),
    Nat.le_refl _⟩
  obtain ⟨s, e, hlast, he⟩ := meanwhile_failed hback ⟨by decide +kernel, by decide +kernel⟩ rfl (by decide +kernel)
  exact ⟨s, e, hlast, he, queue_call_waits rfl hlast he⟩

end System

end IntOS
