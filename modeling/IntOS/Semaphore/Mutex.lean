import IntOS.Semaphore.Wakeup

/-!
# Persistent mutexes (`src/user/pmutex.rs`)

Each task alternates `PMutex::lock` with the drop of its guard. `semaphore_give` leaves `mutex_holder` as it is, so
the task that took the semaphore last gets another guard without a take.
-/

namespace IntOS

open Persist Persist.Prog

namespace Semaphore

/-- In a call of `semaphore_take`. -/
def Activity.Locking : Activity → Prop
  | trying _ | yielding _ | taken _ => True
  | _ => False

/-- Behind the critical section of `semaphore_give`. -/
def Activity.Dropping : Activity → Prop
  | given _ => True
  | _ => False

/-- Whether a task has a guard, where `before` says whether it had one before it came here. -/
def Activity.Guards (before : Prop) : Activity → Prop
  | taken true => True
  | given _ => False
  | _ => before

/-- The semaphore of `PMutex::try_new`. -/
def ofMutex (waitList : Nat) : Semaphore := ⟨1, waitList⟩

/-- The tasks that use a mutex. One has a guard from the take that lets it lock until the give in the drop of the
guard. -/
structure Locks where
  system : System
  guards : Nat → Prop

namespace Locks

def start (cfg : Config) (waitList : Nat) : Locks := ⟨System.start cfg (ofMutex waitList), fun _ => False⟩

/-- A task locks when it has no guard, and drops the one it has. -/
def Alternates (l : Locks) (s' : System) : Prop := ∀ t, l.system.activity t = .idle →
  ((s'.activity t).Locking → ¬ l.guards t) ∧ ((s'.activity t).Dropping → l.guards t)

def after (l : Locks) (s' : System) : Locks := ⟨s', fun t => (s'.activity t).Guards (l.guards t)⟩

/-- A call of `lock` by the task that `mutex_holder` names. -/
def Relocks (l : Locks) (s' : System) : Prop :=
  ∃ t, l.system.activity t = .idle ∧ (s'.activity t).Locking ∧ l.system.machine.mutexHolder = some t

/-- The states of runs of any length. `ok` says which steps are taken. -/
inductive Reachable (cfg : Config) (port : Port) (waitList : Nat) (ok : Locks → System → Prop) : Locks → Prop
  | start : Reachable cfg port waitList ok (start cfg waitList)
  | step {l : Locks} {s' : System} : Reachable cfg port waitList ok l →
      System.Step cfg port (ofMutex waitList) l.system s' → l.Alternates s' → ok l s' →
      Reachable cfg port waitList ok (l.after s')

/-- Mutual exclusion, and what the count says. -/
structure Excludes (l : Locks) : Prop where
  one : ∀ t u, l.guards t → l.guards u → t = u
  count : l.system.machine.count = 0 ↔ ∃ t, l.guards t

end Locks

/-! ## Counts -/

section
variable {cfg : Config} {port : Port} {sem : Semaphore} {m : Machine} {c : Countdown}

/-- Only a round that takes changes the count. -/
theorem after_semaphoreTake_count : After (semaphoreTake cfg port sem c) (fun o m' =>
    o.activity = .taken true ∧ 0 < m.count ∧ m'.count = m.count - 1 ∨
      o.activity ≠ .taken true ∧ m'.count = m.count) m := by
  simp only [semaphoreTake, tryTake, after_bind, after_gets]
  split
  case isTrue hpos =>
    simp only [after_bind, onKernel]
    refine after_zoom.mpr (After.of_forall fun t k => ?_)
    simp [Outcome.activity, hpos]
  case isFalse =>
    simp only [after_pure, Bool.false_eq_true, if_false]
    split
    case isTrue =>
      simp only [after_bind, after_gets, onKernel]
      refine after_zoom.mpr (After.of_forall fun wakeupTime k => ?_)
      rw [after_bind]
      refine after_zoom.mpr (After.of_forall fun _ k' => ?_)
      simp [Outcome.activity]
    case isFalse => simp [Outcome.activity]

theorem after_semaphoreGive_count (hsize : m.count ≠ sem.size) :
    After (semaphoreGive cfg sem) (fun _ m' => m'.count = m.count + 1) m := by
  simp only [semaphoreGive, Semaphore.give, after_bind, after_gets, if_neg hsize, after_check, after_store, after_pure,
    if_true, onKernel]
  intro _
  refine after_zoom.mpr (After.of_forall fun t k => ?_)
  rw [after_bind, after_gets, after_bind]
  exact after_zoom.mpr (After.of_forall fun _ k' => rfl)

end

/-! ## Guards -/

theorem Activity.guards_idem {p : Prop} (a : Activity) : a.Guards (a.Guards p) ↔ a.Guards p := by
  cases a with
  | taken ok => cases ok <;> exact Iff.rfl
  | _ => exact Iff.rfl

namespace Locks

variable {cfg : Config} {port : Port} {waitList t u : Nat} {l : Locks} {s' : System} {a : Activity}

/-- What the activities say about the guards. -/
def Sound (l : Locks) : Prop := ∀ t, l.guards t ↔ (l.system.activity t).Guards (l.guards t)

theorem sound_after (l : Locks) (s' : System) : Sound (l.after s') := fun _ => (Activity.guards_idem _).symm

/-- A step of the task `t`. -/
theorem Sound.after_of_update (h : Sound l) (hact : s'.activity = Function.update l.system.activity t a) :
    (l.after s').guards u ↔ if u = t then a.Guards (l.guards t) else l.guards u := by
  simp only [Locks.after, hact]
  by_cases hu : u = t
  · subst hu
    simp
  · rw [Function.update_of_ne hu, if_neg hu]
    exact (h u).symm

/-- The count is 1 or one task has a guard. -/
def Right (l : Locks) : Prop :=
  l.system.machine.count = 1 ∧ (∀ t, ¬ l.guards t) ∨
    l.system.machine.count = 0 ∧ ∃ t, ∀ u, l.guards u ↔ u = t

theorem Right.excludes (h : Right l) : Excludes l := by
  rcases h with ⟨hcount, hnone⟩ | ⟨hcount, t, ht⟩
  · exact ⟨fun t _ ht => absurd ht (hnone t), by simp [hcount, hnone]⟩
  · refine ⟨fun u v hu hv => ?_, by simp [hcount, ht]⟩
    rw [(ht u).mp hu, (ht v).mp hv]

/-- A step that moves neither the count nor a guard. -/
theorem Right.of_same (h : Right l) (hcount : s'.machine.count = l.system.machine.count)
    (hguards : ∀ u, (l.after s').guards u ↔ l.guards u) : Right (l.after s') := by
  have hc : (l.after s').system.machine.count = l.system.machine.count := hcount
  simpa only [Right, hguards, hc] using h

/-- A step of a task that keeps the guards as they are. -/
theorem Right.stay (h : Right l) (hs : Sound l) (hact : s'.activity = Function.update l.system.activity t a)
    (ha : ∀ p, a.Guards p ↔ p) (hcount : s'.machine.count = l.system.machine.count) : Right (l.after s') := by
  refine h.of_same hcount fun u => ?_
  rw [hs.after_of_update hact]
  by_cases hu : u = t
  · rw [if_pos hu, hu, ha]
  · rw [if_neg hu]

theorem Right.step (h : Right l) (hs : Sound l) (ha : Alternates l s') (hr : ¬ Relocks l s')
    (hstep : System.Step cfg port (ofMutex waitList) l.system s') : Right (l.after s') := by
  cases hstep with
  | @holds t ht hidle hholder =>
      have hlock : (Function.update l.system.activity t (.taken true) t).Locking := by simp [Activity.Locking]
      exact absurd ⟨t, hidle, hlock, hholder⟩ hr
  | take waitTicks ht hidle hholder => exact h.stay hs rfl (fun _ => Iff.rfl) rfl
  | @round t c o m ht hact hout =>
      rcases after_semaphoreTake_count.post hout with ⟨htaken, hpos, hcount⟩ | ⟨hnot, hcount⟩
      · rcases h with ⟨hone, hnone⟩ | ⟨hzero, _⟩
        · refine Or.inr ⟨?_, t, fun u => ?_⟩
          · rw [Locks.after, hcount, hone]
          · rw [hs.after_of_update rfl, htaken]
            simp [Activity.Guards, hnone]
        · exact absurd hzero (Nat.ne_of_gt hpos)
      · refine h.stay hs rfl (fun p => ?_) hcount
        cases o with
        | yield c' => exact Iff.rfl
        | exit taken =>
            cases taken with
            | false => exact Iff.rfl
            | true => exact absurd rfl hnot
  | resume ht hact => exact h.stay hs rfl (fun _ => Iff.rfl) rfl
  | @give t yieldNow m ht hidle hout =>
      have hguard : l.guards t := (ha t hidle).2 (by simp [Activity.Dropping])
      rcases h with ⟨_, hnone⟩ | ⟨hzero, t', ht'⟩
      · exact absurd hguard (hnone t)
      · obtain rfl := (ht' t).mp hguard
        have hsize : l.system.machine.count ≠ (ofMutex waitList).size := by simp [hzero, ofMutex]
        refine Or.inl ⟨?_, fun u => ?_⟩
        · rw [Locks.after, (after_semaphoreGive_count hsize).post hout, hzero]
        · rw [hs.after_of_update rfl]
          by_cases hu : u = t
          · simp [hu, Activity.Guards]
          · simp [hu, ht']
  | syscallBegin ht hidle => exact h.stay hs rfl (fun _ => Iff.rfl) rfl
  | syscallEnd ht hfin hout => exact h.stay hs rfl (fun _ => Iff.rfl) rfl
  | other ho hother hout => exact h.of_same rfl fun u => (hs u).symm

theorem Reachable.right (h : Reachable cfg port waitList (fun l s' => ¬ Relocks l s') l) : Right l ∧ Sound l := by
  induction h with
  | start => exact ⟨Or.inl ⟨rfl, fun _ => id⟩, fun _ => Iff.rfl⟩
  | step _ hstep ha hr ih => exact ⟨ih.1.step ih.2 ha hr hstep, sound_after _ _⟩

/-- The holder gets its guard at once. -/
theorem eq_of_relocks {s : System} (hstep : System.Step cfg port (ofMutex waitList) s s') (hidle : s.activity t = .idle)
    (hlock : (s'.activity t).Locking) (hholder : s.machine.mutexHolder = some t) :
    s' = { s with activity := Function.update s.activity t (.taken true) } := by
  have hself : ∀ {t' a}, (Function.update s.activity t' a t).Locking → t = t' ∧ a.Locking := by
    intro t' a h
    by_cases ht : t = t'
    · subst ht
      simpa using h
    · simp [Function.update_of_ne ht, hidle, Activity.Locking] at h
  cases hstep with
  | holds ht hi hm =>
      obtain ⟨rfl, _⟩ := hself hlock
      rfl
  | take waitTicks ht hi hm =>
      obtain ⟨rfl, _⟩ := hself hlock
      exact absurd hholder hm
  | round ht hact hout =>
      obtain ⟨rfl, _⟩ := hself hlock
      cases hidle.symm.trans hact
  | resume ht hact =>
      obtain ⟨rfl, _⟩ := hself hlock
      cases hidle.symm.trans hact
  | give ht hi hout => exact absurd (hself hlock).2 id
  | syscallBegin ht hi => exact absurd (hself hlock).2 id
  | syscallEnd ht hfin hout => exact absurd (hself hlock).2 id
  | other ho hother hout =>
      rw [hidle] at hlock
      exact hlock.elim

/-- The count still says that no task has a guard, or another task has one. -/
theorem Relocks.not_excludes (hr : Relocks l s') (h : Excludes l) (hs : Sound l) (ha : Alternates l s')
    (hstep : System.Step cfg port (ofMutex waitList) l.system s') : ¬ Excludes (l.after s') := by
  obtain ⟨t, hidle, hlock, hholder⟩ := hr
  have hnone := (ha t hidle).1 hlock
  have heq := eq_of_relocks hstep hidle hlock hholder
  have hact : s'.activity = Function.update l.system.activity t (.taken true) := by rw [heq]
  have hcount : (l.after s').system.machine.count = l.system.machine.count := by rw [Locks.after, heq]
  have hguard : (l.after s').guards t := by
    rw [hs.after_of_update hact]
    simp [Activity.Guards]
  intro h'
  obtain ⟨u, hu⟩ := h.count.mp (hcount ▸ h'.count.mpr ⟨t, hguard⟩)
  have hut : u ≠ t := fun he => hnone (he ▸ hu)
  have hguard' : (l.after s').guards u := by
    rw [hs.after_of_update hact, if_neg hut]
    exact hu
  exact hut (h'.one u t hguard' hguard)

/-- While no task locks the mutex that it had last, tasks exclude each other; the first that does breaks it. -/
theorem mutex_excludes_iff (h : Reachable cfg port waitList (fun l s' => ¬ Relocks l s') l) :
    Excludes l ∧ ∀ s', System.Step cfg port (ofMutex waitList) l.system s' → Alternates l s' →
      (Excludes (l.after s') ↔ ¬ Relocks l s') := by
  obtain ⟨hright, hs⟩ := h.right
  refine ⟨hright.excludes, fun s' hstep ha => ⟨fun h' hr => ?_, fun hr => ?_⟩⟩
  · exact hr.not_excludes hright.excludes hs ha hstep h'
  · exact (hright.step hs ha hr hstep).excludes

/-! ## Two tasks -/

theorem alternates_of_update (hact : s'.activity = Function.update l.system.activity t a)
    (hlock : a.Locking → ¬ l.guards t) (hdrop : a.Dropping → l.guards t) : Alternates l s' := by
  intro u hu
  rw [hact]
  by_cases hut : u = t
  · subst hut
    simpa using ⟨hlock, hdrop⟩
  · rw [Function.update_of_ne hut, hu]
    exact ⟨False.elim, False.elim⟩

theorem alternates_of_same (hact : s'.activity = l.system.activity) : Alternates l s' := by
  intro u hu
  rw [hact, hu]
  exact ⟨False.elim, False.elim⟩

theorem not_relocks_of_same (hact : s'.activity = l.system.activity) : ¬ Relocks l s' := by
  rintro ⟨u, hu, hlock, _⟩
  rw [hact, hu] at hlock
  exact hlock

theorem not_relocks_of_update (hact : s'.activity = Function.update l.system.activity t a)
    (h : a.Locking → l.system.activity t = .idle → l.system.machine.mutexHolder ≠ some t) : ¬ Relocks l s' := by
  rintro ⟨u, hu, hlock, hholder⟩
  rw [hact] at hlock
  by_cases hut : u = t
  · subst hut
    exact h (by simpa using hlock) hu hholder
  · rw [Function.update_of_ne hut, hu] at hlock
    exact hlock

section
open Kernel

variable {ok : Locks → System → Prop} {k k' : Kernel} {n : Nat} {holder : Option Nat} {g : Nat → Prop}

/-- No task is in a call. -/
structure Rests (cfg : Config) (port : Port) (waitList : Nat) (ok : Locks → System → Prop) (m : Machine)
    (g : Nat → Prop) (l : Locks) : Prop where
  reachable : Reachable cfg port waitList ok l
  machine : l.system.machine = m
  idle : ∀ u, l.system.activity u = .idle
  guards : ∀ u, l.guards u ↔ g u

/-- The end of a call. -/
theorem Reachable.rests (h : Reachable cfg port waitList ok l) (hok : ∀ l s', ¬ Relocks l s' → ok l s')
    (hfin : (l.system.activity t).Finishing) (hidle : ∀ u, u ≠ t → l.system.activity u = .idle)
    (ht : l.system.Executes t) (hend : (Op.syscallEnd.prog cfg l.system.kernel).out.isSome = true)
    (hg : ∀ u, l.guards u ↔ g u) : ∃ l', Rests cfg port waitList ok
      ⟨Op.syscallEnd.exec cfg l.system.kernel, l.system.machine.count, l.system.machine.mutexHolder⟩ g l' := by
  have hidle' : ∀ u, (Function.update l.system.activity t .idle) u = .idle := by
    intro u
    by_cases hu : u = t
    · rw [hu, Function.update_self]
    · rw [Function.update_of_ne hu, hidle u hu]
  have hstep := h.step (.syscallEnd ht hfin (Op.out_exec _ hend)) (alternates_of_update rfl nofun nofun)
    (hok _ _ (not_relocks_of_update rfl nofun))
  refine ⟨_, hstep, rfl, hidle', fun u => ?_⟩
  simp only [Locks.after, hidle']
  exact hg u

theorem Rests.lock (h : Rests cfg port waitList ok ⟨k, 1, holder⟩ g l) (hok : ∀ l s', ¬ Relocks l s' → ok l s')
    (hcur : k.current = some t) (hstatus : k.status t ≠ .blocked) (hholder : holder ≠ some t) (hg : ¬ g t)
    (hend : (Op.syscallEnd.prog cfg k).out.isSome = true) :
    ∃ l', Rests cfg port waitList ok ⟨Op.syscallEnd.exec cfg k, 0, some t⟩ (fun u => u = t ∨ g u) l' := by
  have hk : l.system.kernel = k := by rw [System.kernel, h.machine]
  have ht : l.system.Executes t := by
    rw [System.Executes, hk]
    exact ⟨hcur, hstatus⟩
  have hholder' : l.system.machine.mutexHolder ≠ some t := by rwa [h.machine]
  have hg' : ¬ l.guards t := fun hgt => hg ((h.guards t).mp hgt)
  have htake := h.reachable.step (.take 0 ht (h.idle t) hholder')
    (alternates_of_update rfl (fun _ => hg') fun h => by cases h)
    (hok _ _ (not_relocks_of_update rfl fun _ _ => hholder'))
  have hends : Ends (semaphoreTake cfg port (ofMutex waitList) ⟨0, false, 0⟩)
      (fun o m => o = .exit true ∧ m = ⟨k, 0, some t⟩) l.system.machine := by
    rw [h.machine]
    simp [semaphoreTake, tryTake, onKernel, ends_zoom, getCurrent, hcur]
  obtain ⟨o, m, hout, rfl, rfl⟩ := hends.returns
  have hround := htake.step (.round (t := t) (c := ⟨0, false, 0⟩) ht (by simp [Locks.after]) hout)
    (alternates_of_update rfl (fun _ => by simpa [Locks.after, Activity.Guards] using hg') fun h => by cases h)
    (hok _ _ (not_relocks_of_update rfl fun _ _ => hholder'))
  refine hround.rests hok (t := t) ?_ (fun u hu => ?_) ⟨hcur, hstatus⟩ hend fun u => ?_
  · simp [Locks.after, Outcome.activity, Activity.Finishing]
  · simp [Locks.after, Function.update_of_ne hu, h.idle]
  · by_cases hu : u = t
    · simp [Locks.after, hu, Outcome.activity, Activity.Guards]
    · simp [Locks.after, hu, h.idle, Activity.Guards, h.guards]

/-- The holder locks again. -/
theorem Rests.relock (h : Rests cfg port waitList (fun _ _ => True) ⟨k, n, some t⟩ g l)
    (hcur : k.current = some t) (hstatus : k.status t ≠ .blocked) (hg : ¬ g t)
    (hend : (Op.syscallEnd.prog cfg k).out.isSome = true) : ∃ l',
    Rests cfg port waitList (fun _ _ => True) ⟨Op.syscallEnd.exec cfg k, n, some t⟩ (fun u => u = t ∨ g u) l' := by
  have hk : l.system.kernel = k := by rw [System.kernel, h.machine]
  have ht : l.system.Executes t := by
    rw [System.Executes, hk]
    exact ⟨hcur, hstatus⟩
  have hg' : ¬ l.guards t := fun hgt => hg ((h.guards t).mp hgt)
  have hholds := h.reachable.step (.holds ht (h.idle t) (by rw [h.machine]))
    (alternates_of_update rfl (fun _ => hg') nofun) trivial
  have hrests := hholds.rests (fun _ _ _ => trivial) (t := t) (g := fun u => u = t ∨ g u) ?_ (fun u hu => ?_) ht
    (by rw [← hk] at hend; exact hend) fun u => ?_
  · simpa [Locks.after, h.machine] using hrests
  · simp [Locks.after, Activity.Finishing]
  · simp [Locks.after, Function.update_of_ne hu, h.idle]
  · by_cases hu : u = t
    · simp [Locks.after, hu, Activity.Guards]
    · simp [Locks.after, hu, h.idle, Activity.Guards, h.guards]

/-- The drop of a guard. -/
theorem Rests.drop (h : Rests cfg port waitList ok ⟨k, 0, holder⟩ g l) (hok : ∀ l s', ¬ Relocks l s' → ok l s')
    (hcur : k.current = some t) (hstatus : k.status t ≠ .blocked) (hg : g t)
    (hout : ((Op.wake waitList).prog cfg k).out = some ((), k')) (hcur' : k'.current = some t)
    (hstatus' : k'.status t ≠ .blocked) (hend : (Op.syscallEnd.prog cfg k').out.isSome = true) :
    ∃ l', Rests cfg port waitList ok ⟨Op.syscallEnd.exec cfg k', 1, holder⟩ (fun u => u ≠ t ∧ g u) l' := by
  have hk : l.system.kernel = k := by rw [System.kernel, h.machine]
  have ht : l.system.Executes t := by
    rw [System.Executes, hk]
    exact ⟨hcur, hstatus⟩
  have hwake : Ends (rollForwardPopRemoveFromWaitlist cfg waitList) (fun _ r => r = k') k := by
    rw [Op.prog] at hout
    rw [Ends, hout]
  have hends : Ends (semaphoreGive cfg (ofMutex waitList)) (fun _ m => m = ⟨k', 1, holder⟩) l.system.machine := by
    rw [h.machine]
    have hsize : 0 ≠ (ofMutex waitList).size := Nat.zero_ne_one
    simp only [semaphoreGive, Semaphore.give, ends_bind, ends_gets, if_neg hsize, ends_check, ends_store, ends_pure,
      ↓reduceIte, onKernel, ends_zoom, getCurrent, hcur]
    exact ⟨Nat.zero_lt_one, hwake.mono fun _ _ he => by rw [he]⟩
  obtain ⟨yieldNow, m, hgive, rfl⟩ := hends.returns
  have hstep := h.reachable.step (.give ht (h.idle t) hgive)
    (alternates_of_update rfl (fun h => by cases h) fun _ => (h.guards t).mpr hg)
    (hok _ _ (not_relocks_of_update rfl fun h => by cases h))
  refine hstep.rests hok (t := t) ?_ (fun u hu => ?_) ⟨hcur', hstatus'⟩ hend fun u => ?_
  · simp [Locks.after, Activity.Finishing]
  · simp [Locks.after, Function.update_of_ne hu, h.idle]
  · by_cases hu : u = t
    · simp [Locks.after, hu, Activity.Guards]
    · simp [Locks.after, hu, h.idle, Activity.Guards, h.guards]

theorem Rests.other (h : Rests cfg port waitList ok ⟨k, n, holder⟩ g l) (hok : ∀ l s', ¬ Relocks l s' → ok l s')
    (op : Kernel.Op) (ho : op.Enabled k) (hother : System.Other (ofMutex waitList) l.system op)
    (hend : (op.prog cfg k).out.isSome = true) :
    ∃ l', Rests cfg port waitList ok ⟨op.exec cfg k, n, holder⟩ g l' := by
  have hk : l.system.kernel = k := by rw [System.kernel, h.machine]
  rw [← hk] at ho hend
  have hstep := h.reachable.step (step_other op ho hother (Op.out_exec _ hend)) (alternates_of_same rfl)
    (hok _ _ (not_relocks_of_same rfl))
  refine ⟨_, hstep, ?_, h.idle, fun u => ?_⟩
  · simp [Locks.after, hk, h.machine]
  · simp [Locks.after, h.idle, Activity.Guards, h.guards]

/-- Two tasks of one priority. -/
def twoUsers : Kernel :=
  Op.startKernel.exec qemuDebug ((Op.createTask 0).exec qemuDebug ((Op.createTask 0).exec qemuDebug (new qemuDebug)))

theorem rests_twoUsers (hok : ∀ l s', ¬ Relocks l s' → ok l s') :
    ∃ l, Rests qemuDebug .cortexM 0 ok ⟨twoUsers, 1, none⟩ (fun _ => False) l := by
  have hstart : Rests qemuDebug .cortexM 0 ok ⟨new qemuDebug, 1, none⟩ (fun _ => False) (Locks.start qemuDebug 0) :=
    ⟨.start, rfl, fun _ => rfl, fun _ => Iff.rfl⟩
  obtain ⟨l₁, h₁⟩ := hstart.other hok (.createTask 0) trivial trivial rfl
  obtain ⟨l₂, h₂⟩ := h₁.other hok (.createTask 0) trivial trivial rfl
  exact h₂.other hok .startKernel trivial trivial rfl

/-- The first lock. -/
theorem mutex_excludes_iff_locked : ∃ l : Locks, l.guards 0 ∧ l.system.machine.count = 0 ∧ Excludes l := by
  obtain ⟨l, h⟩ := rests_twoUsers fun _ _ => id
  obtain ⟨l', h'⟩ := h.lock (t := 0) (fun _ _ => id) rfl (by decide +kernel) nofun id rfl
  exact ⟨l', (h'.guards 0).mpr (Or.inl rfl), by rw [h'.machine], (mutex_excludes_iff h'.reachable).1⟩

/-- The first task locks, drops its guard and locks again; then the second task takes the semaphore. -/
theorem not_mutex_excludes : ¬ ∀ (cfg : Config) (port : Port) (waitList : Nat) (l : Locks),
    Reachable cfg port waitList (fun _ _ => True) l → Excludes l := by
  intro h
  obtain ⟨l₀, h₀⟩ := rests_twoUsers fun _ _ _ => trivial
  obtain ⟨l₁, h₁⟩ := h₀.lock (t := 0) (fun _ _ _ => trivial) rfl (by decide +kernel) nofun id rfl
  obtain ⟨l₂, h₂⟩ := h₁.drop (t := 0) (fun _ _ _ => trivial) rfl (by decide +kernel) (Or.inl rfl)
    (Op.out_exec (.wake 0) rfl) rfl (by decide +kernel) rfl
  obtain ⟨l₃, h₃⟩ := h₂.relock (t := 0) rfl (by decide +kernel) (fun hg => hg.1 rfl) rfl
  obtain ⟨l₄, h₄⟩ := h₃.other (fun _ _ _ => trivial) .taskSwitch rfl trivial rfl
  obtain ⟨l₅, h₅⟩ := h₄.lock (t := 1) (fun _ _ _ => trivial) rfl (by decide +kernel) nofun (by simp) rfl
  have hone := (h _ _ _ _ h₅.reachable).one 0 1 ((h₅.guards 0).mpr (by simp)) ((h₅.guards 1).mpr (Or.inl rfl))
  exact absurd hone (by decide)

end

end Locks

end Semaphore

end IntOS
