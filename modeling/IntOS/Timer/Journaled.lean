import IntOS.Timer.Timer
import IntOS.List.Journaled

/-!
# Timer commands without `opt_list` (`src/time.rs`)

The active list and the nodes are logged to the journal of the running transaction before they change.
-/

namespace IntOS

open Persist Persist.Prog

structure JournaledTimers (N : Type) where
  times : TimeManager N
  tail : Nat
  saved : List (Saved N Unit)

namespace JournaledTimers

variable {N α : Type} [DecidableEq N]

def onTimes (m : Prog (TimeManager N) α) : Prog (JournaledTimers N) α :=
  zoom (·.times) (fun r s => { s with times := r }) m

def journaled (s : JournaledTimers N) : Journaled N Unit := ⟨s.times.lists, s.tail, s.saved⟩

def onJournaled (m : Prog (Journaled N Unit) α) : Prog (JournaledTimers N) α :=
  zoom journaled (fun r s => ⟨{ s.times with lists := r.lists }, r.tail, r.saved⟩) m

/-- `TimeManager::insert_into_active_list`. -/
def insertIntoActiveList (jcfg : NodeJournal) (t : N) (expiryTime : Nat) : Prog (JournaledTimers N) Unit := do
  onJournaled (Journaled.borrowMut jcfg ())
  onTimes (TimeManager.update t fun x => { x with active := true })
  onJournaled (Journaled.asMut jcfg t)
  onTimes (TimeManager.update t fun x => { x with expiryTime := expiryTime })
  let s ← gets (·.times)
  onJournaled (Journaled.insertSortedImpl jcfg s.timers.length (s.greater t) () t)

/-- `TimeManager::remove_from_active_list`. -/
def removeFromActiveList (cfg : Config) (jcfg : NodeJournal) (t : N) : Prog (JournaledTimers N) Unit := do
  let list ← gets (·.times.lists.list t)
  if list = none then
    pure ()
  else do
    let active ← gets fun s => (s.times.timer t).active
    check active
    onJournaled (Journaled.borrowMut jcfg ())
    onJournaled (Journaled.remove jcfg cfg.debugAssertions () t)

/-- What `process_receive_timer_cmd` does with one message. -/
def processTimerCmd (cfg : Config) (jcfg : NodeJournal) (msg : TimerMessage N) : Prog (JournaledTimers N) Unit :=
  match msg.timer with
  | none => pure ()
  | some t => do
      removeFromActiveList cfg jcfg t
      match msg.cmd with
      | .start => do
          let period ← gets fun s => (s.times.timer t).periodTicks
          let expiryTime ← onTimes (TimeManager.checkedAdd cfg msg.opaqueTime period)
          insertIntoActiveList jcfg t expiryTime
      | .reset => do
          let period ← gets fun s => (s.times.timer t).periodTicks
          let expiryTime ← onTimes (TimeManager.checkedAdd cfg msg.opaqueTime period)
          insertIntoActiveList jcfg t expiryTime
      | .stop => onTimes (TimeManager.update t fun x => { x with active := false })
      | .delete => onTimes (TimeManager.update t fun x => { x with active := false })
      | .setPeriod =>
          if msg.opaqueTime = 0 then pure ()
          else do
            onTimes (TimeManager.update t fun x => { x with active := true })
            onTimes (TimeManager.update t fun x => { x with periodTicks := msg.opaqueTime })
            let now ← gets (·.times.tickCounter)
            let expiryTime ← onTimes (TimeManager.checkedAdd cfg now msg.opaqueTime)
            insertIntoActiveList jcfg t expiryTime
      | .invalid => pure ()

end JournaledTimers

/-! ## What a command is for -/

/-- The timers and the active list, in order. -/
structure TimerContents (N : Type) where
  timer : N → Timer
  active : List N

namespace TimerContents

variable {N : Type} [DecidableEq N]

def update (t : N) (f : Timer → Timer) (c : TimerContents N) : TimerContents N :=
  { c with timer := Function.update c.timer t (f (c.timer t)) }

def remove (t : N) (c : TimerContents N) : TimerContents N := { c with active := c.active.erase t }

def earlier (t : N) (c : TimerContents N) (x : N) : Bool := decide ((c.timer x).expiryTime < (c.timer t).expiryTime)

/-- Before the first timer that does not expire earlier. -/
def insert (t : N) (c : TimerContents N) : TimerContents N :=
  { c with active := c.active.takeWhile (c.earlier t) ++ t :: c.active.dropWhile (c.earlier t) }

def activate (t : N) (expiryTime : Nat) (c : TimerContents N) : TimerContents N :=
  ((c.remove t).update t fun x => { x with active := true, expiryTime := expiryTime }).insert t

def process (now : Nat) (msg : TimerMessage N) (c : TimerContents N) : TimerContents N :=
  match msg.timer with
  | none => c
  | some t =>
      match msg.cmd with
      | .start => c.activate t (msg.opaqueTime + (c.timer t).periodTicks)
      | .reset => c.activate t (msg.opaqueTime + (c.timer t).periodTicks)
      | .stop => (c.remove t).update t fun x => { x with active := false }
      | .delete => (c.remove t).update t fun x => { x with active := false }
      | .setPeriod =>
          if msg.opaqueTime = 0 then c
          else (c.update t fun x => { x with periodTicks := msg.opaqueTime }).activate t (now + msg.opaqueTime)
      | .invalid => c

/-- The sum of ticks, where the command has one, is a `Time`. -/
def Fits (cfg : Config) (now : Nat) (msg : TimerMessage N) (c : TimerContents N) : Prop :=
  match msg.timer with
  | none => True
  | some t =>
      match msg.cmd with
      | .start => msg.opaqueTime + (c.timer t).periodTicks < 2 ^ cfg.timeBits
      | .reset => msg.opaqueTime + (c.timer t).periodTicks < 2 ^ cfg.timeBits
      | .setPeriod => msg.opaqueTime = 0 ∨ now + msg.opaqueTime < 2 ^ cfg.timeBits
      | _ => True

end TimerContents

/-- The command names a timer and asks nothing of it. -/
def TimerMessage.Void {N : Type} (msg : TimerMessage N) : Prop :=
  msg.cmd = .invalid ∨ msg.cmd = .setPeriod ∧ msg.opaqueTime = 0

end IntOS
