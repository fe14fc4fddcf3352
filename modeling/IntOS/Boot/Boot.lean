import IntOS.Sched.Lemmas.Crash
import IntOS.Task.Task
import IntOS.Tx.Lemmas.Position

/-!
# The boot sequence (`src/arch.rs`, `src/recover.rs`, `create_task_static` in `src/task.rs`)

Until the first boot is done, a boot registers the idle task and the tasks of `main`, each in a transaction of
`BOOT_TX` and a list transaction after it. The features `crash_safe` and `opt_list` are on, `timer_daemon` is off.
Of what the transaction logs, only `TASK_CNT` is kept here: the heap of a task and the fields for its system calls
are left out, but for `list_tx_done`, and so is what else `main` creates.
-/

namespace IntOS

open Persist Persist.Prog

/-- The arguments of `register_app`. -/
structure Registration where
  name : String
  prio : Nat
  func : Nat
  param : Nat

/-- The fields of a `Task` that come from its registration, without those of the scheduler. -/
structure Tcb where
  taskId : Nat
  stackTop : Nat
  stackBottom : Nat
  param : Nat
  taskFunc : Nat
  name : String
  /-- The boot that initialised the task, or the one that recovered it. -/
  generation : Nat
deriving DecidableEq

/-- The initial frame on the stack of a task, from which the first switch to the task starts it. -/
structure Frame where
  stackTop : Nat
  taskFunc : Nat
  param : Nat
deriving DecidableEq

/-- A board with its results `Result<TaskHandle, ErrorCode>` in memory. The results of all tasks fit the
transaction cache of the boot. -/
structure BootTarget extends Target where
  board : Board
  /-- One build has one setting of `debug_assertions`. -/
  build : board.debugAssertions = debugAssertions
  layout : StackLayout
  /-- The address of `USER_STACKS[id][STACK_SIZE - 1]`. -/
  userStack : Nat → Nat
  size : Nat
  enc : Except ErrorCode Nat → List UInt8
  dec : List UInt8 → Except ErrorCode Nat
  length_enc : ∀ r, (enc r).length = size
  dec_enc_ok : ∀ tid, tid < taskNumLimit → dec (enc (.ok tid)) = .ok tid
  dec_enc_error : ∀ e, dec (enc (.error e)) = .error e
  results_fit : taskNumLimit * size ≤ board.txCacheSz
  ids_fit : taskNumLimit < idLimit board.width

/-- The state of a boot. All of it but the stacks is persistent. -/
structure Boot where
  kernel : Kernel
  /-- The entries of `TASK_ARRAY` that are set. -/
  allocated : Nat → Bool
  tasks : Nat → Tcb
  /-- The initial frames in `USER_STACKS`. -/
  frames : Nat → Option Frame
  currentGeneration : Nat
  bootTxCache : TxCache
  /-- The values of `TASK_CNT` in `BOOT_JOURNAL`, the newest first. -/
  bootJournal : List Nat
  /-- That of `BOOT_TX`. -/
  nestingLevel : Nat
  firstBootDone : Bool

namespace Boot

variable {α : Type}

def new (cfg : Config) : Boot where
  kernel := Kernel.new cfg
  allocated := fun _ => false
  tasks := fun _ => ⟨0, 0, 0, 0, 0, "", 0⟩
  frames := fun _ => none
  currentGeneration := 0
  bootTxCache := TxCache.new
  bootJournal := []
  nestingLevel := 0
  firstBootDone := false

def onKernel (m : Prog Kernel α) : Prog Boot α := zoom (·.kernel) (fun k s => { s with kernel := k }) m

def onCache (m : Prog TxCache α) : Prog Boot α := zoom (·.bootTxCache) (fun c s => { s with bootTxCache := c }) m

/-! ## Transactions of the boot -/

/-- `TASK_CNT.borrow_mut(j)`. -/
def logTaskCnt : Prog Boot Unit := store fun s => { s with bootJournal := s.kernel.taskCnt :: s.bootJournal }

def clearJournal : Prog Boot Unit := store fun s => { s with bootJournal := [] }

/-- The loop of `Journal::recover`. -/
def undo : List Nat → Prog Boot Unit
  | [] => pure ()
  | old :: rest => do
      onKernel (store fun k => { k with taskCnt := old })
      undo rest

def recoverJournal : Prog Boot Unit := do
  let logged ← gets (·.bootJournal)
  undo logged
  clearJournal

/-- `Transaction::inc_nesting`. -/
def incNesting (b : Board) : Prog Boot Unit :=
  if b.debugAssertions then do
    store fun s => { s with nestingLevel := s.nestingLevel + 1 }
    let n ← gets (·.nestingLevel)
    check (n = 1)
  else pure ()

/-- `Transaction::dec_nesting`. -/
def decNesting (b : Board) : Prog Boot Unit :=
  if b.debugAssertions then do
    let n ← gets (·.nestingLevel)
    check (1 ≤ n)
    store fun s => { s with nestingLevel := s.nestingLevel - 1 }
    let n ← gets (·.nestingLevel)
    check (n = 0)
  else pure ()

/-- `Transaction::roll_back_if_uncommitted`. -/
def rollBackIfUncommitted (b : Board) : Prog Boot Unit := do
  let committed ← gets fun s => decide (s.bootTxCache.isCommitted b.width)
  if committed then
    clearJournal
  else
    recoverJournal

/-- A cached result is returned only by a boot or in recovery. -/
def assertBypass (b : Board) : Prog Boot Unit := do
  let started ← gets (·.kernel.schedulerStarted)
  if b.debugAssertions ∧ started then do
    let tid ← onKernel Kernel.getCurrent
    let recovering ← gets (·.kernel.recoveryMode tid)
    check (recovering = true)

/-- `transaction::run` of `BOOT_TX`. -/
def run (t : BootTarget) (f : Prog Boot (Except ErrorCode Nat)) : Prog Boot (Except ErrorCode Nat) := do
  let nestingLevel ← gets (·.nestingLevel)
  check (t.board.debugAssertions → nestingLevel = 0)
  match ← onCache (TxCache.tryRetrieveResult t.board t.size) with
  | some cacheRes => do
      assertBypass t.board
      pure (t.dec cacheRes)
  | none => do
      incNesting t.board
      onCache (TxCache.clearCommitFlag t.board.width)
      let ret ← f
      decNesting t.board
      onCache (TxCache.cacheResult t.board (t.enc ret))
      clearJournal
      pure ret

/-! ## Registrations -/

def setTask (tid : Nat) (f : Tcb → Tcb) : Prog Boot Unit :=
  store fun s => { s with tasks := Function.update s.tasks tid (f (s.tasks tid)) }

/-- `task.stack_top = arch::initialize_stack(top, task.task_func, task.param)`. -/
def buildStack (t : BootTarget) (tid : Nat) (top : Tcb → Nat) : Prog Boot Unit := do
  let x ← gets (·.tasks tid)
  let stackTop := initializeStack t.layout (top x)
  store fun s => { s with frames := Function.update s.frames tid (some ⟨stackTop, x.taskFunc, x.param⟩) }
  setTask tid fun x => { x with stackTop := stackTop }

/-- `Task::initialize_task`. -/
def initializeTask (t : BootTarget) (tid : Nat) (r : Registration) : Prog Boot Unit := do
  setTask tid fun x => { x with taskId := tid }
  setTask tid fun x => { x with stackTop := t.userStack tid }
  setTask tid fun x => { x with stackBottom := t.userStack tid }
  setTask tid fun x => { x with param := r.param }
  onKernel (Kernel.initializeTask tid r.prio)
  setTask tid fun x => { x with taskFunc := r.func }
  setTask tid fun x => { x with name := r.name }
  let generation ← gets (·.currentGeneration)
  setTask tid fun x => { x with generation := generation }
  buildStack t tid Tcb.stackTop

/-- The closure that `create_task_static` runs as a transaction. -/
def registerTask (t : BootTarget) (r : Registration) : Prog Boot (Except ErrorCode Nat) := do
  logTaskCnt
  let tid ← gets (·.kernel.taskCnt)
  if tid ≥ t.taskNumLimit then
    pure (.error .noSpace)
  else if r.prio ≥ numPriorityLevels then
    pure (.error .invalidParam)
  else do
    onKernel (store fun k => { k with taskCnt := tid + 1 })
    -- `Task::alloc_static`
    store fun s => { s with allocated := Function.update s.allocated tid true }
    initializeTask t tid r
    let started ← gets (·.kernel.schedulerStarted)
    let curMax ← gets (·.kernel.curMaxPriority)
    if ¬ started ∧ r.prio < curMax then do
      -- neither store is logged
      onKernel (Kernel.setCurrent tid)
      onKernel (store fun k => { k with curMaxPriority := r.prio })
    pure (.ok tid)

def createTaskStatic (t : BootTarget) (r : Registration) : Prog Boot (Except ErrorCode Nat) := do
  let res ← run t (registerTask t r)
  match res with
  | .ok tid => do
      let allocated ← gets (·.allocated tid)
      check (allocated = true)
      onKernel (Kernel.rollForwardInsertIntoReadylist tid)
  | .error _ => pure ()
  pure res

/-! ## The boot -/

/-- The idle task; `func` is the address of `idle_fn`. -/
def idle (func : Nat) : Registration := ⟨"idle", numPriorityLevels - 1, func, 0⟩

/-- `create_idle_task` loops forever where it fails. -/
def createIdleTask (t : BootTarget) (func : Nat) : Prog Boot Unit := do
  match ← createTaskStatic t (idle func) with
  | .error _ => fail
  | .ok _ => pure ()

/-- The registrations of `main`. -/
def registerApps (t : BootTarget) : List Registration → Prog Boot Unit
  | [] => pure ()
  | r :: apps => do
      let _ ← createTaskStatic t r
      registerApps t apps

/-- `increase_generation`. -/
def increaseGeneration (b : Board) : Prog Boot Unit := do
  let generation ← gets (·.currentGeneration)
  let generation ← addUsize b generation 1
  store fun s => { s with currentGeneration := generation }

/-- `recover` before the first boot is done. It recovers no task. -/
def recover (t : BootTarget) : Prog Boot Unit := do
  rollBackIfUncommitted t.board
  onKernel (Kernel.recoverListTransaction t.toConfig)

/-- `idempotent_boot` of the boot sequence. -/
def idempotentBoot (t : BootTarget) (idleFn : Nat) (apps : List Registration) : Prog Boot Unit := do
  onCache TxCache.resetPtr
  createIdleTask t idleFn
  registerApps t apps
  store fun s => { s with firstBootDone := true }

/-- `recover_and_boot` before the first boot is done, up to the start of the kernel. -/
def recoverAndBoot (t : BootTarget) (idleFn : Nat) (apps : List Registration) : Prog Boot Unit := do
  onKernel (store fun k => { k with schedulerStarted := false })
  increaseGeneration t.board
  recover t
  idempotentBoot t idleFn apps

/-! ## Behind the boot -/

/-- `Task::is_crashed`. -/
def isCrashed (tid : Nat) (s : Boot) : Prop := (s.tasks tid).generation ≠ s.currentGeneration

instance (tid : Nat) (s : Boot) : Decidable (isCrashed tid s) := inferInstanceAs (Decidable (_ ≠ _))

/-- What `Task::jit_recovery` does about the stack. `task_switch` calls it on the task that it chooses; `start_kernel`
starts the current task without it. -/
def recoverStack (t : BootTarget) (tid : Nat) : Prog Boot Unit := do
  let crashed ← gets fun s => decide (s.isCrashed tid)
  if crashed then do
    buildStack t tid Tcb.stackBottom
    let generation ← gets (·.currentGeneration)
    setTask tid fun x => { x with generation := generation }

/-- Power fails: the stacks are lost. -/
def powerOff (s : Boot) : Boot := { s with frames := fun _ => none }

end Boot

end IntOS
