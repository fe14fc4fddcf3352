import IntOS.Heap.Heap

/-!
# Committed blocks do not overlap

Runs of task creations and allocations, in transactions of the tasks and of the boot code. Where the power fails the
transaction that ran is rolled back, at once or when its task runs again.
-/

namespace IntOS

open Persist Persist.Prog Blocks

namespace Bump

/-- The addresses of an allocator. -/
def region (b : Bump) : Block := ⟨b.heapStart, b.heapEnd - b.heapStart⟩

/-- The heap of a task that got no region. -/
def Void (b : Bump) : Prop := b.heapStart = 0 ∧ b.heapEnd = 0

/-- The block is between the bounds of the allocator. -/
def Within (b : Bump) (x : Block) : Prop := b.heapStart ≤ x.start ∧ x.stop ≤ b.heapEnd

variable {b : Bump} {a : Nat}

theorem region_has : b.region.Has a ↔ b.heapStart ≤ a ∧ a < b.heapEnd := by
  simp only [Block.Has, Block.stop, region]
  omega

theorem Void.not_has (h : b.Void) : ¬ b.region.Has a := by
  rw [region_has, h.2]
  exact fun ha => absurd ha.2 (Nat.not_lt_zero a)

theorem Within.has {x : Block} (h : b.Within x) (ha : x.Has a) : b.region.Has a :=
  region_has.mpr ⟨Nat.le_trans h.1 ha.1, Nat.lt_of_lt_of_le ha.2 h.2⟩

end Bump

namespace Heaps

/-- An allocation. -/
inductive Call
  | palloc (layout : Layout)
  | pallocArray (elemSize size : Nat)

def Call.run (w : PtrWidth) : Call → Prog Heaps (Option Block)
  | palloc layout => Heaps.palloc w layout
  | pallocArray elemSize size => Heaps.pallocArray w elemSize size

/-- The heaps, and the blocks that each owner got in its running transaction and in committed ones, newest first. -/
structure History where
  heaps : Heaps
  pending : Owner → List Block
  committed : Owner → List Block

inductive Step (cfg : HeapConfig) : History → History → Prop
  | start {g : History} : g.heaps.current < g.heaps.taskCnt →
      Step cfg g { g with heaps.schedulerStarted := true }
  | switch {g : History} {t : Nat} : t < g.heaps.taskCnt → Step cfg g { g with heaps.current := t }
  | reboot {g : History} : Step cfg g { g with heaps.schedulerStarted := false }
  | call {g : History} {c : Call} {r : Option Block} {s : Heaps} : (c.run cfg.width g.heaps).out = some (r, s) →
      Step cfg g { g with
        heaps := s
        pending := Function.update g.pending g.heaps.owner (r.toList ++ g.pending g.heaps.owner) }
  | crashInCall {g : History} {c : Call} {s : Heaps} : s ∈ crashes (c.run cfg.width) g.heaps →
      Step cfg g { g with heaps := s }
  | commit {g : History} :
      Step cfg g {
        heaps := clear g.heaps.owner g.heaps
        pending := Function.update g.pending g.heaps.owner []
        committed := Function.update g.committed g.heaps.owner
          (g.pending g.heaps.owner ++ g.committed g.heaps.owner) }
  | rollBack {g : History} {o : Owner} :
      Step cfg g { g with heaps := rollBack o g.heaps, pending := Function.update g.pending o [] }
  /-- The whole of it is a critical section. -/
  | createTask {g : History} {prio size : Nat} {r : Except ErrorCode Nat} {s : Heaps} :
      g.heaps.journal g.heaps.owner = [] → (createTask cfg prio size g.heaps).out = some (r, s) →
      Step cfg g { g with heaps := clear g.heaps.owner s }
  | crashInCreateTask {g : History} {prio size : Nat} {s : Heaps} :
      g.heaps.journal g.heaps.owner = [] → s ∈ crashes (createTask cfg prio size) g.heaps →
      Step cfg g { g with heaps := rollBack g.heaps.owner s }

inductive Reachable (cfg : HeapConfig) : History → Prop
  | init : Reachable cfg ⟨Heaps.init cfg, fun _ => [], fun _ => []⟩
  | step {g g' : History} : Reachable cfg g → Step cfg g g' → Reachable cfg g'

/-! ## One owner -/

/-- The journal goes back to where the transaction began, the address `base`: committed blocks are below it, those of
the running transaction above. -/
def TxOk (o : Owner) (b : Bump) (rs : List HeapRecord) (pending committed : List Block) : Prop :=
  ∃ (saved : List Bump) (base : Nat), rs = saved.map (.heap o) ∧ saved.getLastD b = { b with next := base } ∧
    Packed b.heapStart base committed ∧ Packed base b.next pending ∧ b.next ≤ b.heapEnd

variable {cfg : HeapConfig} {s c : Heaps} {g g' : History} {o : Owner} {b : Bump} {rs : List HeapRecord}
  {pending committed : List Block}

theorem TxOk.alloc {start size : Nat} {r : Option Block} (h : TxOk o b rs pending committed) (hlo : b.next ≤ start)
    (hhi : start + size ≤ b.heapEnd) (hr : ∀ x ∈ r, x = ⟨start, size⟩) :
    TxOk o { b with next := start + size } (.heap o b :: rs) (r.toList ++ pending) committed := by
  obtain ⟨saved, base, rfl, hlast, hc, hp, hend⟩ := h
  refine ⟨b :: saved, base, rfl, ?_, hc, ?_, hhi⟩
  · rw [List.getLastD_cons, hlast]
  · cases r with
    | none => exact hp.mono (Nat.le_trans hlo (Nat.le_add_right _ _))
    | some x =>
        obtain rfl := hr x rfl
        exact ⟨Nat.le_refl _, hp.mono hlo⟩

theorem TxOk.commit (h : TxOk o b rs pending committed) : TxOk o b [] [] (pending ++ committed) := by
  obtain ⟨saved, base, rfl, hlast, hc, hp, hend⟩ := h
  exact ⟨[], b.next, rfl, rfl, hc.append hp, Nat.le_refl _, hend⟩

theorem TxOk.le_end (h : TxOk o b rs pending committed) :
    ∃ base, base ≤ b.heapEnd ∧ Packed b.heapStart base committed :=
  let ⟨_, base, _, _, hc, hp, hend⟩ := h
  ⟨base, Nat.le_trans hp.le hend, hc⟩

theorem undo_heaps (saved : List Bump) (s : Heaps) :
    undo (saved.map (.heap o)) s = { s with heap := Function.update s.heap o (saved.getLastD (s.heap o)) } := by
  induction saved generalizing s with
  | nil => simp [undo]
  | cons b saved ih =>
      simp only [List.map_cons, undo, ih, Function.update_self, Function.update_idem, List.getLastD_cons]

/-- The transaction is undone: its blocks are forgotten, the committed ones stay. -/
theorem TxOk.rollBack (h : TxOk o (s.heap o) (s.journal o) pending committed) :
    ∃ b, Heaps.rollBack o s = clear o { s with heap := Function.update s.heap o b } ∧
      b.heapStart = (s.heap o).heapStart ∧ b.heapEnd = (s.heap o).heapEnd ∧ TxOk o b [] [] committed := by
  obtain ⟨saved, base, hrs, hlast, hc, hp, hend⟩ := h
  refine ⟨{ s.heap o with next := base }, ?_, rfl, rfl, [], base, rfl, rfl, hc, Nat.le_refl _, ?_⟩
  · rw [Heaps.rollBack, hrs, undo_heaps, hlast]
  · exact Nat.le_trans hp.le hend

/-! ## All of them -/

/-- The owners there are. -/
def Knows (s : Heaps) : Owner → Prop
  | .boot => True
  | .task t => t < s.taskCnt

structure Inv (cfg : HeapConfig) (g : History) : Prop where
  globalEnd : g.heaps.global.heapEnd = cfg.pmHeapArea.stop
  globalNext : cfg.pmHeapArea.start ≤ g.heaps.global.next ∧ g.heaps.global.next ≤ cfg.pmHeapArea.stop
  current : g.heaps.schedulerStarted → g.heaps.current < g.heaps.taskCnt
  boot : (g.heaps.heap .boot).heapStart = cfg.bootPmHeapArea.start ∧
    (g.heaps.heap .boot).heapEnd = cfg.bootPmHeapArea.stop
  region : ∀ t < g.heaps.taskCnt, Bump.Void (g.heaps.heap (.task t)) ∨
    cfg.pmHeapArea.start ≤ (g.heaps.heap (.task t)).heapStart ∧ (g.heaps.heap (.task t)).heapEnd ≤ g.heaps.global.next
  apart : ∀ t u, t < u → u < g.heaps.taskCnt → Bump.Void (g.heaps.heap (.task t)) ∨ Bump.Void (g.heaps.heap (.task u)) ∨
    (g.heaps.heap (.task t)).heapEnd ≤ (g.heaps.heap (.task u)).heapStart
  tx : ∀ o, Knows g.heaps o → TxOk o (g.heaps.heap o) (g.heaps.journal o) (g.pending o) (g.committed o)
  fresh : ∀ t, g.heaps.taskCnt ≤ t → g.heaps.journal (.task t) = [] ∧ g.pending (.task t) = [] ∧
    g.committed (.task t) = []

theorem Inv.init : Inv cfg ⟨Heaps.init cfg, fun _ => [], fun _ => []⟩ where
  globalEnd := rfl
  globalNext := ⟨Nat.le_refl _, Nat.le_add_right _ _⟩
  current := nofun
  boot := ⟨rfl, rfl⟩
  region := nofun
  apart := nofun
  tx o ho := by
    cases o with
    | boot => exact ⟨[], _, rfl, rfl, Nat.le_refl _, Nat.le_refl _, Nat.le_add_right _ _⟩
    | task t => exact absurd ho (Nat.not_lt_zero t)
  fresh := fun _ _ => ⟨rfl, rfl, rfl⟩

/-- A task that is not created yet. -/
theorem Inv.unknown (h : Inv cfg g) (ho : ¬ Knows g.heaps o) :
    g.heaps.journal o = [] ∧ g.pending o = [] ∧ g.committed o = [] := by
  cases o with
  | boot => exact absurd trivial ho
  | task t => exact h.fresh t (Nat.le_of_not_lt ho)

theorem Inv.knows_owner (h : Inv cfg g) : Knows g.heaps g.heaps.owner := by
  unfold owner
  split
  · next hs => exact h.current hs
  · trivial

/-- A step that is about one owner keeps its region. -/
theorem Inv.set (h : Inv cfg g) (ho : Knows g.heaps o)
    (hheaps : g'.heaps = { g.heaps with
      heap := Function.update g.heaps.heap o b, journal := Function.update g.heaps.journal o rs })
    (hpending : g'.pending = Function.update g.pending o pending)
    (hcommitted : g'.committed = Function.update g.committed o committed)
    (hstart : b.heapStart = (g.heaps.heap o).heapStart) (hend : b.heapEnd = (g.heaps.heap o).heapEnd)
    (htx : TxOk o b rs pending committed) : Inv cfg g' := by
  obtain ⟨heaps, pending', committed'⟩ := g'
  dsimp only at hheaps hpending hcommitted
  subst hheaps hpending hcommitted
  have hs : ∀ x, (Function.update g.heaps.heap o b x).heapStart = (g.heaps.heap x).heapStart := by
    intro x
    by_cases hx : x = o
    · rw [hx, Function.update_self, hstart]
    · rw [Function.update_of_ne hx]
  have he : ∀ x, (Function.update g.heaps.heap o b x).heapEnd = (g.heaps.heap x).heapEnd := by
    intro x
    by_cases hx : x = o
    · rw [hx, Function.update_self, hend]
    · rw [Function.update_of_ne hx]
  refine ⟨h.globalEnd, h.globalNext, h.current, ?_, ?_, ?_, fun x hx => ?_, fun t ht => ?_⟩
  · simpa only [hs, he] using h.boot
  · simpa only [Bump.Void, hs, he] using h.region
  · simpa only [Bump.Void, hs, he] using h.apart
  · by_cases hxo : x = o
    · subst hxo
      simpa using htx
    · simpa [hxo] using h.tx x hx
  · have hne : Owner.task t ≠ o := by
      rintro rfl
      exact absurd ho (Nat.not_lt_of_le ht)
    simpa [hne] using h.fresh t ht

/-! ## Allocations -/

/-- The owner's allocator has been logged and has moved up, over the block returned if there is one. -/
def Allocated (s : Heaps) (r : Option Block) (c : Heaps) : Prop :=
  ∃ start size, (s.heap s.owner).next ≤ start ∧ start + size ≤ (s.heap s.owner).heapEnd ∧
    (∀ x ∈ r, x = ⟨start, size⟩) ∧
    c = { s with
      heap := Function.update s.heap s.owner { s.heap s.owner with next := start + size }
      journal := Function.update s.journal s.owner (.heap s.owner (s.heap s.owner) :: s.journal s.owner) }

theorem wpc_alloc {w : PtrWidth} {layout : Layout} (hend : (s.heap s.owner).next ≤ (s.heap s.owner).heapEnd) :
    wpc (alloc w layout) (fun r c => Allocated s r c) True (fun c => c = s ∨ Allocated s none c) s := by
  have hlogged : Allocated s none { s with
      journal := Function.update s.journal s.owner (.heap s.owner (s.heap s.owner) :: s.journal s.owner) } :=
    ⟨_, 0, Nat.le_refl _, hend, nofun, by simp⟩
  unfold alloc appendLogOf perTaskAlloc
  refine wpc_bind (wpc_gets (Or.inl rfl) ?_)
  refine wpc_bind (wpc_store (Or.inl rfl) (Or.inr hlogged) ?_)
  refine wpc_bind (wpc_gets (Or.inr hlogged) ?_)
  refine wpc_bind (wpc_check (Or.inr hlogged) (fun _ => trivial) fun hfits => ?_)
  dsimp only at hfits ⊢
  split
  · next hroom =>
      obtain ⟨k, hk⟩ := layout.pow
      have hmoved : ∀ r, (∀ x ∈ r, x = ⟨alignUp w (s.heap s.owner).next layout.align, layout.size⟩) → Allocated s r _ :=
        fun r hr => ⟨_, _, (alignUp_bounds w hk hfits).1, hroom.2, hr, rfl⟩
      refine wpc_bind (wpc_store (Or.inr hlogged) (Or.inr (hmoved none nofun)) ?_)
      refine wpc_pure (Or.inr (hmoved none nofun)) (hmoved _ fun x hx => ?_)
      split at hx
      · cases hx
      · exact (Option.mem_some.mp hx).symm
  · exact wpc_pure (Or.inr hlogged) hlogged

theorem wpc_call {w : PtrWidth} {call : Call} (hend : (s.heap s.owner).next ≤ (s.heap s.owner).heapEnd) :
    wpc (call.run w) (fun r c => r = none ∧ c = s ∨ Allocated s r c) True (fun c => c = s ∨ Allocated s none c) s := by
  cases call with
  | palloc layout => exact wpc_mono (wpc_alloc hend) (fun _ _ h => Or.inr h) fun _ h => h
  | pallocArray elemSize size =>
      unfold Call.run pallocArray
      refine wpc_bind (wpc_check (Or.inl rfl) (fun _ => trivial) fun _ => ?_)
      split
      · exact wpc_pure (Or.inl rfl) (Or.inl ⟨rfl, rfl⟩)
      · exact wpc_mono (wpc_alloc hend) (fun _ _ h => Or.inr h) fun _ h => h

theorem Inv.allocated {r : Option Block} (h : Inv cfg g) (ha : Allocated g.heaps r s) :
    Inv cfg { g with
      heaps := s
      pending := Function.update g.pending g.heaps.owner (r.toList ++ g.pending g.heaps.owner) } := by
  obtain ⟨start, size, hlo, hhi, hr, rfl⟩ := ha
  exact h.set h.knows_owner rfl rfl (Function.update_eq_self _ _).symm rfl rfl
    ((h.tx _ h.knows_owner).alloc hlo hhi hr)

theorem Inv.call {r : Option Block} {call : Call} (h : Inv cfg g)
    (hout : (call.run cfg.width g.heaps).out = some (r, s)) :
    Inv cfg { g with
      heaps := s
      pending := Function.update g.pending g.heaps.owner (r.toList ++ g.pending g.heaps.owner) } := by
  obtain ⟨_, _, _, _, _, _, hend⟩ := h.tx _ h.knows_owner
  rcases (wpc_call hend).post hout with ⟨rfl, rfl⟩ | ha
  · simpa using h
  · exact h.allocated ha

theorem Inv.crashInCall {call : Call} (h : Inv cfg g) (hs : s ∈ crashes (call.run cfg.width) g.heaps) :
    Inv cfg { g with heaps := s } := by
  obtain ⟨_, _, _, _, _, _, hend⟩ := h.tx _ h.knows_owner
  rcases (wpc_call hend).crash hs with rfl | ha
  · exact h
  · simpa using h.allocated ha

theorem Inv.commit (h : Inv cfg g) :
    Inv cfg {
      heaps := clear g.heaps.owner g.heaps
      pending := Function.update g.pending g.heaps.owner []
      committed := Function.update g.committed g.heaps.owner (g.pending g.heaps.owner ++ g.committed g.heaps.owner) } :=
  h.set (b := g.heaps.heap g.heaps.owner) h.knows_owner (by simp [clear]) rfl rfl rfl rfl
    (h.tx _ h.knows_owner).commit

theorem Inv.rollBack (h : Inv cfg g) :
    Inv cfg { g with heaps := Heaps.rollBack o g.heaps, pending := Function.update g.pending o [] } := by
  by_cases ho : Knows g.heaps o
  · obtain ⟨b, hb, hstart, hend, htx⟩ := (h.tx o ho).rollBack
    refine h.set ho ?_ rfl (Function.update_eq_self _ _).symm hstart hend htx
    rw [hb]
    rfl
  · obtain ⟨hj, hp, -⟩ := h.unknown ho
    have hjournal : Function.update g.heaps.journal o [] = g.heaps.journal := by rw [← hj, Function.update_eq_self]
    have hheaps : Heaps.rollBack o g.heaps = g.heaps := by rw [Heaps.rollBack, hj, undo, clear, hjournal]
    have hpending : Function.update g.pending o [] = g.pending := by rw [← hp, Function.update_eq_self]
    rw [hheaps, hpending]
    exact h

/-! ## Task creation -/

/-- Within the transaction of `create_task_static`: the journal, the number of tasks, the heap of the new task and the
global heap. -/
def creating (s : Heaps) (rs : List HeapRecord) (n : Nat) (b : Bump) (global : GlobalPMHeap) : Heaps :=
  { s with
    taskCnt := n
    heap := Function.update s.heap (.task s.taskCnt) b
    global := global
    journal := Function.update s.journal s.owner rs }

/-- Undone, but for the heap of the task that is not there. -/
def Undone (s c : Heaps) : Prop :=
  ∃ b, rollBack s.owner c = { s with heap := Function.update s.heap (.task s.taskCnt) b }

variable {n : Nat} {global : GlobalPMHeap}

theorem undone_creating (hj : s.journal s.owner = []) : Undone s (creating s [.taskCnt s.taskCnt] n b s.global) := by
  have hjournal : Function.update s.journal s.owner [] = s.journal := by rw [← hj, Function.update_eq_self]
  refine ⟨b, ?_⟩
  simp [rollBack, creating, undo, clear, hjournal]

theorem undone_creating_global (hj : s.journal s.owner = []) :
    Undone s (creating s [.global s.global, .taskCnt s.taskCnt] n b global) := by
  have hjournal : Function.update s.journal s.owner [] = s.journal := by rw [← hj, Function.update_eq_self]
  refine ⟨b, ?_⟩
  simp [rollBack, creating, undo, clear, hjournal]

theorem wpc_initHeap {w : PtrWidth} {heapStart heapSize : Nat} {C : Heaps → Prop}
    (hC : ∀ b, C (creating s rs n b global)) :
    wpc (initHeap w (.task s.taskCnt) heapStart heapSize)
      (fun _ c => c = creating s rs n ⟨heapStart, heapStart + heapSize, heapStart⟩ global) True C
      (creating s rs n b global) := by
  have hstore : ∀ b b' : Bump, { creating s rs n b global with
      heap := Function.update (creating s rs n b global).heap (.task s.taskCnt) b' } = creating s rs n b' global := by
    intro b b'
    simp [creating]
  unfold initHeap
  refine wpc_bind (wpc_store (hC b) (by rw [hstore]; exact hC _) ?_)
  rw [hstore]
  refine wpc_bind (wpc_check (hC _) (fun _ => trivial) fun _ => ?_)
  refine wpc_bind (wpc_store (hC _) (by rw [hstore]; exact hC _) ?_)
  rw [hstore]
  refine wpc_store (hC _) (by rw [hstore]; exact hC _) ?_
  rw [hstore]
  simp [creating]

/-- A new task has no region, or one above all the others. -/
def Assigned (s : Heaps) (b : Bump) (global : GlobalPMHeap) : Prop :=
  b = newBump ∧ global = s.global ∨
    global.heapEnd = s.global.heapEnd ∧ b.heapStart = s.global.next ∧ b.next = b.heapStart ∧ b.next ≤ b.heapEnd ∧
      b.heapEnd = global.next ∧ global.next ≤ s.global.heapEnd

theorem wpc_createPerTaskPmHeap {w : PtrWidth} {size : Nat} (hj : s.journal s.owner = []) :
    wpc (createPerTaskPmHeap w (.task s.taskCnt) size)
      (fun _ c => Undone s c ∧ ∃ rs b global, c = creating s rs n b global ∧ Assigned s b global) True (Undone s)
      (creating s [.taskCnt s.taskCnt] n newBump s.global) := by
  have h₁ : ∀ b, Undone s (creating s [.taskCnt s.taskCnt] n b s.global) := fun _ => undone_creating hj
  have h₂ : ∀ b global, Undone s (creating s [.global s.global, .taskCnt s.taskCnt] n b global) := fun _ _ =>
    undone_creating_global hj
  unfold createPerTaskPmHeap
  split
  · refine wpc_mono (wpc_initHeap h₁) (fun _ c hc => ?_) fun _ hc => hc
    rw [hc]
    exact ⟨h₁ _, _, _, _, rfl, Or.inl ⟨rfl, rfl⟩⟩
  · unfold globalAlloc appendLogOf
    refine wpc_bind (wpc_bind (wpc_gets (h₁ _) (wpc_bind (wpc_check (h₁ _) (fun _ => trivial) fun _ => ?_))))
    split
    · exact wpc_pure (h₁ _) (wpc_pure (h₁ _) ⟨h₁ _, _, _, _, rfl, Or.inl ⟨rfl, rfl⟩⟩)
    · next hroom =>
        have hlog : { creating s [.taskCnt s.taskCnt] n newBump s.global with
            journal := Function.update (creating s [.taskCnt s.taskCnt] n newBump s.global).journal s.owner
              (.global s.global :: (creating s [.taskCnt s.taskCnt] n newBump s.global).journal s.owner) } =
            creating s [.global s.global, .taskCnt s.taskCnt] n newBump s.global := by simp [creating]
        refine wpc_bind (wpc_store (h₁ _) (hlog ▸ h₂ _ _) (hlog ▸ ?_))
        refine wpc_bind (wpc_gets (h₂ _ _) (wpc_bind (wpc_store (h₂ _ _) (h₂ _ _) (wpc_pure (h₂ _ _) ?_))))
        refine wpc_mono (wpc_initHeap fun _ => h₂ _ _) (fun _ c hc => ?_) fun _ hc => hc
        rw [hc]
        exact ⟨h₂ _ _, _, _, _, rfl,
          Or.inr ⟨rfl, rfl, rfl, Nat.le_add_right _ _, rfl, Nat.le_of_not_lt hroom⟩⟩

/-- The transaction of a creation that fails changes nothing. -/
theorem wpc_createTask {prio size : Nat} (hj : s.journal s.owner = []) (hnew : s.journal (.task s.taskCnt) = [])
    (ho : s.owner ≠ .task s.taskCnt) :
    wpc (createTask cfg prio size)
      (fun _ c => clear s.owner c = s ∨ ∃ b global, Assigned s b global ∧ clear s.owner c =
        { s with taskCnt := s.taskCnt + 1, heap := Function.update s.heap (.task s.taskCnt) b, global := global })
      True (Undone s) s := by
  have hself : Function.update s.journal s.owner [] = s.journal := by rw [← hj, Function.update_eq_self]
  have hstart : Undone s s := ⟨s.heap (.task s.taskCnt), by simp [rollBack, hj, undo, clear, hself]⟩
  have hlog : { s with journal := Function.update s.journal s.owner (.taskCnt s.taskCnt :: s.journal s.owner) } =
      creating s [.taskCnt s.taskCnt] s.taskCnt (s.heap (.task s.taskCnt)) s.global := by simp [creating, hj]
  have hundone : ∀ n b, Undone s (creating s [.taskCnt s.taskCnt] n b s.global) := fun _ _ => undone_creating hj
  have herror : clear s.owner (creating s [.taskCnt s.taskCnt] s.taskCnt (s.heap (.task s.taskCnt)) s.global) = s := by
    simp [clear, creating, hself]
  have hcnt : ∀ b, { creating s [.taskCnt s.taskCnt] s.taskCnt b s.global with taskCnt := s.taskCnt + 1 } =
      creating s [.taskCnt s.taskCnt] (s.taskCnt + 1) b s.global := fun _ => rfl
  have hheap : ∀ b b', { creating s [.taskCnt s.taskCnt] (s.taskCnt + 1) b s.global with
      heap := Function.update (creating s [.taskCnt s.taskCnt] (s.taskCnt + 1) b s.global).heap (.task s.taskCnt) b' } =
      creating s [.taskCnt s.taskCnt] (s.taskCnt + 1) b' s.global := by
    intro b b'
    simp [creating]
  have hinit : ∀ b, { creating s [.taskCnt s.taskCnt] (s.taskCnt + 1) b s.global with
      journal := Function.update (creating s [.taskCnt s.taskCnt] (s.taskCnt + 1) b s.global).journal
        (.task s.taskCnt) [] } = creating s [.taskCnt s.taskCnt] (s.taskCnt + 1) b s.global := by
    intro b
    simp only [creating]
    rw [Function.update_comm ho, ← hnew, Function.update_eq_self]
  unfold createTask appendLogOf setHeap
  refine wpc_bind (wpc_store hstart (by rw [hlog]; exact hundone _ _) ?_)
  rw [hlog]
  refine wpc_bind (wpc_gets (hundone _ _) ?_)
  have htid : (creating s [.taskCnt s.taskCnt] s.taskCnt (s.heap (.task s.taskCnt)) s.global).taskCnt = s.taskCnt := rfl
  rw [htid]
  split
  · exact wpc_pure (hundone _ _) (Or.inl herror)
  · split
    · exact wpc_pure (hundone _ _) (Or.inl herror)
    · refine wpc_bind (wpc_store (hundone _ _) (by rw [hcnt]; exact hundone _ _) ?_)
      rw [hcnt]
      refine wpc_bind (wpc_store (hundone _ _) (by rw [hheap]; exact hundone _ _) ?_)
      rw [hheap]
      refine wpc_bind (wpc_store (hundone _ _) (by rw [hinit]; exact hundone _ _) ?_)
      rw [hinit]
      refine wpc_bind (wpc_mono (wpc_createPerTaskPmHeap hj) ?_ fun _ hc => hc)
      rintro _ c ⟨hc, rs, b, global, rfl, hassigned⟩
      exact wpc_pure hc (Or.inr ⟨b, global, hassigned, by simp [clear, creating, hself]⟩)

theorem Inv.owner_ne (h : Inv cfg g) : g.heaps.owner ≠ .task g.heaps.taskCnt := by
  intro ho
  have hknows := h.knows_owner
  rw [ho] at hknows
  exact absurd hknows (Nat.lt_irrefl _)

/-- The heap of a task that is not there does not matter. -/
theorem Inv.heap (h : Inv cfg g) :
    Inv cfg { g with heaps.heap := Function.update g.heaps.heap (.task g.heaps.taskCnt) b } := by
  have hne : ∀ t < g.heaps.taskCnt, Owner.task t ≠ .task g.heaps.taskCnt := by
    rintro t ht heq
    exact absurd (Owner.task.inj heq) (Nat.ne_of_lt ht)
  refine ⟨h.globalEnd, h.globalNext, h.current, by simpa using h.boot, fun t ht => ?_, fun t u htu hu => ?_,
    fun o ho => ?_, h.fresh⟩
  · simpa [hne t ht] using h.region t ht
  · simpa [hne t (Nat.lt_trans htu hu), hne u hu] using h.apart t u htu hu
  · cases o with
    | boot => simpa using h.tx .boot trivial
    | task t => simpa [hne t ho] using h.tx (.task t) ho

theorem Inv.create (h : Inv cfg g) (ha : Assigned g.heaps b global) :
    Inv cfg { g with heaps := { g.heaps with
      taskCnt := g.heaps.taskCnt + 1
      heap := Function.update g.heaps.heap (.task g.heaps.taskCnt) b
      global := global } } := by
  have hne : ∀ t < g.heaps.taskCnt, Owner.task t ≠ .task g.heaps.taskCnt := by
    rintro t ht heq
    exact absurd (Owner.task.inj heq) (Nat.ne_of_lt ht)
  have hbounds : g.heaps.global.next ≤ global.next ∧ global.heapEnd = cfg.pmHeapArea.stop ∧
      global.next ≤ cfg.pmHeapArea.stop ∧ b.heapStart ≤ b.next ∧ b.next ≤ b.heapEnd := by
    rcases ha with ⟨rfl, rfl⟩ | ⟨hend, hstart, hnext, hle, htop, hroom⟩
    · exact ⟨Nat.le_refl _, h.globalEnd, h.globalNext.2, Nat.le_refl _, Nat.le_refl _⟩
    · rw [h.globalEnd] at hend hroom
      rw [← hstart, ← htop, ← hnext]
      exact ⟨hle, hend, htop ▸ hroom, Nat.le_refl _, hle⟩
  obtain ⟨hnext, hend, htop, hlow, hhigh⟩ := hbounds
  have hregion : Bump.Void b ∨ g.heaps.global.next = b.heapStart ∧ b.heapEnd = global.next := by
    rcases ha with ⟨rfl, -⟩ | ⟨-, hstart, -, -, htop, -⟩
    · exact Or.inl ⟨rfl, rfl⟩
    · exact Or.inr ⟨hstart.symm, htop⟩
  refine ⟨hend, ⟨Nat.le_trans h.globalNext.1 hnext, htop⟩, fun hs => Nat.lt_succ_of_lt (h.current hs),
    by simpa using h.boot, fun t ht => ?_, fun t u htu hu => ?_, fun o ho => ?_, fun t ht => ?_⟩
  · rcases Nat.lt_succ_iff_lt_or_eq.mp ht with ht | rfl
    · simp only [Function.update_of_ne (hne t ht)]
      exact (h.region t ht).imp_right fun hr => ⟨hr.1, Nat.le_trans hr.2 hnext⟩
    · simp only [Function.update_self]
      rcases hregion with hv | ⟨hstart, htop⟩
      · exact Or.inl hv
      · exact Or.inr ⟨hstart ▸ h.globalNext.1, Nat.le_of_eq htop⟩
  · rcases Nat.lt_succ_iff_lt_or_eq.mp hu with hu | rfl
    · simp only [Function.update_of_ne (hne t (Nat.lt_trans htu hu)), Function.update_of_ne (hne u hu)]
      exact h.apart t u htu hu
    · simp only [Function.update_of_ne (hne t htu), Function.update_self]
      rcases h.region t htu with hv | hr
      · exact Or.inl hv
      · rcases hregion with hv | hb
        · exact Or.inr (Or.inl hv)
        · exact Or.inr (Or.inr (Nat.le_trans hr.2 (Nat.le_of_eq hb.1)))
  · cases o with
    | boot => simpa using h.tx .boot trivial
    | task t =>
        rcases Nat.lt_succ_iff_lt_or_eq.mp ho with ht | rfl
        · simpa [hne t ht] using h.tx (.task t) ht
        · obtain ⟨hj, hp, hc⟩ := h.fresh _ (Nat.le_refl _)
          simp only [Function.update_self, hj, hp, hc]
          exact ⟨[], b.next, rfl, rfl, hlow, Nat.le_refl _, hhigh⟩
  · exact h.fresh t (Nat.le_of_succ_le ht)

theorem Inv.createTask {prio size : Nat} {r : Except ErrorCode Nat} (h : Inv cfg g)
    (hj : g.heaps.journal g.heaps.owner = []) (hout : (createTask cfg prio size g.heaps).out = some (r, s)) :
    Inv cfg { g with heaps := clear g.heaps.owner s } := by
  have hnew := (h.fresh _ (Nat.le_refl _)).1
  rcases (wpc_createTask hj hnew h.owner_ne).post hout with hs | ⟨b, global, ha, hs⟩
  · rw [hs]
    exact h
  · rw [hs]
    exact h.create ha

theorem Inv.crashInCreateTask {prio size : Nat} (h : Inv cfg g) (hj : g.heaps.journal g.heaps.owner = [])
    (hs : s ∈ crashes (Heaps.createTask cfg prio size) g.heaps) :
    Inv cfg { g with heaps := Heaps.rollBack g.heaps.owner s } := by
  have hnew := (h.fresh _ (Nat.le_refl _)).1
  obtain ⟨b, hb⟩ := (wpc_createTask hj hnew h.owner_ne).crash hs
  rw [hb]
  exact h.heap

theorem Inv.step (h : Inv cfg g) (hs : Step cfg g g') : Inv cfg g' := by
  cases hs with
  | start hc => exact ⟨h.globalEnd, h.globalNext, fun _ => hc, h.boot, h.region, h.apart, h.tx, h.fresh⟩
  | switch ht => exact ⟨h.globalEnd, h.globalNext, fun _ => ht, h.boot, h.region, h.apart, h.tx, h.fresh⟩
  | reboot => exact ⟨h.globalEnd, h.globalNext, (fun h => by cases h), h.boot, h.region, h.apart, h.tx, h.fresh⟩
  | call hout => exact h.call hout
  | crashInCall hc => exact h.crashInCall hc
  | commit => exact h.commit
  | rollBack => exact h.rollBack
  | createTask hj hout => exact h.createTask hj hout
  | crashInCreateTask hj hc => exact h.crashInCreateTask hj hc

theorem Reachable.inv (h : Reachable cfg g) : Inv cfg g := by
  induction h with
  | init => exact Inv.init
  | step _ hs ih => exact ih.step hs

/-! ## Regions and blocks -/

theorem Inv.within (h : Inv cfg g) {x : Block} (hx : x ∈ g.committed o) : (g.heaps.heap o).Within x := by
  by_cases ho : Knows g.heaps o
  · obtain ⟨base, hle, hpacked⟩ := (h.tx o ho).le_end
    obtain ⟨hlo, hhi⟩ := hpacked.mem hx
    exact ⟨hlo, Nat.le_trans hhi hle⟩
  · rw [(h.unknown ho).2.2] at hx
    exact absurd hx List.not_mem_nil

theorem Inv.committed_apart (h : Inv cfg g) : (g.committed o).Pairwise Block.Apart := by
  by_cases ho : Knows g.heaps o
  · obtain ⟨base, -, hpacked⟩ := (h.tx o ho).le_end
    exact hpacked.apart
  · rw [(h.unknown ho).2.2]
    exact List.Pairwise.nil

theorem Inv.region_in_area (h : Inv cfg g) {t a : Nat} (ht : t < g.heaps.taskCnt)
    (ha : (g.heaps.heap (.task t)).region.Has a) : cfg.pmHeapArea.Has a := by
  rcases h.region t ht with hv | ⟨hlo, hhi⟩
  · exact absurd ha hv.not_has
  · rw [Bump.region_has] at ha
    exact ⟨Nat.le_trans hlo ha.1, Nat.lt_of_lt_of_le ha.2 (Nat.le_trans hhi h.globalNext.2)⟩

theorem Inv.boot_region (h : Inv cfg g) : (g.heaps.heap .boot).region = cfg.bootPmHeapArea := by
  simp [Bump.region, h.boot, Block.stop]

theorem Inv.tasks_apart (h : Inv cfg g) {t u : Nat} (htu : t < u) (hu : u < g.heaps.taskCnt) :
    (g.heaps.heap (.task t)).region.Apart (g.heaps.heap (.task u)).region := by
  rintro a ⟨ht, hu'⟩
  rcases h.apart t u htu hu with hv | hv | hle
  · exact hv.not_has ht
  · exact hv.not_has hu'
  · rw [Bump.region_has] at ht hu'
    omega

theorem Inv.regions_apart (h : Inv cfg g) {o' : Owner} (ho : Knows g.heaps o) (ho' : Knows g.heaps o') (hne : o ≠ o') :
    (g.heaps.heap o).region.Apart (g.heaps.heap o').region := by
  have hboot : ∀ t < g.heaps.taskCnt, (g.heaps.heap .boot).region.Apart (g.heaps.heap (.task t)).region := by
    rintro t ht a ⟨hb, ha⟩
    have harea := h.region_in_area ht ha
    rw [h.boot_region] at hb
    have hapart := cfg.apart
    simp only [Block.Has] at harea hb
    omega
  cases o with
  | boot =>
      cases o' with
      | boot => exact absurd rfl hne
      | task t => exact hboot t ho'
  | task t =>
      cases o' with
      | boot => exact (hboot t ho).symm
      | task u =>
          rcases Nat.lt_trichotomy t u with hlt | rfl | hlt
          · exact h.tasks_apart hlt ho'
          · exact absurd rfl hne
          · exact (h.tasks_apart hlt ho).symm

theorem Inv.blocks_apart (h : Inv cfg g) {o' : Owner} (hne : o ≠ o') {x y : Block} (hx : x ∈ g.committed o)
    (hy : y ∈ g.committed o') : x.Apart y := by
  have hknows : ∀ o, ∀ x ∈ g.committed o, Knows g.heaps o := by
    intro o x hx
    by_contra ho
    rw [(h.unknown ho).2.2] at hx
    exact List.not_mem_nil hx
  rintro a ⟨hax, hay⟩
  exact h.regions_apart (hknows o x hx) (hknows o' y hy) hne a ⟨(h.within hx).has hax, (h.within hy).has hay⟩

/-- The regions of the tasks are in `PM_HEAP_AREA` and apart, that of the boot code is `BOOT_PM_HEAP_AREA`; committed
blocks are in the region of their owner and apart. -/
theorem committed_blocks_apart (h : Reachable cfg g) :
    (∀ o, ∀ x ∈ g.committed o, (g.heaps.heap o).Within x) ∧
    (g.heaps.heap .boot).region = cfg.bootPmHeapArea ∧
    (∀ t < g.heaps.taskCnt, ∀ a, (g.heaps.heap (.task t)).region.Has a → cfg.pmHeapArea.Has a) ∧
    (∀ t < g.heaps.taskCnt, ∀ u < g.heaps.taskCnt, t ≠ u →
      (g.heaps.heap (.task t)).region.Apart (g.heaps.heap (.task u)).region) ∧
    (∀ o, (g.committed o).Pairwise Block.Apart) ∧
    (∀ o o', o ≠ o' → ∀ x ∈ g.committed o, ∀ y ∈ g.committed o', x.Apart y) := by
  have hinv := h.inv
  refine ⟨fun o x hx => hinv.within hx, hinv.boot_region, fun t ht a ha => hinv.region_in_area ht ha, ?_,
    fun o => hinv.committed_apart, fun o o' hne x hx y hy => hinv.blocks_apart hne hx hy⟩
  intro t ht u hu hne
  have howner : Owner.task t ≠ .task u := fun heq => hne (Owner.task.inj heq)
  exact hinv.regions_apart ht hu howner

def twoAreas : HeapConfig where
  width := .w16
  taskNumLimit := 4
  pmHeapArea := ⟨4096, 64⟩
  bootPmHeapArea := ⟨8192, 32⟩
  apart := Or.inl (by decide)

/-- The boot code allocates, then the second of two tasks, with an allocation between that is rolled back. -/
theorem committed_blocks_apart_twoTasks :
    (⟨8192, 6⟩ : Block).Apart ⟨4098, 10⟩ ∧ (⟨4108, 4⟩ : Block).Apart ⟨4098, 10⟩ := by
  have h₀ : Reachable twoAreas _ := .init
  have h₁ := h₀.step (@Step.createTask _ _ 1 2 _ _ rfl rfl)
  have h₂ := h₁.step (@Step.createTask _ _ 1 20 _ _ rfl rfl)
  have h₃ := (h₂.step (@Step.call _ _ (.palloc ⟨6, 2, 1, rfl⟩) _ _ rfl)).step .commit
  have h₄ := (h₃.step (.switch (t := 1) (by decide))).step (.start (by decide))
  have h₅ := (h₄.step (@Step.call _ _ (.pallocArray 2 5) _ _ rfl)).step .commit
  have h₆ := (h₅.step (@Step.call _ _ (.palloc ⟨1, 1, 0, rfl⟩) _ _ rfl)).step (.rollBack (o := .task 1))
  have h₇ := (h₆.step (@Step.call _ _ (.palloc ⟨4, 4, 2, rfl⟩) _ _ rfl)).step .commit
  obtain ⟨-, -, -, -, hown, hother⟩ := committed_blocks_apart h₇
  refine ⟨hother .boot (.task 1) (by decide) _ (.head _) _ (.tail _ (.head _)), ?_⟩
  exact List.rel_of_pairwise_cons (hown (.task 1)) (.head _)

end Heaps

end IntOS
