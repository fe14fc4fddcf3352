import IntOS.Heap.Blocks

/-!
# Allocations in a release build

Arithmetic on `usize` wraps around, and only one addition of `per_task_alloc` is checked. Arrays are requested as
bytes, with the alignment of a byte.
-/

namespace IntOS

open Persist Persist.Prog Blocks

/-- `x + y` on `usize`. -/
def wrappingAdd (w : PtrWidth) (x y : Nat) : Nat := (x + y) % 2 ^ w.bits

/-- `x * y` on `usize`. -/
def wrappingMul (w : PtrWidth) (x y : Nat) : Nat := (x * y) % 2 ^ w.bits

/-- `util::align_up`. -/
def wrappingAlignUp (w : PtrWidth) (addr align : Nat) : Nat :=
  (addr + align - 1) % 2 ^ w.bits &&& w.not (align - 1)

namespace Heaps.Release

/-- `BumpAllocator::per_task_alloc`; `None` is the null pointer. -/
def perTaskAlloc (w : PtrWidth) (o : Owner) (layout : Layout) : Prog Heaps (Option Block) := do
  let b ← gets (·.heap o)
  let allocStart := wrappingAlignUp w b.next layout.align
  -- `checked_add`, and the end of the heap
  if allocStart + layout.size < 2 ^ w.bits ∧ allocStart + layout.size ≤ b.heapEnd then do
    setHeap o { b with next := allocStart + layout.size }
    pure (if allocStart = 0 then none else some ⟨allocStart, layout.size⟩)
  else
    pure none

/-- `PerTaskPMBumpAllocator::alloc` of the heap that `get_pm_heap` returns. -/
def alloc (w : PtrWidth) (layout : Layout) : Prog Heaps (Option Block) := do
  let o ← gets owner
  appendLogOf fun s => .heap o (s.heap o)
  perTaskAlloc w o layout

def palloc (w : PtrWidth) (layout : Layout) : Prog Heaps (Option Block) := alloc w layout

/-- `palloc_array::<T>(size)`, where `size_of::<T>()` is `elemSize`. -/
def pallocArray (w : PtrWidth) (elemSize size : Nat) : Prog Heaps (Option Block) :=
  match byteLayout w (wrappingMul w elemSize size) with
  | none => pure none
  | some layout => alloc w layout

/-- `GlobalPMHeap::alloc`. -/
def globalAlloc (w : PtrWidth) (size : Nat) : Prog Heaps (Option Nat) := do
  let g ← gets (·.global)
  if g.heapEnd < wrappingAdd w g.next size then
    pure none
  else do
    appendLogOf fun s => .global s.global
    let g ← gets (·.global)
    store fun s => { s with global := { s.global with next := wrappingAdd w s.global.next size } }
    pure (some g.next)

/-- `BumpAllocator::init`. -/
def initHeap (w : PtrWidth) (o : Owner) (heapStart heapSize : Nat) : Prog Heaps Unit := do
  store fun s => { s with heap := Function.update s.heap o { s.heap o with heapStart := heapStart } }
  let heapEnd := wrappingAdd w heapStart heapSize
  store fun s => { s with heap := Function.update s.heap o { s.heap o with heapEnd := heapEnd } }
  store fun s => { s with heap := Function.update s.heap o { s.heap o with next := heapStart } }

/-- `create_per_task_pm_heap`; `true` is `Ok`. -/
def createPerTaskPmHeap (w : PtrWidth) (o : Owner) (size : Nat) : Prog Heaps Bool :=
  if size = 0 then do
    initHeap w o 0 0
    pure true
  else do
    match ← globalAlloc w size with
    | some start => do
        initHeap w o start size
        pure true
    | none => pure false

/-- `Transaction::run`: it commits, whatever the closure returns. -/
def run {α : Type} (f : Prog Heaps α) : Prog Heaps α := do
  let ret ← f
  store fun s => clear s.owner s
  pure ret

/-- The closure of `Queue::new`. -/
def queueNewTx (w : PtrWidth) (queue : Layout) (length itemSize : Nat) :
    Prog Heaps (Except ErrorCode (Block × Block)) := do
  match ← palloc w queue with
  | none => pure (.error .noSpace)
  | some ptr => do
      match ← pallocArray w 1 (wrappingMul w length itemSize) with
      | none => pure (.error .noSpace)
      | some buffer => pure (.ok (ptr, buffer))

/-- `Queue::new`, where `queue` is the layout of a `Queue`: the queue and its buffer. -/
def queueNew (w : PtrWidth) (queue : Layout) (length itemSize : Nat) : Prog Heaps (Option (Block × Block)) :=
  if length = 0 then
    pure none
  else do
    let r ← run (queueNewTx w queue length itemSize)
    pure r.toOption

end Heaps.Release

/-! ## One allocation -/

namespace Bump

/-- Where the block goes. -/
def startOf (w : PtrWidth) (b : Bump) (layout : Layout) : Nat := wrappingAlignUp w b.next layout.align

/-- There is room for the block there. -/
def Room (w : PtrWidth) (b : Bump) (layout : Layout) : Prop :=
  b.startOf w layout + layout.size < 2 ^ w.bits ∧ b.startOf w layout + layout.size ≤ b.heapEnd

instance (w : PtrWidth) (b : Bump) (layout : Layout) : Decidable (b.Room w layout) :=
  inferInstanceAs (Decidable (_ ∧ _))

/-- The allocator after the request; `None` is a layout that cannot be. -/
def after (w : PtrWidth) (b : Bump) : Option Layout → Bump
  | none => b
  | some layout => if b.Room w layout then { b with next := b.startOf w layout + layout.size } else b

/-- The address is a multiple of the alignment in the heap with the bytes behind it. -/
structure Sound (b : Bump) (x : Block) (bytes align : Nat) : Prop where
  within : b.Within x
  enough : bytes ≤ x.size
  aligned : align ∣ x.start

end Bump

namespace Heaps

variable {w : PtrWidth} {s s' : Heaps} {o : Owner} {layout : Layout} {l : Option Layout} {r : Option Block} {x : Block}
  {addr align n : Nat}

/-- Beyond the last address the aligned one is null. -/
theorem wrappingAlignUp_eq {k : Nat} (hk : align = 2 ^ k) (haddr : addr < 2 ^ w.bits) (halign : align < 2 ^ w.bits) :
    wrappingAlignUp w addr align = if addr + align ≤ 2 ^ w.bits then alignUp w addr align else 0 := by
  have hpos : 0 < align := by rw [hk]; exact Nat.two_pow_pos k
  unfold wrappingAlignUp
  split
  case isTrue hle => rw [Nat.mod_eq_of_lt (by omega), alignUp]
  case isFalse hgt =>
    have hmod : (addr + align - 1) % 2 ^ w.bits = addr + align - 1 - 2 ^ w.bits := by
      rw [Nat.mod_eq_sub_mod (by omega), Nat.mod_eq_of_lt (by omega)]
    have hkb : k ≤ w.bits := (Nat.pow_le_pow_iff_right (by decide)).mp (Nat.le_of_lt (hk ▸ halign))
    rw [hmod, PtrWidth.not, hk, and_clear_low (by omega) hkb, ← hk, Nat.div_eq_of_lt (by omega), Nat.zero_mul]

theorem dvd_alignUp {k : Nat} (hk : align = 2 ^ k) (hfits : addr + align ≤ 2 ^ w.bits) :
    align ∣ alignUp w addr align := by
  have hpos : 0 < align := by rw [hk]; exact Nat.two_pow_pos k
  have hkb : k ≤ w.bits := (Nat.pow_le_pow_iff_right (by decide)).mp (hk ▸ Nat.le_trans (Nat.le_add_left _ _) hfits)
  rw [alignUp, PtrWidth.not, hk, and_clear_low (by rw [← hk]; omega) hkb]
  exact Nat.dvd_mul_left _ _

theorem wrappingAlignUp_one (haddr : addr < 2 ^ w.bits) : wrappingAlignUp w addr 1 = addr := by
  have hone : 1 < 2 ^ w.bits := Nat.one_lt_two_pow (by cases w <;> decide)
  have hbounds := alignUp_bounds w (pow_zero 2).symm (show addr + 1 ≤ 2 ^ w.bits from haddr)
  rw [wrappingAlignUp_eq (pow_zero 2).symm haddr hone, if_pos (show addr + 1 ≤ 2 ^ w.bits from haddr)]
  omega

/-- What a request for the layout leaves, and returns. -/
structure Granted (w : PtrWidth) (s : Heaps) (l : Option Layout) (r : Option Block) (s' : Heaps) : Prop where
  heap : s'.heap = Function.update s.heap s.owner ((s.heap s.owner).after w l)
  owner : s'.owner = s.owner
  global : s'.global = s.global
  block : ∀ x, r = some x ↔ ∃ layout ∈ l, (s.heap s.owner).Room w layout ∧ (s.heap s.owner).startOf w layout ≠ 0 ∧
    x = ⟨(s.heap s.owner).startOf w layout, layout.size⟩

theorem ends_alloc : Ends (Release.alloc w layout) (Granted w s (some layout)) s := by
  unfold Release.alloc appendLogOf Release.perTaskAlloc
  simp only [ends_bind, ends_gets, ends_store]
  split
  case isTrue hroom =>
    have hroom : (s.heap s.owner).Room w layout := hroom
    simp only [setHeap, ends_bind, ends_store, ends_pure]
    refine ⟨?_, rfl, rfl, fun x => ?_⟩
    · simp only [Bump.after, if_pos hroom]
      rfl
    · simp only [Option.mem_some_iff, exists_eq_left']
      split
      case isTrue hnull => exact ⟨(fun h => by cases h), fun h => absurd hnull h.2.1⟩
      case isFalse hnull => exact ⟨fun h => ⟨hroom, hnull, (Option.some.inj h).symm⟩, fun h => by rw [h.2.2]; rfl⟩
  case isFalse hroom =>
    have hroom : ¬ (s.heap s.owner).Room w layout := hroom
    refine ⟨?_, rfl, rfl, fun x => ⟨(fun h => by cases h), ?_⟩⟩
    · simp only [Bump.after, if_neg hroom, Function.update_eq_self]
    · rintro ⟨layout', hl, hroom', -⟩
      cases hl
      exact absurd hroom' hroom

theorem ends_pallocArray {elemSize : Nat} :
    Ends (Release.pallocArray w elemSize n) (Granted w s (byteLayout w (wrappingMul w elemSize n))) s := by
  unfold Release.pallocArray
  split
  case h_1 hnone =>
    rw [hnone]
    exact ⟨(Function.update_eq_self _ _).symm, rfl, rfl, fun x => ⟨nofun, fun ⟨_, hl, _⟩ => absurd hl nofun⟩⟩
  case h_2 layout hsome =>
    rw [hsome]
    exact ends_alloc

theorem Granted.bump (h : Granted w s l r s') : s'.heap s'.owner = (s.heap s.owner).after w l := by
  rw [h.heap, h.owner, Function.update_self]

theorem Granted.heapEnd (h : Granted w s l r s') : (s'.heap s'.owner).heapEnd = (s.heap s.owner).heapEnd := by
  rw [h.bump]
  unfold Bump.after
  split
  · rfl
  · split <;> rfl

theorem Granted.next (h : Granted w s l (some x) s') : (s'.heap s'.owner).next = x.stop := by
  obtain ⟨layout, hl, hroom, -, rfl⟩ := (h.block x).mp rfl
  cases hl
  rw [h.bump]
  simp only [Bump.after, if_pos hroom]
  rfl

/-- A block for a layout that is not that of bytes. -/
theorem Granted.aligned (h : Granted w s (some layout) (some x) s') (hnext : (s.heap s.owner).next < 2 ^ w.bits)
    (halign : layout.align < 2 ^ w.bits) : x = ⟨alignUp w (s.heap s.owner).next layout.align, layout.size⟩ ∧
      layout.align ∣ x.start ∧ x.stop < 2 ^ w.bits ∧ x.stop ≤ (s.heap s.owner).heapEnd := by
  obtain ⟨k, hk⟩ := layout.pow
  obtain ⟨layout', hl, hroom, hnull, hx⟩ := (h.block x).mp rfl
  cases hl
  have hstart := wrappingAlignUp_eq hk hnext halign
  by_cases hfits : (s.heap s.owner).next + layout.align ≤ 2 ^ w.bits
  · rw [if_pos hfits] at hstart
    have hdvd := dvd_alignUp hk hfits
    rw [Bump.Room, Bump.startOf, hstart] at hroom
    rw [Bump.startOf, hstart] at hx
    subst hx
    exact ⟨rfl, hdvd, hroom⟩
  · rw [if_neg hfits] at hstart
    exact absurd hstart hnull

/-- A block of bytes. -/
theorem Granted.bytes (h : Granted w s (byteLayout w n) (some x) s') (hnext : (s.heap s.owner).next < 2 ^ w.bits) :
    x = ⟨(s.heap s.owner).next, n⟩ ∧ x.stop ≤ (s.heap s.owner).heapEnd := by
  obtain ⟨layout, hl, hroom, -, hx⟩ := (h.block x).mp rfl
  have hlayout : layout = ⟨n, 1, 0, rfl⟩ := by
    unfold byteLayout at hl
    split at hl
    · exact (Option.some.inj hl).symm
    · cases hl
  subst hlayout
  have hstart := wrappingAlignUp_one hnext
  rw [Bump.Room, Bump.startOf, hstart] at hroom
  rw [Bump.startOf, hstart] at hx
  subst hx
  exact ⟨rfl, hroom.2⟩

theorem wrappingMul_lt : wrappingMul w addr n < 2 ^ w.bits := Nat.mod_lt _ (Nat.two_pow_pos _)

/-- The product is not wrapped, if and only if nothing is lost. -/
theorem le_wrappingMul : addr * n ≤ wrappingMul w addr n ↔ addr * n < 2 ^ w.bits := by
  refine ⟨fun hle => Nat.lt_of_le_of_lt hle wrappingMul_lt, fun hlt => ?_⟩
  rw [wrappingMul, Nat.mod_eq_of_lt hlt]

theorem Granted.sound_palloc (h : Granted w s (some layout) (some x) s') (hnext : (s.heap s.owner).next < 2 ^ w.bits)
    (halign : layout.align < 2 ^ w.bits) : (s.heap s.owner).Sound x layout.size layout.align ↔
      (s.heap s.owner).heapStart ≤ alignUp w (s.heap s.owner).next layout.align := by
  obtain ⟨hx, hdvd, -, hstop⟩ := h.aligned hnext halign
  have hstart : x.start = alignUp w (s.heap s.owner).next layout.align := by rw [hx]
  rw [← hstart]
  exact ⟨fun hs => hs.within.1, fun hle => ⟨⟨hle, hstop⟩, by rw [hx], hdvd⟩⟩

theorem Granted.sound_pallocArray {elem : Layout}
    (h : Granted w s (byteLayout w (wrappingMul w elem.size n)) (some x) s')
    (hnext : (s.heap s.owner).next < 2 ^ w.bits) : (s.heap s.owner).Sound x (elem.size * n) elem.align ↔
      elem.size * n < 2 ^ w.bits ∧ elem.align ∣ (s.heap s.owner).next ∧
        (s.heap s.owner).heapStart ≤ (s.heap s.owner).next := by
  obtain ⟨rfl, hstop⟩ := h.bytes hnext
  exact ⟨fun hs => ⟨le_wrappingMul.mp hs.enough, hs.aligned, hs.within.1⟩,
    fun ⟨hlt, hdvd, hle⟩ => ⟨⟨hle, hstop⟩, le_wrappingMul.mpr hlt, hdvd⟩⟩

/-! ## Two allocations -/

theorem Granted.clear (h : Granted w s l r s') : Granted w s l r (Heaps.clear o s') :=
  ⟨h.heap, h.owner, h.global, h.block⟩

/-- A request for two blocks, the second only if the first is there. -/
inductive Both (w : PtrWidth) (s : Heaps) (l₁ l₂ : Option Layout) : Option (Block × Block) → Heaps → Prop
  | first {s₁ : Heaps} : Granted w s l₁ none s₁ → Both w s l₁ l₂ none s₁
  | second {x₁ : Block} {s₁ s₂ : Heaps} : Granted w s l₁ (some x₁) s₁ → Granted w s₁ l₂ none s₂ →
      Both w s l₁ l₂ none s₂
  | both {x₁ x₂ : Block} {s₁ s₂ : Heaps} : Granted w s l₁ (some x₁) s₁ → Granted w s₁ l₂ (some x₂) s₂ →
      Both w s l₁ l₂ (some (x₁, x₂)) s₂

variable {l₁ l₂ : Option Layout} {rs : Option (Block × Block)}

theorem Both.clear (h : Both w s l₁ l₂ rs s') : Both w s l₁ l₂ rs (Heaps.clear o s') := by
  cases h with
  | first h => exact .first h.clear
  | second h₁ h₂ => exact .second h₁ h₂.clear
  | both h₁ h₂ => exact .both h₁ h₂.clear

theorem ends_queueNewTx {queue : Layout} {length itemSize : Nat} :
    Ends (Release.queueNewTx w queue length itemSize)
      (fun r => Both w s (some queue) (byteLayout w (wrappingMul w 1 (wrappingMul w length itemSize)))
        r.toOption) s := by
  unfold Release.queueNewTx Release.palloc
  rw [ends_bind]
  refine ends_alloc.mono fun r₁ s₁ h₁ => ?_
  cases r₁ with
  | none => exact .first h₁
  | some ptr =>
      rw [ends_bind]
      refine ends_pallocArray.mono fun r₂ s₂ h₂ => ?_
      cases r₂ with
      | none => exact .second h₁ h₂
      | some buffer => exact .both h₁ h₂

theorem ends_queueNew {queue : Layout} {length itemSize : Nat} (hlength : length ≠ 0) :
    Ends (Release.queueNew w queue length itemSize)
      (Both w s (some queue) (byteLayout w (wrappingMul w 1 (wrappingMul w length itemSize)))) s := by
  unfold Release.queueNew Release.run
  rw [if_neg hlength]
  rw [ends_bind, ends_bind]
  exact ends_queueNewTx.mono fun _ _ h => h.clear

theorem wrappingMul_one : wrappingMul w 1 (wrappingMul w addr n) = wrappingMul w addr n := by
  rw [wrappingMul, Nat.one_mul, Nat.mod_eq_of_lt wrappingMul_lt]

theorem Both.sound_queueNew {queue : Layout} {length itemSize : Nat} {ptr buffer : Block}
    (h : Both w s (some queue) (byteLayout w (wrappingMul w 1 (wrappingMul w length itemSize))) (some (ptr, buffer)) s')
    (hnext : (s.heap s.owner).next < 2 ^ w.bits) (halign : queue.align < 2 ^ w.bits) :
    (s.heap s.owner).Sound ptr queue.size queue.align ∧ (s.heap s.owner).Sound buffer (length * itemSize) 1 ↔
      length * itemSize < 2 ^ w.bits ∧ (s.heap s.owner).heapStart ≤ alignUp w (s.heap s.owner).next queue.align := by
  cases h with
  | both h₁ h₂ =>
      rw [wrappingMul_one] at h₂
      obtain ⟨-, -, hlt, -⟩ := h₁.aligned hnext halign
      have hnext₁ := h₁.next
      obtain ⟨hbuffer, hstop⟩ := h₂.bytes (hnext₁ ▸ hlt)
      rw [h₁.heapEnd] at hstop
      rw [hnext₁] at hbuffer
      subst hbuffer
      rw [h₁.sound_palloc hnext halign]
      refine ⟨fun ⟨hle, hs⟩ => ⟨le_wrappingMul.mp hs.enough, hle⟩, fun ⟨hmul, hle⟩ => ⟨hle, ⟨?_, hstop⟩, ?_, ?_⟩⟩
      · have hptr := ((h₁.sound_palloc hnext halign).mpr hle).within.1
        exact Nat.le_trans hptr (Nat.le_add_right _ _)
      · exact le_wrappingMul.mpr hmul
      · exact Nat.one_dvd _

/-! ## Regions of tasks -/

theorem after_createPerTaskPmHeap {size : Nat} (hsize : 0 < size) :
    After (Release.createPerTaskPmHeap w o size) (fun ok s' => ok = true →
      wrappingAdd w s.global.next size ≤ s.global.heapEnd ∧
        s'.heap o = ⟨s.global.next, wrappingAdd w s.global.next size, s.global.next⟩) s := by
  unfold Release.createPerTaskPmHeap Release.globalAlloc Release.initHeap appendLogOf
  rw [if_neg (Nat.ne_of_gt hsize)]
  simp only [after_bind, after_gets]
  split
  case isTrue => exact fun h => absurd h Bool.false_ne_true
  case isFalse hroom =>
    simp only [after_bind, after_store, after_gets, after_pure]
    refine fun _ => ⟨Nat.le_of_not_lt hroom, ?_⟩
    simp only [Function.update_self]

/-- A region that got its bytes is in the area that begins at `lo`. -/
theorem sound_region {b : Bump} {g : GlobalPMHeap} {lo size : Nat} (hsize : 0 < size)
    (hroom : wrappingAdd w g.next size ≤ g.heapEnd) (hb : b = ⟨g.next, wrappingAdd w g.next size, g.next⟩) :
    (Bump.mk lo g.heapEnd g.next).Sound b.region size 1 ↔ lo ≤ g.next ∧ g.next + size < 2 ^ w.bits := by
  subst hb
  unfold wrappingAdd at hroom ⊢
  constructor
  · rintro ⟨⟨hlo, _⟩, henough, _⟩
    refine ⟨hlo, ?_⟩
    simp only [Bump.region] at henough
    have hlt := Nat.mod_lt (g.next + size) (Nat.two_pow_pos w.bits)
    omega
  · rintro ⟨hlo, hlt⟩
    rw [Nat.mod_eq_of_lt hlt] at hroom ⊢
    refine ⟨⟨hlo, ?_⟩, ?_, Nat.one_dvd _⟩
    · simp only [Bump.region, Block.stop]
      omega
    · simp only [Bump.region]
      omega

/-! ## All of them -/

/-- A block or a region that is returned is in its heap, big enough and aligned, if and only if no product and no sum
wraps around, the heap does not begin above it, and for an array the next free address happens to be aligned. -/
theorem allocations_sound_iff (hnext : (s.heap s.owner).next < 2 ^ w.bits) :
    (∀ (layout : Layout) (x : Block) (s' : Heaps), layout.align < 2 ^ w.bits →
      (Release.palloc w layout s).out = some (some x, s') →
      ((s.heap s.owner).Sound x layout.size layout.align ↔
        (s.heap s.owner).heapStart ≤ alignUp w (s.heap s.owner).next layout.align)) ∧
    (∀ (elem : Layout) (n : Nat) (x : Block) (s' : Heaps),
      (Release.pallocArray w elem.size n s).out = some (some x, s') →
      ((s.heap s.owner).Sound x (elem.size * n) elem.align ↔
        elem.size * n < 2 ^ w.bits ∧ elem.align ∣ (s.heap s.owner).next ∧
          (s.heap s.owner).heapStart ≤ (s.heap s.owner).next)) ∧
    (∀ (queue : Layout) (length itemSize : Nat) (ptr buffer : Block) (s' : Heaps), queue.align < 2 ^ w.bits →
      (Release.queueNew w queue length itemSize s).out = some (some (ptr, buffer), s') →
      ((s.heap s.owner).Sound ptr queue.size queue.align ∧ (s.heap s.owner).Sound buffer (length * itemSize) 1 ↔
        length * itemSize < 2 ^ w.bits ∧
          (s.heap s.owner).heapStart ≤ alignUp w (s.heap s.owner).next queue.align)) ∧
    (∀ (lo : Nat) (o : Owner) (size : Nat) (s' : Heaps), 0 < size →
      (Release.createPerTaskPmHeap w o size s).out = some (true, s') →
      ((Bump.mk lo s.global.heapEnd s.global.next).Sound (s'.heap o).region size 1 ↔
        lo ≤ s.global.next ∧ s.global.next + size < 2 ^ w.bits)) := by
  refine ⟨fun layout x s' halign hout => ?_, fun elem n x s' hout => ?_,
    fun queue length itemSize ptr buffer s' halign hout => ?_, fun lo o size s' hsize hout => ?_⟩
  · exact (ends_alloc.post hout).sound_palloc hnext halign
  · exact (ends_pallocArray.post hout).sound_pallocArray hnext
  · have hlength : length ≠ 0 := by
      rintro rfl
      cases hout
    exact ((ends_queueNew hlength).post hout).sound_queueNew hnext halign
  · obtain ⟨hroom, hb⟩ := (after_createPerTaskPmHeap hsize).post hout rfl
    exact sound_region hsize hroom hb

/-- The boot code has got six bytes. -/
def sixBytes : Heaps := { Heaps.init twoAreas with heap := fun _ => ⟨8192, 8224, 8198⟩ }

/-- Two words of two bytes. -/
theorem allocations_sound_words : ∃ s', (Release.pallocArray .w16 2 2 sixBytes).out = some (some ⟨8198, 4⟩, s') ∧
    (sixBytes.heap .boot).Sound ⟨8198, 4⟩ 4 2 := by
  have hnext : (sixBytes.heap sixBytes.owner).next < 2 ^ PtrWidth.bits .w16 := by decide
  have harray := (allocations_sound_iff hnext).2.1 ⟨2, 2, 1, rfl⟩ 2 ⟨8198, 4⟩ _ rfl
  exact ⟨_, rfl, harray.mpr ⟨by decide, by decide, by decide⟩⟩

/-- The number of bytes of 32769 words wraps around to two. -/
theorem array_wraps_around : ¬ ∀ (w : PtrWidth) (s : Heaps) (elem : Layout) (n : Nat) (x : Block) (s' : Heaps),
    (s.heap s.owner).heapStart ≤ (s.heap s.owner).next → (s.heap s.owner).next ≤ (s.heap s.owner).heapEnd →
    (s.heap s.owner).heapEnd < 2 ^ w.bits → (Release.pallocArray w elem.size n s).out = some (some x, s') →
    (s.heap s.owner).Sound x (elem.size * n) elem.align := by
  intro h
  have hsound := h .w16 sixBytes ⟨2, 2, 1, rfl⟩ 32769 ⟨8198, 2⟩ _ (by decide) (by decide) (by decide) rfl
  exact absurd hsound.enough (by decide)

end Heaps

end IntOS
