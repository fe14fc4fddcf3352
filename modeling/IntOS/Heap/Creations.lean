import IntOS.Heap.Release

/-!
# Creations that fail (`src/queue.rs`, `src/time.rs`, `src/user/pvec.rs`)

Each of them asks for two blocks. The transaction commits also where the closure returns an error, and what is freed
does not come back to a bump allocator.
-/

namespace IntOS

open Persist Persist.Prog Blocks

/-- `user::AllocError`. -/
structure AllocError where

namespace Heaps

namespace Release

/-- `BumpAllocator::dealloc`. -/
def dealloc (_ : Layout) : Prog Heaps Unit := pure ()

/-- `pfree_array`. -/
def pfreeArray (w : PtrWidth) (elemSize size : Nat) : Prog Heaps Unit :=
  match byteLayout w (wrappingMul w elemSize size) with
  | none => pure ()
  | some layout => dealloc layout

/-- The closure of `create_timer_with_closure`, which moves the callback into a box. -/
def createTimerTx (w : PtrWidth) (closure timer : Layout) : Prog Heaps (Option (Block × Block)) := do
  match ← palloc w closure with
  | none => pure none
  | some boxedF => do
      match ← palloc w timer with
      | none => pure none
      | some ptr => pure (some (boxedF, ptr))

/-- `create_timer_with_closure`, where `closure` is the layout of the callback and `timer` that of a `Timer`. -/
def createTimerWithClosure (w : PtrWidth) (closure timer : Layout) : Prog Heaps (Option (Block × Block)) :=
  run (createTimerTx w closure timer)

/-- `sys_palloc`. -/
def sysPalloc (w : PtrWidth) (layout : Layout) : Prog Heaps (Option Block) := run (palloc w layout)

/-- `sys_palloc_array`. -/
def sysPallocArray (w : PtrWidth) (elemSize size : Nat) : Prog Heaps (Option Block) := run (pallocArray w elemSize size)

/-- `sys_pfree_array`. -/
def sysPfreeArray (w : PtrWidth) (elemSize size : Nat) : Prog Heaps Unit := run (pfreeArray w elemSize size)

/-- `RawPVec::try_new_empty`, where `size_of::<T>()` is `elemSize`. -/
def rawTryNewEmpty (w : PtrWidth) (elemSize cap : Nat) : Prog Heaps (Except AllocError Block) := do
  check (cap ≠ 0)
  match ← sysPallocArray w elemSize cap with
  | none => pure (.error ⟨⟩)
  | some ptr => pure (.ok ptr)

/-- `RawPVec::try_new`, where `array` is the layout of `[T; N]`. -/
def rawTryNew (w : PtrWidth) (array : Layout) : Prog Heaps (Except AllocError Block) := do
  match ← sysPalloc w array with
  | none => pure (.error ⟨⟩)
  | some ptr => pure (.ok ptr)

/-- What `PVec::try_new_empty` and `PVec::try_new` do with the buffer, where `raw` is the layout of a `RawPVec`. -/
def boxBuf (w : PtrWidth) (elemSize cap : Nat) (raw : Layout) :
    Except AllocError Block → Prog Heaps (Except AllocError (Block × Block))
  | .error e => pure (.error e)
  | .ok buf => do
      match ← sysPalloc w raw with
      | none => do
          sysPfreeArray w elemSize cap
          pure (.error ⟨⟩)
      | some boxed => pure (.ok (buf, boxed))

/-- `PVec::try_new_empty`. -/
def tryNewEmpty (w : PtrWidth) (elemSize cap : Nat) (raw : Layout) :
    Prog Heaps (Except AllocError (Block × Block)) := do
  let buf ← rawTryNewEmpty w elemSize cap
  boxBuf w elemSize cap raw buf

/-- `PVec::try_new`, of an array of `n` elements. -/
def tryNew (w : PtrWidth) (elemSize n : Nat) (array raw : Layout) :
    Prog Heaps (Except AllocError (Block × Block)) := do
  let buf ← rawTryNew w array
  boxBuf w elemSize n raw buf

end Release

/-! ## What is left -/

/-- A creation, with the layouts of its types. -/
inductive Creation
  | queueNew (queue : Layout) (length itemSize : Nat)
  | createTimerWithClosure (closure timer : Layout)
  | tryNewEmpty (elemSize cap : Nat) (raw : Layout)
  | tryNew (elemSize n : Nat) (array raw : Layout)

namespace Creation

/-- The two blocks, or `None` or `Err`. -/
def run (w : PtrWidth) : Creation → Prog Heaps (Option (Block × Block))
  | queueNew queue length itemSize => Release.queueNew w queue length itemSize
  | createTimerWithClosure closure timer => Release.createTimerWithClosure w closure timer
  | tryNewEmpty elemSize cap raw => do
      let r ← Release.tryNewEmpty w elemSize cap raw
      pure r.toOption
  | tryNew elemSize n array raw => do
      let r ← Release.tryNew w elemSize n array raw
      pure r.toOption

/-- The creation asks for blocks at all. -/
def Asks : Creation → Prop
  | queueNew _ length _ => length ≠ 0
  | createTimerWithClosure _ _ => True
  | tryNewEmpty _ cap _ => cap ≠ 0
  | tryNew _ _ _ _ => True

/-- The layout of the first block. -/
def first (w : PtrWidth) : Creation → Option Layout
  | queueNew queue _ _ => some queue
  | createTimerWithClosure closure _ => some closure
  | tryNewEmpty elemSize cap _ => byteLayout w (wrappingMul w elemSize cap)
  | tryNew _ _ array _ => some array

/-- The layout of the second block. -/
def second (w : PtrWidth) : Creation → Option Layout
  | queueNew _ length itemSize => byteLayout w (wrappingMul w 1 (wrappingMul w length itemSize))
  | createTimerWithClosure _ timer => some timer
  | tryNewEmpty _ _ raw => some raw
  | tryNew _ _ _ raw => some raw

end Creation

end Heaps

namespace Bump

/-- There is a block for this layout, and its address is not null. -/
def Fits (w : PtrWidth) (b : Bump) (l : Option Layout) : Prop :=
  ∃ layout ∈ l, b.Room w layout ∧ b.startOf w layout ≠ 0

/-- There is room for both blocks, or what there is room for takes no addresses. -/
def KeepsNext (w : PtrWidth) (b : Bump) (l₁ l₂ : Option Layout) : Prop :=
  (b.Fits w l₁ → (b.after w l₁).Fits w l₂ ∨ ((b.after w l₁).after w l₂).next = b.next) ∧
    (¬ b.Fits w l₁ → (b.after w l₁).next = b.next)

/-- The same by sizes. An address that is null comes of one that wraps around: the block ends where the allocator is if
it has as many bytes as are below. Elsewhere it has no bytes and needs no padding. -/
structure KeepsNextBySize (w : PtrWidth) (b : Bump) (l₁ l₂ : Option Layout) : Prop where
  firstNull : ¬ b.Fits w l₁ → ∀ x ∈ l₁, b.Room w x → x.size = b.next
  secondNull : b.Fits w l₁ → ¬ (b.after w l₁).Fits w l₂ → ∀ y ∈ l₂, (b.after w l₁).Room w y → y.size = b.next
  firstAlone : b.Fits w l₁ → (∀ y ∈ l₂, ¬ (b.after w l₁).Room w y) → ∀ x ∈ l₁, x.size = 0 ∧ x.align ∣ b.next

variable {w : PtrWidth} {b : Bump} {x y : Layout} {l l₁ l₂ : Option Layout}

theorem next_after (hroom : b.Room w x) : (b.after w (some x)).next = b.startOf w x + x.size := by
  simp only [after, if_pos hroom]

/-- What has room and is no block is at the null address. -/
theorem startOf_of_not_fits (hfits : ¬ b.Fits w (some x)) (hroom : b.Room w x) : b.startOf w x = 0 := by
  by_contra hnull
  exact hfits ⟨x, rfl, hroom, hnull⟩

theorem after_of_not_room (h : ∀ x ∈ l, ¬ b.Room w x) : b.after w l = b := by
  cases l with
  | none => rfl
  | some x => simp only [after, if_neg (h x rfl)]

/-- A block that is not at the null address ends where the allocator is if it has no bytes and needs no padding. -/
theorem stop_eq_iff (hnext : b.next < 2 ^ w.bits) (halign : x.align < 2 ^ w.bits) (hnull : b.startOf w x ≠ 0) :
    b.startOf w x + x.size = b.next ↔ x.size = 0 ∧ x.align ∣ b.next := by
  obtain ⟨k, hk⟩ := x.pow
  have hstart := Heaps.wrappingAlignUp_eq hk hnext halign
  have hle : b.next + x.align ≤ 2 ^ w.bits := by
    by_contra hgt
    rw [if_neg hgt] at hstart
    exact hnull hstart
  rw [if_pos hle] at hstart
  have hbounds := alignUp_bounds w hk hle
  have hdvd := Heaps.dvd_alignUp hk hle
  rw [startOf, hstart]
  constructor
  · intro h
    have hsame : alignUp w b.next x.align = b.next := by omega
    rw [hsame] at hdvd
    exact ⟨by omega, hdvd⟩
  · rintro ⟨hsize, hnextDvd⟩
    -- two multiples that are less than one alignment apart
    obtain ⟨i, hi⟩ := hdvd
    obtain ⟨j, hj⟩ := hnextDvd
    have hij : i = j := by
      rw [hi, hj] at hbounds
      have hpos : 0 < x.align := by rw [hk]; exact Nat.two_pow_pos k
      have hji : j ≤ i := Nat.le_of_mul_le_mul_left hbounds.1 hpos
      have hlt : x.align * i < x.align * (j + 1) := by
        rw [Nat.mul_succ]
        exact hbounds.2
      have hij : i < j + 1 := Nat.lt_of_mul_lt_mul_left hlt
      omega
    rw [hi, hij, ← hj, hsize]
    rfl

theorem keepsNext_iff_bySize (hnext : b.next < 2 ^ w.bits) (halign : ∀ x ∈ l₁, x.align < 2 ^ w.bits) :
    b.KeepsNext w l₁ l₂ ↔ b.KeepsNextBySize w l₁ l₂ := by
  have hfirst : b.Fits w l₁ → (∀ y ∈ l₂, ¬ (b.after w l₁).Room w y) →
      (((b.after w l₁).after w l₂).next = b.next ↔ ∀ x ∈ l₁, x.size = 0 ∧ x.align ∣ b.next) := by
    rintro ⟨x, hx, hroom, hnull⟩ hnone
    obtain rfl := Option.mem_def.mp hx
    rw [after_of_not_room hnone, next_after hroom, stop_eq_iff hnext (halign x rfl) hnull]
    exact ⟨fun h _ hx => by cases hx; exact h, fun h => h x rfl⟩
  have hsecond : ¬ (b.after w l₁).Fits w l₂ → ∀ y ∈ l₂, (b.after w l₁).Room w y →
      (((b.after w l₁).after w l₂).next = b.next ↔ y.size = b.next) := by
    intro hfits y hy hroom
    obtain rfl := Option.mem_def.mp hy
    rw [next_after hroom, startOf_of_not_fits hfits hroom, Nat.zero_add]
  constructor
  · rintro ⟨hboth, hnone⟩
    refine ⟨fun hfits x hx hroom => ?_, fun hfits hfits₂ y hy hroom => ?_, fun hfits hrooms => ?_⟩
    · have hkept := hnone hfits
      obtain rfl := Option.mem_def.mp hx
      rwa [next_after hroom, startOf_of_not_fits hfits hroom, Nat.zero_add] at hkept
    · exact (hsecond hfits₂ y hy hroom).mp ((hboth hfits).resolve_left hfits₂)
    · refine (hfirst hfits hrooms).mp ((hboth hfits).resolve_left ?_)
      rintro ⟨y, hy, hroom, -⟩
      exact hrooms y hy hroom
  · rintro ⟨hfirstNull, hsecondNull, hfirstAlone⟩
    refine ⟨fun hfits => or_iff_not_imp_left.mpr fun hfits₂ => ?_, fun hfits => ?_⟩
    · by_cases hroom : ∃ y ∈ l₂, (b.after w l₁).Room w y
      · obtain ⟨y, hy, hroom⟩ := hroom
        exact (hsecond hfits₂ y hy hroom).mpr (hsecondNull hfits hfits₂ y hy hroom)
      · have hrooms : ∀ y ∈ l₂, ¬ (b.after w l₁).Room w y := fun y hy hr => hroom ⟨y, hy, hr⟩
        exact (hfirst hfits hrooms).mpr (hfirstAlone hfits hrooms)
    · by_cases hroom : ∃ x ∈ l₁, b.Room w x
      · obtain ⟨x, hx, hroom⟩ := hroom
        have hsize := hfirstNull hfits x hx hroom
        obtain rfl := Option.mem_def.mp hx
        rw [next_after hroom, startOf_of_not_fits hfits hroom, Nat.zero_add, hsize]
      · rw [after_of_not_room fun x hx hr => hroom ⟨x, hx, hr⟩]

theorem startOf_bounds (hnext : 0 < b.next) (hx : b.next + x.align ≤ 2 ^ w.bits) :
    b.next ≤ b.startOf w x ∧ b.startOf w x < b.next + x.align := by
  obtain ⟨k, hk⟩ := x.pow
  have hpos : 0 < x.align := by rw [hk]; exact Nat.two_pow_pos k
  rw [startOf, Heaps.wrappingAlignUp_eq hk (by omega) (by omega), if_pos hx]
  exact alignUp_bounds w hk hx

theorem fits_iff_room (hnext : 0 < b.next) (hx : b.next + x.align ≤ 2 ^ w.bits) :
    b.Fits w (some x) ↔ b.Room w x := by
  have hstart := (startOf_bounds hnext hx).1
  constructor
  · rintro ⟨_, hl, hroom, -⟩
    cases hl
    exact hroom
  · exact fun hroom => ⟨x, rfl, hroom, by omega⟩

theorem le_next_after (hnext : 0 < b.next) (hx : b.next + x.align ≤ 2 ^ w.bits) :
    b.next ≤ (b.after w (some x)).next := by
  have hstart := (startOf_bounds hnext hx).1
  simp only [after]
  split
  · exact Nat.le_trans hstart (Nat.le_add_right _ _)
  · exact Nat.le_refl _

/-- Below the top of the address space: if the first block has a size, and there is room for it, then also for the
second. -/
theorem keepsNext_iff (hnext : 0 < b.next) (hsize : 0 < x.size)
    (htop : b.next + x.align + x.size + y.align ≤ 2 ^ w.bits) :
    b.KeepsNext w (some x) (some y) ↔ (b.Room w x → (b.after w (some x)).Room w y) := by
  have hx : b.next + x.align ≤ 2 ^ w.bits := by omega
  have hstart := startOf_bounds hnext hx
  rw [KeepsNext, fits_iff_room hnext hx]
  by_cases hroom : b.Room w x
  · have hafter := next_after hroom
    have hnext' : 0 < (b.after w (some x)).next := by omega
    have hy : (b.after w (some x)).next + y.align ≤ 2 ^ w.bits := by omega
    have hmoved := le_next_after hnext' hy
    rw [fits_iff_room hnext' hy]
    refine ⟨fun h _ => (h.1 hroom).resolve_right (by omega), fun h => ⟨fun _ => Or.inl (h hroom), fun hn => ?_⟩⟩
    exact absurd hroom hn
  · have hafter : b.after w (some x) = b := by simp only [after, if_neg hroom]
    refine ⟨fun _ hr => absurd hr hroom, fun _ => ⟨fun hr => absurd hr hroom, fun _ => by rw [hafter]⟩⟩

end Bump

namespace Heaps

variable {w : PtrWidth} {s s' : Heaps} {o : Owner} {layout : Layout} {l l₁ l₂ : Option Layout} {r : Option Block}
  {rs : Option (Block × Block)}

/-- No allocator has moved. -/
def Unmoved (s s' : Heaps) : Prop := (∀ o, (s'.heap o).next = (s.heap o).next) ∧ s'.global.next = s.global.next

theorem Granted.fits_iff (h : Granted w s l r s') : (s.heap s.owner).Fits w l ↔ ∃ x, r = some x := by
  constructor
  · rintro ⟨layout, hl, hroom, hnull⟩
    exact ⟨_, (h.block _).mpr ⟨layout, hl, hroom, hnull, rfl⟩⟩
  · rintro ⟨x, hx⟩
    obtain ⟨layout, hl, hroom, hnull, -⟩ := (h.block x).mp hx
    exact ⟨layout, hl, hroom, hnull⟩

/-- One allocator may move, that of the owner. -/
theorem unmoved_iff {b : Bump} (hheap : s'.heap = Function.update s.heap s.owner b) (hglobal : s'.global = s.global) :
    Unmoved s s' ↔ b.next = (s.heap s.owner).next := by
  rw [Unmoved, hheap, hglobal]
  constructor
  · intro h
    have ho := h.1 s.owner
    rwa [Function.update_self] at ho
  · refine fun h => ⟨fun o => ?_, rfl⟩
    by_cases ho : o = s.owner
    · rw [ho, Function.update_self, h]
    · rw [Function.update_of_ne ho]

theorem Both.unmoved_iff (h : Both w s l₁ l₂ rs s') :
    (rs = none → Unmoved s s') ↔ (s.heap s.owner).KeepsNext w l₁ l₂ := by
  cases h with
  | first h =>
      have hfits : ¬ (s.heap s.owner).Fits w l₁ := fun hf => absurd (h.fits_iff.mp hf) (by simp)
      rw [Heaps.unmoved_iff h.heap h.global]
      exact ⟨fun hn => ⟨fun hf => absurd hf hfits, fun _ => hn rfl⟩, fun hk _ => hk.2 hfits⟩
  | @second x₁ s₁ _ h₁ h₂ =>
      have hfits := h₁.fits_iff.mpr ⟨_, rfl⟩
      have hfits₂ : ¬ ((s.heap s.owner).after w l₁).Fits w l₂ := by
        rw [← h₁.bump, h₂.fits_iff]
        simp
      have hheap : s'.heap = Function.update s.heap s.owner (((s.heap s.owner).after w l₁).after w l₂) := by
        rw [h₂.heap, h₁.bump, h₁.heap, h₁.owner, Function.update_idem]
      rw [Heaps.unmoved_iff hheap (h₂.global.trans h₁.global)]
      exact ⟨fun hn => ⟨fun _ => Or.inr (hn rfl), fun hf => absurd hfits hf⟩,
        fun hk _ => (hk.1 hfits).resolve_left hfits₂⟩
  | both h₁ h₂ =>
      have hfits := h₁.fits_iff.mpr ⟨_, rfl⟩
      have hfits₂ := h₂.fits_iff.mpr ⟨_, rfl⟩
      rw [h₁.bump] at hfits₂
      exact ⟨fun _ => ⟨fun _ => Or.inl hfits₂, fun hf => absurd hfits hf⟩, fun _ => nofun⟩

/-! ## The creations -/

theorem ends_run {α : Type} {m : Prog Heaps α} {Q : α → Heaps → Prop}
    (h : Ends m (fun a s' => Q a (clear s'.owner s')) s) : Ends (Release.run m) Q s := by
  unfold Release.run
  rw [ends_bind]
  exact h

theorem ends_sysPalloc : Ends (Release.sysPalloc w layout) (Granted w s (some layout)) s :=
  ends_run (ends_alloc.mono fun _ _ h => h.clear)

theorem ends_sysPallocArray {elemSize n : Nat} :
    Ends (Release.sysPallocArray w elemSize n) (Granted w s (byteLayout w (wrappingMul w elemSize n))) s :=
  ends_run (ends_pallocArray.mono fun _ _ h => h.clear)

/-- What is freed is not given back. -/
theorem ends_sysPfreeArray {elemSize n : Nat} :
    Ends (Release.sysPfreeArray w elemSize n) (fun _ s' => s' = clear s.owner s) s := by
  refine ends_run ?_
  unfold Release.pfreeArray
  split
  · exact rfl
  · exact rfl

theorem ends_createTimerWithClosure {closure timer : Layout} :
    Ends (Release.createTimerWithClosure w closure timer) (Both w s (some closure) (some timer)) s := by
  refine ends_run ?_
  unfold Release.createTimerTx Release.palloc
  rw [ends_bind]
  refine ends_alloc.mono fun r₁ s₁ h₁ => ?_
  cases r₁ with
  | none => exact .first h₁.clear
  | some boxedF =>
      rw [ends_bind]
      refine ends_alloc.mono fun r₂ s₂ h₂ => ?_
      cases r₂ with
      | none => exact .second h₁ h₂.clear
      | some ptr => exact .both h₁ h₂.clear

theorem ends_boxBuf {elemSize n : Nat} {raw : Layout} {x : Block} (h : Granted w s l (some x) s') :
    Ends (Release.boxBuf w elemSize n raw (.ok x)) (fun r => Both w s l (some raw) r.toOption) s' := by
  unfold Release.boxBuf
  rw [ends_bind]
  refine ends_sysPalloc.mono fun r₂ s₂ h₂ => ?_
  cases r₂ with
  | none =>
      rw [ends_bind]
      refine ends_sysPfreeArray.mono ?_
      rintro _ _ rfl
      exact .second h h₂.clear
  | some boxed => exact .both h h₂

theorem ends_tryNewEmpty {elemSize cap : Nat} {raw : Layout} (hcap : cap ≠ 0) :
    Ends (Release.tryNewEmpty w elemSize cap raw)
      (fun r => Both w s (byteLayout w (wrappingMul w elemSize cap)) (some raw) r.toOption) s := by
  unfold Release.tryNewEmpty Release.rawTryNewEmpty
  simp only [ends_bind, ends_check]
  refine ⟨hcap, ends_sysPallocArray.mono fun r₁ s₁ h₁ => ?_⟩
  cases r₁ with
  | none => exact .first h₁
  | some ptr => exact ends_boxBuf h₁

theorem ends_tryNew {elemSize n : Nat} {array raw : Layout} :
    Ends (Release.tryNew w elemSize n array raw) (fun r => Both w s (some array) (some raw) r.toOption) s := by
  unfold Release.tryNew Release.rawTryNew
  simp only [ends_bind]
  refine ends_sysPalloc.mono fun r₁ s₁ h₁ => ?_
  cases r₁ with
  | none => exact .first h₁
  | some ptr => exact ends_boxBuf h₁

theorem Creation.ends {c : Creation} (h : c.Asks) : Ends (c.run w) (Both w s (c.first w) (c.second w)) s := by
  cases c with
  | queueNew queue length itemSize => exact ends_queueNew h
  | createTimerWithClosure closure timer => exact ends_createTimerWithClosure
  | tryNewEmpty elemSize cap raw =>
      unfold Creation.run
      rw [ends_bind]
      exact ends_tryNewEmpty h
  | tryNew elemSize n array raw =>
      unfold Creation.run
      rw [ends_bind]
      exact ends_tryNew

theorem Creation.after_not_asks {c : Creation} (h : ¬ c.Asks) : After (c.run w) (fun _ s' => s' = s) s := by
  cases c with
  | queueNew queue length itemSize =>
      have hzero : length = 0 := not_not.mp h
      unfold Creation.run Release.queueNew
      simp [hzero]
  | createTimerWithClosure closure timer => exact absurd trivial h
  | tryNewEmpty elemSize cap raw =>
      unfold Creation.run Release.tryNewEmpty Release.rawTryNewEmpty
      simp only [after_bind, after_check]
      exact fun hcap => absurd hcap h
  | tryNew elemSize n array raw => exact absurd trivial h

theorem Creation.unmoved_iff (c : Creation) :
    (∀ s', (c.run w s).out = some (none, s') → Unmoved s s') ↔
      (c.Asks → (s.heap s.owner).KeepsNext w (c.first w) (c.second w)) := by
  by_cases h : c.Asks
  · obtain ⟨rs, s', hout, hboth⟩ := (Creation.ends (w := w) (s := s) h).returns
    rw [forall_prop_of_true h, ← hboth.unmoved_iff, hout]
    constructor
    · rintro hall rfl
      exact hall s' rfl
    · intro hmoved s'' hs
      obtain ⟨hnone, rfl⟩ := Prod.mk.inj (Option.some.inj hs)
      exact hmoved hnone
  · refine ⟨fun _ ha => absurd ha h, fun _ s' hout => ?_⟩
    obtain rfl := (Creation.after_not_asks h).post hout
    exact ⟨fun _ => rfl, rfl⟩

/-- A creation that fails has moved no allocator, if and only if it asks for nothing, or there is room for both
blocks, or what there is room for takes no addresses. That comes down to sizes, and below the top of the address space,
for a first block with a size, to the room for the second one. -/
theorem failed_creation_iff (c : Creation) :
    ((∀ s', (c.run w s).out = some (none, s') → Unmoved s s') ↔
      (c.Asks → (s.heap s.owner).KeepsNext w (c.first w) (c.second w))) ∧
    ((s.heap s.owner).next < 2 ^ w.bits → (∀ x ∈ c.first w, x.align < 2 ^ w.bits) →
      ((s.heap s.owner).KeepsNext w (c.first w) (c.second w) ↔
        (s.heap s.owner).KeepsNextBySize w (c.first w) (c.second w))) ∧
    (∀ x y : Layout, c.first w = some x → c.second w = some y → 0 < (s.heap s.owner).next → 0 < x.size →
      (s.heap s.owner).next + x.align + x.size + y.align ≤ 2 ^ w.bits →
      ((s.heap s.owner).KeepsNext w (c.first w) (c.second w) ↔
        ((s.heap s.owner).Room w x → ((s.heap s.owner).after w (some x)).Room w y))) := by
  refine ⟨c.unmoved_iff, Bump.keepsNext_iff_bySize, fun x y hx hy hnext hsize htop => ?_⟩
  rw [hx, hy]
  exact Bump.keepsNext_iff hnext hsize htop

/-- A queue takes twenty bytes, and there is no room for its buffer. -/
theorem failed_queue_leaks : ¬ ∀ (w : PtrWidth) (s : Heaps) (c : Creation) (s' : Heaps),
    (s.heap s.owner).heapStart ≤ (s.heap s.owner).next → (s.heap s.owner).next ≤ (s.heap s.owner).heapEnd →
    (s.heap s.owner).heapEnd < 2 ^ w.bits → (c.run w s).out = some (none, s') → Unmoved s s' := by
  intro h
  have hmoved := h .w16 (Heaps.init twoAreas) (.queueNew ⟨20, 2, 1, rfl⟩ 10 4) _ (by decide) (by decide) (by decide) rfl
  exact absurd (hmoved.1 .boot) (by decide)

end Heaps

end IntOS
