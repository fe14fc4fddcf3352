import IntOS.Pmem.Room
import IntOS.User.PBox

/-!
# An object in persistent memory (`src/pmem.rs`, `src/user/pbox.rs`)

An object with the list of its copies stands for the bytes of memory where it is, and for a journal that has records of
it alone. What is consistent there is so with `Journal::append_log_of` and `Journal::recover`.
-/

namespace IntOS

open Persist Persist.Prog

namespace PBox

variable {b : Board} {o : Obj b.width} {O α β : Type} {m : Nat → UInt8} {s s' r c : Pmem} {x : PObject o.size}

/-! ## Bodies in memory -/

/-- The bytes of the object in memory. -/
def bytesOf (o : Obj b.width) (m : Nat → UInt8) : Bytes o.size := fun i => m (o.addr + i)

def setByteIn (o : Obj b.width) (i : Fin o.size) (v : UInt8) : Prog Pmem Unit :=
  store fun s => { s with mem := Function.update s.mem (o.addr + i) v }

def copyBytesIn (o : Obj b.width) : List (Fin o.size × UInt8) → Prog Pmem Unit
  | [] => pure ()
  | (i, v) :: bs => do
      setByteIn o i v
      copyBytesIn o bs

/-- A call, with the object at its address and the journal of the transaction. -/
def Call.runIn (b : Board) (o : Obj b.width) : Call o.size O → Prog Pmem (List O)
  | move => pure []
  | look f => gets fun s => [f (bytesOf o s.mem)]
  | overwrite data => do
      copyBytesIn o ((List.finRange o.size).map fun i => (i, data i))
      pure []
  | field places data => do
      copyBytesIn o (places.zip data)
      pure []
  | select selector data => do
      let (r, places) ← gets fun s => selector (bytesOf o s.mem)
      copyBytesIn o (places.zip data)
      pure [r]
  | log => do
      Journal.appendLogOf b o
      pure []
  | mutate i v => do
      setByteIn o i v
      pure []

def Body.runIn (b : Board) (o : Obj b.width) : Body o.size O → Prog Pmem (List O)
  | done => pure []
  | call _ _ c next => do
      let r ← c.runIn b o
      let rs ← (next r).runIn b o
      pure (r ++ rs)

/-! ## What an object stands for -/

/-- The memory in which the object has these bytes. -/
def place (o : Obj b.width) (v : Bytes o.size) (m : Nat → UInt8) : Nat → UInt8 := fun a =>
  if h : o.addr ≤ a ∧ a < o.addr + o.size then v ⟨a - o.addr, by omega⟩ else m a

theorem bytesOf_place (v : Bytes o.size) (m : Nat → UInt8) : bytesOf o (place o v m) = v := by
  funext i
  have hi := i.isLt
  unfold bytesOf place
  rw [dif_pos ⟨Nat.le_add_right _ _, by omega⟩]
  congr 1
  exact Fin.ext (Nat.add_sub_cancel_left _ _)

theorem place_bytesOf (m : Nat → UInt8) : place o (bytesOf o m) m = m := by
  funext a
  unfold place bytesOf
  split
  · next h =>
      obtain ⟨h, -⟩ := h
      exact congrArg m (Nat.add_sub_cancel' h)
  · rfl

theorem place_update (v : Bytes o.size) (m : Nat → UInt8) (i : Fin o.size) (w : UInt8) :
    Function.update (place o v m) (o.addr + i) w = place o (Function.update v i w) m := by
  funext a
  have hi := i.isLt
  unfold place
  by_cases ha : a = o.addr + i
  · subst ha
    rw [Function.update_self, dif_pos ⟨Nat.le_add_right _ _, by omega⟩]
    have hself : (⟨o.addr + i - o.addr, by omega⟩ : Fin o.size) = i := Fin.ext (Nat.add_sub_cancel_left _ _)
    rw [hself, Function.update_self]
  · rw [Function.update_of_ne ha]
    split
    · next h =>
        rw [Function.update_of_ne]
        intro heq
        have hval := congrArg Fin.val heq
        exact ha (by simp only at hval; omega)
    · rfl

/-- The object is in memory, which is `m` elsewhere, and the records of the journal are those of its copies. -/
structure Represents (b : Board) (o : Obj b.width) (m : Nat → UInt8) (s : Pmem) (x : PObject o.size) : Prop where
  mem : s.mem = place o x.value m
  undoes : Undoes b (place o (undo x.journal x.value) m) (List.replicate x.journal.length o) s

theorem Represents.start (hw : s.journal.WellFormed) (ht : s.journal.tail = 0) :
    Represents b o s.mem s ⟨bytesOf o s.mem, []⟩ := by
  refine ⟨(place_bytesOf s.mem).symm, ?_⟩
  change Undoes b (place o (bytesOf o s.mem) s.mem) [] s
  rw [place_bytesOf]
  exact .empty hw ht

/-- As many records of the object fit into the journal. -/
def roomFor (b : Board) (o : Obj b.width) : Nat := b.pmJournalSize / Journal.recordSize b o.size

theorem Represents.room_iff (h : Represents b o m s x) :
    x.journal.length < roomFor b o ↔ s.journal.tail + Journal.recordSize b o.size ≤ b.pmJournalSize := by
  have hpos : 0 < Journal.recordSize b o.size := by
    have hword : 0 < b.wordSize := b.width.bytes_pos
    unfold Journal.recordSize
    omega
  have hsize : ∀ n, logSize b (List.replicate n o) = n * Journal.recordSize b o.size := by
    intro n
    induction n with
    | zero => simp [logSize]
    | succ n ih => rw [List.replicate_succ, logSize, ih, Nat.succ_mul]
  rw [roomFor, Nat.lt_iff_add_one_le, Nat.le_div_iff_mul_le hpos, h.undoes.tail_eq, hsize, Nat.succ_mul]

/-! ## Simulation -/

/-- A program on persistent memory returns what one on the object and its copies returns, and each of its failures can
be rolled back to the memory that one of the other's can. -/
structure Simulates (b : Board) (o : Obj b.width) (m : Nat → UInt8) (P : Prog Pmem α) (p : Prog (PObject o.size) α) :
    Prop where
  out : ∀ s x, Represents b o m s x → ((P s).out = none ∧ (p x).out = none) ∨
    ∃ a s' x', (P s).out = some (a, s') ∧ (p x).out = some (a, x') ∧ Represents b o m s' x'
  fails : ∀ s x, Represents b o m s x → ∀ c ∈ (P s).trace, ∃ y ∈ crashes p x, Undoable b (place o (recover y).value m) c
  last : ∀ x a x', (p x).out = some (a, x') → x' ∈ crashes p x

theorem Represents.undoable (h : Represents b o m s x) : Undoable b (place o (recover x).value m) s :=
  h.undoes.undoable

section
variable {P : Prog Pmem α} {p : Prog (PObject o.size) α} {F : α → Prog Pmem β} {f : α → Prog (PObject o.size) β}

theorem simulates_pure (a : α) : Simulates b o m (pure a) (pure a) where
  out s x h := Or.inr ⟨a, s, x, rfl, rfl, h⟩
  fails _ _ _ c hc := by cases hc
  last x a x' hout := by
    cases hout
    exact List.mem_cons_self

theorem simulates_gets {g : Pmem → α} {g' : PObject o.size → α} (h : ∀ s x, Represents b o m s x → g s = g' x) :
    Simulates b o m (gets g) (gets g') where
  out s x hx := Or.inr ⟨g s, s, x, rfl, by rw [h s x hx]; rfl, hx⟩
  fails _ _ _ c hc := by cases hc
  last x a x' hout := by
    cases hout
    exact List.mem_cons_self

theorem simulates_store {g : Pmem → Pmem} {g' : PObject o.size → PObject o.size}
    (h : ∀ s x, Represents b o m s x → Represents b o m (g s) (g' x)) : Simulates b o m (store g) (store g') where
  out s x hx := Or.inr ⟨(), g s, g' x, rfl, rfl, h s x hx⟩
  fails s x hx c hc := by
    obtain rfl := List.mem_singleton.mp hc
    exact ⟨g' x, List.mem_cons_of_mem _ (List.mem_singleton_self _), (h s x hx).undoable⟩
  last x a x' hout := by
    cases hout
    exact List.mem_cons_of_mem _ (List.mem_singleton_self _)

theorem simulates_bind (hP : Simulates b o m P p) (hF : ∀ a, Simulates b o m (F a) (f a)) :
    Simulates b o m (P >>= F) (p >>= f) := by
  have hfirst : ∀ {x y}, y ∈ crashes p x → y ∈ crashes (p >>= f) x := by
    intro x y hy
    rcases List.mem_cons.mp hy with rfl | hy
    · exact List.mem_cons_self
    · exact List.mem_cons_of_mem _ (mem_trace_bind_left hy)
  have hsecond : ∀ {x x' y a}, (p x).out = some (a, x') → y ∈ crashes (f a) x' → y ∈ crashes (p >>= f) x := by
    intro x x' y a hout hy
    rcases List.mem_cons.mp hy with rfl | hy
    · exact hfirst (hP.last _ _ _ hout)
    · exact List.mem_cons_of_mem _ (mem_trace_bind_right hout hy)
  constructor
  · intro s x h
    rcases hP.out s x h with ⟨hout, hout'⟩ | ⟨a, s', x', hout, hout', h'⟩
    · rw [bind_of_none hout, bind_of_none hout']
      exact Or.inl ⟨rfl, rfl⟩
    · rw [bind_of_out hout, bind_of_out hout']
      exact (hF a).out s' x' h'
  · intro s x h c hc
    rcases mem_trace_bind hc with hc | ⟨a, s₁, hs₁, hc⟩
    · obtain ⟨y, hy, hundo⟩ := hP.fails s x h c hc
      exact ⟨y, hfirst hy, hundo⟩
    · rcases hP.out s x h with ⟨hout, -⟩ | ⟨_, _, x', hout, hout', h'⟩
      · rw [hs₁] at hout
        cases hout
      · rw [hs₁] at hout
        cases hout
        obtain ⟨y, hy, hundo⟩ := (hF a).fails s₁ x' h' c hc
        exact ⟨y, hsecond hout' hy, hundo⟩
  · intro x a x' hout
    cases hp : (p x).out with
    | none =>
        rw [bind_of_none hp] at hout
        cases hout
    | some q =>
        obtain ⟨a₁, x₁⟩ := q
        rw [bind_of_out hp] at hout
        exact hsecond hp ((hF a₁).last _ _ _ hout)

end

/-! ## Operations -/

theorem simulates_setByte (i : Fin o.size) (v : UInt8) : Simulates b o m (setByteIn o i v) (setByte i v) := by
  refine simulates_store fun s x h => ?_
  have hmem : Function.update s.mem (o.addr + i) v = place o (Function.update x.value i v) m := by
    rw [h.mem, place_update]
  refine ⟨hmem, ?_⟩
  have hundoes := h.undoes
  cases hj : x.journal with
  | nil =>
      -- what is stored before the first record stays
      rw [hj] at hundoes
      have hstored := hundoes.storeOutside (a := o.addr + i) (fun ⟨_, ho, _⟩ => by cases ho) v
      rw [undo, place_update] at hstored
      exact hstored
  | cons v₀ vs =>
      rw [hj] at hundoes
      exact hundoes.store (List.mem_cons_self) ⟨Nat.le_add_right _ _, Nat.add_lt_add_left i.isLt _⟩ v

theorem simulates_copyBytes (bs : List (Fin o.size × UInt8)) : Simulates b o m (copyBytesIn o bs) (copyBytes bs) := by
  induction bs with
  | nil => exact simulates_pure ()
  | cons p bs ih => exact simulates_bind (simulates_setByte p.1 p.2) fun _ => ih

theorem simulates_appendLogOf : Simulates b o m (Journal.appendLogOf b o) (appendLogOf (roomFor b o)) := by
  have hrun : ∀ x : PObject o.size, appendLogOf (roomFor b o) x =
      if x.journal.length < roomFor b o then
        ⟨[⟨x.value, x.value :: x.journal⟩], some ((), ⟨x.value, x.value :: x.journal⟩)⟩
      else ⟨[], none⟩ := by
    intro x
    rw [appendLogOf, gets_bind_apply, check_bind_apply]
    split <;> rfl
  constructor
  · intro s x h
    rw [hrun]
    split
    · next hlt =>
        obtain ⟨_, s', hout, hundoes, hmem⟩ :=
          (Journal.wpc_appendLogOf (E := False) o h.undoes (Or.inl (h.room_iff.mp hlt))).returns
        exact Or.inr ⟨(), s', _, hout, rfl, hmem.trans h.mem, hundoes⟩
    · next hfull => exact Or.inl ⟨Journal.appendLogOf_full fun hfit => hfull (h.room_iff.mpr hfit), rfl⟩
  · intro s x h c hc
    have happend := Journal.wpc_appendLogOf (E := True) o h.undoes (Or.inr trivial)
    exact ⟨x, List.mem_cons_self, happend.trace hc⟩
  · intro x a x' hout
    rw [hrun] at hout
    split at hout
    · next hlt =>
        cases hout
        rw [crashes, hrun, if_pos hlt]
        exact List.mem_cons_of_mem _ (List.mem_singleton_self _)
    · cases hout

theorem simulates_call (c : Call o.size O) : Simulates b o m (c.runIn b o) (c.run (roomFor b o)) := by
  have hbytes : ∀ s x, Represents b o m s x → bytesOf o s.mem = x.value := fun s x h => by rw [h.mem, bytesOf_place]
  cases c with
  | move => exact simulates_pure []
  | look f => exact simulates_gets fun s x h => by rw [hbytes s x h]
  | overwrite data => exact simulates_bind (simulates_copyBytes _) fun _ => simulates_pure []
  | field places data => exact simulates_bind (simulates_copyBytes _) fun _ => simulates_pure []
  | select selector data =>
      refine simulates_bind (simulates_gets fun s x h => by rw [hbytes s x h]) fun q => ?_
      exact simulates_bind (simulates_copyBytes _) fun _ => simulates_pure [q.1]
  | log => exact simulates_bind simulates_appendLogOf fun _ => simulates_pure []
  | mutate i v => exact simulates_bind (simulates_setByte i v) fun _ => simulates_pure []

theorem simulates_body (p : Body o.size O) : Simulates b o m (p.runIn b o) (p.run (roomFor b o)) := by
  induction p with
  | done => exact simulates_pure []
  | call i m c next ih =>
      exact simulates_bind (simulates_call c) fun r => simulates_bind (ih r) fun rs => simulates_pure (r ++ rs)

/-! ## Consistency -/

/-- A body that is crash-consistent on the object and its copies is so in persistent memory, however often
`Journal::recover` fails itself. -/
theorem Body.Consistent.inMemory {p : Body o.size O} {rs : List O} (h : p.Consistent (roomFor b o))
    (hw : s.journal.WellFormed) (ht : s.journal.tail = 0) (hout : (p.runIn b o s).out = some (rs, s'))
    (hc : c ∈ crashes (p.runIn b o) s) (hr : Recovers (Journal.recover b) c r) :
    ∃ s'', (p.runIn b o r).out = some (rs, s'') ∧ s''.mem = s'.mem := by
  have hstart := Represents.start (o := o) hw ht
  have hsim := simulates_body (b := b) (m := s.mem) p
  obtain ⟨x', hx', h'⟩ : ∃ x', (p.run (roomFor b o) ⟨bytesOf o s.mem, []⟩).out = some (rs, x') ∧
      Represents b o s.mem s' x' := by
    rcases hsim.out s _ hstart with ⟨hnone, -⟩ | ⟨a, s₁, x', hs₁, hx', h'⟩
    · rw [hout] at hnone
      cases hnone
    · rw [hout] at hs₁
      cases hs₁
      exact ⟨x', hx', h'⟩
  obtain ⟨y, hy, hundo⟩ : ∃ y ∈ crashes (p.run (roomFor b o)) ⟨bytesOf o s.mem, []⟩,
      Undoable b (place o (recover y).value s.mem) c := by
    rcases List.mem_cons.mp hc with rfl | hc
    · exact ⟨_, List.mem_cons_self, hstart.undoable⟩
    · exact hsim.fails s _ hstart c hc
  -- recovery leads to the memory of `y`, with an empty journal
  have hrecovered : r.mem = place o (recover y).value s.mem ∧ r.journal.WellFormed ∧ r.journal.tail = 0 := by
    refine Recovers.of_wpc (E := False) (Q := fun r => r.mem = place o (recover y).value s.mem ∧
      r.journal.WellFormed ∧ r.journal.tail = 0) (fun c' hc' => ?_) hr hundo
    obtain ⟨os, hos⟩ := hc'
    refine wpc_mono (Journal.wpc_recover ⟨os, hos⟩) ?_ fun _ h => h
    rintro _ _ rfl
    exact ⟨rfl, hos.wellFormed, rfl⟩
  obtain ⟨hmem, hw', ht'⟩ := hrecovered
  have hagain : Represents b o s.mem r (recover y) := by
    have hempty : Undoes b r.mem [] r := .empty hw' ht'
    rw [hmem] at hempty
    exact ⟨hmem, hempty⟩
  obtain ⟨y', hy', hvalue⟩ := h _ _ _ _ hx' hy
  rcases hsim.out r _ hagain with ⟨-, hnone⟩ | ⟨a, s'', y'', hs'', hy'', h''⟩
  · rw [hy'] at hnone
    cases hnone
  · rw [hy'] at hy''
    cases hy''
    refine ⟨s'', hs'', ?_⟩
    rw [h''.mem, h'.mem, hvalue]

end PBox

end IntOS
