import IntOS.Pmem.Lemmas.Journal

/-!
# Code inside a transaction (`src/pmem.rs`)

Sequencing of bodies, loads and stores of words and of byte ranges, and `PMVar<usize>`. `Body.wp` is the
weakest precondition of a body on memory: it also says which addresses the body may read, and which it may
write once some objects are logged.
-/

namespace IntOS

variable {w : PtrWidth} {α β : Type}

/-! ## Bytes of memory -/

def bytesAt (m : Nat → UInt8) (a : Nat) : Nat → List UInt8
  | 0 => []
  | n + 1 => m a :: bytesAt m (a + 1) n

def setBytes (m : Nat → UInt8) (a : Nat) : List UInt8 → Nat → UInt8
  | [] => m
  | v :: bs => setBytes (Function.update m a v) (a + 1) bs

/-- The little-endian word of some bytes. -/
def wordOf : List UInt8 → Nat
  | [] => 0
  | v :: bs => v.toNat + 256 * wordOf bs

def wordBytes (v : Nat) : Nat → List UInt8
  | 0 => []
  | n + 1 => UInt8.ofNat v :: wordBytes (v / 256) n

@[simp] theorem length_bytesAt (m : Nat → UInt8) (a n : Nat) : (bytesAt m a n).length = n := by
  induction n generalizing a with
  | zero => rfl
  | succ n ih => simp [bytesAt, ih]

@[simp] theorem length_wordBytes (v n : Nat) : (wordBytes v n).length = n := by
  induction n generalizing v with
  | zero => rfl
  | succ n ih => simp [wordBytes, ih]

theorem wordOf_wordBytes {v n : Nat} (h : v < 256 ^ n) : wordOf (wordBytes v n) = v := by
  induction n generalizing v with
  | zero => simp only [Nat.pow_zero] at h; simp only [wordBytes, wordOf]; omega
  | succ n ih =>
      have hd : v / 256 < 256 ^ n := by
        apply Nat.div_lt_of_lt_mul
        rwa [← Nat.pow_succ']
      simp only [wordBytes, wordOf, ih hd, UInt8.toNat_ofNat']
      omega

theorem bytesAt_congr {m m' : Nat → UInt8} {a n : Nat} (h : ∀ j, a ≤ j → j < a + n → m' j = m j) :
    bytesAt m' a n = bytesAt m a n := by
  induction n generalizing a with
  | zero => rfl
  | succ n ih =>
      simp only [bytesAt]
      rw [h a (Nat.le_refl a) (by omega), ih fun j h1 h2 => h j (by omega) (by omega)]

theorem setBytes_of_not {m : Nat → UInt8} {a : Nat} {bs : List UInt8} {j : Nat}
    (h : j < a ∨ a + bs.length ≤ j) : setBytes m a bs j = m j := by
  induction bs generalizing m a with
  | nil => rfl
  | cons v bs ih =>
      simp only [List.length_cons] at h
      simp only [setBytes]
      rw [ih (by omega), Function.update_of_ne (by omega)]

theorem bytesAt_setBytes (m : Nat → UInt8) (a : Nat) (bs : List UInt8) :
    bytesAt (setBytes m a bs) a bs.length = bs := by
  induction bs generalizing m a with
  | nil => rfl
  | cons v bs ih =>
      simp only [List.length_cons, bytesAt, setBytes, ih]
      rw [setBytes_of_not (Or.inl (by omega)), Function.update_self]

/-! ## Sequencing -/

namespace Body

protected def bind : Body w α → (α → Body w β) → Body w β
  | ret a, f => f a
  | log o k, f => log o (k.bind f)
  | load a k, f => load a fun v => (k v).bind f
  | store a v k, f => store a v (k.bind f)

instance : Monad (Body w) where
  pure := ret
  bind := Body.bind

def loadBytes (a : Nat) : Nat → Body w (List UInt8)
  | 0 => pure []
  | n + 1 => load a fun v => do
      let bs ← loadBytes (a + 1) n
      pure (v :: bs)

def storeBytes (a : Nat) : List UInt8 → Body w Unit
  | [] => pure ()
  | v :: bs => store a v (storeBytes (a + 1) bs)

/-! ## What bodies compute -/

section
variable {m : Nat → UInt8}

@[simp] theorem eval_pure (a : α) : (pure a : Body w α).eval m = (a, m) := rfl

theorem eval_bind {p : Body w α} (f : α → Body w β) (m : Nat → UInt8) :
    (p >>= f).eval m = (f (p.eval m).1).eval (p.eval m).2 := by
  change (p.bind f).eval m = _
  induction p generalizing m with
  | ret a => rfl
  | log o k ih => exact ih m
  | load a k ih => exact ih _ m
  | store a v k ih => exact ih _

@[simp] theorem eval_loadBytes (a n : Nat) : (loadBytes a n : Body w _).eval m = (bytesAt m a n, m) := by
  induction n generalizing a with
  | zero => rfl
  | succ n ih =>
      change ((do let bs ← loadBytes (a + 1) n; pure (m a :: bs)) : Body w _).eval m = _
      rw [eval_bind, ih]
      rfl

@[simp] theorem eval_storeBytes (a : Nat) (bs : List UInt8) :
    (storeBytes a bs : Body w Unit).eval m = ((), setBytes m a bs) := by
  induction bs generalizing a m with
  | nil => rfl
  | cons v bs ih => exact ih (a + 1)

end

/-! ## The weakest precondition -/

/-- Run from memory `m` with the objects `os` logged, the body reads addresses of `R` only, writes addresses
that `W` allows for the objects logged by then, and ends with `Q`. -/
def wp (R : Nat → Prop) (W : List (Obj w) → Nat → Prop)
    (Q : α → List (Obj w) → (Nat → UInt8) → Prop) :
    Body w α → List (Obj w) → (Nat → UInt8) → Prop
  | ret a, os, m => Q a os m
  | log o k, os, m => (∀ a, o.Contains a → R a) ∧ wp R W Q k (o :: os) m
  | load a k, os, m => R a ∧ wp R W Q (k (m a)) os m
  | store a v k, os, m => W os a ∧ wp R W Q k os (Function.update m a v)

section
variable {R R' : Nat → Prop} {W W' : List (Obj w) → Nat → Prop} {os : List (Obj w)} {m : Nat → UInt8}

@[simp] theorem wp_pure {Q : α → List (Obj w) → (Nat → UInt8) → Prop} {a : α} :
    wp R W Q (pure a : Body w α) os m ↔ Q a os m := Iff.rfl

@[simp] theorem wp_bind {Q : β → List (Obj w) → (Nat → UInt8) → Prop} {p : Body w α} {f : α → Body w β} :
    wp R W Q (p >>= f) os m ↔ wp R W (fun a => wp R W Q (f a)) p os m := by
  change wp R W Q (p.bind f) os m ↔ _
  induction p generalizing os m with
  | ret a => exact Iff.rfl
  | log o k ih => exact and_congr_right fun _ => ih
  | load a k ih => exact and_congr_right fun _ => ih _
  | store a v k ih => exact and_congr_right fun _ => ih

theorem wp.mono {Q Q' : α → List (Obj w) → (Nat → UInt8) → Prop} {p : Body w α} (h : wp R W Q p os m)
    (hR : ∀ a, R a → R' a) (hW : ∀ os a, W os a → W' os a) (hQ : ∀ a os m, Q a os m → Q' a os m) :
    wp R' W' Q' p os m := by
  induction p generalizing os m with
  | ret a => exact hQ _ _ _ h
  | log o k ih => exact ⟨fun a ha => hR a (h.1 a ha), ih h.2⟩
  | load a k ih => exact ⟨hR a h.1, ih _ h.2⟩
  | store a v k ih => exact ⟨hW _ a h.1, ih h.2⟩

/-- What the body computes satisfies the postcondition. -/
theorem wp.eval {Q : α → List (Obj w) → (Nat → UInt8) → Prop} {p : Body w α} (h : wp R W Q p os m) :
    ∃ os', Q (p.eval m).1 os' (p.eval m).2 := by
  induction p generalizing os m with
  | ret a => exact ⟨os, h⟩
  | log o k ih => exact ih h.2
  | load a k ih => exact ih _ h.2
  | store a v k ih => exact ih h.2

theorem wp_loadBytes {Q : List UInt8 → List (Obj w) → (Nat → UInt8) → Prop} {a n : Nat}
    (hR : ∀ j, a ≤ j → j < a + n → R j) (hQ : Q (bytesAt m a n) os m) :
    wp R W Q (loadBytes a n) os m := by
  induction n generalizing a Q with
  | zero => exact hQ
  | succ n ih =>
      refine ⟨hR a (Nat.le_refl a) (by omega), ?_⟩
      rw [wp_bind]
      exact ih (fun j h1 h2 => hR j (by omega) (by omega)) hQ

theorem wp_storeBytes {Q : Unit → List (Obj w) → (Nat → UInt8) → Prop} {a : Nat} {bs : List UInt8}
    (hW : ∀ j, a ≤ j → j < a + bs.length → W os j) (hQ : Q () os (setBytes m a bs)) :
    wp R W Q (storeBytes a bs) os m := by
  induction bs generalizing a m with
  | nil => exact hQ
  | cons v bs ih =>
      rw [List.length_cons] at hW
      exact ⟨hW a (Nat.le_refl a) (by omega), ih (fun j h1 h2 => hW j (by omega) (by omega)) hQ⟩

end

end Body

/-! ## `PMVar<usize>` -/

/-- A word of persistent memory. -/
structure PMVar (w : PtrWidth) where
  addr : Nat
  addr_lt : addr < 2 ^ w.bits

namespace PMVar

theorem bytes_lt (w : PtrWidth) : w.bytes < 2 ^ (w.bits - 1) := by cases w <;> decide

def obj (x : PMVar w) : Obj w := ⟨x.addr, w.bytes, bytes_lt w, x.addr_lt⟩

/-- The value of the word in memory `m`. -/
def read (x : PMVar w) (m : Nat → UInt8) : Nat := wordOf (bytesAt m x.addr w.bytes)

/-- `*x`. -/
def deref (x : PMVar w) : Body w Nat := do
  let bs ← Body.loadBytes x.addr w.bytes
  pure (wordOf bs)

/-- `PMVar::borrow_mut`: the reference that it returns is the word itself. -/
def borrowMut (x : PMVar w) : Body w Unit := .log x.obj (.ret ())

/-- A store through the reference. -/
def assign (x : PMVar w) (v : Nat) : Body w Unit := Body.storeBytes x.addr (wordBytes v w.bytes)

variable {R : Nat → Prop} {W : List (Obj w) → Nat → Prop} {os : List (Obj w)} {m m' : Nat → UInt8} {x : PMVar w}

theorem contains_iff {j : Nat} : x.obj.Contains j ↔ x.addr ≤ j ∧ j < x.addr + w.bytes := Iff.rfl

theorem read_congr (h : ∀ j, x.obj.Contains j → m' j = m j) : x.read m' = x.read m := by
  have hb : bytesAt m' x.addr w.bytes = bytesAt m x.addr w.bytes := bytesAt_congr fun j h1 h2 => h j ⟨h1, h2⟩
  rw [read, hb, read]

theorem wp_deref {Q : Nat → List (Obj w) → (Nat → UInt8) → Prop} (hR : ∀ j, x.obj.Contains j → R j)
    (hQ : Q (x.read m) os m) : Body.wp R W Q x.deref os m := by
  unfold deref
  rw [Body.wp_bind]
  exact Body.wp_loadBytes (fun j h1 h2 => hR j ⟨h1, h2⟩) hQ

theorem wp_borrowMut {Q : Unit → List (Obj w) → (Nat → UInt8) → Prop} (hR : ∀ j, x.obj.Contains j → R j)
    (hQ : Q () (x.obj :: os) m) : Body.wp R W Q x.borrowMut os m := ⟨hR, hQ⟩

theorem wp_assign {Q : Unit → List (Obj w) → (Nat → UInt8) → Prop} {v : Nat} (hv : v < 2 ^ w.bits)
    (hW : ∀ j, x.obj.Contains j → W os j)
    (hQ : ∀ m', x.read m' = v → (∀ j, ¬ x.obj.Contains j → m' j = m j) → Q () os m') :
    Body.wp R W Q (x.assign v) os m := by
  apply Body.wp_storeBytes
  · intro j h1 h2
    rw [length_wordBytes] at h2
    exact hW j ⟨h1, h2⟩
  · apply hQ
    · have h := bytesAt_setBytes m x.addr (wordBytes v w.bytes)
      rw [length_wordBytes] at h
      rw [read, h, wordOf_wordBytes]
      rwa [← w.modulus_eq]
    · intro j hj
      apply setBytes_of_not
      rw [length_wordBytes]
      rw [contains_iff] at hj
      omega

end PMVar

/-! ## Stores outside the log -/

/-- Recovery leads back to `m`, except for addresses of `S`. -/
def UndoableOff (b : Board) (S : Nat → Prop) (m : Nat → UInt8) (s : Pmem) : Prop :=
  ∃ m', (∀ a, ¬ S a → m' a = m a) ∧ Undoable b m' s

open Persist Persist.Prog UndoLog

variable {b : Board}

/-- A store to an arbitrary byte changes what recovery leads back to at that byte at most. -/
theorem Undoes.storeAny {m : Nat → UInt8} {os : List (Obj b.width)} {s : Pmem} (h : Undoes b m os s)
    (a : Nat) (v : UInt8) :
    ∃ m', (∀ j, j ≠ a → m' j = m j) ∧ Undoes b m' os { s with mem := Function.update s.mem a v } := by
  obtain ⟨hw, ht, rs, hlay, hu⟩ := h
  refine ⟨undo rs (Function.update s.mem a v), fun j hj => ?_, hw, ht, rs, hlay, rfl⟩
  rw [← hu]
  exact undo_update_of_ne hj

/-- A body that writes logged objects and addresses of `S` can be undone up to `S` at every store, and
computes what it computes without a journal. -/
theorem wpc_bodyOff {α : Type} (p : Body b.width α) {S R : Nat → Prop}
    {Q : α → List (Obj b.width) → (Nat → UInt8) → Prop} {m₀ m : Nat → UInt8} {os : List (Obj b.width)}
    {s : Pmem} (hm : ∀ a, ¬ S a → m a = m₀ a) (h : Undoes b m os s)
    (hp : p.wp R (fun os a => (∃ o ∈ os, o.Contains a) ∨ S a) Q os s.mem) :
    wpc (p.run b) (fun a s' => UndoableOff b S m₀ s' ∧ p.eval s.mem = (a, s'.mem)) True
      (UndoableOff b S m₀) s := by
  have hC : UndoableOff b S m₀ s := ⟨m, hm, h.undoable⟩
  induction p generalizing m os s with
  | ret a => exact wpc_pure hC ⟨hC, rfl⟩
  | log o k ih =>
      refine wpc_bind (wpc_mono (Journal.wpc_appendLogOf o h (Or.inr trivial)) ?_ ?_)
      · rintro _ s' ⟨h', hs'⟩
        rw [show (Body.log o k).eval s.mem = k.eval s'.mem by rw [hs']; rfl]
        exact ih hm h' (by rw [hs']; exact hp.2) ⟨m, hm, h'.undoable⟩
      · exact fun c hc => ⟨m, hm, hc⟩
  | load a k ih => exact wpc_bind (wpc_gets hC (ih _ hm h hp.2 hC))
  | store a v k ih =>
      obtain ⟨hw, hk⟩ := hp
      obtain ⟨m', hm', h'⟩ : ∃ m', (∀ j, ¬ S j → m' j = m₀ j) ∧
          Undoes b m' os { s with mem := Function.update s.mem a v } := by
        rcases hw with ⟨o, ho, ha⟩ | ha
        · exact ⟨m, hm, h.store ho ha v⟩
        · obtain ⟨m', hm', h'⟩ := h.storeAny a v
          refine ⟨m', fun j hj => ?_, h'⟩
          rw [hm' j fun e => hj (e ▸ ha), hm j hj]
      have hC' : UndoableOff b S m₀ { s with mem := Function.update s.mem a v } := ⟨m', hm', h'.undoable⟩
      exact wpc_bind (wpc_store hC hC' (ih hm' h' hk hC'))

end IntOS
