import IntOS.User.Script

/-!
# The stack of loops

Each iteration pushes the position it starts from, and its end pops it. A `break` leaves an iteration without that.
-/

namespace IntOS

open Persist Persist.Prog UserTxInfo

namespace Script

variable {b : Board} {u u' : UserTxInfo} {f : Frame b} {fs : List (Frame b)} {c c' c₀ : Config b} {e : Event}
  {steps : List (Config b × Event × Config b)} {t : Script b} {top : Nat}

/-- A loop that has ended leaves `stack_top` as it was, an iteration that has ended goes back to the position that its
start has pushed, and the stack has room, also for the next iteration. -/
structure Balanced (c : Config b) (e : Event) (c' : Config b) : Prop where
  ends : e = .leave ∨ e = .brk → ∀ f ∈ c.frames.head?, c'.info.stackTop = f.before
  exits : e = .exit → ∀ f ∈ c.frames.head?, c'.info.userTx.cache.tail = f.pushed.toNat ∧
    c'.info.userTx.cache.ptr = f.pushed.toNat
  top_le : c'.info.stackTop ≤ defaultStackDepth
  room : c'.control = .head → c'.info.stackTop < defaultStackDepth

/-! ## What the steps do to the stack -/

def stack (u : UserTxInfo) : Nat × (Nat → UInt16) := (u.stackTop, u.tailStack)

theorem keeps_stack_onTx {α : Type} (m : Prog Transaction α) : Keeps stack (onTx m) := keeps_zoom fun _ _ => rfl

theorem keeps_stack_checkBypass : Keeps stack (checkBypass b) :=
  (keeps_gets _).bind fun _ => keeps_check _

theorem keeps_stack_run (f : UserTx b) : Keeps stack (UserTxInfo.run b f) := by
  refine Keeps.bind ((keeps_gets _).bind fun _ => keeps_check _) fun _ => (keeps_stack_onTx _).bind fun r => ?_
  cases r with
  | none => exact keeps_stack_onTx _
  | some r => exact keeps_stack_checkBypass.bind fun _ => keeps_pure _

theorem keeps_stack_fastRunSet (i v : Nat) : Keeps stack (fastRunSet b i v) := by
  refine Keeps.bind ((keeps_gets _).bind fun _ => keeps_check _) fun _ => (keeps_stack_onTx _).bind fun r => ?_
  cases r with
  | none =>
      refine (keeps_stack_onTx _).bind fun _ => Keeps.bind ?_ fun _ => keeps_stack_onTx _
      exact keeps_store fun _ => rfl
  | some r => exact keeps_stack_checkBypass

theorem stack_eq {α : Type} {m : Prog UserTxInfo α} {a : α} (hm : Keeps stack m) (h : (m u).out = some (a, u')) :
    u'.stackTop = u.stackTop ∧ u'.tailStack = u.tailStack := Prod.mk.inj ((hm u).post h)

theorem after_enterIdempotentLoop (u : UserTxInfo) :
    After (enterIdempotentLoop b) (fun _ u' => u.stackTop < defaultStackDepth ∧ u'.stackTop = u.stackTop + 1 ∧
      ∀ j, j ≠ u.stackTop → u'.tailStack j = u.tailStack j) u := by
  unfold enterIdempotentLoop
  simp only [after_bind, after_gets, after_check, after_store]
  exact fun htop => ⟨htop, trivial, fun j hj => Function.update_of_ne hj _ _⟩

/-! ## The frames -/

/-- The iterations that are running have pushed what is on the stack. -/
def Pushed (u : UserTxInfo) : List (Frame b) → Nat → Prop
  | [], top => top = 0
  | f :: fs, top => top = f.before + 1 ∧ u.tailStack f.before = f.pushed ∧ Pushed u fs f.before

/-- The loops behind and inside the frames nest within the limit. -/
def Nested : List (Frame b) → Prop
  | [] => True
  | f :: fs => fs.length < defaultStackDepth ∧
      (∀ i, (f.loop.body i).DepthLe (defaultStackDepth - (fs.length + 1))) ∧
      f.k.DepthLe (defaultStackDepth - fs.length) ∧ Nested fs

theorem Pushed.length (h : Pushed u fs top) : top = fs.length := by
  induction fs generalizing top with
  | nil => exact h
  | cons f fs ih =>
      obtain ⟨rfl, -, h⟩ := h
      rw [List.length_cons, ih h]

/-- What is on the stack above does not matter. -/
theorem Pushed.congr (h : Pushed u fs top) (hstack : ∀ j < top, u'.tailStack j = u.tailStack j) :
    Pushed u' fs top := by
  induction fs generalizing top with
  | nil => exact h
  | cons f fs ih =>
      obtain ⟨rfl, hf, h⟩ := h
      exact ⟨rfl, (hstack _ (Nat.lt_succ_self _)).trans hf, ih h fun j hj => hstack j (Nat.lt_succ_of_lt hj)⟩

/-- Where the running code is, or the next iteration. -/
def Placed (u : UserTxInfo) : Control b → List (Frame b) → Prop
  | .code t, fs => Pushed u fs u.stackTop ∧ t.DepthLe (defaultStackDepth - fs.length)
  | .head, [] => False
  | .head, f :: fs => u.stackTop = f.before ∧ Pushed u fs f.before

/-- Before and after every step, as long as there is no `break`. -/
structure Stacked (c : Config b) : Prop where
  placed : Placed c.info c.control c.frames
  nested : Nested c.frames

theorem Stacked.top_le (h : Stacked c) : c.info.stackTop ≤ defaultStackDepth := by
  obtain ⟨u, control, fs⟩ := c
  obtain ⟨hplaced, hnested⟩ := h
  cases control with
  | code t =>
      have hlen := hplaced.1.length
      cases fs with
      | nil => exact Nat.le_trans (Nat.le_of_eq hlen) (Nat.zero_le _)
      | cons f fs => exact Nat.le_trans (Nat.le_of_eq hlen) hnested.1
  | head =>
      cases fs with
      | nil => exact absurd hplaced id
      | cons f fs =>
          obtain ⟨htop, hpushed⟩ := hplaced
          have hlt := hnested.1
          rw [← hpushed.length] at hlt
          exact Nat.le_of_lt (htop ▸ hlt)

theorem Stacked.room (h : Stacked c) (hc : c.control = .head) : c.info.stackTop < defaultStackDepth := by
  obtain ⟨u, control, fs⟩ := c
  obtain ⟨hplaced, hnested⟩ := h
  cases hc
  cases fs with
  | nil => exact absurd hplaced id
  | cons f fs =>
      obtain ⟨htop, hpushed⟩ := hplaced
      have hlt := hnested.1
      rw [← hpushed.length] at hlt
      exact htop ▸ hlt

/-- A loop is entered. -/
theorem Stacked.loop {loop : Loop b} {k : Script b} (h : Pushed u fs u.stackTop)
    (hdepth : 0 < defaultStackDepth - fs.length) (hnested : Nested fs)
    (hbody : ∀ i, (loop.body i).DepthLe (defaultStackDepth - fs.length - 1))
    (hk : k.DepthLe (defaultStackDepth - fs.length)) (htop : u'.stackTop = u.stackTop)
    (hstack : u'.tailStack = u.tailStack) : Stacked ⟨u', .head, ⟨loop, k, u.stackTop, 0⟩ :: fs⟩ where
  placed := ⟨htop, h.congr fun j _ => by rw [hstack]⟩
  nested := ⟨Nat.lt_of_sub_pos hdepth, hbody, hk, hnested⟩

/-- An iteration starts. -/
theorem Stacked.enter {loop : Loop b} {i : Nat} (h : Stacked ⟨u, .head, f :: fs⟩)
    (hout : (enterIdempotentLoop b u).out = some ((), u')) (hloop : ∀ i, loop.body i = f.loop.body i) :
    Stacked ⟨u', .code (f.loop.body i), ⟨loop, f.k, f.before, u'.tailStack u.stackTop⟩ :: fs⟩ := by
  obtain ⟨⟨htop, hpushed⟩, hlt, hbody, hk, hnested⟩ := h
  obtain ⟨-, htop', hstack⟩ := (after_enterIdempotentLoop u).post hout
  refine ⟨⟨?_, hbody i⟩, hlt, fun i => ?_, hk, hnested⟩
  · have htop : u.stackTop = f.before := htop
    refine ⟨by rw [htop', htop], by rw [htop], hpushed.congr fun j hj => hstack j ?_⟩
    rw [htop]
    exact Nat.ne_of_lt hj
  · rw [hloop]
    exact hbody i

theorem Stacked.next (h : Stacked c) (hs : Step b c e c') (he : e ≠ .brk) : Stacked c' := by
  cases hs with
  | @run u u' f k r fs hout =>
      obtain ⟨⟨hpushed, hk⟩, hnested⟩ := h
      obtain ⟨htop, hstack⟩ := stack_eq (keeps_stack_run f) hout
      exact ⟨⟨htop ▸ hpushed.congr fun j _ => by rw [hstack], hk r⟩, hnested⟩
  | nvLoop =>
      obtain ⟨⟨hpushed, hdepth, hbody, hk⟩, hnested⟩ := h
      exact .loop hpushed hdepth hnested hbody hk rfl rfl
  | nvForLoop hout =>
      obtain ⟨⟨hpushed, hdepth, hbody, hk⟩, hnested⟩ := h
      obtain ⟨htop, hstack⟩ := stack_eq (keeps_stack_fastRunSet _ _) hout
      exact .loop hpushed hdepth hnested hbody hk htop hstack
  | enterInfinite hout => exact h.enter hout fun _ => rfl
  | enterCounted _ hout => exact h.enter hout fun _ => rfl
  | leave =>
      obtain ⟨⟨htop, hpushed⟩, -, -, hk, hnested⟩ := h
      exact ⟨⟨htop ▸ hpushed, hk⟩, hnested⟩
  | exit hout =>
      obtain ⟨⟨⟨htop, -, hpushed⟩, -⟩, hnested⟩ := h
      obtain ⟨-, htop', hstack, -⟩ := (wpc_leave (Or.inr trivial) (Or.inr trivial)).post hout
      refine ⟨⟨?_, hpushed.congr fun j _ => by rw [hstack]⟩, hnested⟩
      rw [htop', show _ = _ from htop]
      rfl
  | brk => exact absurd rfl he
  | brkOuter => exact absurd rfl he

theorem Stacked.balanced (h : Stacked c) (hs : Step b c e c') (he : e ≠ .brk) : Balanced c e c' := by
  have h' := h.next hs he
  refine ⟨fun hends g hg => ?_, fun hexit g hg => ?_, h'.top_le, h'.room⟩
  · obtain rfl := hends.resolve_right he
    cases hs with
    | leave =>
        cases hg
        exact h.placed.1
  · subst hexit
    cases hs with
    | @exit u u' f fs hout =>
        cases hg
        obtain ⟨⟨⟨htop, hf, -⟩, -⟩, -⟩ := h
        obtain ⟨htx, -⟩ := (wpc_leave (Or.inr trivial) (Or.inr trivial)).post hout
        have htop : u.stackTop = g.before + 1 := htop
        have hslot : u.tailStack (u.stackTop - 1) = g.pushed := by rw [htop, Nat.add_sub_cancel, hf]
        rw [htx, hslot]
        exact ⟨rfl, rfl⟩

/-- A `break` leaves a loop without what the iteration has pushed being popped. -/
theorem Stacked.not_balanced (h : Stacked c) (hs : Step b c .brk c') : ¬ Balanced c .brk c' := by
  have hbreak : ∀ (u : UserTxInfo) (t : Script b) (f : Frame b) (fs : List (Frame b)),
      Stacked ⟨u, .code t, f :: fs⟩ → u.stackTop ≠ f.before := by
    rintro u t f fs ⟨⟨⟨htop, -⟩, -⟩, -⟩ heq
    exact absurd (htop.symm.trans heq) (Nat.succ_ne_self _)
  intro hb
  cases hs with
  | brk => exact hbreak _ _ _ _ h (hb.ends (Or.inr rfl) _ rfl)
  | brkOuter => exact hbreak _ _ _ _ h (hb.ends (Or.inr rfl) _ rfl)

theorem Run.stacked (hr : Run b c₀ steps c) (h : Stacked c₀) :
    ((∀ x ∈ steps, Balanced x.1 x.2.1 x.2.2) ↔ ∀ x ∈ steps, x.2.1 ≠ .brk) ∧
      ((∀ x ∈ steps, x.2.1 ≠ .brk) → Stacked c) := by
  induction hr with
  | start => exact ⟨⟨nofun, nofun⟩, fun _ => h⟩
  | @step steps c c' e _ hs ih =>
      obtain ⟨hiff, hstacked⟩ := ih
      simp only [List.mem_append, List.mem_singleton, or_imp, forall_and, forall_eq]
      refine ⟨⟨fun ⟨hall, hlast⟩ => ?_, fun ⟨hall, hlast⟩ => ?_⟩, fun ⟨hall, hlast⟩ => (hstacked hall).next hs hlast⟩
      · have hno := hiff.mp hall
        refine ⟨hno, fun he => ?_⟩
        have he : e = .brk := he
        subst he
        exact (hstacked hno).not_balanced hs hlast
      · exact ⟨hiff.mpr hall, (hstacked hall).balanced hs hlast⟩

/-- In a run of a program whose loops nest at most eight deep, all steps are balanced if and only if none of them is a
`break`. -/
theorem loops_balanced_iff (hd : t.DepthLe defaultStackDepth) (htop : u.stackTop = 0)
    (hr : Run b ⟨u, .code t, []⟩ steps c) :
    (∀ x ∈ steps, Balanced x.1 x.2.1 x.2.2) ↔ ∀ x ∈ steps, x.2.1 ≠ .brk :=
  (hr.stacked ⟨⟨htop, hd⟩, trivial⟩).1

/-- One iteration without a transaction. -/
theorem loops_balanced_once : ∃ steps c,
    Run msp430Debug ⟨zeroedInfo, .code (.nvForLoop 0 0 1 1 (fun _ => .done) .done), []⟩ steps c ∧
      steps.length = 4 ∧ ∀ x ∈ steps, Balanced x.1 x.2.1 x.2.2 := by
  have hd : DepthLe (.nvForLoop 0 0 1 1 (fun _ => .done) .done : Script msp430Debug) defaultStackDepth :=
    ⟨by decide, fun _ => trivial, trivial⟩
  have h₁ := Run.start.step (@Step.nvForLoop msp430Debug zeroedInfo _ 0 0 1 1 (fun _ => .done) .done [] rfl)
  have h₂ := h₁.step (.enterCounted (by decide) rfl)
  have h₃ := h₂.step (.exit rfl)
  have h₄ := h₃.step (.leave (by decide))
  have hall := (loops_balanced_iff hd rfl h₄).mpr (by simp)
  exact ⟨_, _, h₄, rfl, hall⟩

/-- The first iteration of a loop leaves it. -/
theorem break_unbalanced : ¬ ∀ (b : Board) (u : UserTxInfo) (t : Script b) (steps : List (Config b × Event × Config b))
    (c : Config b), t.DepthLe defaultStackDepth → u.stackTop = 0 → Run b ⟨u, .code t, []⟩ steps c →
    ∀ x ∈ steps, Balanced x.1 x.2.1 x.2.2 := by
  intro h
  have hd : DepthLe (.nvLoop (fun _ => .brk 0) .done : Script msp430Debug) defaultStackDepth :=
    ⟨by decide, fun _ => trivial, trivial⟩
  have h₁ := Run.start.step (@Step.nvLoop msp430Debug zeroedInfo (fun _ => .brk 0) .done [])
  have h₂ := h₁.step (.enterInfinite rfl)
  have h₃ := h₂.step .brk
  have hall := h _ _ _ _ _ hd rfl h₃
  have hbreak := (hall _ (List.mem_append_right _ (List.mem_singleton_self _))).ends (Or.inr rfl) _ rfl
  exact absurd hbreak (by decide)

end Script

end IntOS
