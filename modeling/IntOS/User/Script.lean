import IntOS.User.Iteration

/-!
# Task programs step by step

A script is a routine that may also have `nv_loop!`, and `break` in the body of a loop. A step is a transaction, or a
part of a loop: its entry, the start or the end of an iteration, the test that ends it, or a `break`.
-/

namespace IntOS

open Persist Persist.Prog UserTxInfo

/-- A block of user code. The code after a transaction may depend on its result, and the body of a loop on the
counter, or on how often it has run. -/
inductive Script (b : Board)
  | done
  /-- `break`, which also leaves so many loops around the innermost one. -/
  | brk (outer : Nat)
  | run (f : UserTx b) (k : List UInt8 → Script b)
  | nvLoop (body : Nat → Script b) (k : Script b)
  | nvForLoop (i begin «end» step : Nat) (body : Nat → Script b) (k : Script b)

namespace Script

/-- A loop that has been entered: with the number of iterations before the next, or with the last value of the
counter. -/
inductive Loop (b : Board)
  | infinite (n : Nat) (body : Nat → Script b)
  | counted (i endv step cnt : Nat) (body : Nat → Script b)

variable {b : Board}

namespace Loop

def body : Loop b → Nat → Script b
  | infinite _ body => body
  | counted _ _ _ _ body => body

/-- What ends an iteration. -/
def leave : Loop b → Leave
  | infinite _ _ => .infinite
  | counted i _ step cnt _ => .counted i cnt step

end Loop

/-- A loop around the code that runs, and the code behind it. Of `stack_top` and of `tail_stack` the frame remembers
what they were before the loop, and what its last iteration has pushed. -/
structure Frame (b : Board) where
  loop : Loop b
  k : Script b
  before : Nat
  pushed : UInt16

/-- The code that runs, or the start of the next iteration of the innermost loop. -/
inductive Control (b : Board)
  | code (t : Script b)
  | head

/-- The frames of the loops are innermost first. -/
structure Config (b : Board) where
  info : UserTxInfo
  control : Control b
  frames : List (Frame b)

inductive Event
  | tx
  | loop
  | enter
  | exit
  | leave
  | brk
deriving DecidableEq, Repr

/-- A step without a failure. -/
inductive Step (b : Board) : Config b → Event → Config b → Prop
  | run {u u' : UserTxInfo} {f : UserTx b} {k : List UInt8 → Script b} {r : List UInt8} {fs : List (Frame b)} :
      (UserTxInfo.run b f u).out = some (r, u') → Step b ⟨u, .code (.run f k), fs⟩ .tx ⟨u', .code (k r), fs⟩
  | nvLoop {u : UserTxInfo} {body : Nat → Script b} {k : Script b} {fs : List (Frame b)} :
      Step b ⟨u, .code (.nvLoop body k), fs⟩ .loop ⟨u, .head, ⟨.infinite 0 body, k, u.stackTop, 0⟩ :: fs⟩
  | nvForLoop {u u' : UserTxInfo} {i begin endv step : Nat} {body : Nat → Script b} {k : Script b}
      {fs : List (Frame b)} : (fastRunSet b i begin u).out = some ((), u') →
      Step b ⟨u, .code (.nvForLoop i begin endv step body k), fs⟩ .loop
        ⟨u', .head, ⟨.counted i endv step 0 body, k, u.stackTop, 0⟩ :: fs⟩
  | enterInfinite {u u' : UserTxInfo} {n before : Nat} {body : Nat → Script b} {k : Script b} {pushed : UInt16}
      {fs : List (Frame b)} : (enterIdempotentLoop b u).out = some ((), u') →
      Step b ⟨u, .head, ⟨.infinite n body, k, before, pushed⟩ :: fs⟩ .enter
        ⟨u', .code (body n), ⟨.infinite (n + 1) body, k, before, u'.tailStack u.stackTop⟩ :: fs⟩
  | enterCounted {u u' : UserTxInfo} {i endv step cnt before : Nat} {body : Nat → Script b} {k : Script b}
      {pushed : UInt16} {fs : List (Frame b)} : u.counters i < endv → (enterIdempotentLoop b u).out = some ((), u') →
      Step b ⟨u, .head, ⟨.counted i endv step cnt body, k, before, pushed⟩ :: fs⟩ .enter
        ⟨u', .code (body (u.counters i)),
          ⟨.counted i endv step (u.counters i) body, k, before, u'.tailStack u.stackTop⟩ :: fs⟩
  | leave {u : UserTxInfo} {i endv step cnt before : Nat} {body : Nat → Script b} {k : Script b} {pushed : UInt16}
      {fs : List (Frame b)} : endv ≤ u.counters i →
      Step b ⟨u, .head, ⟨.counted i endv step cnt body, k, before, pushed⟩ :: fs⟩ .leave ⟨u, .code k, fs⟩
  | exit {u u' : UserTxInfo} {f : Frame b} {fs : List (Frame b)} : (f.loop.leave.run b u).out = some ((), u') →
      Step b ⟨u, .code .done, f :: fs⟩ .exit ⟨u', .head, f :: fs⟩
  | brk {u : UserTxInfo} {f : Frame b} {fs : List (Frame b)} :
      Step b ⟨u, .code (.brk 0), f :: fs⟩ .brk ⟨u, .code f.k, fs⟩
  | brkOuter {u : UserTxInfo} {outer : Nat} {f : Frame b} {fs : List (Frame b)} :
      Step b ⟨u, .code (.brk (outer + 1)), f :: fs⟩ .brk ⟨u, .code (.brk outer), fs⟩

/-- The steps of a run, oldest first. -/
inductive Run (b : Board) (c₀ : Config b) : List (Config b × Event × Config b) → Config b → Prop
  | start : Run b c₀ [] c₀
  | step {steps : List (Config b × Event × Config b)} {c c' : Config b} {e : Event} :
      Run b c₀ steps c → Step b c e c' → Run b c₀ (steps ++ [(c, e, c')]) c'

/-- At most so many loops are nested. -/
def DepthLe : Script b → Nat → Prop
  | done, _ => True
  | brk _, _ => True
  | run _ k, n => ∀ r, DepthLe (k r) n
  | nvLoop body k, n => 0 < n ∧ (∀ i, DepthLe (body i) (n - 1)) ∧ DepthLe k n
  | nvForLoop _ _ _ _ body k, n => 0 < n ∧ (∀ i, DepthLe (body i) (n - 1)) ∧ DepthLe k n

end Script

end IntOS
