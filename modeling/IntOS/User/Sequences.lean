import IntOS.Lib.History
import IntOS.Lib.Ring
import IntOS.User.RawValIter

/-!
# Containers are bounded sequences (`src/user/pvec.rs`, `src/user/pqueue.rs`)

Between failures, a vector answers the calls of a transaction as a list does that is a stack at its end, and a queue as
one that is taken from at its front. A panic ends the transaction: of the container's own, with a reply that is missing,
or of `append_log_of`, when the journal is full.
-/

namespace IntOS

open History Persist Persist.Prog

/-- What a call returns. -/
inductive Reply
  | unit
  | flag (set : Bool)
  | num (n : Nat)
  | item (elem : Option (List UInt8))
  | items (elems : List (Option (List UInt8)))
deriving DecidableEq

namespace Body

variable {w : PtrWidth} {C A ρ : Type}

/-- The calls one after the other, with their replies. One that panics has none, and is the last one. -/
def calls (body : C → Body w (Option ρ)) : List C → Body w (List (C × Option ρ))
  | [] => pure []
  | call :: rest => do
      let r ← body call
      if r.isSome then do
        let rs ← calls body rest
        pure ((call, r) :: rs)
      else
        pure [(call, r)]

/-- All calls have returned, or the last one of them that was made has panicked. -/
def Answered (cs : List C) (replies : List (C × Option ρ)) : Prop :=
  replies.map Prod.fst <+: cs ∧ (replies.length < cs.length → ∃ call, replies.getLast? = some (call, none))

theorem answered_calls {body : C → Body w (Option ρ)} {cs : List C} {m : Nat → UInt8} :
    Answered cs ((calls body cs).eval m).1 := by
  induction cs generalizing m with
  | nil => exact ⟨List.prefix_rfl, fun h => absurd h (Nat.lt_irrefl _)⟩
  | cons call cs ih =>
      simp only [calls, eval_bind]
      split
      · obtain ⟨hpre, hlast⟩ := ih (m := ((body call).eval m).2)
        simp only [eval_bind, eval_pure]
        refine ⟨List.cons_prefix_cons.mpr ⟨rfl, hpre⟩, fun hlt => ?_⟩
        obtain ⟨call', hcall'⟩ := hlast (Nat.lt_of_succ_lt_succ hlt)
        exact ⟨call', by rw [List.getLast?_cons, hcall']; rfl⟩
      · next hnone =>
          rw [Option.not_isSome_iff_eq_none] at hnone
          simp only [eval_pure, hnone]
          exact ⟨List.cons_prefix_cons.mpr ⟨rfl, List.nil_prefix⟩, fun _ => ⟨call, rfl⟩⟩

/-- What the calls log, if `log` says it of each of them. -/
def recordsOf (apply : C → A → Option ρ × A) (log : C → A → List (Obj w)) : List C → A → List (Obj w)
  | [], _ => []
  | call :: cs, a =>
      log call a ++ if (apply call a).1.isSome then recordsOf apply log cs (apply call a).2 else []

/-- A call does to the object what `apply` does to its abstraction, and it logs what `log` says. -/
structure Refines (apply : C → A → Option ρ × A) (log : C → A → List (Obj w)) (abs : (Nat → UInt8) → A)
    (I : (Nat → UInt8) → Prop) (body : Body w (Option ρ)) (call : C) (m : Nat → UInt8) : Prop where
  keeps : I (body.eval m).2
  answer : apply call (abs m) = ((body.eval m).1, abs (body.eval m).2)
  records : body.objects m = log call (abs m)

section
variable {body : C → Body w (Option ρ)} {apply : C → A → Option ρ × A} {log : C → A → List (Obj w)}
  {abs : (Nat → UInt8) → A} {I : (Nat → UInt8) → Prop} {m : Nat → UInt8}

/-- If each call refines one on the object, so does a sequence. -/
theorem answers_calls (cs : List C) (hI : I m)
    (hstep : ∀ call m, I m → Refines apply log abs I (body call) call m) :
    I ((calls body cs).eval m).2 ∧
      Answers apply ((calls body cs).eval m).1 (abs m) (abs ((calls body cs).eval m).2) ∧
      (calls body cs).objects m = recordsOf apply log cs (abs m) := by
  induction cs generalizing m with
  | nil => exact ⟨hI, rfl, rfl⟩
  | cons call cs ih =>
      obtain ⟨hI', hcall, hlog⟩ := hstep call m hI
      simp only [calls, eval_bind, objects_bind, recordsOf, hcall, hlog]
      split
      · obtain ⟨hI'', hrest, hlog'⟩ := ih hI'
        simp only [eval_bind, eval_pure, objects_bind, objects_pure, List.append_nil, hlog']
        refine ⟨hI'', ⟨by rw [hcall], ?_⟩, trivial⟩
        rw [hcall]
        exact hrest
      · refine ⟨hI', ⟨by rw [hcall], ?_⟩, rfl⟩
        rw [hcall]
        rfl

end

/-- In a transaction, a sequence is answered while its records fit into the journal. -/
theorem calls_refine {b : Board} {body : C → Body b.width (Option ρ)} {apply : C → A → Option ρ × A}
    {log : C → A → List (Obj b.width)} {abs : (Nat → UInt8) → A} {I : (Nat → UInt8) → Prop} {m₀ : Nat → UInt8}
    {os : List (Obj b.width)} {s : Pmem} (cs : List C) (h : Undoes b m₀ os s) (hI : I s.mem)
    (hstep : ∀ call m, I m → Refines apply log abs I (body call) call m) :
    (Journal.HasRoom b s (recordsOf apply log cs (abs s.mem)) → ∃ replies s',
      ((calls body cs).run b s).out = some (replies, s') ∧
        Answered cs replies ∧ Answers apply replies (abs s.mem) (abs s'.mem) ∧ I s'.mem) ∧
    (¬ Journal.HasRoom b s (recordsOf apply log cs (abs s.mem)) → ((calls body cs).run b s).out = none) := by
  obtain ⟨hI', hans, hlog⟩ := answers_calls cs hI hstep
  rw [← hlog]
  constructor
  · intro hroom
    obtain ⟨s', hout, hmem⟩ := run_of_room _ h hroom
    refine ⟨_, s', hout, answered_calls, ?_, ?_⟩
    · rw [hmem]
      exact hans
    · rw [hmem]
      exact hI'
  · exact run_of_full _ h

end Body

/-- Only bytes of `S` differ. -/
def Touches (S : Nat → Prop) (m m' : Nat → UInt8) : Prop := ∀ a, ¬ S a → m' a = m a

theorem Touches.refl {S : Nat → Prop} {m : Nat → UInt8} : Touches S m m := fun _ _ => rfl

theorem Touches.set {b : Board} {S : Nat → Prop} {m m' : Nat → UInt8} {x : PMVar b.width} (h : Touches S m m')
    (hx : ∀ a, x.obj.Contains a → S a) (v : Nat) : Touches S m (x.set v m') :=
  fun a ha => (PMVar.set_of_not fun hin => ha (hx a hin)).trans (h a ha)

/-- The bytes of the slots. -/
def RawBuf.InSlots {w : PtrWidth} (r : RawBuf w) (a : Nat) : Prop := r.ptr ≤ a ∧ a < r.ptr + r.cap * r.elemSize

theorem Touches.setSlot {w : PtrWidth} {r : RawBuf w} {S : Nat → Prop} {m m' : Nat → UInt8} {i : Nat}
    {bs : List UInt8} (h : Touches S m m') (hr : ∀ a, r.InSlots a → S a) (hi : i < r.cap)
    (hbs : bs.length ≤ r.elemSize) : Touches S m (r.setSlot m' i bs) := by
  intro a ha
  have hnot : ¬ r.InSlots a := fun hin => ha (hr a hin)
  have hend := RawBuf.slot_end_le hi
  refine (setBytes_of_not ?_).trans (h a ha)
  unfold RawBuf.InSlots at hnot
  omega

namespace PVec

variable {w : PtrWidth}

def isFull (v : PVec w) : Body w Bool := do
  let len ← v.len.deref
  pure (len = v.cap)

/-- The bounds check of the slice that a vector derefs to. -/
def index (v : PVec w) (i : Nat) : Body w (Option (List UInt8)) := do
  let len ← v.len.deref
  if i < len then do
    let elem ← v.read i
    pure (some elem)
  else
    pure none

/-- The element in slot `i`. -/
def slotObj (v : PVec w) (hsize : v.elemSize < 2 ^ (w.bits - 1)) (i : Nat) : Obj w :=
  ⟨usizeAdd w v.ptr (i * v.elemSize), v.elemSize, hsize, Nat.mod_lt _ (Nat.two_pow_pos _)⟩

/-- `*v.index_mut(i, j) = elem`. -/
def indexMut (v : PVec w) (hsize : v.elemSize < 2 ^ (w.bits - 1)) (i : Nat) (elem : Nat → UInt8) :
    Body w (Option Unit) := do
  let len ← v.len.deref
  if i < len then do
    .log (v.slotObj hsize i) (pure ())
    v.write i elem
    pure (some ())
  else
    pure none

/-- `drain`, with what the iterator that it returns is asked for before it is dropped. -/
def drainIter (v : PVec w) (ps : List Pull) : Body w (List (Option (List UInt8))) := do
  let it ← v.intoIter
  v.asMut
  v.len.assign 0
  let xs ← RawValIter.pulls v.elemSize ps it
  pure xs.1

inductive Call
  | push (elem : Nat → UInt8)
  | pop
  | clear
  | isFull
  | len
  | index (i : Nat)
  | indexMut (i : Nat) (elem : Nat → UInt8)
  | drain (ps : List Pull)

def Call.body (v : PVec w) (hsize : v.elemSize < 2 ^ (w.bits - 1)) : Call → Body w (Option Reply)
  | push elem => do
      let r ← v.push elem
      pure (r.map fun _ => .unit)
  | pop => do
      let r ← v.pop
      pure (some (.item r))
  | clear => do
      v.clear
      pure (some .unit)
  | isFull => do
      let r ← v.isFull
      pure (some (.flag r))
  | len => do
      let r ← v.len.deref
      pure (some (.num r))
  | index i => do
      let r ← v.index i
      pure (r.map fun elem => .item (some elem))
  | indexMut i elem => do
      let r ← v.indexMut hsize i elem
      pure (r.map fun _ => .unit)
  | drain ps => do
      let r ← v.drainIter ps
      pure (some (.items r))

/-- What the calls log: the boxed buffer, and an element whose reference is given out. -/
def Call.log (v : PVec w) (hsize : v.elemSize < 2 ^ (w.bits - 1)) : Call → List (List UInt8) → List (Obj w)
  | push _, _ => [v.raw]
  | pop, l => if l = [] then [] else [v.raw]
  | clear, _ => [v.raw]
  | isFull, _ => []
  | len, _ => []
  | index _, _ => []
  | indexMut i _, l => if i < l.length then [v.slotObj hsize i] else []
  | drain _, _ => [v.raw]

/-- What an iterator yields. Elements of no size are none to it. -/
def yields (size : Nat) (ps : List Pull) (l : List (List UInt8)) : List (Option (List UInt8)) :=
  if size = 0 then ps.map fun _ => none else (RawValIter.pulled ps l).1

/-- A list of at most `cap` elements of `size` bytes. -/
def listStep (cap size : Nat) : Call → List (List UInt8) → Option Reply × List (List UInt8)
  | .push elem, l => if l.length = cap then (none, l) else (some .unit, l ++ [bytesAt elem 0 size])
  | .pop, l => (some (.item l.getLast?), l.dropLast)
  | .clear, _ => (some .unit, [])
  | .isFull, l => (some (.flag (l.length = cap)), l)
  | .len, l => (some (.num l.length), l)
  | .index i, l => (l[i]?.map fun elem => .item (some elem), l)
  | .indexMut i elem, l => if i < l.length then (some .unit, l.set i (bytesAt elem 0 size)) else (none, l)
  | .drain ps, l => (some (.items (yields size ps l)), [])

variable {b : Board} {v : PVec b.width} {m m' m₀ : Nat → UInt8} {os : List (Obj b.width)} {i n : Nat} {bs : List UInt8}

/-- The length, and the slots. -/
def Owns (v : PVec w) (a : Nat) : Prop := v.len.obj.Contains a ∨ v.InSlots a

@[simp] theorem length_content : (v.content m).length = v.len.read m := by simp [content, live]

theorem getElem?_content (h : i < v.len.read m) : (v.content m)[i]? = some (v.slot m i) := by
  simp [content, live, h]

/-- The contents are the slots below the length. -/
theorem content_eq (hlen : v.len.read m = n) : v.content m = (List.range n).map (v.slot m) := by
  rw [content, live, hlen]

theorem content_set (hn : n ≤ v.cap) : v.content (v.len.set n m) = (List.range n).map (v.slot m) := by
  have hlarge := v.cap_lt
  rw [content_eq (PMVar.read_set (by omega))]
  refine List.map_congr_left fun k hk => RawBuf.slot_set v.len_in ?_
  exact Nat.lt_of_lt_of_le (List.mem_range.mp hk) hn

theorem content_setSlot (hi : i < v.cap) (hbs : bs.length = v.elemSize) :
    v.content (v.setSlot m i bs) = (v.content m).set i bs := by
  have hlen : v.len.read (v.setSlot m i bs) = v.len.read m := RawBuf.read_setSlot v.len_in hi (le_of_eq hbs)
  refine List.ext_getElem? fun k => ?_
  rw [List.getElem?_set, length_content]
  by_cases hk : k < v.len.read m
  · rw [getElem?_content (hlen ▸ hk), getElem?_content hk]
    by_cases hik : i = k
    · subst hik
      rw [if_pos rfl, if_pos hk, RawBuf.slot_setSlot hbs]
    · rw [if_neg hik, RawBuf.slot_setSlot_of_ne (le_of_eq hbs) fun h => hik h.symm]
  · have hnone : ∀ m, v.len.read m ≤ k → (v.content m)[k]? = none := fun m h =>
      List.getElem?_eq_none (by rwa [length_content])
    rw [hnone _ (by omega), hnone _ (by omega)]
    split
    · rw [if_neg (by omega)]
    · rfl

theorem content_push (hn : v.len.read m < v.cap) (hbs : bs.length = v.elemSize) :
    v.content (v.len.set (v.len.read m + 1) (v.setSlot m (v.len.read m) bs)) = v.content m ++ [bs] := by
  rw [content_set hn, List.range_succ, List.map_append, content, live]
  congr 1
  · refine List.map_congr_left fun k hk => RawBuf.slot_setSlot_of_ne (le_of_eq hbs) ?_
    exact (List.mem_range.mp hk).ne
  · exact congrArg (fun x => [x]) (RawBuf.slot_setSlot hbs)

/-- The last element, and those before it. -/
theorem content_pop (hpos : 0 < v.len.read m) :
    v.content m = (List.range (v.len.read m - 1)).map (v.slot m) ++ [v.slot m (v.len.read m - 1)] := by
  obtain ⟨n, hn⟩ : ∃ n, v.len.read m = n + 1 := ⟨v.len.read m - 1, by omega⟩
  rw [content_eq hn, hn, List.range_succ, List.map_append]
  rfl

@[simp] theorem eval_clear : v.clear.eval m = ((), v.len.set 0 m) := by simp [clear, Body.eval_bind]

theorem eval_push (hlen : v.len.read m ≤ v.cap) (elem : Nat → UInt8) : (v.push elem).eval m =
    if v.len.read m = v.cap then (none, m)
    else (some (), v.len.set (v.len.read m + 1) (v.setSlot m (v.len.read m) (bytesAt elem 0 v.elemSize))) := by
  simp only [push, Body.eval_bind, RawBuf.eval_asMut, PMVar.eval_deref]
  split
  · rfl
  · next hfull =>
      have hlt : v.len.read m < v.cap := Nat.lt_of_le_of_ne hlen hfull
      simp only [Body.eval_bind, RawBuf.eval_write, PMVar.eval_deref, PMVar.eval_assign, Body.eval_pure,
        RawBuf.read_setSlot v.len_in hlt (le_of_eq (length_bytesAt _ _ _)), RawBuf.usizeAdd_one _ hlt]

theorem eval_pop (hlen : v.len.read m ≤ v.cap) : v.pop.eval m =
    if v.len.read m = 0 then (none, m)
    else (some (v.slot m (v.len.read m - 1)), v.len.set (v.len.read m - 1) m) := by
  simp only [pop, Body.eval_bind, PMVar.eval_deref]
  split
  · rfl
  · next hpos =>
      have hlarge := v.cap_lt
      have hlt : v.len.read m - 1 < v.cap := by omega
      have hread : v.len.read (v.len.set (v.len.read m - 1) m) = v.len.read m - 1 := PMVar.read_set (by omega)
      simp only [Body.eval_bind, RawBuf.eval_asMut, PMVar.eval_deref, PMVar.eval_assign, Body.eval_pure,
        RawBuf.usizeSub_one _ (Nat.pos_of_ne_zero hpos) hlen, hread, RawBuf.eval_read, RawBuf.slot_set v.len_in hlt]

@[simp] theorem eval_isFull : v.isFull.eval m = (decide (v.len.read m = v.cap), m) := by
  simp [isFull, Body.eval_bind]

theorem eval_index : (v.index i).eval m = ((v.content m)[i]?, m) := by
  simp only [index, Body.eval_bind, PMVar.eval_deref]
  split
  · next hi =>
      simp only [Body.eval_bind, RawBuf.eval_read, Body.eval_pure, getElem?_content hi]
  · next hi =>
      rw [List.getElem?_eq_none (by rw [length_content]; omega), Body.eval_pure]

theorem eval_indexMut {hsize : v.elemSize < 2 ^ (b.width.bits - 1)} (elem : Nat → UInt8) :
    (v.indexMut hsize i elem).eval m =
      if i < v.len.read m then (some (), v.setSlot m i (bytesAt elem 0 v.elemSize)) else (none, m) := by
  simp only [indexMut, Body.eval_bind, PMVar.eval_deref]
  split
  · simp only [Body.eval_bind, Body.eval, Body.eval_pure, RawBuf.eval_write]
  · rfl

/-- The iterator yields what was in the vector, though its length is 0 by then. -/
theorem eval_drainIter (hlen : v.len.read m ≤ v.cap) (ps : List Pull) :
    (v.drainIter ps).eval m = (yields v.elemSize ps (v.content m), v.len.set 0 m) := by
  have hpulls : ∃ it, (RawValIter.pulls v.elemSize ps (RawValIter.between v.toRawBuf 0 (v.len.read m)) :
      Body b.width _).eval (v.len.set 0 m) = ((yields v.elemSize ps (v.content m), it), v.len.set 0 m) := by
    unfold yields
    split
    · next hzero => exact ⟨_, RawValIter.eval_pulls_of_eq ps (by simp [RawValIter.between, hzero])⟩
    · next hsize =>
        obtain ⟨i, j, _, heval, _⟩ :=
          RawValIter.eval_pulls (m := v.len.set 0 m) (Nat.pos_of_ne_zero hsize) ps (Nat.zero_le (v.len.read m))
        have hkept : RawValIter.elements v.toRawBuf (v.len.set 0 m) 0 (v.len.read m) = v.content m := by
          rw [RawValIter.elements, Nat.sub_zero, ← List.range_eq_range', content, live]
          refine List.map_congr_left fun k hk => RawBuf.slot_set v.len_in ?_
          exact Nat.lt_of_lt_of_le (List.mem_range.mp hk) hlen
        rw [hkept] at heval
        exact ⟨_, heval⟩
  obtain ⟨it, heval⟩ := hpulls
  simp only [drainIter, Body.eval_bind, eval_intoIter, RawBuf.eval_asMut, PMVar.eval_assign, heval, Body.eval_pure]

/-- What the calls log. -/
theorem objects_call {hsize : v.elemSize < 2 ^ (b.width.bits - 1)} (call : Call) :
    (call.body v hsize).objects m = call.log v hsize (v.content m) := by
  have hempty : v.len.read m = 0 ↔ v.content m = [] := by rw [← List.length_eq_zero_iff, length_content]
  cases call with
  | push elem =>
      simp only [Call.body, push, Body.objects_bind, RawBuf.objects_asMut, PMVar.objects_deref, Body.objects_pure,
        List.nil_append, List.append_nil, Call.log]
      split <;> simp [Body.objects_bind]
  | pop =>
      simp only [Call.body, pop, Body.objects_bind, PMVar.objects_deref, PMVar.eval_deref, Body.objects_pure,
        List.nil_append, List.append_nil, Call.log, ← hempty]
      split <;> simp [Body.objects_bind]
  | clear => simp [Call.body, clear, Body.objects_bind, Call.log]
  | isFull => simp [Call.body, isFull, Body.objects_bind, Call.log]
  | len => simp [Call.body, Body.objects_bind, Call.log]
  | index i =>
      simp only [Call.body, index, Body.objects_bind, PMVar.objects_deref, PMVar.eval_deref, Body.objects_pure,
        List.nil_append, List.append_nil, Call.log]
      split <;> simp [Body.objects_bind]
  | indexMut i elem =>
      simp only [Call.body, indexMut, Body.objects_bind, PMVar.objects_deref, PMVar.eval_deref, Body.objects_pure,
        List.nil_append, List.append_nil, Call.log, length_content]
      split
      · simp [Body.objects_bind, Body.objects]
      · rfl
  | drain ps => simp [Call.body, drainIter, intoIter, Body.objects_bind, RawValIter.objects_pulls, Call.log]

/-- A call does to the vector what it does to the list. -/
theorem eval_call {hsize : v.elemSize < 2 ^ (b.width.bits - 1)} (call : Call)
    (hinv : v.len.read m ≤ v.cap ∧ Touches v.Owns m₀ m) :
    (v.len.read ((call.body v hsize).eval m).2 ≤ v.cap ∧ Touches v.Owns m₀ ((call.body v hsize).eval m).2) ∧
      listStep v.cap v.elemSize call (v.content m) =
        (((call.body v hsize).eval m).1, v.content ((call.body v hsize).eval m).2) := by
  obtain ⟨hlen, htouch⟩ := hinv
  have hlarge := v.cap_lt
  have hread : ∀ {n m}, n ≤ v.cap → v.len.read (v.len.set n m) ≤ v.cap := fun hn => by
    rwa [PMVar.read_set (by omega)]
  have hset : ∀ {m} n, Touches v.Owns m₀ m → Touches v.Owns m₀ (v.len.set n m) := fun n h =>
    h.set (fun _ => Or.inl) n
  have hsetSlot : ∀ {i} (elem : Nat → UInt8), i < v.cap →
      Touches v.Owns m₀ (v.setSlot m i (bytesAt elem 0 v.elemSize)) := fun elem hi =>
    htouch.setSlot (fun _ => Or.inr) hi (le_of_eq (length_bytesAt _ _ _))
  cases call with
  | push elem =>
      simp only [Call.body, Body.eval_bind, eval_push hlen, Body.eval_pure, listStep, length_content]
      split
      · exact ⟨⟨hlen, htouch⟩, rfl⟩
      · next hfull =>
          have hlt : v.len.read m < v.cap := Nat.lt_of_le_of_ne hlen hfull
          refine ⟨⟨hread hlt, hset _ (hsetSlot elem hlt)⟩, ?_⟩
          rw [content_push hlt (length_bytesAt _ _ _)]
          rfl
  | pop =>
      simp only [Call.body, Body.eval_bind, eval_pop hlen, Body.eval_pure, listStep]
      split
      · next hempty =>
          have hnil : v.content m = [] := List.length_eq_zero_iff.mp (length_content.trans hempty)
          rw [hnil]
          exact ⟨⟨hlen, htouch⟩, rfl⟩
      · next hpos =>
          have hle : v.len.read m - 1 ≤ v.cap := by omega
          refine ⟨⟨hread hle, hset _ htouch⟩, ?_⟩
          rw [content_pop (Nat.pos_of_ne_zero hpos), content_set hle, List.getLast?_concat, List.dropLast_concat]
  | clear =>
      simp only [Call.body, Body.eval_bind, eval_clear, Body.eval_pure, listStep]
      refine ⟨⟨hread (Nat.zero_le _), hset 0 htouch⟩, ?_⟩
      rw [content_set (Nat.zero_le _)]
      rfl
  | isFull =>
      simp only [Call.body, Body.eval_bind, eval_isFull, Body.eval_pure, listStep, length_content]
      exact ⟨⟨hlen, htouch⟩, trivial⟩
  | len =>
      simp only [Call.body, Body.eval_bind, PMVar.eval_deref, Body.eval_pure, listStep, length_content]
      exact ⟨⟨hlen, htouch⟩, trivial⟩
  | index i =>
      simp only [Call.body, Body.eval_bind, eval_index, Body.eval_pure, listStep]
      exact ⟨⟨hlen, htouch⟩, trivial⟩
  | indexMut i elem =>
      simp only [Call.body, Body.eval_bind, eval_indexMut, Body.eval_pure, listStep, length_content]
      split
      · next hi =>
          have hlt : i < v.cap := Nat.lt_of_lt_of_le hi hlen
          have hbs := length_bytesAt elem 0 v.elemSize
          refine ⟨⟨?_, hsetSlot elem hlt⟩, ?_⟩
          · rwa [RawBuf.read_setSlot v.len_in hlt (le_of_eq hbs)]
          · rw [content_setSlot hlt hbs]
            rfl
      · exact ⟨⟨hlen, htouch⟩, rfl⟩
  | drain ps =>
      simp only [Call.body, Body.eval_bind, eval_drainIter hlen, Body.eval_pure, listStep]
      refine ⟨⟨hread (Nat.zero_le _), hset 0 htouch⟩, ?_⟩
      rw [content_set (Nat.zero_le _)]
      rfl

/-- Whatever a transaction calls on a vector, the vector answers as a list of at most `cap` elements: it takes and
gives back elements at its end, and those of an iterator are the list's, in their order. A push to a full vector and an
index behind the last element panic and leave it alone. No other byte changes. That is so as long as the records of the
calls fit into the journal, and otherwise the call that makes the first one that does not fit panics. -/
theorem vec_calls_refine (v : PVec b.width) (hsize : v.elemSize < 2 ^ (b.width.bits - 1)) (s : Pmem)
    (h : Undoes b m₀ os s) (hlen : (v.content s.mem).length ≤ v.cap) (cs : List Call) :
    (Journal.HasRoom b s (Body.recordsOf (listStep v.cap v.elemSize) (Call.log v hsize) cs (v.content s.mem)) →
      ∃ replies s', ((Body.calls (Call.body v hsize) cs).run b s).out = some (replies, s') ∧
        Body.Answered cs replies ∧
        Answers (listStep v.cap v.elemSize) replies (v.content s.mem) (v.content s'.mem) ∧
        (v.content s'.mem).length ≤ v.cap ∧
        Touches v.Owns s.mem s'.mem) ∧
    (¬ Journal.HasRoom b s (Body.recordsOf (listStep v.cap v.elemSize) (Call.log v hsize) cs (v.content s.mem)) →
      ((Body.calls (Call.body v hsize) cs).run b s).out = none) := by
  simp only [length_content] at hlen ⊢
  refine Body.calls_refine (I := fun m => v.len.read m ≤ v.cap ∧ Touches v.Owns s.mem m) cs h ⟨hlen, Touches.refl⟩ ?_
  intro call m hinv
  obtain ⟨hkeeps, hanswer⟩ := eval_call call hinv
  exact ⟨hkeeps, hanswer, objects_call call⟩

/-- A vector of two elements is pushed to until it panics. -/
theorem vec_calls_refine_full :
    ∃ replies s', ((Body.calls (Call.body PVec.ofBytes (by decide))
        [.push fun _ => 7, .drain [.nextBack], .push fun _ => 8, .push fun _ => 9, .push fun _ => 1, .clear]).run
          ⟨.w32, 1024, false, false⟩ ⟨setBytes (fun _ => 0) 8 [1], Journal.new⟩).out = some (replies, s') ∧
      Body.Answered [.push fun _ => 7, .drain [.nextBack], .push fun _ => 8, .push fun _ => 9, .push fun _ => 1,
        .clear] replies ∧
      Answers (listStep 2 1) replies [[0]] (PVec.ofBytes.content s'.mem) ∧
      (PVec.ofBytes.content s'.mem).length ≤ 2 ∧
      Touches PVec.ofBytes.Owns (setBytes (fun _ => 0) 8 [1]) s'.mem :=
  (vec_calls_refine (b := ⟨.w32, 1024, false, false⟩) PVec.ofBytes (by decide)
    ⟨setBytes (fun _ => 0) 8 [1], Journal.new⟩ (.empty (by decide) rfl) (by decide)
    [.push fun _ => 7, .drain [.nextBack], .push fun _ => 8, .push fun _ => 9, .push fun _ => 1, .clear]).1
    (by change _ ≤ _; decide)

/-- Three records of 20 bytes fit into 64, and the fourth does not. -/
example : ((Body.calls (Call.body PVec.ofBytes (by decide)) [.clear, .clear, .clear, .clear]).run
    ⟨.w32, 64, false, false⟩ ⟨setBytes (fun _ => 0) 8 [1], Journal.new⟩).out.isNone := by
  decide +kernel

end PVec

namespace PQueue

variable {w : PtrWidth}

/-- `PQueue::peek_front`. -/
def peekFront (q : PQueue w) : Body w (Option (List UInt8)) := do
  let len ← q.len.deref
  if len = 0 then
    pure none
  else do
    let head ← q.head.deref
    let elem ← q.read head
    pure (some elem)

inductive Call
  | pushBack (elem : Nat → UInt8)
  | popFront
  | peekFront
  | clear
  | len

def Call.body (q : PQueue w) : Call → Body w (Option Reply)
  | pushBack elem => do
      let r ← q.pushBack elem
      pure (r.map fun _ => .unit)
  | popFront => do
      let r ← q.popFront
      pure (some (.item r))
  | peekFront => do
      let r ← q.peekFront
      pure (some (.item r))
  | clear => do
      q.clear
      pure (some .unit)
  | len => do
      let r ← q.len.deref
      pure (some (.num r))

/-- What the calls log: the boxed buffer. -/
def Call.log (q : PQueue w) : Call → List (List UInt8) → List (Obj w)
  | pushBack _, _ => [q.raw]
  | popFront, l => if l = [] then [] else [q.raw]
  | peekFront, _ => []
  | clear, _ => [q.raw]
  | len, _ => []

/-- A list of at most `cap` elements of `size` bytes. -/
def listStep (cap size : Nat) : Call → List (List UInt8) → Option Reply × List (List UInt8)
  | .pushBack elem, l => if l.length < cap then (some .unit, l ++ [bytesAt elem 0 size]) else (none, l)
  | .popFront, l => (some (.item l.head?), l.tail)
  | .peekFront, l => (some (.item l.head?), l)
  | .clear, _ => (some .unit, [])
  | .len, l => (some (.num l.length), l)

/-- The cursors of `RawPQueue::new`, and those that the operations lead to from there. -/
structure WellFormed (q : PQueue w) (m : Nat → UInt8) : Prop where
  head : q.head.read m < q.cap
  len : q.len.read m ≤ q.cap
  tail : q.tail.read m = (q.head.read m + q.len.read m) % q.cap

/-- The cursors, and the slots. -/
def Owns (q : PQueue w) (a : Nat) : Prop :=
  q.head.obj.Contains a ∨ q.tail.obj.Contains a ∨ q.len.obj.Contains a ∨ q.InSlots a

variable {b : Board} {q : PQueue b.width} {m m₀ : Nat → UInt8} {os : List (Obj b.width)} {x : PMVar b.width}
  {i k v : Nat} {bs : List UInt8}

theorem content_eq_window : q.content m = Ring.window (q.slot m) q.cap (q.head.read m) (q.len.read m) :=
  List.map_map

@[simp] theorem length_content : (q.content m).length = q.len.read m := by simp [content, live]

theorem next_eq (hi : i < q.cap) : q.next i = (i + 1) % q.cap := by
  unfold next
  split
  · next h => rw [h, Nat.mod_self]
  · exact (Nat.mod_eq_of_lt (by omega)).symm

theorem slot_advanced (hx : ∀ j, x.obj.Contains j → q.raw.Contains j) (hk : k < q.cap) :
    q.slot (q.advanced x m) k = q.slot m k := by
  unfold advanced
  split
  · rw [RawBuf.slot_set hx hk, RawBuf.slot_set hx hk]
  · exact RawBuf.slot_set hx hk

theorem touches_advanced (h : Touches q.Owns m₀ m) (hx : ∀ a, x.obj.Contains a → q.Owns a) :
    Touches q.Owns m₀ (q.advanced x m) := by
  unfold advanced
  split
  · exact (h.set hx _).set hx _
  · exact h.set hx _

@[simp] theorem eval_advance : (q.advance x).eval m = ((), q.advanced x m) := by
  have hread : x.read (x.set (usizeAdd b.width (x.read m) 1) m) = usizeAdd b.width (x.read m) 1 :=
    PMVar.read_set (Nat.mod_lt _ (Nat.two_pow_pos _))
  simp only [advance, Body.eval_bind, PMVar.eval_deref, PMVar.eval_assign, hread, advanced]
  split
  · next hwrap => simp [hwrap]
  · rfl

theorem eval_clear : q.clear.eval m = ((), q.len.set 0 (q.head.set 0 (q.tail.set 0 m))) := by
  simp [clear, Body.eval_bind]

theorem eval_pushBack (h : q.WellFormed m) (elem : Nat → UInt8) : (q.pushBack elem).eval m =
    if q.len.read m < q.cap then
      (some (), q.len.set (q.len.read m + 1)
        (q.advanced q.tail (q.setSlot m (q.tail.read m) (bytesAt elem 0 q.elemSize))))
    else (none, m) := by
  simp only [pushBack, Body.eval_bind, RawBuf.eval_asMut, PMVar.eval_deref]
  split
  · next hroom =>
      have htail : q.tail.read m < q.cap := by
        rw [h.tail]
        exact Nat.mod_lt _ (Nat.zero_lt_of_lt hroom)
      have hlen := RawBuf.read_setSlot (m := m) q.len_in htail (le_of_eq (length_bytesAt elem 0 q.elemSize))
      simp only [Body.eval_bind, RawBuf.eval_write, eval_advance, PMVar.eval_deref, PMVar.eval_assign, Body.eval_pure,
        read_advanced_of_disjoint (disjoint_of_apart q.tail_len.symm), hlen, RawBuf.usizeAdd_one _ hroom]
  · rfl

theorem eval_popFront (h : q.WellFormed m) : q.popFront.eval m =
    if q.len.read m = 0 then (none, m)
    else (some (q.slot m (q.head.read m)), q.len.set (q.len.read m - 1) (q.advanced q.head m)) := by
  simp only [popFront, Body.eval_bind, PMVar.eval_deref]
  split
  · rfl
  · next hpos =>
      simp only [Body.eval_bind, RawBuf.eval_asMut, PMVar.eval_deref, RawBuf.eval_read, eval_advance,
        read_advanced_of_disjoint (disjoint_of_apart q.head_len.symm), PMVar.eval_assign, Body.eval_pure,
        RawBuf.usizeSub_one _ (Nat.pos_of_ne_zero hpos) h.len]

/-- The front of the queue, and the queue behind it. -/
theorem content_cons (h : q.WellFormed m) (hpos : 0 < q.len.read m) :
    q.content m = q.slot m (q.head.read m) ::
      Ring.window (q.slot m) q.cap ((q.head.read m + 1) % q.cap) (q.len.read m - 1) := by
  obtain ⟨n, hn⟩ : ∃ n, q.len.read m = n + 1 := ⟨q.len.read m - 1, by omega⟩
  rw [content_eq_window, hn, Ring.window_cons h.head]
  rfl

theorem content_nil (hempty : q.len.read m = 0) : q.content m = [] :=
  List.length_eq_zero_iff.mp (length_content.trans hempty)

section
variable (h : q.WellFormed m)
include h

theorem WellFormed.tail_lt : q.tail.read m < q.cap := by
  rw [h.tail]
  exact Nat.mod_lt _ (Nat.zero_lt_of_lt h.head)

theorem WellFormed.push (hroom : q.len.read m < q.cap) (hbs : bs.length = q.elemSize) :
    q.WellFormed (q.len.set (q.len.read m + 1) (q.advanced q.tail (q.setSlot m (q.tail.read m) bs))) ∧
      q.content (q.len.set (q.len.read m + 1) (q.advanced q.tail (q.setSlot m (q.tail.read m) bs))) =
        q.content m ++ [bs] := by
  have hlarge := q.cap_lt
  have htail := h.tail_lt
  have hhead : q.head.read (q.len.set (q.len.read m + 1) (q.advanced q.tail (q.setSlot m (q.tail.read m) bs))) =
      q.head.read m := by
    rw [PMVar.read_set_of_disjoint (disjoint_of_apart q.head_len),
      read_advanced_of_disjoint (disjoint_of_apart q.head_tail), RawBuf.read_setSlot q.head_in htail (le_of_eq hbs)]
  have hlen : q.len.read (q.len.set (q.len.read m + 1) (q.advanced q.tail (q.setSlot m (q.tail.read m) bs))) =
      q.len.read m + 1 := PMVar.read_set (by omega)
  refine ⟨⟨?_, ?_, ?_⟩, ?_⟩
  · rw [hhead]
    exact h.head
  · rw [hlen]
    exact hroom
  · rw [hhead, hlen, PMVar.read_set_of_disjoint (disjoint_of_apart q.tail_len),
      read_advanced (RawBuf.read_setSlot q.tail_in htail (le_of_eq hbs)) htail, next_eq htail, h.tail, Nat.mod_add_mod,
      Nat.add_assoc]
  · have hslot : ∀ k, k < q.cap → q.slot (q.len.set (q.len.read m + 1)
        (q.advanced q.tail (q.setSlot m (q.tail.read m) bs))) k = q.slot (q.setSlot m (q.tail.read m) bs) k :=
      fun k hk => by rw [RawBuf.slot_set q.len_in hk, slot_advanced q.tail_in hk]
    have hothers : ∀ k, k < q.cap → k ≠ (q.head.read m + q.len.read m) % q.cap →
        q.slot (q.len.set (q.len.read m + 1) (q.advanced q.tail (q.setSlot m (q.tail.read m) bs))) k = q.slot m k := by
      intro k hk hne
      rw [hslot k hk, RawBuf.slot_setSlot_of_ne (le_of_eq hbs) (h.tail ▸ hne)]
    rw [content_eq_window, content_eq_window, hhead, hlen, Ring.window_append hroom hothers, ← h.tail, hslot _ htail,
      RawBuf.slot_setSlot hbs]

theorem WellFormed.pop (hpos : 0 < q.len.read m) :
    q.WellFormed (q.len.set (q.len.read m - 1) (q.advanced q.head m)) ∧
      q.content (q.len.set (q.len.read m - 1) (q.advanced q.head m)) = (q.content m).tail := by
  have hlarge := q.cap_lt
  have hfits := h.len
  have hhead : q.head.read (q.len.set (q.len.read m - 1) (q.advanced q.head m)) = (q.head.read m + 1) % q.cap := by
    rw [PMVar.read_set_of_disjoint (disjoint_of_apart q.head_len), read_advanced rfl h.head, next_eq h.head]
  have hlen : q.len.read (q.len.set (q.len.read m - 1) (q.advanced q.head m)) = q.len.read m - 1 :=
    PMVar.read_set (by omega)
  refine ⟨⟨?_, ?_, ?_⟩, ?_⟩
  · rw [hhead]
    exact Nat.mod_lt _ (Nat.zero_lt_of_lt h.head)
  · omega
  · rw [hhead, hlen, PMVar.read_set_of_disjoint (disjoint_of_apart q.tail_len),
      read_advanced_of_disjoint (disjoint_of_apart q.head_tail.symm), h.tail, Nat.mod_add_mod]
    congr 1
    omega
  · rw [content_cons h hpos, content_eq_window, hhead, hlen]
    refine Ring.window_congr fun k _ => ?_
    have hk := Nat.mod_lt ((q.head.read m + 1) % q.cap + k) (Nat.zero_lt_of_lt h.head)
    rw [RawBuf.slot_set q.len_in hk, slot_advanced q.head_in hk]

theorem WellFormed.clear :
    q.WellFormed (q.len.set 0 (q.head.set 0 (q.tail.set 0 m))) ∧
      q.content (q.len.set 0 (q.head.set 0 (q.tail.set 0 m))) = [] := by
  have hzero : 0 < 2 ^ b.width.bits := Nat.two_pow_pos _
  have hlen : q.len.read (q.len.set 0 (q.head.set 0 (q.tail.set 0 m))) = 0 := PMVar.read_set hzero
  have hhead : q.head.read (q.len.set 0 (q.head.set 0 (q.tail.set 0 m))) = 0 := by
    rw [PMVar.read_set_of_disjoint (disjoint_of_apart q.head_len), PMVar.read_set hzero]
  refine ⟨⟨?_, ?_, ?_⟩, content_nil hlen⟩
  · rw [hhead]
    exact Nat.zero_lt_of_lt h.head
  · omega
  · rw [hhead, hlen, PMVar.read_set_of_disjoint (disjoint_of_apart q.tail_len),
      PMVar.read_set_of_disjoint (disjoint_of_apart q.head_tail.symm), PMVar.read_set hzero, Nat.zero_mod]

end

theorem head?_content (h : q.WellFormed m) (hpos : 0 < q.len.read m) :
    (q.content m).head? = some (q.slot m (q.head.read m)) := by
  rw [content_cons h hpos]
  rfl

theorem eval_peekFront (h : q.WellFormed m) : q.peekFront.eval m = ((q.content m).head?, m) := by
  simp only [peekFront, Body.eval_bind, PMVar.eval_deref]
  split
  · next hempty => rw [content_nil hempty]; rfl
  · next hpos =>
      simp only [Body.eval_bind, PMVar.eval_deref, RawBuf.eval_read, Body.eval_pure,
        head?_content h (Nat.pos_of_ne_zero hpos)]

/-- A call does to the queue what it does to the list. -/
theorem eval_call (call : Call) (hinv : q.WellFormed m ∧ Touches q.Owns m₀ m) :
    (q.WellFormed ((call.body q).eval m).2 ∧ Touches q.Owns m₀ ((call.body q).eval m).2) ∧
      listStep q.cap q.elemSize call (q.content m) =
        (((call.body q).eval m).1, q.content ((call.body q).eval m).2) := by
  obtain ⟨h, htouch⟩ := hinv
  have hhead : ∀ a, q.head.obj.Contains a → q.Owns a := fun _ ha => .inl ha
  have htail : ∀ a, q.tail.obj.Contains a → q.Owns a := fun _ ha => .inr (.inl ha)
  have hlen : ∀ a, q.len.obj.Contains a → q.Owns a := fun _ ha => .inr (.inr (.inl ha))
  cases call with
  | pushBack elem =>
      simp only [Call.body, Body.eval_bind, eval_pushBack h, Body.eval_pure, listStep, length_content]
      split
      · next hroom =>
          have hbs := length_bytesAt elem 0 q.elemSize
          obtain ⟨hwf, hcontent⟩ := h.push hroom hbs
          refine ⟨⟨hwf, Touches.set (touches_advanced ?_ htail) hlen _⟩, ?_⟩
          · exact htouch.setSlot (fun _ ha => .inr (.inr (.inr ha))) h.tail_lt (le_of_eq hbs)
          · rw [hcontent]
            rfl
      · exact ⟨⟨h, htouch⟩, rfl⟩
  | popFront =>
      simp only [Call.body, Body.eval_bind, eval_popFront h, Body.eval_pure, listStep]
      split
      · next hempty =>
          rw [content_nil hempty]
          exact ⟨⟨h, htouch⟩, rfl⟩
      · next hpos =>
          obtain ⟨hwf, hcontent⟩ := h.pop (Nat.pos_of_ne_zero hpos)
          refine ⟨⟨hwf, Touches.set (touches_advanced htouch hhead) hlen _⟩, ?_⟩
          rw [hcontent, head?_content h (Nat.pos_of_ne_zero hpos)]
  | peekFront =>
      simp only [Call.body, Body.eval_bind, eval_peekFront h, Body.eval_pure, listStep]
      exact ⟨⟨h, htouch⟩, trivial⟩
  | clear =>
      simp only [Call.body, Body.eval_bind, eval_clear, Body.eval_pure, listStep]
      obtain ⟨hwf, hcontent⟩ := h.clear
      refine ⟨⟨hwf, Touches.set ((htouch.set htail _).set hhead _) hlen _⟩, ?_⟩
      rw [hcontent]
  | len =>
      simp only [Call.body, Body.eval_bind, PMVar.eval_deref, Body.eval_pure, listStep, length_content]
      exact ⟨⟨h, htouch⟩, trivial⟩

@[simp] theorem objects_advance : (q.advance x).objects m = [] := by
  simp only [advance, Body.objects_bind, PMVar.objects_deref, PMVar.objects_assign, List.nil_append]
  split
  · exact PMVar.objects_assign 0
  · rfl

/-- What the calls log. -/
theorem objects_call (call : Call) : (call.body q).objects m = call.log q (q.content m) := by
  have hempty : q.len.read m = 0 ↔ q.content m = [] := by rw [← List.length_eq_zero_iff, length_content]
  cases call with
  | pushBack elem =>
      simp only [Call.body, pushBack, Body.objects_bind, RawBuf.objects_asMut, PMVar.objects_deref, Body.objects_pure,
        List.nil_append, List.append_nil, Call.log]
      split <;> simp [Body.objects_bind]
  | popFront =>
      simp only [Call.body, popFront, Body.objects_bind, PMVar.objects_deref, PMVar.eval_deref, Body.objects_pure,
        List.nil_append, List.append_nil, Call.log, ← hempty]
      split <;> simp [Body.objects_bind]
  | peekFront =>
      simp only [Call.body, peekFront, Body.objects_bind, PMVar.objects_deref, Body.objects_pure, List.nil_append,
        List.append_nil, Call.log]
      split <;> simp [Body.objects_bind]
  | clear => simp [Call.body, clear, Body.objects_bind, Call.log]
  | len => simp [Call.body, Body.objects_bind, Call.log]

/-- Whatever a transaction calls on a queue, the queue answers as a list of at most `cap` elements that is filled at its
end and emptied at its front, over however many rounds of the ring. A push to a full queue panics and leaves it
alone. No other byte changes. That is so as long as the records of the calls fit into the journal, and otherwise the
call that makes the first one that does not fit panics. -/
theorem pqueue_calls_refine (q : PQueue b.width) (s : Pmem) (h : Undoes b m₀ os s) (hwf : q.WellFormed s.mem)
    (cs : List Call) :
    (Journal.HasRoom b s (Body.recordsOf (listStep q.cap q.elemSize) (Call.log q) cs (q.content s.mem)) →
      ∃ replies s', ((Body.calls (Call.body q) cs).run b s).out = some (replies, s') ∧
        Body.Answered cs replies ∧
        Answers (listStep q.cap q.elemSize) replies (q.content s.mem) (q.content s'.mem) ∧
        q.WellFormed s'.mem ∧
        Touches q.Owns s.mem s'.mem) ∧
    (¬ Journal.HasRoom b s (Body.recordsOf (listStep q.cap q.elemSize) (Call.log q) cs (q.content s.mem)) →
      ((Body.calls (Call.body q) cs).run b s).out = none) := by
  refine Body.calls_refine (I := fun m => q.WellFormed m ∧ Touches q.Owns s.mem m) cs h ⟨hwf, Touches.refl⟩ ?_
  intro call m hinv
  obtain ⟨hkeeps, hanswer⟩ := eval_call call hinv
  exact ⟨hkeeps, hanswer, objects_call call⟩

/-- The ring closes: the second push goes to slot 0, and the third panics. -/
theorem pqueue_calls_refine_wraps :
    ∃ replies s', ((Body.calls (Call.body PQueue.ofBytes)
        [.pushBack fun _ => 7, .popFront, .pushBack fun _ => 8, .pushBack fun _ => 9, .len]).run
          ⟨.w32, 1024, false, false⟩ ⟨setBytes (setBytes (fun _ => 0) 12 [1]) 16 [1], Journal.new⟩).out =
            some (replies, s') ∧
      Body.Answered [.pushBack fun _ => 7, .popFront, .pushBack fun _ => 8, .pushBack fun _ => 9, .len] replies ∧
      Answers (listStep 2 1) replies [[0]] (PQueue.ofBytes.content s'.mem) ∧
      PQueue.ofBytes.WellFormed s'.mem ∧
      Touches PQueue.ofBytes.Owns (setBytes (setBytes (fun _ => 0) 12 [1]) 16 [1]) s'.mem :=
  (pqueue_calls_refine (b := ⟨.w32, 1024, false, false⟩) PQueue.ofBytes
    ⟨setBytes (setBytes (fun _ => 0) 12 [1]) 16 [1], Journal.new⟩ (.empty (by decide) rfl)
    ⟨by decide, by decide, by decide⟩
    [.pushBack fun _ => 7, .popFront, .pushBack fun _ => 8, .pushBack fun _ => 9, .len]).1 (by change _ ≤ _; decide)

end PQueue

end IntOS
