import IntOS.Sched.Lemmas.Crash
import IntOS.Sched.Lemmas.Events
import IntOS.Sched.Lemmas.Kinds

/-!
# The wait list of an event group while its tasks are unblocked

A failure may leave the delayed list with a wrong length, and what is done to it later may damage it. The event
nodes are in lists of their own, so the wait list keeps its order and its nodes.
-/

namespace IntOS

open Persist Persist.Prog IntOS.Lists Chain

namespace Lists

variable {N L : Type} [DecidableEq N] [DecidableEq L] {A : N → Prop} {B : L → Prop} {s c : Lists N L} {l : L} {n : N}
  {xs : List N}

theorem own_updateOf {f : N → Option N} {o v : Option N} (hf : ∀ m, A m → Own A (f m)) (hv : Own A v) (m : N)
    (hm : A m) : Own A (updateOf f o v m) := by
  cases o with
  | none => exact hf m hm
  | some x => exact own_update hf hv m hm

omit [DecidableEq L] in
theorem updateOf_beside {f : N → Option N} {o v : Option N} (ho : Own A o) (m : N) (hm : ¬ A m) :
    updateOf f o v m = f m := by
  apply updateOf_of_ne
  rintro rfl
  exact hm (ho m rfl)

/-- A removal moves links of the same kind of nodes. -/
theorem Closed.removed (h : Closed A B s) (hn : A n) (hl : B l) : Within A B s (removed s l n) := by
  have hp := h.prev n hn
  have hx := h.next n hn
  refine ⟨⟨own_updateOf h.prev hp, own_updateOf h.next hx, own_update h.list own_none, ?_, ?_⟩,
    ⟨?_, ?_, ?_, ?_, ?_, ?_⟩⟩
  · dsimp only [Lists.removed]
    split
    · exact own_update h.cursor hx
    · exact h.cursor
  · dsimp only [Lists.removed]
    split
    · exact own_update h.head hx
    · exact h.head
  · exact fun m hm => updateOf_beside hx m hm
  · exact fun m hm => updateOf_beside hp m hm
  · exact update_beside hn fun _ _ => rfl
  · exact update_beside hl fun _ _ => rfl
  · intro m hm
    dsimp only [Lists.removed]
    split
    · exact update_beside hl (fun _ _ => rfl) m hm
    · rfl
  · intro m hm
    dsimp only [Lists.removed]
    split
    · exact update_beside hl (fun _ _ => rfl) m hm
    · rfl

omit [DecidableEq N] [DecidableEq L] in
theorem LinearAt.linear (h : LinearAt s l xs) (hnd : xs.Nodup) (hn : n ∈ xs) :
    0 < s.len l ∧ (s.len l = 1 → Lone s l n) ∧ s.next n ≠ some n := by
  have hpos := List.length_pos_of_mem hn
  refine ⟨h.len ▸ hpos, fun hone => ?_, fun hself => ?_⟩
  · rw [h.len, List.length_eq_one_iff] at hone
    obtain ⟨x, rfl⟩ := hone
    rw [List.mem_singleton] at hn
    subst hn
    exact ⟨h.links.1, h.links.2.1, h.cursor, h.head⟩
  · obtain ⟨ys, zs, rfl⟩ := List.append_of_mem hn
    have hnext := (linked_append.mp h.links).2.2.1
    rw [hself, Option.or_none] at hnext
    have hmem := List.mem_of_head? hnext.symm
    exact (List.nodup_cons.mp (List.nodup_append.mp hnd).2.1).1 hmem

theorem LinearAt.removed (h : LinearAt s l xs) (hnd : xs.Nodup) (hn : n ∈ xs) :
    LinearAt (removed s l n) l (xs.erase n) := by
  obtain ⟨ys, zs, rfl⟩ := List.append_of_mem hn
  have hnys : n ∉ ys := fun hm => (List.nodup_append.mp hnd).2.2 n hm n (by simp) rfl
  rw [List.erase_append_right _ hnys, List.erase_cons_head]
  have hlen := h.len
  have hnext := (linked_append.mp h.links).2.2.1
  rw [Option.or_none] at hnext
  refine ⟨?_, ?_, ?_, h.links.remove hnd⟩
  · simp [Lists.removed, hlen]
  · simp [Lists.removed, h.cursor]
  · cases ys with
    | nil => simp [Lists.removed, show s.head l = some n from h.head, hnext]
    | cons y ys =>
        have hyn : y ≠ n := fun he => hnys (by simp [he])
        simp [Lists.removed, show s.head l = some y from h.head, hyn]

end Lists

namespace Kernel

variable {cfg : Config} {k c : Kernel} {t u w : Nat} {xs : List Nat} {s r : Lists NodeRef ListRef}

/-- The wait list `w` holds the event nodes of the tasks `xs`. -/
structure Chained (w : Nat) (xs : List Nat) (s : Lists NodeRef ListRef) : Prop where
  typed : Typed s
  linear : LinearAt s (.waiting w) (xs.map .event)
  list : ∀ u, s.list (.event u) = some (.waiting w) ↔ u ∈ xs
  nodup : xs.Nodup

theorem nodup_map_event (h : xs.Nodup) : (xs.map NodeRef.event).Nodup := h.map fun _ _ => NodeRef.event.inj

theorem mem_map_event : NodeRef.event u ∈ xs.map .event ↔ u ∈ xs := by simp

theorem Inv.chained (h : Inv k) (ht : Typed k.lists) (w : Nat) : ∃ xs, Chained w xs k.lists := by
  obtain ⟨seq, hs, _⟩ := h.linked
  have hevent : ∀ n ∈ seq (.waiting w), n = .event n.task := fun n hn => (h.of_list ((hs.owner _ n).mpr hn)).2.1
  have hmap : ((seq (.waiting w)).map NodeRef.task).map NodeRef.event = seq (.waiting w) := by
    rw [List.map_map]
    conv_rhs => rw [← List.map_id (seq (.waiting w))]
    exact List.map_congr_left fun n hn => (hevent n hn).symm
  refine ⟨(seq (.waiting w)).map NodeRef.task, ht, ?_, fun u => ?_, ?_⟩
  · rw [hmap]
    exact hs.linears (.waiting w) id
  · rw [hs.owner, ← mem_map_event, hmap]
  · have hnd := hs.nodup (.waiting w)
    rw [← hmap] at hnd
    exact hnd.of_map _

theorem Chained.of_sched (h : Chained w xs s) (hw : Within NodeRef.IsSched ListRef.OfTasks s r) : Chained w xs r where
  typed := h.typed.of_sched hw
  linear := by
    refine h.linear.beside hw.beside id fun x hx => ?_
    obtain ⟨u, _, rfl⟩ := List.mem_map.mp hx
    exact id
  list := fun u => by rw [hw.beside.list _ id, h.list]
  nodup := h.nodup

theorem Chained.setMicroOp (h : Chained w xs s) (v : Nat) : Chained w xs { s with microOpOldLen := v } := by
  have hs := h.typed.sched
  refine h.of_sched ⟨⟨hs.prev, hs.next, hs.list, hs.cursor, hs.head⟩, ?_⟩
  exact ⟨fun _ _ => rfl, fun _ _ => rfl, fun _ _ => rfl, fun _ _ => rfl, fun _ _ => rfl, fun _ _ => rfl⟩

theorem Chained.removed (h : Chained w xs s) (hu : u ∈ xs) :
    Chained w (xs.erase u) (removed s (.waiting w) (.event u)) where
  typed := h.typed.of_event (h.typed.event.removed trivial trivial)
  linear := by
    have hmap : (xs.erase u).map NodeRef.event = (xs.map NodeRef.event).erase (.event u) :=
      List.map_erase (fun _ _ => NodeRef.event.inj) xs
    rw [hmap]
    exact h.linear.removed (nodup_map_event h.nodup) (mem_map_event.mpr hu)
  list := by
    intro v
    rw [h.nodup.mem_erase_iff, ← h.list]
    by_cases hv : v = u
    · subst hv
      simp [Lists.removed]
    · simp [Lists.removed, hv]
  nodup := h.nodup.erase u

/-! ## Parts of the transaction -/

/-- Nodes other than scheduler nodes, the transaction and the running task stay. -/
structure MovesSched (k c : Kernel) : Prop where
  lists : Within NodeRef.IsSched ListRef.OfTasks k.lists c.lists
  op : c.op = k.op
  blockNodePtr : c.blockNodePtr = k.blockNodePtr
  current : c.current = k.current

theorem MovesSched.start (h : Typed k.lists) : MovesSched k k := ⟨h.sched.within, rfl, rfl, rfl⟩

theorem movesSched_onLists {α : Type} {m : Prog (Lists NodeRef ListRef) α} {Q : α → Prop}
    (hm : Stays (Within NodeRef.IsSched ListRef.OfTasks k.lists) m Q) : Stays (MovesSched k) (onLists m) Q :=
  stays_zoom hm (fun _ => rfl) (fun _ hc => hc.lists) fun _ _ hc hs => ⟨hs, hc.op, hc.blockNodePtr, hc.current⟩

theorem movesSched_setStatus (v : TaskState) : Stays (MovesSched k) (setStatus t v) fun _ => True :=
  stays_store fun _ h => ⟨h.lists, h.op, h.blockNodePtr, h.current⟩

theorem movesSched_gets {α : Type} (g : Kernel → α) : Stays (MovesSched k) (gets g) fun _ => True :=
  stays_gets fun _ _ => trivial

theorem movesSched_removeFromDelayedList : Stays (MovesSched k) (removeFromDelayedList cfg t) fun _ => True :=
  movesSched_onLists (stays_optimizedRemove trivial trivial)

theorem movesSched_addToReadyList : Stays (MovesSched k) (addToReadyList t) fun _ => True := by
  refine (movesSched_gets _).bind fun _ _ => Stays.bind (Q := fun _ => True) ?_ fun _ _ => movesSched_setStatus _
  exact movesSched_onLists (stays_optimizedInsertBeforeCursor trivial trivial)

theorem movesSched_recoverInsert {oldLen : Nat} :
    Stays (MovesSched k) (recoverInsertIntoReadyList t oldLen) fun _ => True := by
  refine (movesSched_gets _).bind fun _ _ => Stays.bind (Q := fun _ => True) ?_ fun _ _ => movesSched_setStatus _
  exact movesSched_onLists (stays_recoverFromFailedInsertBeforeCursor trivial trivial)

theorem movesSched_recoverRemove {oldLen : Nat} :
    Stays (MovesSched k) (onLists (recoverFromFailedRemove .delayed (.sched t) oldLen)) fun _ => True :=
  movesSched_onLists (stays_recoverFromFailedRemove trivial trivial)

/-! ## A waiter is unblocked -/

/-- The wait list while no list transaction runs. -/
structure Quiet (t w : Nat) (xs : List Nat) (k : Kernel) : Prop where
  chained : Chained w xs k.lists
  op : k.op = .invalid
  microOp : k.lists.microOpOldLen = 0
  current : k.current = some t

/-- What a failure leaves while the task `u` is taken out of the wait list. -/
inductive Unlinking (t w : Nat) (xs : List Nat) (u : Nat) (c : Kernel) : Prop
  | still : Chained w xs c.lists → c.lists.microOpOldLen = 0 → c.op = .invalid ∨ c.op = .waitListRemoval →
      c.current = some t → Unlinking t w xs u c
  | leaving {s : Lists NodeRef ListRef} : Chained w xs s → s.microOpOldLen = microOpOldLenOf .remove xs.length →
      Removing s (.waiting w) (.event u) c.lists → c.lists.list = s.list → c.op = .waitListRemoval →
      c.blockNodePtr = some (.event u) → c.current = some t → Unlinking t w xs u c
  | left : Chained w (xs.erase u) c.lists → c.lists.list (.event u) = none →
      c.op = .waitListRemoval ∧ c.blockNodePtr = some (.event u) ∨ c.op = .invalid ∧ c.lists.microOpOldLen = 0 →
      c.current = some t → Unlinking t w xs u c

/-- The task `u` is out of the wait list, and what is left to do is done to scheduler nodes. -/
theorem wpc_leave {m : Prog Kernel Unit} (hm : Stays (MovesSched k) m fun _ => True)
    (h : Chained w (xs.erase u) k.lists) (hnone : k.lists.list (.event u) = none)
    (hop : k.op = .waitListRemoval) (hptr : k.blockNodePtr = some (.event u)) (hcur : k.current = some t) :
    wpc (m >>= fun _ => invalidate) (fun _ => Quiet t w (xs.erase u)) True (Unlinking t w xs u) k := by
  have hnone' : ∀ c, MovesSched k c → c.lists.list (.event u) = none := fun c hc =>
    (hc.lists.beside.list _ id).trans hnone
  have hin : ∀ c, MovesSched k c → Unlinking t w xs u c := fun c hc =>
    .left (h.of_sched hc.lists) (hnone' c hc) (Or.inl ⟨hc.op.trans hop, hc.blockNodePtr.trans hptr⟩)
      (hc.current.trans hcur)
  refine wpc_bind (wpc_mono (hm k (.start h.typed)) ?_ hin)
  rintro _ c ⟨hc, _⟩
  have hchain := (h.of_sched hc.lists).setMicroOp 0
  have hcur' := hc.current.trans hcur
  apply wpc_invalidate (hin c hc)
  · exact .left hchain (hnone' c hc) (Or.inl ⟨hc.op.trans hop, hc.blockNodePtr.trans hptr⟩) hcur'
  · exact .left hchain (hnone' c hc) (Or.inr ⟨rfl, rfl⟩) hcur'
  · exact ⟨hchain, rfl, rfl, hcur'⟩

theorem movesSched_wake :
    Stays (MovesSched k) (removeFromDelayedList cfg u >>= fun _ => addToReadyList u) fun _ => True :=
  movesSched_removeFromDelayedList.bind fun _ _ => movesSched_addToReadyList

/-- The wait list loses the task `u` and keeps its order. -/
theorem Quiet.wpc_unlink (h : Quiet t w xs k) (hu : u ∈ xs) :
    wpc (rollForwardRemoveFromUnsortedWaitlist cfg w (.event u)) (fun _ => Quiet t w (xs.erase u)) True
      (Unlinking t w xs u) k := by
  obtain ⟨hchain, hop, hmicro, hcur⟩ := h
  have hlogged : Chained w xs (logged k.lists .remove (.waiting w)) := hchain.setMicroOp _
  obtain ⟨hlen, hone, _⟩ := hlogged.linear.linear (nodup_map_event hlogged.nodup) (mem_map_event.mpr hu)
  have hlist : (logged k.lists .remove (.waiting w)).list (.event u) ≠ none := by
    rw [(hlogged.list u).mpr hu]
    exact nofun
  have hlog : (logged k.lists .remove (.waiting w)).microOpOldLen = microOpOldLenOf .remove xs.length := by
    unfold logged
    rw [hchain.linear.len, List.length_map]
  have h₀ : Unlinking t w xs u k := .still hchain hmicro (Or.inl hop) hcur
  have h₁ : Unlinking t w xs u { k with blockNodePtr := some (.event u) } := .still hchain hmicro (Or.inl hop) hcur
  have h₂ : Unlinking t w xs u { k with blockNodePtr := some (.event u), op := .waitListRemoval } :=
    .still hchain hmicro (Or.inr rfl) hcur
  refine wpc_bind (wpc_store h₀ h₁ (wpc_bind (wpc_store h₁ h₂ (wpc_bind ?_))))
  have hdone := hlogged.removed hu
  have hnone : (removed (logged k.lists .remove (.waiting w)) (.waiting w) (.event u)).list (.event u) = none :=
    Function.update_self _ _ _
  have hstart := Removing.start (logged k.lists .remove (.waiting w)) (.waiting w) (.event u)
  refine wpc_onLists (wpc_bind (wpc_startOpLog h₂ (.leaving hlogged hlog hstart rfl rfl rfl hcur) ?_))
  refine wpc_mono (wpc_optimizedRemoveImpl hlist hlen hone) ?_ ?_
  · rintro _ _ rfl
    change wpc (removeFromDelayedList cfg u >>= fun _ => addToReadyList u >>= fun _ => invalidate) _ _ _ _
    rw [← assoc]
    exact wpc_leave movesSched_wake hdone hnone rfl rfl hcur
  · intro s hs
    rcases hs.list with hl | rfl
    · exact .leaving hlogged hlog hs hl rfl rfl hcur
    · exact .left hdone hnone (Or.inl ⟨rfl, rfl⟩) hcur

/-! ## Recovery -/

theorem after_recover_unblock {Q : Unit → Kernel → Prop} (hop : c.op = .waitListRemoval)
    (h : After (recoverAndRollForwardOfUnsortedWaitlistRemove cfg) (fun _ r => r.lists.microOpOldLen = 0 ∧ Q () r) c) :
    After (recoverListTransaction cfg) Q c := by
  simp only [recoverListTransaction, after_bind, after_gets, hop]
  refine h.mono ?_
  rintro _ r ⟨hm, hr⟩
  exact ((ends_recoverContextSwitch hm).mpr hr).after

/-- The event node of the task says that it is in the wait list. -/
def Listed (w : Nat) (k : Kernel) (v : Nat) : Prop := k.lists.list (.event v) = some (.waiting w)

theorem Unlinking.listed (h : Unlinking t w xs u c) :
    (∀ v, Listed w c v ↔ v ∈ xs) ∨ Chained w (xs.erase u) c.lists := by
  cases h with
  | still h _ _ _ => exact Or.inl h.list
  | leaving h _ _ hlist _ _ _ =>
      refine Or.inl fun v => ?_
      unfold Listed
      rw [hlist]
      exact h.list v
  | left h _ _ _ => exact Or.inr h

theorem after_getBlockNode {Q : NodeRef → Kernel → Prop} :
    After getBlockNode Q k ↔ ∀ n, k.blockNodePtr = some n → Q n k := by
  simp only [getBlockNode, after_bind, after_gets]
  cases k.blockNodePtr with
  | none => simp
  | some n => simp

theorem after_getMicroOp {Q : ListOpCode → Kernel → Prop} :
    After Kernel.getMicroOp Q k ↔ ∀ op, k.lists.getMicroOp = some op → Q op k := by
  simp only [Kernel.getMicroOp, after_bind, after_gets]
  cases k.lists.getMicroOp with
  | none => simp
  | some op => simp

/-- Recovery leaves the wait list with or without the task. -/
theorem Unlinking.recover (h : Unlinking t w xs u c) (hu : u ∈ xs) (hfit : xs.length < 2 ^ opCodeShift) :
    After (recoverListTransaction cfg) (fun _ r => Quiet t w xs r ∧ (∀ v, Listed w c v ↔ v ∈ xs) ∨
      Quiet t w (xs.erase u) r) c := by
  have hleave : ∀ {k : Kernel} {m : Prog Kernel Unit}, Stays (MovesSched k) m (fun _ => True) →
      Chained w (xs.erase u) k.lists → k.lists.list (.event u) = none → k.op = .waitListRemoval →
      k.blockNodePtr = some (.event u) →
      k.current = some t → After (m >>= fun _ => invalidate) (fun _ => Quiet t w (xs.erase u)) k :=
    fun hm hchain hnone hop hptr hcur => (wpc_leave hm hchain hnone hop hptr hcur).2
  have hquiet : ∀ {r}, Quiet t w (xs.erase u) r → r.lists.microOpOldLen = 0 ∧
      (Quiet t w xs r ∧ (∀ v, Listed w c v ↔ v ∈ xs) ∨ Quiet t w (xs.erase u) r) := fun hr => ⟨hr.microOp, Or.inr hr⟩
  cases h with
  | still hchain hmicro hop hcur =>
      rcases hop with hop | hop
      · exact ((ends_recover_idle hop hmicro).mpr (Or.inl ⟨⟨hchain, hop, hmicro, hcur⟩, hchain.list⟩)).after
      refine after_recover_unblock hop ?_
      unfold recoverAndRollForwardOfUnsortedWaitlistRemove
      rw [after_bind, after_getMicroOp, Lists.getMicroOp_zero hmicro]
      rintro _ ⟨⟩
      rw [after_bind, getOldLen, after_gets, after_bind, after_getBlockNode]
      intro n _
      exact ⟨rfl, Or.inl ⟨⟨hchain.setMicroOp 0, rfl, rfl, hcur⟩, hchain.list⟩⟩
  | @leaving s hchain hlog hs hlist hop hptr hcur =>
      obtain ⟨hlen, _, hnext⟩ := hchain.linear.linear (nodup_map_event hchain.nodup) (mem_map_event.mpr hu)
      have hmicro : c.lists.microOpOldLen = microOpOldLenOf .remove xs.length := hs.microOpOldLen.trans hlog
      have hsome : c.lists.list (.event u) = some (.waiting w) := by
        rw [hlist]
        exact (hchain.list u).mpr hu
      have hsame : xs.length = s.len (.waiting w) := by rw [hchain.linear.len, List.length_map]
      refine after_recover_unblock hop ?_
      unfold recoverAndRollForwardOfUnsortedWaitlistRemove
      rw [after_bind, after_getMicroOp, Lists.getMicroOp_eq hfit hmicro]
      rintro _ ⟨⟩
      rw [after_bind, getOldLen, after_gets, Lists.getOldLen_eq hfit hmicro, after_bind, after_getBlockNode, hptr]
      rintro _ ⟨⟩
      dsimp only
      rw [after_bind, after_gets, hsome]
      dsimp only
      rw [after_bind, onLists, after_zoom]
      have hlen' : 0 < xs.length := hsame ▸ hlen
      have hrec := hs.recover hnext hlen'
      rw [hsame] at hrec ⊢
      have hrest : ∀ r : Lists NodeRef ListRef, Chained w (xs.erase u) r → r.list (.event u) = none →
          After (removeFromDelayedList cfg u >>= fun _ => addToReadyList u >>= fun _ => invalidate)
            (fun _ => Quiet t w (xs.erase u)) { c with lists := r } := by
        intro r hr hnone
        rw [← assoc]
        exact hleave movesSched_wake hr hnone hop hptr hcur
      refine hrec.after.mono ?_
      rintro _ _ rfl
      refine (hrest _ ?_ ?_).mono fun _ _ => hquiet
      · exact hchain.removed hu
      · exact Function.update_self _ _ _
  | left hchain hnone hlog hcur =>
      rcases hlog with ⟨hop, hptr⟩ | ⟨hop, hmicro⟩
      · refine after_recover_unblock hop ?_
        unfold recoverAndRollForwardOfUnsortedWaitlistRemove
        rw [after_bind, after_getMicroOp]
        intro op _
        rw [after_bind, getOldLen, after_gets, after_bind, after_getBlockNode, hptr]
        rintro _ ⟨⟩
        cases op with
        | remove =>
            dsimp only
            rw [after_bind, after_gets, hnone]
            dsimp only
            rw [← assoc]
            refine (hleave ?_ hchain hnone hop hptr hcur).mono fun _ _ => hquiet
            exact movesSched_recoverRemove.bind fun _ _ => movesSched_addToReadyList
        | insertBeforeCursor =>
            exact (hleave movesSched_recoverInsert hchain hnone hop hptr hcur).mono fun _ _ => hquiet
        | invalid =>
            exact (hleave (m := pure ()) (stays_pure trivial) hchain hnone hop hptr hcur).mono fun _ _ => hquiet
        | _ => trivial
      · exact ((ends_recover_idle hop hmicro).mpr (Or.inr ⟨hchain, hop, hmicro, hcur⟩)).after

/-- Apart from the task, the wait list has the same tasks as when power failed. -/
theorem Unlinking.recovered (h : Unlinking t w xs u c) (hu : u ∈ xs) (hfit : xs.length < 2 ^ opCodeShift) :
    After (recoverListTransaction cfg) (fun _ r => ∃ zs : List Nat, zs.length < 2 ^ opCodeShift ∧ Quiet t w zs r ∧
      (∀ v, Listed w r v → Listed w c v) ∧ ∀ v, v ≠ u → Listed w c v → Listed w r v) c := by
  refine (h.recover hu hfit).mono ?_
  rintro _ r (⟨hr, hlisted⟩ | hr)
  · have hsame : ∀ v, Listed w r v ↔ Listed w c v := fun v => (hr.chained.list v).trans (hlisted v).symm
    exact ⟨xs, hfit, hr, fun v => (hsame v).mp, fun v _ => (hsame v).mpr⟩
  · refine ⟨xs.erase u, List.erase_sublist.length_le.trans_lt hfit, hr, ?_⟩
    rcases h.listed with hl | hc
    · refine ⟨fun v hv => (hl v).mpr (List.mem_of_mem_erase ((hr.chained.list v).mp hv)), fun v hvu hv => ?_⟩
      exact (hr.chained.list v).mpr ((List.mem_erase_of_ne hvu).mpr ((hl v).mp hv))
    · have hsame : ∀ v, Listed w r v ↔ Listed w c v := fun v => (hr.chained.list v).trans (hc.list v).symm
      exact ⟨fun v => (hsame v).mp, fun v _ => (hsame v).mpr⟩

end Kernel

end IntOS
