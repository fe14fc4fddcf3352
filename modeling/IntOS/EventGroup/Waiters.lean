import IntOS.EventGroup.Set
import IntOS.Sched.DueTasks

/-!
# Whom a set unblocks

Without a power failure: all waiters are judged on the bits that are set when the loop begins.
-/

namespace IntOS

open Persist Persist.Prog IntOS.Lists

namespace EventGroup

open Kernel (Shows Woken)

variable {width : PtrWidth} {α : Type} {cfg : Config} {w t u : Nat} {ps us : List Nat} {q : Contents}
  {k : Kernel} {m m' : Machine width} {bits bitsSet bitsToClear : EventBits width} {i : Nat}

/-- The wait list holds the tasks `us`, which are delayed, too. -/
structure Waiters (w : Nat) (us : List Nat) (q : Contents) (k : Kernel) : Prop where
  shows : Shows k q
  waiting : q (.waiting w) = us.map NodeRef.event
  delayed : ∀ u ∈ us, .sched u ∈ q .delayed
  known : ∀ u ∈ us, u < k.taskCnt

/-- The waiters whose condition the bits satisfy. -/
def satisfied (bitsSet : EventBits width) (m : Machine width) (us : List Nat) : List Nat :=
  us.filter fun u => unblocks (m.blockItemValue u) bitsSet

/-- The tasks `ts` are unblocked and told the bits. -/
structure Released (bitsSet : EventBits width) (q : Contents) (ts : List Nat) (m m' : Machine width) : Prop where
  kernel : Woken m.kernel q ts m'.kernel
  value : ∀ u, m'.blockItemValue u = if u ∈ ts then unblocked bitsSet else m.blockItemValue u
  entry : m'.entry = m.entry

/-- Some task of `ts` clears the bit `i`. -/
def Cleared (m : Machine width) (ts : List Nat) (i : Nat) : Prop := ∃ u ∈ ts, (clears (m.blockItemValue u)).getLsbD i

theorem satisfied_congr (h : ∀ u ∈ us, m'.blockItemValue u = m.blockItemValue u) :
    satisfied bitsSet m' us = satisfied bitsSet m us :=
  List.filter_congr fun u hu => by rw [h u hu]

theorem Released.cons {k : Kernel} {s : Lists NodeRef ListRef} {p : Option NodeRef} {o : ListTxOpCode}
    {ts : List Nat} (hnd : ∀ l, (q l).Nodup)
    (hk : k = { m.kernel with
      lists := s
      blockNodePtr := p
      op := o
      status := Function.update m.kernel.status u .ready })
    (h : Released bitsSet (q.wake m.kernel.priority u) ts (told bitsSet m u k) m') :
    Released bitsSet q (u :: ts) m m' := by
  refine ⟨h.kernel.cons hnd hk, fun v => ?_, h.entry⟩
  rw [h.value v]
  by_cases hv : v = u
  · simp [hv, told]
  · simp [hv, told]

/-! ## The loop -/

theorem Waiters.next (hq : Shows k q) (hw : q (.waiting w) = (ps ++ u :: us).map NodeRef.event) :
    k.lists.next (.event u) = us.head?.map .event := by
  have hlinks := (hq.linears (.waiting w) id).links
  rw [hw, List.map_append, List.map_cons] at hlinks
  have hnext := (Chain.linked_append.mp hlinks).2.2.1
  rwa [Option.or_none, List.head?_map] at hnext

/-- One round for a waiter that is unblocked. -/
theorem Waiters.unblock (hq : Shows k q) (hw : q (.waiting w) = (ps ++ u :: us).map NodeRef.event)
    (hd : ∀ v ∈ u :: us, .sched v ∈ q .delayed) :
    Ends (Kernel.rollForwardRemoveFromUnsortedWaitlist cfg w (.event u)) (fun _ k' => u ∉ us ∧
      Shows k' (q.wake k.priority u) ∧
      (q.wake k.priority u) (.waiting w) = (ps ++ us).map NodeRef.event ∧
      (∀ v ∈ us, .sched v ∈ (q.wake k.priority u) .delayed) ∧ k' = { k with
        lists := k'.lists
        blockNodePtr := some (.event u)
        op := .invalid
        status := Function.update k.status u .ready }) k := by
  have hnd := hq.nodup (.waiting w)
  rw [hw] at hnd
  have hnd' : (ps ++ u :: us).Nodup := hnd.of_map
  have hps : u ∉ ps := fun hu => (List.nodup_append.mp hnd').2.2 u hu u (by simp) rfl
  have hus : u ∉ us := (List.nodup_cons.mp (List.nodup_append.mp hnd').2.1).1
  have hevent : k.lists.list (.event u) = some (.waiting w) := hq.mem.mp (by simp [hw])
  have hsched := hq.mem.mp (hd u List.mem_cons_self)
  refine (hq.removeFromUnsorted hevent hsched).mono ?_
  rintro _ k' ⟨hq', hk'⟩
  refine ⟨hus, hq', ?_, fun v hv => ?_, hk'⟩
  · have hnot : NodeRef.event u ∉ ps.map NodeRef.event := by simpa using hps
    rw [Contents.wake, hw, List.map_append, List.map_cons, List.erase_append_right _ hnot, List.erase_cons_head,
      ← List.map_append]
  · have hne : NodeRef.sched v ≠ .sched u := fun he => hus (NodeRef.sched.inj he ▸ hv)
    exact (List.mem_erase_of_ne hne).mpr (hd v (List.mem_cons_of_mem u hv))

theorem unblockWaiters_ends {fuel : Nat} {yldToHigherPrio : Bool} (hq : Shows m.kernel q)
    (hw : q (.waiting w) = (ps ++ us).map NodeRef.event) (hd : ∀ u ∈ us, .sched u ∈ q .delayed)
    (hcur : m.kernel.current = some t) (hfuel : us.length ≤ fuel) :
    Ends (unblockWaiters cfg w bitsSet fuel (us.head?.map .event) bitsToClear yldToHigherPrio) (fun r m' =>
      Released bitsSet q (satisfied bitsSet m us) m m' ∧ SameBits m m' ∧
      ∀ i, r.1.getLsbD i ↔ bitsToClear.getLsbD i ∨ Cleared m (satisfied bitsSet m us) i) m := by
  induction us generalizing m q ps fuel bitsToClear yldToHigherPrio with
  | nil =>
      have hend : Released bitsSet q [] m m := ⟨hq.woken, fun u => by simp, rfl⟩
      cases fuel with
      | zero => simpa [unblockWaiters, satisfied, Cleared] using And.intro hend (SameBits.refl (m := m))
      | succ fuel => simpa [unblockWaiters, satisfied, Cleared] using And.intro hend (SameBits.refl (m := m))
  | cons u us ih =>
      cases fuel with
      | zero => exact absurd hfuel (Nat.not_succ_le_zero _)
      | succ fuel =>
          have hnext := Waiters.next hq hw
          rw [List.head?_cons, Option.map_some]
          simp only [unblockWaiters, ends_bind, ends_gets, hnext]
          split
          case isTrue hb =>
            change unblocks (m.blockItemValue u) bitsSet = true at hb
            have hsat : satisfied bitsSet m (u :: us) = u :: satisfied bitsSet m us := List.filter_cons_of_pos hb
            simp only [ends_bind, ends_onKernel, Kernel.ends_getCurrent hcur, ends_gets, setBlockItemValue, ends_store]
            refine (Waiters.unblock hq hw hd).mono ?_
            rintro _ k₁ ⟨hus, hq₁, hw₁, hd₁, hk₁⟩
            have hcur₁ : k₁.current = some t := by
              rw [hk₁]
              exact hcur
            have hkept : ∀ v, v ≠ u → (told bitsSet m u k₁).blockItemValue v = m.blockItemValue v := fun v hv =>
              Function.update_of_ne hv _ _
            have hkept' : ∀ v ∈ us, (told bitsSet m u k₁).blockItemValue v = m.blockItemValue v := fun v hv =>
              hkept v (ne_of_mem_of_not_mem hv hus)
            refine (ih (m := told bitsSet m u k₁) hq₁ hw₁ hd₁ hcur₁ (Nat.le_of_succ_le_succ hfuel)).mono ?_
            rintro r m' ⟨hrel, hsame, hbits⟩
            rw [satisfied_congr hkept'] at hrel hbits
            rw [hsat]
            have hsame₁ : SameBits m (told bitsSet m u k₁) := ⟨rfl, rfl, rfl, rfl⟩
            refine ⟨hrel.cons hq.nodup hk₁, hsame₁.trans hsame, fun i => ?_⟩
            have hcleared : Cleared (told bitsSet m u k₁) (satisfied bitsSet m us) i ↔
                Cleared m (satisfied bitsSet m us) i :=
              exists_congr fun v => and_congr_right fun hv => by rw [hkept' v (List.mem_of_mem_filter hv)]
            rw [hbits, hcleared, BitVec.getLsbD_or, Bool.or_eq_true, or_assoc]
            simp only [Cleared, List.mem_cons, exists_eq_or_imp]
            rfl
          case isFalse hb =>
            change ¬ unblocks (m.blockItemValue u) bitsSet = true at hb
            have hsat : satisfied bitsSet m (u :: us) = satisfied bitsSet m us := List.filter_cons_of_neg hb
            rw [List.append_cons] at hw
            rw [hsat]
            exact ih hq hw (fun v hv => hd v (List.mem_cons_of_mem u hv)) hcur (Nat.le_of_succ_le_succ hfuel)

/-! ## The set -/

/-- A kernel transaction that is not replayed. -/
theorem ends_run {f : EventBits width → EventBits width × EventBits width} {Q : EventBits width → Machine width → Prop}
    (hcur : m.kernel.current = some t) (hres : (m.txResults t).length ≤ m.txPtr t) :
    Ends (run cfg f) Q m ↔ Q (f m.eventBits).1 (advanced t (applied f t m)) := by
  simp only [run, ends_bind, ends_onKernel, Kernel.ends_getCurrent hcur, ends_gets, List.getElem?_eq_none hres]
  rfl

theorem Waiters.left (h : Waiters w us q k) {prio : Nat → Nat} :
    (q.wakeAll prio (satisfied bitsSet m us)) (.waiting w) = (left bitsSet m us).map NodeRef.event := by
  rw [Contents.wakeAll, h.waiting, List.filter_map, EventGroup.left]
  congr 1
  refine List.filter_congr fun u hu => ?_
  have hmem : NodeRef.event u ∈ (satisfied bitsSet m us).map NodeRef.event ↔ unblocks (m.blockItemValue u) bitsSet := by
    simp only [List.mem_map, NodeRef.event.injEq, exists_eq_right, satisfied, List.mem_filter, hu, true_and]
  simp only [Function.comp_apply, hmem]
  cases unblocks (m.blockItemValue u) bitsSet <;> rfl

/-- A set moves the waiters that the bits satisfy to their ready lists, and clears what they clear. -/
theorem set_releases_satisfied (h : Waiters w us q m.kernel) (hcur : m.kernel.current = some t)
    (hfresh : (m.txResults t).length ≤ m.txPtr t) (hset : bitsSet = getEventBits m ||| eventsOf bits) :
    Ends (setEventGroupBits cfg w bits) (fun _ m' =>
      Released bitsSet q (satisfied bitsSet m us) m m' ∧
      (q.wakeAll m.kernel.priority (satisfied bitsSet m us)) (.waiting w) = (left bitsSet m us).map NodeRef.event ∧
      ∀ i, (getEventBits m').getLsbD i ↔ bitsSet.getLsbD i ∧ ¬ Cleared m (satisfied bitsSet m us) i) m := by
  have hnd : us.Nodup := by
    have hnd := h.shows.nodup (.waiting w)
    rw [h.waiting] at hnd
    exact hnd.of_map
  -- the bits are set
  obtain ⟨m₁, hm₁⟩ : ∃ m₁, advanced t (applied (fun b => (0, b ||| eventsOf bits)) t m) = m₁ := ⟨_, rfl⟩
  have hk₁ : m₁.kernel = m.kernel := by rw [← hm₁]; rfl
  have hv₁ : m₁.blockItemValue = m.blockItemValue := by rw [← hm₁]; rfl
  have he₁ : m₁.entry = m.entry := by rw [← hm₁]; rfl
  have hb₁ : getEventBits m₁ = bitsSet := by
    rw [hset, ← hm₁]
    exact eventsOf_before m bits
  have hfresh₁ : (m₁.txResults t).length ≤ m₁.txPtr t := by
    rw [← hm₁]
    simpa [advanced, applied] using hfresh
  have hq₁ : Shows m₁.kernel q := hk₁ ▸ h.shows
  have hw₁ : q (.waiting w) = ([] ++ us).map NodeRef.event := h.waiting
  have hcur₁ : m₁.kernel.current = some t := hk₁ ▸ hcur
  simp only [setEventGroupBits, setEventBits, ends_bind, ends_run hcur hfresh, ends_pure, ends_gets, hm₁, hb₁]
  rw [hq₁.head id, h.waiting, List.head?_map]
  refine (unblockWaiters_ends hq₁ hw₁ h.delayed hcur₁ (Kernel.tasks_length_le hnd (hk₁ ▸ h.known))).mono ?_
  rintro ⟨r, yld⟩ m₂ ⟨hrel, hsame, hbits⟩
  rw [satisfied_congr (m := m) fun u _ => by rw [hv₁]] at hrel hbits
  -- and what the waiters clear is cleared
  have hcur₂ : m₂.kernel.current = some t := by
    rw [hrel.kernel.others]
    exact hcur₁
  have hfresh₂ : (m₂.txResults t).length ≤ m₂.txPtr t := by rwa [hsame.txResults, hsame.txPtr]
  simp only [clearEventBits, ends_bind, ends_run hcur₂ hfresh₂, ends_pure]
  refine ⟨⟨hk₁ ▸ hrel.kernel, fun u => ?_, hrel.entry.trans he₁⟩, h.left, fun i => ?_⟩
  · rw [← hv₁]
    exact hrel.value u
  · have hcleared : r.getLsbD i ↔ Cleared m (satisfied bitsSet m us) i := by
      rw [hbits i, Cleared, Cleared, hv₁]
      simp
    rw [← hcleared, ← hb₁, getEventBits, getEventBits, eventsOf_getLsbD, eventsOf_getLsbD]
    simp only [advanced, applied, BitVec.getLsbD_and, BitVec.getLsbD_not, hsame.eventBits]
    have hlt : m₁.eventBits.getLsbD i = true → i < width.bits := BitVec.lt_of_getLsbD
    grind

theorem Waiters.of_inv (h : Kernel.Inv k) (w : Nat) : ∃ q us, Waiters w us q k := by
  obtain ⟨q, hq⟩ := h.shows
  have hlist : ∀ x ∈ q (.waiting w), x.task < k.taskCnt ∧ x = .event x.task ∧ .sched x.task ∈ q .delayed := by
    intro x hx
    obtain ⟨hlt, hevent, hsched⟩ := h.of_list (hq.mem.mp hx)
    exact ⟨hlt, hevent, hq.mem.mpr hsched⟩
  refine ⟨q, (q (.waiting w)).map NodeRef.task, hq, ?_, fun u hu => ?_, fun u hu => ?_⟩
  · rw [List.map_map]
    exact ((List.map_congr_left fun x hx => (hlist x hx).2.1.symm).trans (List.map_id _)).symm
  · obtain ⟨x, hx, rfl⟩ := List.mem_map.mp hu
    exact (hlist x hx).2.2
  · obtain ⟨x, hx, rfl⟩ := List.mem_map.mp hu
    exact (hlist x hx).1

theorem set_releases_satisfied_clearingWaiter : ∃ q, Waiters 0 [0] q clearingWaiter.kernel ∧
    Ends (setEventGroupBits Kernel.qemuTarget.toConfig 0 1) (fun _ m' =>
      Released 1 q [0] clearingWaiter m' ∧ ¬ (getEventBits m').getLsbD 0) clearingWaiter := by
  have hinv : Kernel.Inv clearingWaiter.kernel := Kernel.reachable_waiterAndSleeper.inv
  obtain ⟨q, us, h⟩ := Waiters.of_inv hinv 0
  have hone : q (.waiting 0) = [.event 0] :=
    h.shows.eq_singleton (h.shows.mem.mpr (by decide +kernel)) (by decide +kernel)
  obtain rfl : us = [0] := by
    have hmap : us.map NodeRef.event = [0].map NodeRef.event := h.waiting.symm.trans hone
    exact List.map_injective_iff.mpr (fun _ _ => NodeRef.event.inj) hmap
  have hset : (1 : EventBits .w32) = getEventBits clearingWaiter ||| eventsOf 1 := by decide
  refine ⟨q, h, (set_releases_satisfied (t := 2) h rfl (Nat.le_refl 0) hset).mono ?_⟩
  rintro _ m' ⟨hrel, _, hbits⟩
  exact ⟨hrel, fun hbit => ((hbits 0).mp hbit).2 ⟨0, by decide, by decide⟩⟩

end EventGroup

end IntOS
