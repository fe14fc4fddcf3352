import IntOS.EventGroup.Lemmas.Bits
import IntOS.Sched.Lemmas.WaitChain

/-!
# The waiters that a set unblocks
-/

namespace IntOS

open Persist Persist.Prog IntOS.Lists

namespace EventGroup

open Kernel (Quiet Unlinking Listed)

variable {width : PtrWidth} {α : Type} {cfg : Config} {waitList t u n : Nat} {xs ys ps : List Nat}
  {m m' c : Machine width} {x b bitsSet : EventBits width} {i : Nat}

/-! ## What a set does to the waiters -/

/-- The tasks that have left the wait list were to be unblocked, and so were those that have been told so. -/
structure Later (waitList : Nat) (bitsSet : EventBits width) (m c : Machine width) : Prop where
  listed : ∀ u, Listed waitList c.kernel u → Listed waitList m.kernel u
  value : ∀ u, Listed waitList c.kernel u → c.blockItemValue u = m.blockItemValue u ∨
    c.blockItemValue u = unblocked bitsSet ∧ unblocks (m.blockItemValue u) bitsSet
  gone : ∀ u, Listed waitList m.kernel u → ¬ Listed waitList c.kernel u → unblocks (m.blockItemValue u) bitsSet

theorem Later.refl : Later waitList bitsSet m m :=
  ⟨fun _ => id, fun _ _ => Or.inl rfl, fun _ h h' => absurd h h'⟩

theorem Later.unblocks (h : Later waitList bitsSet m c) (hu : Listed waitList c.kernel u)
    (hb : unblocks (c.blockItemValue u) bitsSet) : unblocks (m.blockItemValue u) bitsSet := by
  rcases h.value u hu with hv | ⟨_, hv⟩
  · rwa [hv] at hb
  · exact hv

theorem Later.trans (h : Later waitList bitsSet m m') (h' : Later waitList bitsSet m' c) :
    Later waitList bitsSet m c where
  listed := fun u hu => h.listed u (h'.listed u hu)
  value := by
    intro u hu
    have hu' := h'.listed u hu
    rcases h'.value u hu with hv | ⟨hv, hb⟩
    · rw [hv]
      exact h.value u hu'
    · exact Or.inr ⟨hv, h.unblocks hu' hb⟩
  gone := by
    intro u hu hn
    by_cases hu' : Listed waitList m'.kernel u
    · exact h.unblocks hu' (h'.gone u hu' hn)
    · exact h.gone u hu hu'

/-- Some waiter that is to be unblocked clears the bit `i`. -/
def Covers (waitList : Nat) (bitsSet : EventBits width) (m : Machine width) (i : Nat) : Prop :=
  ∃ u, Listed waitList m.kernel u ∧ unblocks (m.blockItemValue u) bitsSet ∧ (clears (m.blockItemValue u)).getLsbD i

theorem Later.covers (h : Later waitList (eventsOf b) m c) (hc : Covers waitList (eventsOf b) c i) :
    Covers waitList (eventsOf b) m i := by
  obtain ⟨u, hu, hb, hi⟩ := hc
  refine ⟨u, h.listed u hu, h.unblocks hu hb, ?_⟩
  rcases h.value u hu with hv | ⟨hv, _⟩
  · rwa [hv] at hi
  · rw [hv, clears_unblocked] at hi
    simp at hi

/-- The loop has no part in anything else. -/
structure SameBits (m c : Machine width) : Prop where
  eventBits : c.eventBits = m.eventBits
  txResults : c.txResults = m.txResults
  txPtr : c.txPtr = m.txPtr
  entry : c.entry = m.entry

theorem SameBits.refl : SameBits m m := ⟨rfl, rfl, rfl, rfl⟩

theorem SameBits.trans (h : SameBits m m') (h' : SameBits m' c) : SameBits m c :=
  ⟨h'.eventBits.trans h.eventBits, h'.txResults.trans h.txResults, h'.txPtr.trans h.txPtr, h'.entry.trans h.entry⟩

/-- What a failure leaves while the waiters, less than `n`, are unblocked: at most one of them is on its way out of
the wait list. -/
structure Struck (t waitList n : Nat) (bitsSet : EventBits width) (m c : Machine width) : Prop where
  later : Later waitList bitsSet m c
  same : SameBits m c
  kernel : ∃ xs, xs.length < n ∧ (Quiet t waitList xs c.kernel ∨
    ∃ u ∈ xs, c.blockItemValue u = unblocked bitsSet ∧ Unlinking t waitList xs u c.kernel ∧
      Listed waitList m.kernel u ∧ unblocks (m.blockItemValue u) bitsSet)

theorem Struck.after (h : Struck t waitList n bitsSet m' c) (hl : Later waitList bitsSet m m') (hs : SameBits m m') :
    Struck t waitList n bitsSet m c := by
  obtain ⟨xs, hfit, hk⟩ := h.kernel
  refine ⟨hl.trans h.later, hs.trans h.same, xs, hfit, hk.imp_right ?_⟩
  rintro ⟨u, hu, hv, hun, hlisted, hb⟩
  exact ⟨u, hu, hv, hun, hl.listed u hlisted, hl.unblocks hlisted hb⟩

/-- The waiters that are not unblocked. -/
def left (bitsSet : EventBits width) (m : Machine width) (ys : List Nat) : List Nat :=
  ys.filter fun u => !unblocks (m.blockItemValue u) bitsSet

theorem mem_left : u ∈ left bitsSet m ys ↔ u ∈ ys ∧ ¬ unblocks (m.blockItemValue u) bitsSet := by
  simp [left]

theorem left_congr (h : ∀ u ∈ ys, m'.blockItemValue u = m.blockItemValue u) : left bitsSet m' ys = left bitsSet m ys :=
  List.filter_congr fun u hu => by rw [h u hu]

/-- What the loop leaves when it has gone through the waiters `ys`, which come after `ps`. -/
structure Swept (t waitList : Nat) (bitsSet : EventBits width) (ps ys : List Nat) (bitsToClear : EventBits width)
    (m : Machine width) (r : EventBits width) (m' : Machine width) : Prop where
  later : Later waitList bitsSet m m'
  same : SameBits m m'
  quiet : Quiet t waitList (ps ++ left bitsSet m ys) m'.kernel
  value : ∀ u, m'.blockItemValue u =
    if u ∈ ys ∧ unblocks (m.blockItemValue u) bitsSet then unblocked bitsSet else m.blockItemValue u
  bits : ∀ i, r.getLsbD i ↔ bitsToClear.getLsbD i ∨
    ∃ u ∈ ys, unblocks (m.blockItemValue u) bitsSet ∧ (clears (m.blockItemValue u)).getLsbD i

theorem Quiet.listed (h : Quiet t waitList xs m.kernel) : Listed waitList m.kernel u ↔ u ∈ xs := h.chained.list u

/-- The waiter that follows. -/
theorem Quiet.next {y : Nat} (h : Quiet t waitList (ps ++ y :: ys) m.kernel) :
    m.kernel.lists.next (.event y) = ys.head?.map .event := by
  have hlinks := h.chained.linear.links
  rw [List.map_append, List.map_cons] at hlinks
  have hnext := (Chain.linked_append.mp hlinks).2.2.1
  rwa [Option.or_none, List.head?_map] at hnext

/-- The waiter `u` is told that it is unblocked, and it leaves the wait list or is about to. -/
def told (bitsSet : EventBits width) (m : Machine width) (u : Nat) (k : Kernel) : Machine width :=
  { m with blockItemValue := Function.update m.blockItemValue u (unblocked bitsSet), kernel := k }

theorem later_told {k : Kernel} (h : Quiet t waitList xs m.kernel) (hb : unblocks (m.blockItemValue u) bitsSet)
    (hsub : ∀ v, Listed waitList k v → v ∈ xs) (hothers : ∀ v ∈ xs, v ≠ u → Listed waitList k v) :
    Later waitList bitsSet m (told bitsSet m u k) where
  listed := fun v hv => (Quiet.listed h).mpr (hsub v hv)
  value := by
    intro v _
    by_cases hv : v = u
    · subst hv
      exact Or.inr ⟨Function.update_self _ _ _, hb⟩
    · exact Or.inl (Function.update_of_ne hv _ _)
  gone := by
    intro v hv hn
    by_cases hvu : v = u
    · exact hvu ▸ hb
    · exact absurd (hothers v ((Quiet.listed h).mp hv) hvu) hn

theorem Unlinking.listed_sub {k : Kernel} (h : Unlinking t waitList xs u k) (hnd : xs.Nodup) :
    (∀ v, Listed waitList k v → v ∈ xs) ∧ ∀ v ∈ xs, v ≠ u → Listed waitList k v := by
  rcases h.listed with hl | hc
  · exact ⟨fun v hv => (hl v).mp hv, fun v hv _ => (hl v).mpr hv⟩
  · refine ⟨fun v hv => ?_, fun v hv hne => ?_⟩
    · exact List.mem_of_mem_erase ((hc.list v).mp hv)
    · exact (hc.list v).mpr ((hnd.mem_erase_iff).mpr ⟨hne, hv⟩)

/-- One round of the loop. -/
theorem wpc_unblock {Q : Unit → Machine width → Prop} (h : Quiet t waitList xs m.kernel) (hu : u ∈ xs)
    (hfit : xs.length < n) (hb : unblocks (m.blockItemValue u) bitsSet)
    (hQ : ∀ k, Quiet t waitList (xs.erase u) k → Later waitList bitsSet m (told bitsSet m u k) →
      Q () (told bitsSet m u k)) :
    wpc (setBlockItemValue u (unblocked bitsSet) >>= fun _ =>
        onKernel (Kernel.rollForwardRemoveFromUnsortedWaitlist cfg waitList (.event u))) Q True
      (Struck t waitList n bitsSet m) m := by
  have hnd := h.chained.nodup
  have hm : Struck t waitList n bitsSet m m := ⟨.refl, .refl, xs, hfit, Or.inl h⟩
  have hsame : ∀ k, SameBits m (told bitsSet m u k) := fun _ => ⟨rfl, rfl, rfl, rfl⟩
  have hcrash : ∀ k, Unlinking t waitList xs u k → Struck t waitList n bitsSet m (told bitsSet m u k) := by
    intro k hk
    obtain ⟨hsub, hothers⟩ := Unlinking.listed_sub hk hnd
    refine ⟨later_told h hb hsub hothers, hsame k, xs, hfit, Or.inr ⟨u, hu, ?_, hk, (Quiet.listed h).mpr hu, hb⟩⟩
    exact Function.update_self _ _ _
  have hstored := hcrash m.kernel (.still h.chained h.microOp (Or.inl h.op) h.current)
  refine wpc_bind (wpc_store hm hstored (wpc_onKernel ?_))
  refine wpc_mono (h.wpc_unlink hu) ?_ hcrash
  intro _ k hk
  refine hQ k hk (later_told h hb ?_ ?_)
  · exact fun v hv => List.mem_of_mem_erase ((hk.chained.list v).mp hv)
  · exact fun v hv hne => (hk.chained.list v).mpr ((hnd.mem_erase_iff).mpr ⟨hne, hv⟩)

theorem wpc_unblockWaiters {fuel : Nat} {bitsToClear : EventBits width} {yldToHigherPrio : Bool}
    (h : Quiet t waitList (ps ++ ys) m.kernel) (hfit : (ps ++ ys).length < n) :
    wpc (unblockWaiters cfg waitList bitsSet fuel (ys.head?.map .event) bitsToClear yldToHigherPrio)
      (fun r m' => Swept t waitList bitsSet ps ys bitsToClear m r.1 m') True (Struck t waitList n bitsSet m) m := by
  have hstart : ∀ {m : Machine width} {xs : List Nat}, Quiet t waitList xs m.kernel → xs.length < n →
      Struck t waitList n bitsSet m m := fun h hfit => ⟨.refl, .refl, _, hfit, Or.inl h⟩
  induction ys generalizing m ps fuel bitsToClear yldToHigherPrio with
  | nil =>
      have hend : Swept t waitList bitsSet ps [] bitsToClear m bitsToClear m :=
        ⟨.refl, .refl, h, fun u => by simp, fun i => by simp⟩
      cases fuel with
      | zero => exact wpc_pure (hstart h hfit) hend
      | succ fuel => exact wpc_pure (hstart h hfit) hend
  | cons y ys ih =>
      cases fuel with
      | zero => exact wpc_fail (hstart h hfit) trivial
      | succ fuel =>
          have hm := hstart h hfit
          have hnext := Quiet.next h
          have hnd := h.chained.nodup
          have hps : y ∉ ps := fun hy => (List.nodup_append.mp hnd).2.2 y hy y (by simp) rfl
          have hys : y ∉ ys := (List.nodup_cons.mp (List.nodup_append.mp hnd).2.1).1
          rw [List.head?_cons, Option.map_some]
          unfold unblockWaiters
          refine wpc_bind (wpc_gets hm (wpc_bind (wpc_gets hm ?_)))
          rw [hnext]
          split
          case isTrue hb =>
            change unblocks (m.blockItemValue y) bitsSet = true at hb
            have herase : (ps ++ y :: ys).erase y = ps ++ ys := by
              rw [List.erase_append_right _ hps, List.erase_cons_head]
            have hle : (ps ++ ys).length < n := by
              simp only [List.length_append, List.length_cons] at hfit ⊢
              omega
            refine wpc_bind (wpc_onKernel (Kernel.wpc_getCurrent h.current hm (wpc_bind (wpc_gets hm ?_))))
            rw [← assoc]
            refine wpc_bind (wpc_unblock (u := y) h (by simp) hfit hb fun k hk hlater => ?_)
            rw [herase] at hk
            have hsame : SameBits m (told bitsSet m y k) := ⟨rfl, rfl, rfl, rfl⟩
            have hkept : ∀ u, u ≠ y → (told bitsSet m y k).blockItemValue u = m.blockItemValue u := fun u hu =>
              Function.update_of_ne hu _ _
            refine wpc_mono (ih (m := told bitsSet m y k) hk hle) ?_ fun c hc => hc.after hlater hsame
            rintro r m' ⟨hlater', hsame', hq, hvalue, hbits⟩
            have hleft : left bitsSet m (y :: ys) = left bitsSet (told bitsSet m y k) ys := by
              rw [left_congr fun u hu => hkept u (ne_of_mem_of_not_mem hu hys), left, left,
                List.filter_cons_of_neg (by simp [hb])]
            refine ⟨hlater.trans hlater', hsame.trans hsame', by rwa [hleft], fun u => ?_, fun i => ?_⟩
            · rw [hvalue u]
              by_cases huy : u = y
              · subst huy
                rw [if_neg fun hu => hys hu.1, if_pos ⟨List.mem_cons_self, hb⟩]
                exact Function.update_self _ _ _
              · rw [hkept u huy]
                simp only [List.mem_cons, huy, false_or]
            · have hrest : (∃ u ∈ ys, unblocks ((told bitsSet m y k).blockItemValue u) bitsSet = true ∧
                    (clears ((told bitsSet m y k).blockItemValue u)).getLsbD i = true) ↔
                  ∃ u ∈ ys, unblocks (m.blockItemValue u) bitsSet = true ∧
                    (clears (m.blockItemValue u)).getLsbD i = true :=
                exists_congr fun u => and_congr_right fun hu => by rw [hkept u (ne_of_mem_of_not_mem hu hys)]
              rw [hbits, hrest, BitVec.getLsbD_or, Bool.or_eq_true, or_assoc]
              simp only [List.mem_cons, exists_eq_or_imp]
              refine or_congr_right (or_congr_left ?_)
              exact (and_iff_right hb).symm
          case isFalse hb =>
            change ¬ unblocks (m.blockItemValue y) bitsSet = true at hb
            have h' : Quiet t waitList ((ps ++ [y]) ++ ys) m.kernel := by
              rw [List.append_assoc]
              exact h
            refine wpc_mono (ih h' (by simpa using hfit)) ?_ fun _ hc => hc
            rintro r m' ⟨hlater, hsame, hq, hvalue, hbits⟩
            have hleft : left bitsSet m (y :: ys) = y :: left bitsSet m ys :=
              List.filter_cons_of_pos (by simp [hb])
            refine ⟨hlater, hsame, ?_, fun u => ?_, fun i => ?_⟩
            · rwa [hleft, List.append_cons]
            · rw [hvalue u]
              by_cases huy : u = y
              · subst huy
                rw [if_neg fun hu => hb hu.2, if_neg fun hu => hb hu.2]
              · simp only [List.mem_cons, huy, false_or]
            · rw [hbits]
              have hb' : ¬ (unblocks (m.blockItemValue y) bitsSet = true ∧
                (clears (m.blockItemValue y)).getLsbD i = true) :=
                fun hu => hb hu.1
              simp only [List.mem_cons, exists_eq_or_imp, hb', false_or]

end EventGroup

end IntOS
