import IntOS.List.Lemmas.Holds

/-!
# What the list operations do, without failures
-/

namespace IntOS

open Persist Persist.Prog Chain

variable {N L : Type}

namespace Lists

variable {ring : L → Prop} {s : Lists N L} {seq : L → List N} {l : L} {n : N} {debug : Bool}
  {Q : Unit → Lists N L → Prop}

/-! ## Parts of operations -/

section
variable [DecidableEq N]

@[simp] theorem ends_setPrevOf {ptr v : Option N} :
    Ends (setPrevOf ptr v) Q s ↔ Q () { s with prev := updateOf s.prev ptr v } := by
  cases ptr <;> exact Iff.rfl

@[simp] theorem ends_setNextOf {ptr v : Option N} :
    Ends (setNextOf ptr v) Q s ↔ Q () { s with next := updateOf s.next ptr v } := by
  cases ptr <;> exact Iff.rfl

end

section
variable [DecidableEq L]

@[simp] theorem ends_incLen :
    Ends (incLen l) Q s ↔ Q () { s with len := Function.update s.len l (s.len l + 1) } := Iff.rfl

@[simp] theorem ends_decLen :
    Ends (decLen l) Q s ↔ 0 < s.len l ∧ Q () { s with len := Function.update s.len l (s.len l - 1) } := by
  simp [decLen, setLen]

end

@[simp] theorem ends_startOpLog {op : ListOpCode} :
    Ends (startOpLog op l) Q s ↔ Q () { s with microOpOldLen := microOpOldLenOf op (s.len l) } := Iff.rfl

@[simp] theorem ends_debugAssert {p : Prop} [Decidable p] :
    Ends (debugAssert debug p) Q s ↔ (debug → p) ∧ Q () s := ends_check

variable [DecidableEq N] [DecidableEq L]

@[simp] theorem ends_updateHeadAtCursor :
    Ends (updateHeadAtCursor l n) Q s ↔
      Q () { s with head := if s.cursor l = s.head l then Function.update s.head l (some n) else s.head } := by
  simp only [updateHeadAtCursor, setHead, ends_bind, ends_gets]
  split <;> rfl

@[simp] theorem ends_connectAlone :
    Ends (connectAlone l n) Q s ↔
      Q () { s with
        prev := Function.update s.prev n (some n)
        next := Function.update s.next n (some n)
        cursor := Function.update s.cursor l (some n)
        head := Function.update s.head l (some n) } := Iff.rfl

/-! ## Ready lists -/

theorem ends_optimizedInsertBeforeCursor (h : Holds ring s seq) (hl : ring l) (hn : s.list n = none) :
    Ends (optimizedInsertBeforeCursor l n)
      (fun _ s' => Holds ring s' (Function.update seq l (seq l ++ [n]))) s := by
  have hr := h.rings l hl
  have hnl := h.list_eq_none hn l
  have hnd : (seq l ++ [n]).Nodup := by
    rw [List.nodup_append]
    refine ⟨h.nodup l, List.nodup_singleton n, fun a ha b hb => ?_⟩
    rw [List.mem_singleton.mp hb]
    exact ne_of_mem_of_not_mem ha hnl
  have hown : ∀ x, x ∈ seq l ++ [n] ↔ x = n ∨ x ∈ seq l := fun x => by simp [or_comm]
  have hlen := hr.len
  by_cases hne : seq l = []
  · have hc : s.cursor l = none := by rw [hr.cursor, hne]; rfl
    rw [hne] at hnd hown hlen ⊢
    simp only [optimizedInsertBeforeCursor, optimizedInsertBeforeCursorImpl, setList, ends_bind,
      ends_startOpLog, ends_gets, hn, ne_eq, not_true_eq_false, if_false, ends_store, hc,
      ends_connectAlone, ends_incLen]
    refine h.change (h.owner_insert hn (by rwa [hne])) hnd ?_ ?_ ?_ ?_ ?_ (fun _ => ?_) (absurd hl)
    · exact fun m hm => Function.update_of_ne hm _ _
    · exact fun m hm => Function.update_of_ne hm _ _
    · exact fun m hm => Function.update_of_ne hm _ _
    · exact fun x _ hx => Function.update_of_ne (fun he => hx (by simp [he])) _ _
    · exact fun x _ hx => Function.update_of_ne (fun he => hx (by simp [he])) _ _
    · refine ⟨?_, ?_, Or.inr ⟨n, ?_, ?_⟩, ?_, ?_, trivial⟩
      all_goals simp [hlen]
  · obtain ⟨c, hc⟩ : ∃ c, (seq l).head? = some c := ⟨_, List.head?_eq_some_head hne⟩
    obtain ⟨z, hz⟩ : ∃ z, (seq l).getLast? = some z := ⟨_, List.getLast?_eq_some_getLast hne⟩
    have hlinks := hr.links.insert (h.nodup l) hnl hne
    have hcur : s.cursor l = some c := by rw [hr.cursor, hc]
    have hprev : s.prev c = some z := by
      have := hr.links
      obtain ⟨xs, hxs⟩ : ∃ xs, seq l = c :: xs := ⟨_, List.eq_cons_of_mem_head? hc⟩
      rw [hxs] at this hz
      rw [this.1, hz]
    simp only [optimizedInsertBeforeCursor, optimizedInsertBeforeCursorImpl, connectBeforeCursor, setList,
      setPrev, setNext, unwrapUnchecked, ends_bind, ends_startOpLog, ends_gets, hn, ne_eq,
      not_true_eq_false, if_false, ends_store, hcur, hprev, Function.update_self, ends_pure,
      ends_updateHeadAtCursor, ends_incLen]
    rw [hc, hz] at hlinks
    refine h.change (h.owner_insert hn hown) hnd ?_ ?_ ?_ ?_ ?_ (fun _ => ?_) (absurd hl)
    · exact fun m hm => Function.update_of_ne hm _ _
    · exact fun m hm => rfl
    · intro m hm
      split
      · exact Function.update_of_ne hm _ _
      · rfl
    · exact fun x hx hx' => (Function.update_of_ne (ne_of_mem_of_not_mem (List.mem_of_head? hc) hx).symm _ _).trans
        (Function.update_of_ne (fun he => hx' (by simp [he])) _ _)
    · exact fun x hx hx' =>
        (Function.update_of_ne (ne_of_mem_of_not_mem (List.mem_of_getLast? hz) hx).symm _ _).trans
          (Function.update_of_ne (fun he => hx' (by simp [he])) _ _)
    · refine ⟨?_, ?_, ?_, hlinks⟩
      · simp [hlen]
      · rw [List.head?_append, hc, hcur]
        rfl
      · rcases hr.head with ⟨hnil, _⟩ | ⟨y, hy, hhead⟩
        · exact absurd hnil hne
        · right
          dsimp only
          split
          · exact ⟨n, by simp, Function.update_self _ _ _⟩
          · exact ⟨y, by simp [hy], hhead⟩

/-! ## Removal -/

theorem ends_disconnect :
    Ends (disconnect l n) Q s ↔
      Q () { s with
        prev := updateOf s.prev (s.next n) (s.prev n)
        next := updateOf s.next (s.prev n) (s.next n)
        cursor := if s.cursor l = some n then Function.update s.cursor l (s.next n) else s.cursor
        head := if s.head l = some n then Function.update s.head l (s.next n) else s.head } := by
  simp only [disconnect, ends_bind, ends_gets, ends_setNextOf, ends_setPrevOf, updateOf_self]
  by_cases hc : s.cursor l = some n
  · by_cases hh : s.head l = some n
    · simp [hc, hh, setCursor, setHead, updateOf_self]
    · simp [hc, hh, setCursor, updateOf_self]
  · by_cases hh : s.head l = some n
    · simp [hc, hh, setHead, updateOf_self]
    · simp [hc, hh]

theorem ends_optimizedRemove (h : Holds ring s seq) (hn : n ∈ seq l) :
    Ends (optimizedRemove debug l n)
      (fun _ s' => Holds ring s' (Function.update seq l ((seq l).erase n))) s := by
  have hlist : s.list n = some l := (h.owner l n).mpr hn
  have hnd := h.nodup l
  obtain ⟨xs, ys, hxy⟩ := List.append_of_mem hn
  have hown : ∀ x, x ∈ (seq l).erase n ↔ x ≠ n ∧ x ∈ seq l := fun x => hnd.mem_erase_iff
  have hnd' : ((seq l).erase n).Nodup := hnd.erase n
  have hnxs : n ∉ xs := by
    rw [hxy] at hnd
    exact fun hm => (List.nodup_append.mp hnd).2.2 n hm n (by simp) rfl
  have herase : (seq l).erase n = xs ++ ys := by
    rw [hxy, List.erase_append_right _ hnxs, List.erase_cons_head]
  have hlen : s.len l = xs.length + ys.length + 1 := by
    rw [h.len, hxy, List.length_append, List.length_cons, Nat.add_assoc]
  simp only [optimizedRemove, optimizedRemoveImpl, setList, ends_bind, ends_startOpLog, ends_gets, hlist,
    reduceCtorEq, if_false, ends_debugAssert]
  refine ⟨fun _ => by omega, ?_⟩
  by_cases hone : s.len l = 1
  · obtain ⟨rfl, rfl⟩ : xs = [] ∧ ys = [] :=
      ⟨List.length_eq_zero_iff.mp (by omega), List.length_eq_zero_iff.mp (by omega)⟩
    rw [List.append_nil] at herase
    rw [if_pos hone]
    simp only [ends_bind, setCursor, setHead, ends_store, ends_decLen]
    refine ⟨by omega, h.change (h.owner_erase hn hown) hnd' ?_ ?_ ?_ ?_ ?_ (fun hl => ?_) fun hl => ?_⟩
    · exact fun m hm => Function.update_of_ne hm _ _
    · exact fun m hm => Function.update_of_ne hm _ _
    · exact fun m hm => Function.update_of_ne hm _ _
    · exact fun x _ _ => rfl
    · exact fun x _ _ => rfl
    · rw [herase]
      exact ⟨by simp [hone], Function.update_self _ _ _, Or.inl ⟨rfl, Function.update_self _ _ _⟩, trivial⟩
    · rw [herase]
      exact ⟨by simp [hone], Function.update_self _ _ _, Function.update_self _ _ _, trivial⟩
  · rw [if_neg hone]
    simp only [ends_bind, ends_disconnect, ends_decLen, ends_store]
    refine ⟨by omega, h.change (h.owner_erase hn hown) hnd' ?_ ?_ ?_ ?_ ?_ (fun hl => ?_) fun hl => ?_⟩
    · exact fun m hm => Function.update_of_ne hm _ _
    · intro m hm
      dsimp only
      split
      · exact Function.update_of_ne hm _ _
      · rfl
    · intro m hm
      dsimp only
      split
      · exact Function.update_of_ne hm _ _
      · rfl
    · exact fun x hx _ => updateOf_of_ne fun he => hx ((h.neighbours hn).2 he)
    · exact fun x hx _ => updateOf_of_ne fun he => hx ((h.neighbours hn).1 he)
    · have hr := h.rings l hl
      rw [hxy] at hr hnd
      have hne : ys ++ xs ≠ [] := fun he => by
        have := congrArg List.length he
        rw [List.length_append, List.length_nil] at this
        omega
      rw [herase]
      refine ⟨?_, ?_, ?_, hr.links.remove hnd hne⟩
      · simp [hlen]
      · -- the cursor is the first node of the ring
        cases xs with
        | nil =>
            have hc : s.cursor l = some n := hr.cursor
            have hnext : s.next n = ys.head?.or (some n) := hr.links.2.1
            cases ys with
            | nil => exact absurd rfl hne
            | cons y ys => simp [hc, hnext]
        | cons x xs =>
            have hc : s.cursor l = some x := hr.cursor
            have hxn : x ≠ n := fun he => hnxs (by simp [he])
            simp [hc, hxn]
      · right
        rcases hr.head with ⟨hnil, _⟩ | ⟨y, hy, hhead⟩
        · simp at hnil
        · by_cases hyn : y = n
          · subst hyn
            obtain ⟨z, hz⟩ : ∃ z, (ys ++ xs).head? = some z := ⟨_, List.head?_eq_some_head hne⟩
            have hnext : s.next y = some z := by
              have hturn := ring_append_comm hr.links
              have hn' : s.next y = (ys ++ xs).head?.or (some y) := hturn.2.1
              rw [hn', hz]
              rfl
            have hzm := List.mem_of_head? hz
            refine ⟨z, by simpa [or_comm] using hzm, ?_⟩
            simp [hhead, hnext]
          · refine ⟨y, ?_, ?_⟩
            · simpa [hyn] using hy
            · simp [hhead, hyn]
    · have hr := h.linears l hl
      rw [hxy] at hr hnd
      rw [herase]
      refine ⟨?_, ?_, ?_, hr.links.remove hnd⟩
      · simp [hlen]
      · simp [hr.cursor]
      · cases xs with
        | nil =>
            have hh : s.head l = some n := hr.head
            have hnext : s.next n = ys.head?.or none := hr.links.2.1
            simp [hh, hnext]
        | cons x xs =>
            have hh : s.head l = some x := hr.head
            have hxn : x ≠ n := fun he => hnxs (by simp [he])
            simp [hh, hxn]

/-! ## Null-terminated lists -/

theorem ends_optimizedPopFront_nil (h : Holds ring s seq) (hl : ¬ ring l) (hs : seq l = []) :
    Ends (optimizedPopFront l) (fun r s' => r = none ∧ s' = s) s := by
  have hhead : s.head l = none := by rw [(h.linears l hl).head, hs]; rfl
  simp only [optimizedPopFront, ends_bind, ends_gets, hhead, ends_pure, and_self]

theorem ends_optimizedPopFront {xs : List N} (h : Holds ring s seq) (hl : ¬ ring l) (hs : seq l = n :: xs) :
    Ends (optimizedPopFront l) (fun r s' => r = some n ∧ Holds ring s' (Function.update seq l xs)) s := by
  have hlin := h.linears l hl
  have hnd := h.nodup l
  have hn : n ∈ seq l := by rw [hs]; exact List.mem_cons_self
  have hlen := hlin.len
  have hcursor := hlin.cursor
  rw [hs] at hlin hnd hlen
  obtain ⟨hnxs, hnd'⟩ := List.nodup_cons.mp hnd
  have hhead : s.head l = some n := hlin.head
  obtain ⟨_, hnext, hlinks⟩ := hlin.links
  rw [Option.or_none] at hnext
  have hown : ∀ x, x ∈ xs ↔ x ≠ n ∧ x ∈ seq l := by
    intro x
    rw [hs, List.mem_cons]
    constructor
    · exact fun hx => ⟨ne_of_mem_of_not_mem hx hnxs, Or.inr hx⟩
    · exact fun ⟨hx, hm⟩ => hm.resolve_left hx
  rw [List.length_cons] at hlen
  simp only [optimizedPopFront, setHead, setList, ends_bind, ends_gets, hhead, ends_startOpLog, ends_store,
    ends_setPrevOf, Function.update_self, hcursor, reduceCtorEq, if_false, ends_decLen, ends_pure, true_and]
  refine ⟨by omega, h.change (h.owner_erase hn hown) hnd' ?_ ?_ ?_ ?_ ?_ (absurd · hl) fun _ => ?_⟩
  · exact fun m hm => Function.update_of_ne hm _ _
  · exact fun m hm => rfl
  · exact fun m hm => Function.update_of_ne hm _ _
  · exact fun x hx _ => updateOf_of_ne fun he => hx ((h.neighbours hn).2 he)
  · exact fun x hx _ => rfl
  · refine ⟨?_, hcursor, ?_, ?_⟩
    · simp [hlen]
    · rw [← hnext]
      exact Function.update_self _ _ _
    · rw [hnext]
      exact hlinks.setFirst hnd' none

/-- The links that `insert_front` and `insert_sorted` leave, with the node `n` between `xs` and `ys`. -/
theorem Holds.insertBetween {s' : Lists N L} (h : Holds ring s seq) (xs ys : List N) (hl : ¬ ring l)
    (hn : s.list n = none) (hs : seq l = xs ++ ys)
    (hprev : s'.prev = updateOf (Function.update s.prev n xs.getLast?) ys.head? (some n))
    (hnext : s'.next = updateOf (Function.update s.next n ys.head?) xs.getLast? (some n))
    (hlist : s'.list = Function.update s.list n (some l))
    (hlen : s'.len = Function.update s.len l (s.len l + 1)) (hcursor : s'.cursor = s.cursor)
    (hhead : s'.head = if xs = [] then Function.update s.head l (some n) else s.head) :
    Holds ring s' (Function.update seq l (xs ++ n :: ys)) := by
  have hlin := h.linears l hl
  have hnd := h.nodup l
  have hnl := h.list_eq_none hn l
  have hslen := hlin.len
  have hshead := hlin.head
  have hmem : ∀ {x}, xs.getLast? = some x ∨ ys.head? = some x → x ∈ seq l := by
    rintro x (hx | hx)
    · rw [hs]
      exact List.mem_append_left _ (List.mem_of_getLast? hx)
    · rw [hs]
      exact List.mem_append_right _ (List.mem_of_head? hx)
  have hlinks := hlin.links
  rw [hs] at hlinks hnd hnl hslen hshead
  have hown : ∀ x, x ∈ xs ++ n :: ys ↔ x = n ∨ x ∈ seq l := by
    intro x
    rw [hs]
    simp only [List.mem_append, List.mem_cons]
    exact or_left_comm
  have hnd' : (xs ++ n :: ys).Nodup := by
    rw [List.nodup_middle, List.nodup_cons]
    exact ⟨hnl, hnd⟩
  refine h.change ?_ hnd' ?_ ?_ ?_ ?_ ?_ (absurd · hl) fun _ => ?_
  · rw [hlist]
    exact h.owner_insert hn hown
  · intro m hm
    rw [hlen, Function.update_of_ne hm]
  · intro m _
    rw [hcursor]
  · intro m hm
    rw [hhead]
    split
    · exact Function.update_of_ne hm _ _
    · rfl
  · intro x hx hx'
    rw [hprev, updateOf_of_ne fun he => hx (hmem (Or.inr he)),
      Function.update_of_ne fun he => hx' (by simp [he])]
  · intro x hx hx'
    rw [hnext, updateOf_of_ne fun he => hx (hmem (Or.inl he)),
      Function.update_of_ne fun he => hx' (by simp [he])]
  · refine ⟨?_, ?_, ?_, ?_⟩
    · rw [hlen, Function.update_self, hslen, List.length_append, List.length_append, List.length_cons,
        Nat.add_assoc]
    · rw [hcursor, hlin.cursor]
    · rw [hhead]
      cases xs with
      | nil => exact Function.update_self _ _ _
      | cons x xs => exact hshead
    · rw [hprev, hnext]
      exact hlinks.insert hnd hnl

theorem ends_optimizedInsertFront (h : Holds ring s seq) (hl : ¬ ring l) (hn : s.list n = none) :
    Ends (optimizedInsertFront debug l n)
      (fun _ s' => Holds ring s' (Function.update seq l (n :: seq l))) s := by
  have hlin := h.linears l hl
  have hhead := hlin.head
  simp only [optimizedInsertFront, connectFront, setPrev, setNext, setList, ends_bind, ends_startOpLog,
    ends_gets, hn, ends_debugAssert, implies_true, ends_store, true_and, hhead]
  cases hs : seq l with
  | nil =>
      simp only [List.head?_nil, setHead, ends_store]
      exact h.insertBetween [] [] hl hn hs rfl rfl rfl rfl rfl rfl
  | cons x xs =>
      simp only [List.head?_cons, setHead, ends_bind, ends_gets, hhead, hs, ends_store, ends_incLen]
      refine h.insertBetween [] (x :: xs) hl hn hs rfl ?_ rfl rfl rfl rfl
      exact Function.update_idem _ _ _

omit [DecidableEq N] [DecidableEq L] in
/-- Where the loop of `insert_sorted` stops: `gt` holds of the nodes before that place, and not of the one
after it. -/
theorem ends_findSorted {gt : N → Bool} {fuel : Nat} {p : Option N} {node : N} {xs : List N}
    (h : Linked s.prev s.next p (node :: xs) none) (hf : xs.length < fuel) :
    Ends (findSorted gt fuel node)
      (fun r s' => s' = s ∧ ∃ ys zs, node :: xs = ys ++ zs ∧ (∀ y ∈ ys, gt y) ∧
        ((r.2 = true ∧ zs = [] ∧ ys.getLast? = some r.1) ∨
          (r.2 = false ∧ zs.head? = some r.1 ∧ gt r.1 = false))) s := by
  induction fuel generalizing p node xs with
  | zero => exact absurd hf (Nat.not_lt_zero _)
  | succ fuel ih =>
      obtain ⟨_, hnext, hlinks⟩ := h
      rw [Option.or_none] at hnext
      unfold findSorted
      by_cases hgt : gt node = true
      · rw [if_pos hgt]
        simp only [ends_bind, ends_gets, hnext]
        cases xs with
        | nil =>
            simp only [List.head?_nil, ends_pure]
            exact ⟨trivial, [node], [], rfl, by simpa using hgt, Or.inl ⟨trivial, rfl, rfl⟩⟩
        | cons x xs =>
            simp only [List.head?_cons]
            refine (ih hlinks (Nat.lt_of_succ_lt_succ hf)).mono ?_
            rintro r s' ⟨rfl, ys, zs, hxs, hys, hr⟩
            refine ⟨rfl, node :: ys, zs, by rw [hxs, List.cons_append], ?_, ?_⟩
            · intro y hy
              rcases List.mem_cons.mp hy with rfl | hy
              · exact hgt
              · exact hys y hy
            · refine hr.imp_left ?_
              rintro ⟨h1, h2, h3⟩
              refine ⟨h1, h2, ?_⟩
              rw [List.getLast?_cons, h3]
              rfl
      · rw [if_neg hgt, ends_pure]
        exact ⟨rfl, [], node :: xs, rfl, by simp, Or.inr ⟨rfl, rfl, by simpa using hgt⟩⟩

/-- The new node goes between the nodes it is greater than and the first it is not greater than. -/
theorem ends_optimizedInsertSorted {gt : N → Bool} {fuel : Nat} (h : Holds ring s seq) (hl : ¬ ring l)
    (hn : s.list n = none) (hf : (seq l).length ≤ fuel) :
    Ends (optimizedInsertSorted debug fuel gt l n)
      (fun _ s' => ∃ xs ys, seq l = xs ++ ys ∧ (∀ x ∈ xs, gt x) ∧ (∀ y, ys.head? = some y → gt y = false) ∧
        Holds ring s' (Function.update seq l (xs ++ n :: ys))) s := by
  have hlin := h.linears l hl
  have hhead := hlin.head
  have hnl := h.list_eq_none hn l
  simp only [optimizedInsertSorted, optimizedInsertSortedImpl, setPrev, setNext, setList, setHead, ends_bind,
    ends_gets, hn, ends_debugAssert, implies_true, ends_store, true_and, hhead]
  cases hs : seq l with
  | nil =>
      simp only [List.head?_nil, ends_bind, ends_store, ends_incLen]
      exact ⟨[], [], rfl, by simp, by simp,
        h.insertBetween [] [] hl hn hs rfl rfl rfl rfl rfl rfl⟩
  | cons x xs =>
      simp only [List.head?_cons, ends_bind]
      have hlinks := hlin.links
      rw [hs] at hlinks hnl hf
      have hne : ∀ y ∈ x :: xs, y ≠ n := fun y hy => ne_of_mem_of_not_mem hy hnl
      refine (ends_findSorted (hlinks.congr ?_ ?_) (Nat.lt_of_succ_le hf)).mono ?_
      · exact fun y hy => Function.update_of_ne (hne y hy) _ _
      · exact fun y hy => Function.update_of_ne (hne y hy) _ _
      rintro ⟨node, atEnd⟩ s' ⟨rfl, ys, zs, hyz, hys, hr⟩
      rw [hyz] at hs
      rcases hr with ⟨hend, rfl, hlast⟩ | ⟨hend, hfirst, hnode⟩
      · dsimp only at hend hlast
        subst hend
        simp only [if_true, ends_bind, ends_store, ends_incLen]
        refine ⟨ys, [], hyz, hys, by simp, h.insertBetween _ _ hl hn hs ?_ ?_ rfl rfl rfl ?_⟩
        · rw [hlast]
          exact Function.update_idem _ _ _
        · rw [hlast, List.head?_nil]
          dsimp only
          rw [Function.update_idem]
          rfl
        · rw [if_neg]
          rintro rfl
          cases hlast
      · dsimp only at hend hfirst hnode
        subst hend
        have hlist := hlinks
        rw [hyz] at hlist
        obtain ⟨zs', rfl⟩ : ∃ zs', zs = node :: zs' := ⟨_, List.eq_cons_of_mem_head? hfirst⟩
        have hprev : s.prev node = ys.getLast? := by
          have hp := (linked_append.mp hlist).2.1
          rwa [Option.or_none] at hp
        have hnn : node ≠ n := hne node (by rw [hyz]; simp)
        simp only [Bool.false_eq_true, if_false, ends_bind, ends_store, ends_gets,
          Function.update_of_ne hnn, Function.update_of_ne hnn.symm, Function.update_self, hprev]
        refine Ends.mono (Q := fun _ s' => Holds ring s' (Function.update seq l (ys ++ n :: node :: zs')))
          ?_ fun _ s' h' => ⟨ys, node :: zs', hyz, hys, fun y hy => ?_, h'⟩
        · cases hlast : ys.getLast? with
          | none =>
              simp only [ends_bind, ends_store, ends_incLen]
              refine h.insertBetween _ _ hl hn hs ?_ ?_ rfl rfl rfl ?_
              · dsimp only
                rw [Function.update_idem, hlast]
                rfl
              · dsimp only
                rw [Function.update_idem, hlast]
                rfl
              · rw [if_pos (List.getLast?_eq_none_iff.mp hlast)]
          | some z =>
              simp only [ends_bind, ends_store, ends_incLen]
              refine h.insertBetween _ _ hl hn hs ?_ ?_ rfl rfl rfl ?_
              · dsimp only
                rw [Function.update_idem, hlast]
                rfl
              · dsimp only
                rw [Function.update_idem, hlast]
                rfl
              · rw [if_neg]
                rintro rfl
                cases hlast
        · rw [hfirst] at hy
          cases hy
          exact hnode

/-- The log has no part in the insertion. -/
theorem ends_insertSorted {gt : N → Bool} {op : ListOpCode} {fuel : Nat} (h : Holds ring s seq)
    (hl : ¬ ring l) (hn : s.list n = none) (hf : (seq l).length ≤ fuel) :
    Ends (insertSorted debug op fuel gt l n)
      (fun _ s' => ∃ xs ys, seq l = xs ++ ys ∧ (∀ x ∈ xs, gt x) ∧ (∀ y, ys.head? = some y → gt y = false) ∧
        Holds ring s' (Function.update seq l (xs ++ n :: ys))) s := by
  unfold insertSorted
  rw [ends_bind, ends_startOpLog]
  exact ends_optimizedInsertSorted (h.setMicroOpOldLen _) hl hn hf

/-! ## Moving the cursor -/

omit [DecidableEq N] in
theorem ends_nextItem (h : Holds ring s seq) (hl : ring l) {xs : List N} (hs : seq l = n :: xs) :
    Ends (nextItem l) (fun r s' => r = (xs ++ [n]).head? ∧
      Holds ring s' (Function.update seq l (xs ++ [n]))) s := by
  have hr := h.rings l hl
  have hnd := h.nodup l
  have hrlen := hr.len
  have hrhead := hr.head
  have hlinks := hr.links
  rw [hs] at hlinks hnd hrlen hrhead
  have hcursor : s.cursor l = some n := by rw [hr.cursor, hs]; rfl
  have hnext : s.next n = (xs ++ [n]).head? := by
    rw [hlinks.2.1, List.head?_append]
    rfl
  have hown : ∀ m x, s.list x = some m ↔ x ∈ Function.update seq l (xs ++ [n]) m := by
    intro m x
    rw [h.owner]
    by_cases hm : m = l
    · subst hm
      rw [Function.update_self, hs]
      simp [or_comm]
    · rw [Function.update_of_ne hm]
  simp only [nextItem, setCursor, ends_bind, ends_gets, hcursor, ends_store, Function.update_self]
  refine ⟨hnext, h.change hown ?_ ?_ ?_ ?_ ?_ ?_ (fun _ => ?_) (absurd hl)⟩
  · exact (List.perm_append_comm : ([n] ++ xs).Perm (xs ++ [n])).nodup_iff.mp hnd
  · exact fun m _ => rfl
  · exact fun m hm => Function.update_of_ne hm _ _
  · exact fun m _ => rfl
  · exact fun x _ _ => rfl
  · exact fun x _ _ => rfl
  · refine ⟨?_, ?_, ?_, ring_append_comm (show Ring _ _ ([n] ++ xs) from hlinks)⟩
    · rw [hrlen]
      simp
    · rw [← hnext]
      exact Function.update_self _ _ _
    · rcases hrhead with ⟨hnil, _⟩ | ⟨y, hy, hh⟩
      · cases hnil
      · exact Or.inr ⟨y, by simpa [or_comm] using hy, hh⟩

/-! ## Where the nodes are -/

/-- Some sequences of nodes are what the lists hold, and that of the list `d` is sorted. -/
def WellLinked (ring : L → Prop) (d : L) (le : N → N → Prop) (s : Lists N L) : Prop :=
  ∃ seq, Holds ring s seq ∧ (seq d).Pairwise le

variable {d : L} {le : N → N → Prop}

omit [DecidableEq N] [DecidableEq L] in
theorem Holds.list_eq {s' : Lists N L} {list : N → Option L} {seq' : L → List N} (h : Holds ring s' seq')
    (hown : ∀ m x, list x = some m ↔ x ∈ seq' m) : s'.list = list :=
  funext fun x => Option.ext fun m => (h.owner m x).trans (hown m x).symm

omit [DecidableEq N] in
theorem pairwise_update {ys : List N} (hs : (seq d).Pairwise le) (hys : l = d → ys.Pairwise le) :
    (Function.update seq l ys d).Pairwise le := by
  by_cases hd : d = l
  · rw [hd, Function.update_self]
    exact hys hd.symm
  · rwa [Function.update_of_ne hd]

theorem Holds.list_insert {s' : Lists N L} {ys : List N} (h : Holds ring s seq) (hd : (seq d).Pairwise le)
    (hn : s.list n = none) (h' : Holds ring s' (Function.update seq l ys)) (hys : ∀ x, x ∈ ys ↔ x = n ∨ x ∈ seq l)
    (hsorted : l = d → ys.Pairwise le) :
    WellLinked ring d le s' ∧ s'.list = Function.update s.list n (some l) :=
  ⟨⟨_, h', pairwise_update hd hsorted⟩, h'.list_eq (h.owner_insert hn hys)⟩

theorem Holds.list_erase {s' : Lists N L} {ys : List N} (h : Holds ring s seq) (hd : (seq d).Pairwise le)
    (hn : n ∈ seq l) (h' : Holds ring s' (Function.update seq l ys)) (hsub : ys.Sublist (seq l))
    (hys : ∀ x, x ∈ ys ↔ x ≠ n ∧ x ∈ seq l) :
    WellLinked ring d le s' ∧ s'.list = Function.update s.list n none :=
  ⟨⟨_, h', pairwise_update hd fun he => List.Pairwise.sublist hsub (he ▸ hd)⟩,
    h'.list_eq (h.owner_erase hn hys)⟩

theorem WellLinked.insertBeforeCursor (h : WellLinked ring d le s) (hl : ring l) (hd : ¬ ring d)
    (hn : s.list n = none) :
    Ends (optimizedInsertBeforeCursor l n)
      (fun _ s' => WellLinked ring d le s' ∧ s'.list = Function.update s.list n (some l)) s := by
  obtain ⟨seq, h, hsorted⟩ := h
  exact (ends_optimizedInsertBeforeCursor h hl hn).mono fun _ s' h' =>
    h.list_insert hsorted hn h' (fun x => by simp [or_comm]) fun he => absurd hl (he ▸ hd)

theorem WellLinked.remove (h : WellLinked ring d le s) (hn : s.list n = some l) :
    Ends (optimizedRemove debug l n)
      (fun _ s' => WellLinked ring d le s' ∧ s'.list = Function.update s.list n none) s := by
  obtain ⟨seq, h, hsorted⟩ := h
  have hm := (h.owner l n).mp hn
  exact (ends_optimizedRemove h hm).mono fun _ s' h' =>
    h.list_erase hsorted hm h' List.erase_sublist fun x => (h.nodup l).mem_erase_iff

theorem WellLinked.popFront (h : WellLinked ring d le s) (hl : ¬ ring l) :
    Ends (optimizedPopFront l)
      (fun r s' => (r = none ∧ s' = s ∧ s.head l = none ∧ ∀ n, s.list n ≠ some l) ∨
        ∃ n, r = some n ∧ s.head l = some n ∧ s.list n = some l ∧
          WellLinked ring d le s' ∧ s'.list = Function.update s.list n none) s := by
  obtain ⟨seq, h, hsorted⟩ := h
  cases hs : seq l with
  | nil =>
      refine (ends_optimizedPopFront_nil h hl hs).mono fun _ _ h' => Or.inl ⟨h'.1, h'.2, ?_, fun n hn => ?_⟩
      · rw [(h.linears l hl).head, hs]
        rfl
      · rw [h.owner, hs] at hn
        cases hn
  | cons n xs =>
      have hn : n ∈ seq l := by rw [hs]; exact List.mem_cons_self
      have hhead : s.head l = some n := by rw [(h.linears l hl).head, hs]; rfl
      have hnd := h.nodup l
      rw [hs] at hnd
      have hsub : xs.Sublist (seq l) := by rw [hs]; exact List.sublist_cons_self n xs
      refine (ends_optimizedPopFront h hl hs).mono ?_
      rintro r s' ⟨rfl, h'⟩
      refine Or.inr ⟨n, rfl, hhead, (h.owner l n).mpr hn, h.list_erase hsorted hn h' hsub fun x => ?_⟩
      rw [hs, List.mem_cons]
      constructor
      · exact fun hx => ⟨ne_of_mem_of_not_mem hx (List.nodup_cons.mp hnd).1, Or.inr hx⟩
      · exact fun ⟨hx, hm⟩ => hm.resolve_left hx

theorem WellLinked.insertFront (h : WellLinked ring d le s) (hl : ¬ ring l) (hd : l ≠ d) (hn : s.list n = none) :
    Ends (optimizedInsertFront debug l n)
      (fun _ s' => WellLinked ring d le s' ∧ s'.list = Function.update s.list n (some l)) s := by
  obtain ⟨seq, h, hsorted⟩ := h
  exact (ends_optimizedInsertFront h hl hn).mono fun _ s' h' =>
    h.list_insert hsorted hn h' (fun x => List.mem_cons) fun he => absurd he hd

omit [DecidableEq N] [DecidableEq L] in
/-- Where the search stops, the new node keeps the order. -/
theorem pairwise_insert {gt : N → Bool} {xs ys : List N} (htrans : ∀ x y z, le x y → le y z → le x z)
    (hgt : ∀ x, gt x = true → le x n) (hle : ∀ y, gt y = false → le n y) (hs : (xs ++ ys).Pairwise le)
    (hxs : ∀ x ∈ xs, gt x) (hys : ∀ y, ys.head? = some y → gt y = false) : (xs ++ n :: ys).Pairwise le := by
  obtain ⟨h1, h2, h3⟩ := List.pairwise_append.mp hs
  have hny : ∀ y ∈ ys, le n y := by
    cases ys with
    | nil => exact nofun
    | cons z zs =>
        have hz := hle z (hys z rfl)
        intro y hy
        rcases List.mem_cons.mp hy with rfl | hy
        · exact hz
        · exact htrans _ _ _ hz ((List.pairwise_cons.mp h2).1 y hy)
  refine List.pairwise_append.mpr ⟨h1, List.pairwise_cons.mpr ⟨hny, h2⟩, fun x hx y hy => ?_⟩
  rcases List.mem_cons.mp hy with rfl | hy
  · exact hgt x (hxs x hx)
  · exact h3 x hx y hy

/-- `fuel` suffices if it bounds the nodes of the list. -/
theorem WellLinked.insertSorted {gt : N → Bool} {op : ListOpCode} {fuel : Nat} (h : WellLinked ring d le s)
    (hl : ¬ ring l) (hn : s.list n = none)
    (hd : l = d → (∀ x y z, le x y → le y z → le x z) ∧ (∀ x, gt x = true → le x n) ∧
      ∀ y, gt y = false → le n y)
    (hf : ∀ xs : List N, xs.Nodup → (∀ x ∈ xs, s.list x = some l) → xs.length ≤ fuel) :
    Ends (Lists.insertSorted debug op fuel gt l n)
      (fun _ s' => WellLinked ring d le s' ∧ s'.list = Function.update s.list n (some l)) s := by
  obtain ⟨seq, h, hsorted⟩ := h
  refine (ends_insertSorted h hl hn (hf _ (h.nodup l) fun x hx => (h.owner l x).mpr hx)).mono ?_
  rintro _ s' ⟨xs, ys, hs, hxs, hys, h'⟩
  refine h.list_insert hsorted hn h' (fun x => ?_) fun he => ?_
  · rw [hs]
    simp only [List.mem_append, List.mem_cons]
    exact or_left_comm
  · obtain ⟨htrans, hgt, hle⟩ := hd he
    subst he
    rw [hs] at hsorted
    exact pairwise_insert htrans hgt hle hsorted hxs hys

omit [DecidableEq N] [DecidableEq L] in
/-- The links of nodes in no list do not matter. -/
theorem WellLinked.frame {s' : Lists N L} (h : WellLinked ring d le s) (hlist : s'.list = s.list)
    (hlen : s'.len = s.len) (hcursor : s'.cursor = s.cursor) (hhead : s'.head = s.head)
    (hprev : ∀ n, s.list n ≠ none → s'.prev n = s.prev n)
    (hnext : ∀ n, s.list n ≠ none → s'.next n = s.next n) : WellLinked ring d le s' := by
  obtain ⟨seq, h, hsorted⟩ := h
  exact ⟨seq, h.frame hlist hlen hcursor hhead hprev hnext, hsorted⟩

omit [DecidableEq N] [DecidableEq L] in
theorem WellLinked.setMicroOpOldLen (h : WellLinked ring d le s) (v : Nat) :
    WellLinked ring d le { s with microOpOldLen := v } :=
  h.frame rfl rfl rfl rfl (fun _ _ => rfl) fun _ _ => rfl

omit [DecidableEq N] [DecidableEq L] in
/-- An order that agrees on the nodes of the sorted list. -/
theorem WellLinked.reorder {le' : N → N → Prop} (h : WellLinked ring d le s)
    (hle : ∀ x y, s.list x = some d → s.list y = some d → le x y → le' x y) : WellLinked ring d le' s := by
  obtain ⟨seq, h, hsorted⟩ := h
  refine ⟨seq, h, List.Pairwise.imp_of_mem ?_ hsorted⟩
  intro x y hx hy
  exact hle x y ((h.owner d x).mpr hx) ((h.owner d y).mpr hy)

omit [DecidableEq N] [DecidableEq L] in
/-- The head of the sorted list comes first. -/
theorem WellLinked.head_le (h : WellLinked ring d le s) (hd : ¬ ring d) (hrefl : ∀ x, le x x) {m : N}
    (hn : s.list n = some d) (hhead : s.head d = some m) : le m n := by
  obtain ⟨seq, h, hsorted⟩ := h
  have hm := (h.linears d hd).head
  rw [hhead] at hm
  obtain ⟨xs, hxs⟩ : ∃ xs, seq d = m :: xs := ⟨_, List.eq_cons_of_mem_head? hm.symm⟩
  rw [h.owner, hxs] at hn
  rw [hxs] at hsorted
  rcases List.mem_cons.mp hn with rfl | hn
  · exact hrefl n
  · exact (List.pairwise_cons.mp hsorted).1 n hn

omit [DecidableEq N] [DecidableEq L] in
theorem WellLinked.head_none (h : WellLinked ring d le s) (hl : ¬ ring l) (hhead : s.head l = none) :
    s.list n ≠ some l := by
  obtain ⟨seq, h, _⟩ := h
  have hnil := (h.linears l hl).head
  rw [hhead] at hnil
  rw [Ne, h.owner, List.head?_eq_none_iff.mp hnil.symm]
  exact List.not_mem_nil

omit [DecidableEq L] in
theorem WellLinked.resetNode (h : WellLinked ring d le s) (hn : s.list n = none) :
    Ends (Lists.resetNode n) (fun _ s' => WellLinked ring d le s' ∧ s'.list = s.list ∧
      s'.microOpOldLen = s.microOpOldLen) s := by
  have hne : ∀ m, s.list m ≠ none → m ≠ n := by
    rintro m hm rfl
    exact hm hn
  have hlist : Function.update s.list n none = s.list := by rw [← hn, Function.update_eq_self]
  simp only [Lists.resetNode, setPrev, setNext, setList, ends_bind, ends_store]
  refine ⟨h.frame hlist rfl rfl rfl (fun m hm => ?_) fun m hm => ?_, hlist, trivial⟩
  · exact Function.update_of_ne (hne m hm) _ _
  · exact Function.update_of_ne (hne m hm) _ _

omit [DecidableEq N] [DecidableEq L] in
theorem WellLinked.list_of_cursor (h : WellLinked ring d le s) (hl : ring l) (hc : s.cursor l = some n) :
    s.list n = some l := by
  obtain ⟨seq, h, _⟩ := h
  have hcursor := (h.rings l hl).cursor
  rw [hc] at hcursor
  exact (h.owner l n).mpr (List.mem_of_head? hcursor.symm)

omit [DecidableEq N] [DecidableEq L] in
/-- The next node of a ring is in it. -/
theorem WellLinked.list_of_peekNext (h : WellLinked ring d le s) (hl : ring l) (hn : peekNext s l = some n) :
    ∃ c, s.cursor l = some c ∧ s.next c = some n ∧ s.list n = some l := by
  obtain ⟨seq, h, _⟩ := h
  unfold peekNext at hn
  cases hc : s.cursor l with
  | none =>
      rw [hc] at hn
      cases hn
  | some c =>
      rw [hc] at hn
      have hcursor := (h.rings l hl).cursor
      rw [hc] at hcursor
      have hmem : c ∈ seq l := List.mem_of_head? hcursor.symm
      exact ⟨c, rfl, hn, (h.owner l n).mpr ((h.neighbours hmem).2 hn)⟩

omit [DecidableEq N] in
theorem WellLinked.nextItem (h : WellLinked ring d le s) (hl : ring l) (hd : ¬ ring d) {c : N}
    (hc : s.cursor l = some c) :
    Ends (Lists.nextItem l)
      (fun r s' => r = s.next c ∧ WellLinked ring d le s' ∧ s'.list = s.list ∧
        s'.cursor = Function.update s.cursor l (s.next c) ∧ s'.next = s.next ∧
        s'.microOpOldLen = s.microOpOldLen) s := by
  obtain ⟨seq, h, hsorted⟩ := h
  have hcursor := (h.rings l hl).cursor
  rw [hc] at hcursor
  obtain ⟨xs, hxs⟩ : ∃ xs, seq l = c :: xs := ⟨_, List.eq_cons_of_mem_head? hcursor.symm⟩
  have hnext := ends_nextItem h hl hxs
  simp only [Lists.nextItem, setCursor, ends_bind, ends_gets, hc, ends_store, Function.update_self] at hnext ⊢
  exact ⟨trivial, ⟨_, hnext.2, pairwise_update hsorted fun he => absurd hl (he ▸ hd)⟩, trivial, trivial,
    trivial, trivial⟩

end Lists

end IntOS
