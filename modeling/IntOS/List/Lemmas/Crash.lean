import IntOS.List.Lemmas.Ops

/-!
# Power failures during list operations

An operation logs its code and the old length, then makes its stores. For each operation, `…ing` says which
stores a failure can find done, and recovery from any such state ends in the very state that the whole
operation leaves.
-/

namespace IntOS

open Persist Persist.Prog Chain

variable {N L : Type}

namespace Lists

variable {s c : Lists N L} {l : L} {n : N} {debug : Bool} {E : Prop} {C : Lists N L → Prop}
  {Q : Unit → Lists N L → Prop}

section
variable [DecidableEq N]

theorem wpc_setNextOf {ptr v : Option N} (hC : C s) (hC' : C { s with next := updateOf s.next ptr v })
    (hQ : Q () { s with next := updateOf s.next ptr v }) : wpc (setNextOf ptr v) Q E C s := by
  cases ptr with
  | none => exact wpc_pure hC hQ
  | some p => exact wpc_store hC hC' hQ

theorem wpc_setPrevOf {ptr v : Option N} (hC : C s) (hC' : C { s with prev := updateOf s.prev ptr v })
    (hQ : Q () { s with prev := updateOf s.prev ptr v }) : wpc (setPrevOf ptr v) Q E C s := by
  cases ptr with
  | none => exact wpc_pure hC hQ
  | some p => exact wpc_store hC hC' hQ

end

/-- What `start_op_log` leaves. -/
def logged (s : Lists N L) (op : ListOpCode) (l : L) : Lists N L :=
  { s with microOpOldLen := microOpOldLenOf op (s.len l) }

variable [DecidableEq N] [DecidableEq L]

/-! ## Removal -/

/-- What the removal of `n` leaves, where the list keeps other nodes or is null-terminated. -/
def removed (s : Lists N L) (l : L) (n : N) : Lists N L :=
  { s with
    prev := updateOf s.prev (s.next n) (s.prev n)
    next := updateOf s.next (s.prev n) (s.next n)
    cursor := if s.cursor l = some n then Function.update s.cursor l (s.next n) else s.cursor
    head := if s.head l = some n then Function.update s.head l (s.next n) else s.head
    len := Function.update s.len l (s.len l - 1)
    list := Function.update s.list n none }

/-- Some stores of the removal are done; that of `list` comes last. -/
structure Removing (s : Lists N L) (l : L) (n : N) (c : Lists N L) : Prop where
  prev : c.prev = s.prev ∨ c.prev = (removed s l n).prev
  next : c.next = s.next ∨ c.next = (removed s l n).next
  cursor : c.cursor = s.cursor ∨ c.cursor = (removed s l n).cursor
  head : c.head = s.head ∨ c.head = (removed s l n).head
  len : c.len = s.len ∨ c.len = (removed s l n).len
  list : c.list = s.list ∨ c = removed s l n
  microOpOldLen : c.microOpOldLen = s.microOpOldLen

theorem Removing.start (s : Lists N L) (l : L) (n : N) : Removing s l n s :=
  ⟨Or.inl rfl, Or.inl rfl, Or.inl rfl, Or.inl rfl, Or.inl rfl, Or.inl rfl, rfl⟩

theorem Removing.finish (s : Lists N L) (l : L) (n : N) : Removing s l n (removed s l n) :=
  ⟨Or.inr rfl, Or.inr rfl, Or.inr rfl, Or.inr rfl, Or.inr rfl, Or.inr rfl, rfl⟩

/-- The fields `list` of other nodes stay. -/
theorem Removing.list_of_ne {x : N} (h : Removing s l n c) (hx : x ≠ n) : c.list x = s.list x := by
  rcases h.list with hl | rfl
  · rw [hl]
  · exact Function.update_of_ne hx none s.list

theorem updateOf_idem {α : Type} (f : N → α) (o : Option N) (v : α) :
    updateOf (updateOf f o v) o v = updateOf f o v := by
  cases o with
  | none => rfl
  | some x => exact Function.update_idem _ _ _

/-- A pointer that the removal moves off `n` is moved once. -/
theorem moved_off {f g : L → Option N} {v : Option N} (hv : v ≠ some n)
    (hg : g = f ∨ g = if f l = some n then Function.update f l v else f) :
    (if g l = some n then Function.update g l v else g) = if f l = some n then Function.update f l v else f := by
  rcases hg with rfl | rfl
  · rfl
  · by_cases hf : f l = some n
    · simp [hf, hv]
    · simp [hf]

/-- The length after recovery is what the log says. -/
theorem Removing.recover {oldLen : Nat} (h : Removing s l n c) (hnext : s.next n ≠ some n) (hlen : 0 < oldLen) :
    Ends (recoverFromFailedRemove l n oldLen) (fun _ r =>
      r = { removed s l n with len := Function.update s.len l (oldLen - 1) }) c := by
  obtain ⟨hp, hx, hc, hh, hl, hi, hm⟩ := h
  have hpn : c.prev n = s.prev n := by
    rcases hp with hp | hp
    · rw [hp]
    · rw [hp]
      exact updateOf_self _ _ _
  have hxn : c.next n = s.next n := by
    rcases hx with hx | hx
    · rw [hx]
    · rw [hx]
      exact updateOf_self _ _ _
  have hprev : updateOf c.prev (s.next n) (s.prev n) = (removed s l n).prev := by
    rcases hp with hp | hp
    · rw [hp]
      rfl
    · rw [hp]
      exact updateOf_idem _ _ _
  have hnext' : updateOf c.next (s.prev n) (s.next n) = (removed s l n).next := by
    rcases hx with hx | hx
    · rw [hx]
      rfl
    · rw [hx]
      exact updateOf_idem _ _ _
  have hlen' : Function.update c.len l (oldLen - 1) = Function.update s.len l (oldLen - 1) := by
    rcases hl with hl | hl
    · rw [hl]
    · rw [hl]
      exact Function.update_idem _ _ _
  have hlist : Function.update c.list n none = (removed s l n).list := by
    rcases hi with hi | hi
    · rw [hi]
      rfl
    · rw [hi]
      exact Function.update_idem _ _ _
  simp only [recoverFromFailedRemove, setLen, setList, ends_bind, ends_disconnect, ends_check, ends_store]
  refine ⟨hlen, ?_⟩
  rw [hpn, hxn, hprev, hnext', hlen', hlist, hm, moved_off hnext hc, moved_off hnext hh]
  rfl

theorem wpc_disconnect (h₀ : C s) (h₁ : C { s with next := (removed s l n).next })
    (h₂ : C { s with prev := (removed s l n).prev, next := (removed s l n).next })
    (h₃ : C { s with
      prev := (removed s l n).prev, next := (removed s l n).next, cursor := (removed s l n).cursor })
    (h₄ : C { s with
      prev := (removed s l n).prev, next := (removed s l n).next, cursor := (removed s l n).cursor
      head := (removed s l n).head })
    (hQ : Q () { s with
      prev := (removed s l n).prev, next := (removed s l n).next, cursor := (removed s l n).cursor
      head := (removed s l n).head }) : wpc (disconnect l n) Q E C s := by
  have hx : (removed s l n).next n = s.next n := updateOf_self _ _ _
  have hhead : ∀ {cursor : L → Option N}, cursor = (removed s l n).cursor →
      wpc (do
        let head ← gets (·.head l)
        if head = some n then do
          let q ← gets (·.next n)
          setHead l q) Q E C
        { s with prev := (removed s l n).prev, next := (removed s l n).next, cursor := cursor } := by
    rintro cursor rfl
    refine wpc_bind (wpc_gets h₃ ?_)
    by_cases hn : s.head l = some n
    · have he : (removed s l n).head = Function.update s.head l (s.next n) := if_pos hn
      rw [if_pos hn]
      rw [he] at h₄ hQ
      refine wpc_bind (wpc_gets h₃ ?_)
      dsimp only
      rw [hx]
      exact wpc_store h₃ h₄ hQ
    · have he : (removed s l n).head = s.head := if_neg hn
      rw [if_neg hn]
      rw [he] at hQ
      exact wpc_pure h₃ hQ
  unfold disconnect
  refine wpc_bind (wpc_gets h₀ (wpc_bind (wpc_gets h₀ ?_)))
  refine wpc_bind (wpc_setNextOf h₀ h₁ (wpc_bind (wpc_gets h₁ (wpc_bind (wpc_gets h₁ ?_)))))
  have hx' : updateOf s.next (s.prev n) (s.next n) n = s.next n := updateOf_self _ _ _
  dsimp only
  rw [hx']
  refine wpc_bind (wpc_setPrevOf h₁ h₂ (wpc_bind (wpc_gets h₂ ?_)))
  by_cases hn : s.cursor l = some n
  · have he : (removed s l n).cursor = Function.update s.cursor l (s.next n) := if_pos hn
    rw [if_pos hn]
    refine wpc_bind (wpc_gets h₂ ?_)
    dsimp only
    rw [hx']
    rw [he] at h₃
    exact wpc_bind (wpc_store h₂ h₃ (hhead he.symm))
  · have he : (removed s l n).cursor = s.cursor := if_neg hn
    rw [if_neg hn]
    exact hhead he.symm

omit [DecidableEq N] [DecidableEq L] in
theorem wpc_startOpLog {op : ListOpCode} (hC : C s) (hC' : C (logged s op l)) (hQ : Q () (logged s op l)) :
    wpc (startOpLog op l) Q E C s := wpc_bind (wpc_gets hC (wpc_store hC hC' hQ))

omit [DecidableEq N] in
theorem wpc_decLen (hC : C s) (hlen : 0 < s.len l) (hC' : C { s with len := Function.update s.len l (s.len l - 1) })
    (hQ : Q () { s with len := Function.update s.len l (s.len l - 1) }) : wpc (decLen l) Q E C s :=
  wpc_bind (wpc_gets hC (wpc_bind (wpc_check hC (absurd hlen) fun _ => wpc_store hC hC' hQ)))

omit [DecidableEq N] in
theorem wpc_incLen (hC : C s) (hC' : C { s with len := Function.update s.len l (s.len l + 1) })
    (hQ : Q () { s with len := Function.update s.len l (s.len l + 1) }) : wpc (incLen l) Q E C s :=
  wpc_bind (wpc_gets hC (wpc_store hC hC' hQ))

/-- The last node of a null-terminated list. -/
def Lone (s : Lists N L) (l : L) (n : N) : Prop :=
  s.prev n = none ∧ s.next n = none ∧ s.cursor l = none ∧ s.head l = some n

theorem wpc_optimizedRemoveImpl (hlist : s.list n ≠ none) (hlen : 0 < s.len l)
    (hone : s.len l = 1 → Lone s l n) :
    wpc (optimizedRemoveImpl debug l n) (fun _ r => r = removed s l n) E (Removing s l n) s := by
  have h₀ := Removing.start s l n
  have hend : ∀ {c : Lists N L}, c = { removed s l n with len := s.len, list := s.list } →
      wpc (do
        decLen l
        setList n none) (fun _ r => r = removed s l n) E (Removing s l n) c := by
    rintro _ rfl
    have h₁ : Removing s l n { removed s l n with len := s.len, list := s.list } :=
      ⟨Or.inr rfl, Or.inr rfl, Or.inr rfl, Or.inr rfl, Or.inl rfl, Or.inl rfl, rfl⟩
    have h₂ : Removing s l n { removed s l n with list := s.list } :=
      ⟨Or.inr rfl, Or.inr rfl, Or.inr rfl, Or.inr rfl, Or.inr rfl, Or.inl rfl, rfl⟩
    have h₃ := Removing.finish s l n
    exact wpc_bind (wpc_decLen h₁ hlen h₂ (wpc_store h₂ h₃ rfl))
  unfold optimizedRemoveImpl
  refine wpc_bind (wpc_gets h₀ ?_)
  rw [if_neg hlist]
  refine wpc_bind (wpc_gets h₀ (wpc_bind (wpc_check h₀ (fun hne => absurd (fun _ => hlen) hne) fun _ => ?_)))
  split
  case isTrue h1 =>
    obtain ⟨hp, hx, hc, hh⟩ := hone h1
    have hcur : Function.update s.cursor l none = s.cursor := by rw [← hc, Function.update_eq_self]
    have hhead : Function.update s.head l none = (removed s l n).head := by
      simp only [removed, hh, hx, if_true]
    have h₂ : Removing s l n { s with cursor := s.cursor, head := (removed s l n).head } :=
      ⟨Or.inl rfl, Or.inl rfl, Or.inl rfl, Or.inr rfl, Or.inl rfl, Or.inl rfl, rfl⟩
    have hlast : { s with cursor := s.cursor, head := (removed s l n).head } =
        { removed s l n with len := s.len, list := s.list } := by
      simp [removed, hp, hx, hc, updateOf]
    rw [← hcur, ← hhead] at h₂ hlast
    have h₁ : Removing s l n { s with cursor := Function.update s.cursor l none } := by
      rw [hcur]
      exact h₀
    exact wpc_bind (wpc_store h₀ h₁ (wpc_bind (wpc_store h₁ h₂ (hend hlast))))
  case isFalse =>
    refine wpc_bind (wpc_disconnect h₀ ?_ ?_ ?_ ?_ (hend rfl))
    · exact ⟨Or.inl rfl, Or.inr rfl, Or.inl rfl, Or.inl rfl, Or.inl rfl, Or.inl rfl, rfl⟩
    · exact ⟨Or.inr rfl, Or.inr rfl, Or.inl rfl, Or.inl rfl, Or.inl rfl, Or.inl rfl, rfl⟩
    · exact ⟨Or.inr rfl, Or.inr rfl, Or.inr rfl, Or.inl rfl, Or.inl rfl, Or.inl rfl, rfl⟩
    · exact ⟨Or.inr rfl, Or.inr rfl, Or.inr rfl, Or.inr rfl, Or.inl rfl, Or.inl rfl, rfl⟩

/-! ## Removal of the last node of a ring -/

/-- The only node of a ring. -/
structure OnlyInRing (s : Lists N L) (l : L) (n : N) : Prop where
  prev : s.prev n = some n
  next : s.next n = some n
  cursor : s.cursor l = some n
  head : s.head l = some n

def removedLast (s : Lists N L) (l : L) (n : N) : Lists N L :=
  { s with
    cursor := Function.update s.cursor l none
    head := Function.update s.head l none
    len := Function.update s.len l (s.len l - 1)
    list := Function.update s.list n none }

/-- The cursor and the head are off the node. -/
structure RemovingLast (s : Lists N L) (l : L) (n : N) (c : Lists N L) : Prop where
  prev : c.prev = s.prev
  next : c.next = s.next
  cursor : c.cursor = (removedLast s l n).cursor
  head : c.head = (removedLast s l n).head
  len : c.len = s.len ∨ c.len = (removedLast s l n).len
  list : c.list = s.list ∨ c.list = (removedLast s l n).list
  microOpOldLen : c.microOpOldLen = s.microOpOldLen

omit [DecidableEq L] in
/-- Links of a node to itself stay. -/
theorem OnlyInRing.links (h : OnlyInRing s l n) :
    updateOf s.prev (s.next n) (s.prev n) = s.prev ∧ updateOf s.next (s.prev n) (s.next n) = s.next := by
  constructor
  · rw [h.next, updateOf, Function.update_eq_self]
  · rw [h.prev, updateOf, Function.update_eq_self]

theorem RemovingLast.recover (h : RemovingLast s l n c) (hs : OnlyInRing s l n) (hlen : 0 < s.len l) :
    Ends (recoverFromFailedRemove l n (s.len l)) (fun _ r => r = removedLast s l n) c := by
  obtain ⟨hp, hx, hc, hh, hl, hi, hm⟩ := h
  obtain ⟨hprev, hnext⟩ := hs.links
  have hcl : c.cursor l ≠ some n := by rw [hc]; simp [removedLast]
  have hhl : c.head l ≠ some n := by rw [hh]; simp [removedLast]
  have hlen' : Function.update c.len l (s.len l - 1) = (removedLast s l n).len := by
    rcases hl with hl | hl
    · rw [hl]
      rfl
    · rw [hl]
      exact Function.update_idem _ _ _
  have hlist : Function.update c.list n none = (removedLast s l n).list := by
    rcases hi with hi | hi
    · rw [hi]
      rfl
    · rw [hi]
      exact Function.update_idem _ _ _
  simp only [recoverFromFailedRemove, setLen, setList, ends_bind, ends_disconnect, ends_check, ends_store]
  refine ⟨hlen, ?_⟩
  rw [if_neg hcl, if_neg hhl, hp, hx, hprev, hnext, hlen', hlist, hm, hc, hh]
  rfl

theorem wpc_optimizedRemoveImpl_last (hlist : s.list n ≠ none) (hone : s.len l = 1) :
    wpc (optimizedRemoveImpl debug l n) (fun _ r => r = removedLast s l n) E
      (fun c => (c = s ∨ c = { s with cursor := Function.update s.cursor l none }) ∨ RemovingLast s l n c) s := by
  have hlen : 0 < s.len l := by omega
  unfold optimizedRemoveImpl
  refine wpc_bind (wpc_gets (Or.inl (Or.inl rfl)) ?_)
  rw [if_neg hlist]
  refine wpc_bind (wpc_gets (Or.inl (Or.inl rfl)) (wpc_bind (wpc_check (Or.inl (Or.inl rfl))
    (fun hne => absurd (fun _ => hlen) hne) fun _ => ?_)))
  rw [if_pos hone]
  refine wpc_bind (wpc_store (Or.inl (Or.inl rfl)) (Or.inl (Or.inr rfl))
    (wpc_bind (wpc_store (Or.inl (Or.inr rfl)) (Or.inr ?_) (wpc_bind (wpc_decLen (Or.inr ?_) hlen (Or.inr ?_)
      (wpc_store (Or.inr ?_) (Or.inr ?_) rfl))))))
  · exact ⟨rfl, rfl, rfl, rfl, Or.inl rfl, Or.inl rfl, rfl⟩
  · exact ⟨rfl, rfl, rfl, rfl, Or.inl rfl, Or.inl rfl, rfl⟩
  · exact ⟨rfl, rfl, rfl, rfl, Or.inr rfl, Or.inl rfl, rfl⟩
  · exact ⟨rfl, rfl, rfl, rfl, Or.inr rfl, Or.inl rfl, rfl⟩
  · exact ⟨rfl, rfl, rfl, rfl, Or.inr rfl, Or.inr rfl, rfl⟩

/-- Recovery before these stores leaves the node in the ring, with the length 0. -/
theorem recover_remove_only (hs : OnlyInRing s l n) (hone : s.len l = 1) {v : Option N}
    (hv : v = some n ∨ v = none) :
    Ends (recoverFromFailedRemove l n (s.len l)) (fun _ r => r = { removedLast s l n with
      cursor := Function.update s.cursor l v, head := s.head })
      { s with cursor := Function.update s.cursor l v } := by
  obtain ⟨hprev, hnext⟩ := hs.links
  have hcur : (if Function.update s.cursor l v l = some n then
      Function.update (Function.update s.cursor l v) l (s.next n) else Function.update s.cursor l v) =
        Function.update s.cursor l v := by
    rcases hv with rfl | rfl
    · simp [hs.next]
    · simp
  have hhead : (if s.head l = some n then Function.update s.head l (s.next n) else s.head) = s.head := by
    rw [if_pos hs.head, hs.next, ← hs.head, Function.update_eq_self]
  simp only [recoverFromFailedRemove, setLen, setList, ends_bind, ends_disconnect, ends_check, ends_store]
  refine ⟨by omega, ?_⟩
  rw [hprev, hnext, hcur, hhead]
  rfl

/-! ## Popping the front -/

def popped (s : Lists N L) (l : L) (n : N) : Lists N L :=
  { s with
    head := Function.update s.head l (s.next n)
    prev := updateOf s.prev (s.next n) none
    len := Function.update s.len l (s.len l - 1)
    list := Function.update s.list n none }

/-- Nothing is done, or the head has moved. -/
inductive Popping (s : Lists N L) (l : L) (n : N) : Lists N L → Prop
  | start : Popping s l n s
  | moved {prev : N → Option N} {len : L → Nat} : prev = s.prev ∨ prev = (popped s l n).prev →
      len = s.len ∨ len = (popped s l n).len →
      Popping s l n { s with head := (popped s l n).head, prev := prev, len := len }
  | done : Popping s l n (popped s l n)

theorem Popping.list (h : Popping s l n c) : c.list = s.list ∨ c = popped s l n := by
  cases h with
  | start => exact Or.inl rfl
  | moved => exact Or.inl rfl
  | done => exact Or.inr rfl

theorem wpc_optimizedPopFront {Q : Option N → Lists N L → Prop} (hhead : s.head l = some n) (hcur : s.cursor l = none)
    (hlen : 0 < s.len l) (hC : C s) (hC' : ∀ c, Popping (logged s .popFront l) l n c → C c)
    (hQ : Q (some n) (popped (logged s .popFront l) l n)) : wpc (optimizedPopFront l) Q E C s := by
  unfold optimizedPopFront
  refine wpc_bind (wpc_gets hC ?_)
  rw [hhead]
  refine wpc_bind (wpc_startOpLog hC (hC' _ .start) ?_)
  replace hcur : (logged s .popFront l).cursor l = none := hcur
  replace hlen : 0 < (logged s .popFront l).len l := hlen
  generalize logged s .popFront l = s at *
  have h₁ : C { s with head := (popped s l n).head } := hC' _ (.moved (Or.inl rfl) (Or.inl rfl))
  have h₂ : C { s with head := (popped s l n).head, prev := (popped s l n).prev } :=
    hC' _ (.moved (Or.inr rfl) (Or.inl rfl))
  have h₃ : C { s with head := (popped s l n).head, prev := (popped s l n).prev, len := (popped s l n).len } :=
    hC' _ (.moved (Or.inr rfl) (Or.inr rfl))
  have hfin : C (popped s l n) := hC' _ .done
  have hstart : C s := hC' _ .start
  refine wpc_bind (wpc_gets hstart (wpc_bind (wpc_store hstart h₁ (wpc_bind (wpc_gets h₁ ?_)))))
  dsimp only
  rw [Function.update_self]
  refine wpc_bind (wpc_setPrevOf h₁ h₂ (wpc_bind (wpc_gets h₂ ?_)))
  dsimp only
  rw [hcur, if_neg nofun]
  exact wpc_bind (wpc_decLen h₂ hlen h₃ (wpc_bind (wpc_store h₃ hfin (wpc_pure hfin hQ))))

theorem Popping.recover (h : Popping s l n c) (hhead : s.head l = some n) (hcur : s.cursor l = none)
    (hnext : s.next n ≠ some n) (hlen : 0 < s.len l) (hm : logged s .popFront l = s)
    (hlist : c.list n ≠ none) :
    Ends (recoverFromFailedPopFront l n (s.len l)) (fun _ r => r = popped s l n) c := by
  unfold recoverFromFailedPopFront
  cases h with
  | start =>
      simp only [ends_bind, ends_gets, hhead, ne_eq, not_true_eq_false, if_false]
      have hw : wpc (optimizedPopFront l) (fun _ r => r = popped (logged s .popFront l) l n) False (fun _ => True) s :=
        wpc_optimizedPopFront hhead hcur hlen trivial (fun _ _ => trivial) rfl
      rw [hm] at hw
      exact hw.ends
  | @moved prev len hp hl =>
      have hhl : (popped s l n).head l = s.next n := Function.update_self _ _ _
      have hprev : updateOf prev (s.next n) none = (popped s l n).prev := by
        rcases hp with rfl | rfl
        · rfl
        · exact updateOf_idem _ _ _
      have hlen' : Function.update len l (s.len l - 1) = (popped s l n).len := by
        rcases hl with rfl | rfl
        · rfl
        · exact Function.update_idem _ _ _
      simp only [ends_bind, ends_gets, hhl, ne_eq, hnext, not_false_eq_true, if_true, ends_setPrevOf, hcur,
        reduceCtorEq, if_false, setLen, setList, ends_check, ends_store]
      refine ⟨hlen, ?_⟩
      rw [hprev, hlen']
      rfl
  | done => exact absurd (Function.update_self _ _ _) hlist

/-! ## Nodes of well linked lists -/

section
variable {ring : L → Prop} {d : L} {le : N → N → Prop} {seq : L → List N}

omit [DecidableEq N] [DecidableEq L] in
theorem Holds.len_pos (h : Holds ring s seq) (hn : n ∈ seq l) : 0 < s.len l := by
  rw [h.len]
  exact List.length_pos_of_mem hn

omit [DecidableEq N] [DecidableEq L] in
theorem Holds.eq_singleton (h : Holds ring s seq) (hn : n ∈ seq l) (hone : s.len l = 1) : seq l = [n] := by
  rw [h.len, List.length_eq_one_iff] at hone
  obtain ⟨x, hx⟩ := hone
  rw [hx, List.mem_singleton] at hn
  rw [hx, hn]

omit [DecidableEq N] [DecidableEq L] in
/-- What the removal of a node from a null-terminated list relies on. -/
theorem WellLinked.linear (h : WellLinked ring d le s) (hl : ¬ ring l) (hn : s.list n = some l) :
    0 < s.len l ∧ (s.len l = 1 → Lone s l n) ∧ s.next n ≠ some n := by
  obtain ⟨seq, h, _⟩ := h
  have hm := (h.owner l n).mp hn
  have hlin := h.linears l hl
  refine ⟨h.len_pos hm, fun hone => ?_, fun hself => ?_⟩
  · have hseq := h.eq_singleton hm hone
    have hlinks := hlin.links
    have hhead := hlin.head
    rw [hseq] at hlinks hhead
    exact ⟨hlinks.1, hlinks.2.1, hlin.cursor, hhead⟩
  · have hnd := h.nodup l
    have hlinks := hlin.links
    obtain ⟨xs, ys, hxy⟩ := List.append_of_mem hm
    rw [hxy] at hnd hlinks
    obtain ⟨_, _, hnext, _⟩ := linked_append.mp hlinks
    rw [Option.or_none, hself] at hnext
    exact (List.nodup_middle.mp hnd).notMem (List.mem_append_right _ (List.mem_of_head? hnext.symm))

omit [DecidableEq N] [DecidableEq L] in
/-- What the removal of a node from a ring relies on. -/
theorem WellLinked.circular (h : WellLinked ring d le s) (hl : ring l) (hn : s.list n = some l) :
    0 < s.len l ∧ (s.len l = 1 → OnlyInRing s l n) ∧ (s.len l ≠ 1 → s.next n ≠ some n) := by
  obtain ⟨seq, h, _⟩ := h
  have hm := (h.owner l n).mp hn
  have hr := h.rings l hl
  refine ⟨h.len_pos hm, fun hone => ?_, fun hmany hself => ?_⟩
  · have hseq := h.eq_singleton hm hone
    have hlinks := hr.links
    have hcursor := hr.cursor
    have hhead := hr.head
    rw [hseq] at hlinks hcursor hhead
    refine ⟨hlinks.1, hlinks.2.1, hcursor, ?_⟩
    rcases hhead with ⟨hnil, _⟩ | ⟨x, hx, hh⟩
    · cases hnil
    · rwa [List.mem_singleton.mp hx] at hh
  · have hnd := h.nodup l
    have hlinks := hr.links
    have hlen := h.len l
    obtain ⟨xs, ys, hxy⟩ := List.append_of_mem hm
    rw [hxy] at hnd hlinks hlen
    -- the ring from `n` on
    have hturn : Ring s.prev s.next (n :: ys ++ xs) := ring_append_comm hlinks
    have hnext : s.next n = (ys ++ xs).head?.or (some n) := hturn.2.1
    have hnot : n ∉ ys ++ xs := by
      rw [List.nodup_middle, List.nodup_cons] at hnd
      simpa [or_comm] using hnd.1
    cases hyx : ys ++ xs with
    | nil =>
        obtain ⟨rfl, rfl⟩ := List.append_eq_nil_iff.mp hyx
        exact hmany hlen
    | cons y zs =>
        rw [hyx] at hnext hnot
        rw [hself] at hnext
        exact hnot (by simp [Option.some.inj hnext])

/-- Removed nodes leave the lists well linked. -/
theorem WellLinked.removed (h : WellLinked ring d le s) (hl : ¬ ring l) (hn : s.list n = some l) :
    WellLinked ring d le (removed s l n) := by
  obtain ⟨hlen, hone, _⟩ := h.linear hl hn
  have hw : wpc (optimizedRemove false l n) (fun _ r => r = Lists.removed (logged s .remove l) l n) True
      (fun _ => True) s := by
    refine wpc_bind (wpc_startOpLog trivial trivial (wpc_mono (wpc_optimizedRemoveImpl ?_ hlen hone) ?_ ?_))
    · exact fun he => Option.some_ne_none l (hn.symm.trans he)
    · exact fun _ _ he => he
    · exact fun _ _ => trivial
  exact ((h.remove hn).of_wpc hw).1.frame rfl rfl rfl rfl (fun _ _ => rfl) fun _ _ => rfl

theorem WellLinked.popped (h : WellLinked ring d le s) (hl : ¬ ring l) (hhead : s.head l = some n) :
    s.list n = some l ∧ s.cursor l = none ∧ 0 < s.len l ∧ s.next n ≠ some n ∧
      WellLinked ring d le (popped (logged s .popFront l) l n) := by
  have hn : s.list n = some l := by
    obtain ⟨seq, h, _⟩ := h
    rw [h.owner]
    exact List.mem_of_head? ((h.linears l hl).head.symm.trans hhead)
  have hcur : s.cursor l = none := by
    obtain ⟨seq, h, _⟩ := h
    exact (h.linears l hl).cursor
  obtain ⟨hlen, _, hnext⟩ := h.linear hl hn
  refine ⟨hn, hcur, hlen, hnext, ?_⟩
  have hw : wpc (optimizedPopFront l) (fun r s' => r = some n ∧ s' = Lists.popped (logged s .popFront l) l n) True
    (fun _ => True) s := wpc_optimizedPopFront hhead hcur hlen trivial (fun _ _ => trivial) ⟨rfl, rfl⟩
  obtain ⟨r, s', ho, hpost⟩ := (h.popFront hl).returns
  obtain ⟨rfl, rfl⟩ := hw.post ho
  rcases hpost with ⟨hr, _⟩ | ⟨_, _, _, _, hlinked, _⟩
  · cases hr
  · exact hlinked

end

end Lists

end IntOS
