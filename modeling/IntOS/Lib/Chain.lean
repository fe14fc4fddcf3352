import Mathlib

/-!
# Doubly linked nodes

`Linked prev next p xs q`: the nodes `xs` are linked one after the other, with `p` before the first and `q`
after the last. A null-terminated list is linked between `none` and `none`, a ring between its last and
its first node. Every list operation changes the two ends of such runs of nodes.
-/

namespace Chain

variable {N : Type}

def Linked (prev next : N → Option N) : Option N → List N → Option N → Prop
  | _, [], _ => True
  | p, x :: xs, q => prev x = p ∧ next x = xs.head?.or q ∧ Linked prev next (some x) xs q

def Ring (prev next : N → Option N) (xs : List N) : Prop :=
  Linked prev next xs.getLast? xs xs.head?

variable {prev next prev' next' : N → Option N} {p q : Option N} {xs ys : List N} {x : N}

theorem Linked.congr (h : Linked prev next p xs q) (hp : ∀ x ∈ xs, prev' x = prev x)
    (hn : ∀ x ∈ xs, next' x = next x) : Linked prev' next' p xs q := by
  induction xs generalizing p with
  | nil => trivial
  | cons x xs ih =>
      obtain ⟨h1, h2, h3⟩ := h
      refine ⟨?_, ?_, ih h3 (fun y hy => hp y (by simp [hy])) fun y hy => hn y (by simp [hy])⟩
      · rw [hp x (by simp), h1]
      · rw [hn x (by simp), h2]

theorem linked_append :
    Linked prev next p (xs ++ ys) q ↔
      Linked prev next p xs (ys.head?.or q) ∧ Linked prev next (xs.getLast?.or p) ys q := by
  induction xs generalizing p with
  | nil => simp [Linked]
  | cons x xs ih =>
      have hhead : (xs ++ ys).head?.or q = xs.head?.or (ys.head?.or q) := by
        cases xs with
        | nil => simp
        | cons y xs => simp
      have hlast : (x :: xs).getLast?.or p = xs.getLast?.or (some x) := by
        cases xs with
        | nil => simp
        | cons y xs => rw [List.getLast?_cons_cons, List.getLast?_cons]; rfl
      simp only [List.cons_append, Linked, ih, hhead, hlast, and_assoc]

theorem ring_append_comm : Ring prev next (xs ++ ys) → Ring prev next (ys ++ xs) := by
  intro h
  cases xs with
  | nil => rwa [List.append_nil]
  | cons x xs =>
      cases ys with
      | nil => rwa [List.append_nil] at h
      | cons y ys =>
          obtain ⟨h1, h2⟩ := linked_append.mp h
          rw [List.getLast?_append, List.head?_append, List.getLast?_cons, List.getLast?_cons] at h1 h2
          refine linked_append.mpr ⟨?_, ?_⟩
          · rw [List.getLast?_append, List.head?_append, List.getLast?_cons, List.getLast?_cons]
            exact h2
          · rw [List.getLast?_append, List.head?_append, List.getLast?_cons, List.getLast?_cons]
            exact h1

theorem ne_head_of_not_mem (h : x ∉ xs) : xs.head? ≠ some x :=
  fun he => h (List.mem_of_head? he)

theorem ne_getLast_of_not_mem (h : x ∉ xs) : xs.getLast? ≠ some x :=
  fun he => h (List.mem_of_getLast? he)

/-- The neighbours of a node are nodes of the run or the two beside it. -/
theorem Linked.neighbours (h : Linked prev next p xs q) (hx : x ∈ xs) {z : N} :
    (prev x = some z → z ∈ xs ∨ p = some z) ∧ (next x = some z → z ∈ xs ∨ q = some z) := by
  obtain ⟨as, bs, rfl⟩ := List.append_of_mem hx
  obtain ⟨_, hp, hn, _⟩ := linked_append.mp h
  rw [hp, hn]
  constructor
  · intro he
    rcases Option.or_eq_some_iff.mp he with he | ⟨_, he⟩
    · exact Or.inl (List.mem_append_left _ (List.mem_of_getLast? he))
    · exact Or.inr he
  · intro he
    rcases Option.or_eq_some_iff.mp he with he | ⟨_, he⟩
    · exact Or.inl (List.mem_append_right _ (List.mem_cons_of_mem _ (List.mem_of_head? he)))
    · exact Or.inr he

theorem Ring.neighbours (h : Ring prev next xs) (hx : x ∈ xs) {z : N} :
    (prev x = some z → z ∈ xs) ∧ (next x = some z → z ∈ xs) :=
  ⟨fun hp => ((Linked.neighbours h hx).1 hp).elim id List.mem_of_getLast?,
    fun hn => ((Linked.neighbours h hx).2 hn).elim id List.mem_of_head?⟩

/-- The two links between neighbours agree. -/
theorem Linked.agree (h : Linked prev next none xs none) (hx : x ∈ xs) {y : N} (hy : y ∈ xs) :
    next x = some y ↔ prev y = some x := by
  constructor
  · intro hn
    obtain ⟨as, bs, rfl⟩ := List.append_of_mem hx
    obtain ⟨_, _, hnext, hbs⟩ := linked_append.mp h
    rw [hn, Option.or_none] at hnext
    cases bs with
    | nil => cases hnext
    | cons b bs =>
        cases hnext
        exact hbs.1
  · intro hp
    obtain ⟨as, bs, rfl⟩ := List.append_of_mem hy
    obtain ⟨has, hprev, _⟩ := linked_append.mp h
    rw [hp, Option.or_none] at hprev
    obtain ⟨as, rfl⟩ := List.getLast?_eq_some_iff.mp hprev.symm
    exact (linked_append.mp has).2.2.1

theorem Ring.agree (h : Ring prev next xs) (hx : x ∈ xs) {y : N} (hy : y ∈ xs) :
    next x = some y ↔ prev y = some x := by
  constructor
  · intro hn
    obtain ⟨as, bs, rfl⟩ := List.append_of_mem hx
    have hturn : Ring prev next (x :: (bs ++ as)) := ring_append_comm h
    obtain ⟨hprev, hnext, hlinks⟩ := hturn
    cases hbs : bs ++ as with
    | nil =>
        rw [hbs] at hprev hnext
        rw [hn] at hnext
        cases hnext
        exact hprev
    | cons b cs =>
        rw [hbs] at hnext hlinks
        rw [hn] at hnext
        cases hnext
        exact hlinks.1
  · intro hp
    obtain ⟨as, bs, rfl⟩ := List.append_of_mem hy
    have hturn : Ring prev next (y :: (bs ++ as)) := ring_append_comm h
    obtain ⟨hprev, hnext, hlinks⟩ := hturn
    rcases List.eq_nil_or_concat' (bs ++ as) with hbs | ⟨cs, b, hbs⟩
    · rw [hbs] at hprev hnext
      rw [hp] at hprev
      cases hprev
      exact hnext
    · rw [hbs, List.getLast?_cons, List.getLast?_concat, hp] at hprev
      cases hprev
      rw [hbs] at hlinks
      exact (linked_append.mp hlinks).2.2.1

section
variable [DecidableEq N]

/-! ## The two ends -/

/-- `f` with a new value at `o`, if `o` is a node. -/
def updateOf {α : Type} (f : N → α) (o : Option N) (v : α) : N → α :=
  match o with
  | none => f
  | some x => Function.update f x v

theorem Linked.setFirst (h : Linked prev next p xs q) (hnd : xs.Nodup) (p' : Option N) :
    Linked (updateOf prev xs.head? p') next p' xs q := by
  cases xs with
  | nil => trivial
  | cons x xs =>
      obtain ⟨_, h2, h3⟩ := h
      refine ⟨Function.update_self _ _ _, h2, h3.congr (fun y hy => ?_) fun _ _ => rfl⟩
      exact Function.update_of_ne (ne_of_mem_of_not_mem hy (List.nodup_cons.mp hnd).1) _ _

theorem Linked.setLast (h : Linked prev next p xs q) (hnd : xs.Nodup) (q' : Option N) :
    Linked prev (updateOf next xs.getLast? q') p xs q' := by
  rcases List.eq_nil_or_concat' xs with rfl | ⟨xs, x, rfl⟩
  · trivial
  · have hx : x ∉ xs := by
      rw [List.nodup_append] at hnd
      exact fun hm => hnd.2.2 x hm x (by simp) rfl
    obtain ⟨h1, h2⟩ := linked_append.mp h
    rw [List.getLast?_concat]
    refine linked_append.mpr ⟨h1.congr (fun _ _ => rfl) fun y hy => ?_, h2.1, ?_, trivial⟩
    · exact Function.update_of_ne (ne_of_mem_of_not_mem hy hx) _ _
    · simp [updateOf]

/-- Links of other nodes. -/
theorem Linked.frame (h : Linked prev next p xs q) (o o' : Option N) (ho : ∀ x ∈ xs, o ≠ some x)
    (ho' : ∀ x ∈ xs, o' ≠ some x) (v v' : Option N) :
    Linked (updateOf prev o v) (updateOf next o' v') p xs q := by
  refine h.congr (fun x hx => ?_) fun x hx => ?_
  · cases o with
    | none => rfl
    | some y => exact Function.update_of_ne (fun he => ho x hx (congrArg some he.symm)) _ _
  · cases o' with
    | none => rfl
    | some y => exact Function.update_of_ne (fun he => ho' x hx (congrArg some he.symm)) _ _

theorem updateOf_of_ne {α : Type} {f : N → α} {o : Option N} {v : α} (h : o ≠ some x) :
    updateOf f o v x = f x := by
  cases o with
  | none => rfl
  | some y => exact Function.update_of_ne (fun he => h (congrArg some he.symm)) _ _

theorem updateOf_self {α : Type} (f : N → α) (o : Option N) (x : N) : updateOf f o (f x) x = f x := by
  cases o with
  | none => rfl
  | some y =>
      by_cases hy : x = y
      · subst hy
        exact Function.update_self _ _ _
      · exact Function.update_of_ne hy _ _

/-! ## Removal and insertion -/

/-- Two runs, joined by setting the links between them. -/
theorem Linked.join (h1 : Linked prev next p xs q) (h2 : Linked prev next p' ys q')
    (hnd : (xs ++ ys).Nodup) (hxs : xs ≠ []) (hys : ys ≠ []) :
    Linked (updateOf prev ys.head? xs.getLast?) (updateOf next xs.getLast? ys.head?) p (xs ++ ys) q' := by
  obtain ⟨hndx, hndy, hdis⟩ := List.nodup_append.mp hnd
  have hx : ∀ x ∈ xs, ys.head? ≠ some x := fun x hx =>
    ne_head_of_not_mem fun hy => hdis x hx x hy rfl
  have hy : ∀ y ∈ ys, xs.getLast? ≠ some y := fun y hy =>
    ne_getLast_of_not_mem fun hx => hdis y hx y hy rfl
  obtain ⟨z, hz⟩ : ∃ z, xs.getLast? = some z := ⟨_, List.getLast?_eq_some_getLast hxs⟩
  obtain ⟨y, hyh⟩ : ∃ y, ys.head? = some y := ⟨_, List.head?_eq_some_head hys⟩
  have h1' := (h1.setLast hndx ys.head?).frame ys.head? none hx (fun _ _ => nofun)
    xs.getLast? none
  have h2' := (h2.setFirst hndy xs.getLast?).frame none xs.getLast? (fun _ _ => nofun) hy
    none ys.head?
  refine linked_append.mpr ⟨?_, ?_⟩
  · rw [hyh] at h1' ⊢
    exact h1'
  · rw [hz] at h2' ⊢
    exact h2'

/-- A node taken out of a null-terminated list. -/
theorem Linked.remove (h : Linked prev next none (xs ++ x :: ys) none) (hnd : (xs ++ x :: ys).Nodup) :
    Linked (updateOf prev (next x) (prev x)) (updateOf next (prev x) (next x)) none (xs ++ ys) none := by
  obtain ⟨h1, hp, hn, h2⟩ := linked_append.mp h
  rw [Option.or_none] at hp hn
  rw [hp, hn]
  have hnd' : (xs ++ ys).Nodup := hnd.sublist (List.Sublist.append_left (List.sublist_cons_self x ys) xs)
  cases xs with
  | nil => exact h2.setFirst hnd' none
  | cons z zs =>
      cases ys with
      | nil => rw [List.append_nil] at hnd' ⊢; exact h1.setLast hnd' none
      | cons y ys => exact h1.join h2 hnd' (by simp) (by simp)

/-- A node put into a null-terminated list. -/
theorem Linked.insert (h : Linked prev next none (xs ++ ys) none) (hnd : (xs ++ ys).Nodup)
    (hx : x ∉ xs ++ ys) :
    Linked (updateOf (Function.update prev x xs.getLast?) ys.head? (some x))
      (updateOf (Function.update next x ys.head?) xs.getLast? (some x)) none (xs ++ x :: ys) none := by
  obtain ⟨h1, h2⟩ := linked_append.mp h
  obtain ⟨hndx, hndy, hdis⟩ := List.nodup_append.mp hnd
  rw [List.mem_append, not_or] at hx
  have hxs : ∀ z ∈ xs, some x ≠ some z := fun z hz he => hx.1 (Option.some.inj he ▸ hz)
  have hys : ∀ z ∈ ys, some x ≠ some z := fun z hz he => hx.2 (Option.some.inj he ▸ hz)
  have hxd : ∀ z ∈ xs, ys.head? ≠ some z := fun z hz =>
    ne_head_of_not_mem fun hy => hdis z hz z hy rfl
  have hyd : ∀ z ∈ ys, xs.getLast? ≠ some z := fun z hz =>
    ne_getLast_of_not_mem fun hx => hdis z hx z hz rfl
  have h1' := ((h1.frame (some x) (some x) hxs hxs xs.getLast? ys.head?).setLast hndx
    (some x)).frame ys.head? none hxd (fun _ _ => nofun) (some x) none
  have h2' := ((h2.frame (some x) (some x) hys hys xs.getLast? ys.head?).setFirst hndy
    (some x)).frame none xs.getLast? (fun _ _ => nofun) hyd none (some x)
  refine linked_append.mpr ⟨h1', ?_, ?_, h2'⟩
  · rw [updateOf_of_ne (ne_head_of_not_mem hx.2), Function.update_self, Option.or_none]
  · rw [updateOf_of_ne (ne_getLast_of_not_mem hx.1), Function.update_self, Option.or_none]

/-- A node taken out of a ring. -/
theorem Ring.remove (h : Ring prev next (xs ++ x :: ys)) (hnd : (xs ++ x :: ys).Nodup)
    (hne : ys ++ xs ≠ []) :
    Ring (updateOf prev (next x) (prev x)) (updateOf next (prev x) (next x)) (xs ++ ys) := by
  -- turn the ring until `x` comes first
  have hturn : Ring prev next (x :: (ys ++ xs)) := ring_append_comm h
  have hnd' : (x :: (ys ++ xs)).Nodup := (List.perm_append_comm.nodup_iff).mp hnd
  obtain ⟨hp, hn, h2⟩ := hturn
  obtain ⟨z, hz⟩ : ∃ z, (ys ++ xs).getLast? = some z := ⟨_, List.getLast?_eq_some_getLast hne⟩
  obtain ⟨y, hy⟩ : ∃ y, (ys ++ xs).head? = some y := ⟨_, List.head?_eq_some_head hne⟩
  rw [List.getLast?_cons, hz] at hp
  rw [hy] at hn
  have hp' : prev x = some z := hp
  have hn' : next x = some y := hn
  refine ring_append_comm ?_
  have hset := (h2.setFirst (List.nodup_cons.mp hnd').2 (some z)).setLast (List.nodup_cons.mp hnd').2
    (some y)
  rw [hp', hn']
  unfold Ring
  rw [hz, hy] at hset ⊢
  exact hset

/-- A node put at the end of a ring, before its first node. -/
theorem Ring.insert (h : Ring prev next xs) (hnd : xs.Nodup) (hx : x ∉ xs) (hne : xs ≠ []) :
    Ring (updateOf (Function.update prev x xs.getLast?) xs.head? (some x))
      (updateOf (Function.update next x xs.head?) xs.getLast? (some x)) (xs ++ [x]) := by
  have hxs : ∀ z ∈ xs, some x ≠ some z := fun z hz he => hx (Option.some.inj he ▸ hz)
  have h1 := ((h.frame (some x) (some x) hxs hxs xs.getLast? xs.head?).setFirst hnd
    (some x)).setLast hnd (some x)
  obtain ⟨z, hz⟩ : ∃ z, xs.getLast? = some z := ⟨_, List.getLast?_eq_some_getLast hne⟩
  obtain ⟨y, hy⟩ : ∃ y, xs.head? = some y := ⟨_, List.head?_eq_some_head hne⟩
  unfold Ring
  rw [List.getLast?_concat, List.head?_append, hy]
  refine linked_append.mpr ⟨?_, ?_, ?_, trivial⟩
  · rw [hy] at h1
    exact h1
  · rw [← hy, updateOf_of_ne (ne_head_of_not_mem hx), Function.update_self, hz]
    rfl
  · rw [updateOf_of_ne (ne_getLast_of_not_mem hx), Function.update_self]
    rfl

end

/-! ## Following the links -/

/-- `y` is found from `x` by following `next`. -/
def Reaches (next : N → Option N) : N → N → Prop := Relation.ReflTransGen fun a b => next a = some b

theorem Linked.reaches (h : Linked prev next p (x :: xs) q) {y : N} (hy : y ∈ x :: xs) :
    Reaches next x y := by
  induction xs generalizing p x with
  | nil =>
      rw [List.mem_singleton] at hy
      subst hy
      exact .refl
  | cons z xs ih =>
      obtain ⟨_, h2, h3⟩ := h
      cases hy with
      | head => exact .refl
      | tail _ hy => exact Relation.ReflTransGen.head h2 (ih h3 hy)

/-- Nothing else is found from a node that is not followed by an outside one. -/
theorem Linked.mem_of_reaches (h : Linked prev next p xs q) (hq : ∀ y, q = some y → y ∈ xs) {y : N}
    (hx : x ∈ xs) (hy : Reaches next x y) : y ∈ xs := by
  induction hy with
  | refl => exact hx
  | @tail a b _ hab ih =>
      obtain ⟨as, bs, rfl⟩ := List.append_of_mem ih
      obtain ⟨_, _, hn, _⟩ := linked_append.mp h
      rw [hab] at hn
      cases bs with
      | nil => exact hq b hn.symm
      | cons c bs =>
          obtain rfl : b = c := by simpa using hn
          simp

end Chain
