import IntOS.EventGroup.Lemmas.Resumed

/-!
# Power failures while tasks synchronize

`original_bits` is the result of a kernel transaction, so a `sync` that has found all bits itself finds them again.
That another task has set the last bits is only in the block item, which a `sync` that is begun again does not look
at.
-/

namespace IntOS

open Persist Persist.Prog IntOS.Lists

namespace EventGroup

open Kernel (Quiet Listed Confined)

variable {width : PtrWidth} {α : Type} {cfg : Config} {port : Port} {waitList t u : Nat} {m m' c : Machine width}
  {bits b orig : EventBits width} {waitTicks : Nat} {a : Activity width} {r : Outcome width} {s s' : System width}
  {e : System.Event}

/-- A list transaction may be under way. -/
def Activity.movesTasks : Activity width → Bool
  | calling _ | inSet _ _ _ _ => true
  | _ => false

/-- No `sync` gets anywhere from its beginning once another task has unblocked it, and where power fails in a list
transaction its recovery puts the scheduler's lists in order. -/
structure Resumes (cfg : Config) (e : System.Event) (s s' : System width) : Prop where
  again : ∀ t bits b waitTicks, e.Runs t → s.activity t = .calling (.sync bits b waitTicks) → 0 < waitTicks →
    s.machine.entry t = none → s.released t = false ∨ Early cfg e s s'
  intact : ∀ running, e = .fail running → (∀ t, running = some t → (s.activity t).movesTasks) → Intact s'.kernel

/-! ## The segments of a `sync` -/

/-- The task stays in its call, and its results stay. -/
structure Grows (t : Nat) (m c : Machine width) : Prop where
  current : c.kernel.current = some t
  entry : c.entry t = m.entry t
  results : m.txResults t <+: c.txResults t

theorem Grows.start (h : m.kernel.current = some t) : Grows t m m := ⟨h, rfl, List.prefix_refl _⟩

theorem frame_grows : Frame t (Grows t m) where
  current := fun h => h.current
  kernel := fun h hk _ => ⟨hk, h.entry, h.results⟩
  txPtr := fun _ h => ⟨h.current, h.entry, h.results⟩
  value := fun _ h => ⟨h.current, h.entry, h.results⟩
  applied := by
    intro c f _ h
    refine ⟨h.current, h.entry, h.results.trans ?_⟩
    dsimp only [applied]
    rw [Function.update_self]
    exact List.prefix_append _ _

theorem tells_grows : Tells (Grows t m) := fun _ _ h => ⟨h.current, h.entry, h.results⟩

theorem Grows.head (h : Grows t m c) (hm : (m.txResults t).head? = some orig) : (c.txResults t).head? = some orig := by
  obtain ⟨rest, hrest⟩ := h.results
  rw [← hrest, List.head?_append, hm]
  rfl

theorem took_sync_iff {rs : List (EventBits width)} (h : rs.head? = some orig) :
    (Call.sync bits b waitTicks).took rs ↔ 4 ≤ rs.length ∧ (orig ||| bits) &&& b = b := by
  obtain ⟨rest, rfl⟩ := List.head?_eq_some_iff.mp h
  match rest with
  | [] | [_] | [_, _] => simp [Call.took]
  | _ :: _ :: _ :: rest => simp [Call.took]

theorem took_mono {rs rs' : List (EventBits width)} (h : rs <+: rs') (ht : (Call.sync bits b waitTicks).took rs) :
    (Call.sync bits b waitTicks).took rs' := by
  obtain ⟨rest, rfl⟩ := h
  cases rs with
  | nil => simp [Call.took] at ht
  | cons x xs =>
      rw [took_sync_iff rfl] at ht
      rw [List.cons_append, took_sync_iff rfl]
      refine ⟨?_, ht.2⟩
      have := ht.1
      simp only [List.length_cons, List.length_append] at this ⊢
      omega

/-- What the critical section of a `sync` comes to. -/
inductive Synced (waitList t : Nat) (bits b : EventBits width) (waitTicks : Nat) (c : Machine width) :
    Activity width → Prop
  | inSet {orig : EventBits width} : (c.txResults t).head? = some orig → ¬ Listed waitList c.kernel t →
      Synced waitList t bits b waitTicks c (.inSet bits b waitTicks orig)
  | yielding {orig : EventBits width} : (c.txResults t).head? = some orig → (orig ||| bits) &&& b ≠ b →
      c.blockItemValue t = waiting b true → Synced waitList t bits b waitTicks c (.yielding (.sync bits b waitTicks))
  | ending {orig : EventBits width} : (c.txResults t).head? = some orig → (orig ||| bits) &&& b = b →
      ¬ Listed waitList c.kernel t →
      Synced waitList t bits b waitTicks c (.ending (.sync bits b waitTicks) (.ok (orig ||| bits)))

theorem after_syncTest (hcur : m.kernel.current = some t) (hticks : 0 < waitTicks)
    (hhead : (m.txResults t).head? = some orig) (hl : ¬ Listed waitList m.kernel t) :
    After (do
      let r ← syncTest cfg waitList bits b waitTicks orig
      pure (returnOrYield (.sync bits b waitTicks) r))
      (fun a c => Synced waitList t bits b waitTicks c a) m := by
  have hgrows : After (syncTest cfg waitList bits b waitTicks orig) (fun _ => Grows t m) m :=
    After.mono ((frame_grows (m := m)).stays_syncTest bits b orig waitTicks m (.start hcur)).2 fun _ _ hc => hc.1
  have hhead' : After (do
      let r ← syncTest cfg waitList bits b waitTicks orig
      pure (returnOrYield (.sync bits b waitTicks) r)) (fun _ c => (c.txResults t).head? = some orig) m := by
    rw [after_bind]
    exact hgrows.mono fun _ _ hg => hg.head hhead
  refine (hhead'.and (after_test hcur)).mono ?_
  rintro a c ⟨hhead', htest⟩
  cases htest with
  | found hcover hk => exact .ending hhead' hcover (hk ▸ hl)
  | waiting hcover _ hv => exact .yielding hhead' hcover hv
  | refused _ hn => exact absurd hticks hn

/-- The first result of the call is `original_bits`. -/
theorem after_originalBits (hcur : m.kernel.current = some t) (hptr : m.txPtr t = 0) :
    After (run cfg fun b => (eventsOf b, b))
      (fun orig c => c.kernel = m.kernel ∧ (c.txResults t).head? = some orig) m := by
  have hhead : After (run cfg fun b => (eventsOf b, b)) (fun orig c => (c.txResults t).head? = some orig) m := by
    cases hres : m.txResults t with
    | nil =>
        have hnone : (m.txResults t)[m.txPtr t]? = none := by simp [hres]
        refine (wpc_run_new (C := fun _ => True) hcur hnone trivial trivial trivial ?_).2
        simp [advanced, applied, hres]
    | cons x xs =>
        have hsome : (m.txResults t)[m.txPtr t]? = some x := by simp [hres, hptr]
        refine (wpc_run_cached (C := fun _ => True) x hcur hsome trivial trivial ?_).2
        simp [advanced, hres]
  exact After.mono (After.and (wpc_run_items hcur).2 hhead) fun _ _ hc => ⟨hc.1.kernel, hc.2⟩

theorem after_attempt_sync (h : Orderly waitList t m.kernel) (he : m.entry t = none) (hticks : 0 < waitTicks) :
    After (attempt cfg port waitList (.sync bits b waitTicks))
      (fun a c => Synced waitList t bits b waitTicks c a) m := by
  have hcur := h.current
  obtain ⟨xs, hq, ht⟩ := h
  refine after_attempt_begins hcur he ?_
  unfold begin syncSet
  rw [after_bind, after_bind]
  have hcur' : { m with txPtr := Function.update m.txPtr t 0 }.kernel.current = some t := hcur
  refine (after_originalBits hcur' (Function.update_self _ _ _)).mono ?_
  rintro orig m₁ ⟨hk₁, hhead₁⟩
  have hq₁ : Quiet t waitList xs m₁.kernel := hk₁ ▸ hq
  have hgrows : After (setEventGroupBits cfg waitList bits) (fun _ => Grows t m₁) m₁ :=
    After.mono ((frame_grows (m := m₁)).stays_setEventGroupBits tells_grows bits m₁ (.start hq₁.current)).2
      fun _ _ hc => hc.1
  rw [after_bind]
  refine (hgrows.and (after_set_waiters hq₁)).mono ?_
  rintro yld m₂ ⟨hg, set, hq₂, _⟩
  have hhead₂ := hg.head hhead₁
  have hl₂ : ¬ Listed waitList m₂.kernel t := fun hl => ht (mem_left.mp ((Quiet.listed hq₂).mp hl)).1
  rw [after_pure]
  dsimp only
  split
  · exact .inSet hhead₂ hl₂
  · exact after_syncTest hq₂.current hticks hhead₂ hl₂

/-- A task that has been told that it is unblocked returns the bits that it was told. -/
theorem after_awoken (hcur : m.kernel.current = some t) :
    After ((Activity.yielding (.sync bits b waitTicks)).prog cfg port waitList)
      (fun a c => c.kernel = m.kernel ∧ ∃ r, a = .ending (.sync bits b waitTicks) r ∧
        (m.blockItemValue t &&& unblockedDueToBitSet width ≠ 0 → r = .ok (eventsOf (m.blockItemValue t)))) m := by
  have hkept : Keeps Machine.kernel ((Activity.yielding (.sync bits b waitTicks)).prog cfg port waitList) :=
    keeps_kernel_syncAwoken.bind fun _ => keeps_pure _
  refine (After.and (hkept m).2 (after_sync_awoken hcur)).mono ?_
  rintro a c ⟨hk, ha⟩
  exact ⟨hk, _, ha, fun htold => if_pos (Or.inl htold)⟩

/-! ## What holds of a task in a `sync` -/

/-- What the result of the call has to be. -/
def Promised (b : EventBits width) (took released : Prop) (r : Outcome width) : Prop :=
  (took → Right b true r) ∧ (released → Right (eventsOf b) true r)

/-- What a failure leaves of the call. -/
structure SyncBegun (t : Nat) (bits b : EventBits width) (waitTicks : Nat) (took released : Prop) (m : Machine width) :
    Prop where
  known : m.entry t = none → (took ↔ (Call.sync bits b waitTicks).took (m.txResults t))
  entry : ∀ r, m.entry t = some r → Promised b took released r

/-- Where the task is in its call. -/
inductive SyncAt (waitList t : Nat) (bits b : EventBits width) (waitTicks : Nat) (took released : Prop)
    (m : Machine width) : Activity width → Prop
  | calling (c : Call width) : SyncAt waitList t bits b waitTicks took released m (.calling c)
  | inSet {orig : EventBits width} : (m.txResults t).head? = some orig → ¬ Listed waitList m.kernel t → ¬ released →
      SyncAt waitList t bits b waitTicks took released m (.inSet bits b waitTicks orig)
  | waiting {orig : EventBits width} : (m.txResults t).head? = some orig → (orig ||| bits) &&& b ≠ b →
      m.blockItemValue t = EventGroup.waiting b true → ¬ released →
      SyncAt waitList t bits b waitTicks took released m (.yielding (.sync bits b waitTicks))
  | told {orig x : EventBits width} : (m.txResults t).head? = some orig → (orig ||| bits) &&& b ≠ b →
      m.blockItemValue t = unblocked (eventsOf x) → satisfies (eventsOf b) true (eventsOf x) →
      ¬ Listed waitList m.kernel t →
      SyncAt waitList t bits b waitTicks took released m (.yielding (.sync bits b waitTicks))
  | ending {r : Outcome width} : ¬ Listed waitList m.kernel t → Promised b took released r →
      SyncAt waitList t bits b waitTicks took released m (.ending (.sync bits b waitTicks) r)

structure SyncHolds (waitList t : Nat) (bits b : EventBits width) (waitTicks : Nat) (a : Activity width)
    (took released : Prop) (m : Machine width) : Prop extends SyncBegun t bits b waitTicks took released m where
  ended : m.entry t ≠ none → ∃ c, a = .calling c
  at_ : SyncAt waitList t bits b waitTicks took released m a

variable {took released took' released' : Prop}

theorem waiting_all : waiting b true &&& waitForAllBits width ≠ 0 := by
  have hsome : waitForAllBits width ≠ BitVec.ofNat width.bits 0 := by cases width <;> decide
  intro h
  refine hsome (BitVec.eq_of_getLsbD_eq fun i hi => ?_)
  have hbit := congrArg (·.getLsbD i) h
  simp only [waiting, if_true, BitVec.getLsbD_and, BitVec.getLsbD_or, BitVec.ofNat_eq_ofNat,
    BitVec.getLsbD_zero] at hbit ⊢
  grind

theorem satisfies_of_unblocks (h : unblocks (waiting b true) orig) : satisfies (eventsOf b) true orig := by
  unfold unblocks at h
  rw [if_pos (by simpa using waiting_all), eventsOf_waiting, BitVec.and_comm] at h
  exact h

theorem right_cover (h : (orig ||| bits) &&& b = b) : Right b true (.ok (orig ||| bits)) := by
  refine ⟨_, rfl, ?_⟩
  simpa [satisfies] using h

theorem Synced.at (h : Synced waitList t bits b waitTicks m a) (hr : ¬ released) :
    SyncAt waitList t bits b waitTicks took released m a := by
  cases h with
  | inSet hhead hl => exact .inSet hhead hl hr
  | yielding hhead hcover hv => exact .waiting hhead hcover hv hr
  | ending hhead hcover hl => exact .ending hl ⟨fun _ => right_cover hcover, fun h => absurd h hr⟩

/-- Another task goes on. -/
theorem SyncAt.spared (h : SyncAt waitList t bits b waitTicks took released m a) (hres : m'.txResults t = m.txResults t)
    (hfate : Fate waitList t m m') (htook : took' ↔ took)
    (hreleased : released' ↔ released ∨ m'.entry t = none ∧ m'.blockItemValue t ≠ m.blockItemValue t ∧
      m'.blockItemValue t &&& unblockedDueToBitSet width ≠ 0) :
    SyncAt waitList t bits b waitTicks took' released' m' a := by
  have hkept : ¬ Listed waitList m.kernel t → m'.blockItemValue t = m.blockItemValue t ∧
      ¬ Listed waitList m'.kernel t := by
    intro hl
    cases hfate with
    | kept hv hl' => exact ⟨hv, fun h => hl (hl' h)⟩
    | told x hl' => exact absurd hl' hl
  have hsame : m'.blockItemValue t = m.blockItemValue t → (released' ↔ released) := by
    intro hv
    rw [hreleased]
    exact or_iff_left fun h => h.2.1 hv
  cases h with
  | calling c => exact .calling c
  | inSet hhead hl hr =>
      obtain ⟨hv, hl'⟩ := hkept hl
      exact .inSet (hres ▸ hhead) hl' fun h => hr ((hsame hv).mp h)
  | waiting hhead hcover hv hr =>
      cases hfate with
      | kept hv' _ => exact .waiting (hres ▸ hhead) hcover (hv'.trans hv) fun h => hr ((hsame hv').mp h)
      | told x _ hb hv' hl =>
          rw [hv] at hb
          exact .told (hres ▸ hhead) hcover hv' (satisfies_of_unblocks hb) hl
  | told hhead hcover hv hx hl =>
      obtain ⟨hv', hl'⟩ := hkept hl
      exact .told (hres ▸ hhead) hcover (hv'.trans hv) hx hl'
  | ending hl hr =>
      obtain ⟨hv, hl'⟩ := hkept hl
      refine .ending hl' ?_
      unfold Promised
      rw [htook, hsame hv]
      exact hr

theorem SyncBegun.spared (h : SyncBegun t bits b waitTicks took released m) (hres : m'.txResults t = m.txResults t)
    (he : m'.entry t = m.entry t) (htook : took' ↔ took) (hreleased : m'.entry t ≠ none → (released' ↔ released)) :
    SyncBegun t bits b waitTicks took' released' m' := by
  refine ⟨fun hn => ?_, fun r hr => ?_⟩
  · rw [htook, hres]
    exact h.known (he ▸ hn)
  · unfold Promised
    rw [htook, hreleased (by simp [hr])]
    exact h.entry r (he ▸ hr)

theorem SyncBegun.restarted {call : Call width} (h : SyncBegun t bits b waitTicks took released c)
    (hr : Restarted c m) :
    SyncHolds waitList t bits b waitTicks (.calling call) took released m := by
  refine ⟨⟨fun he => ?_, fun r he => ?_⟩, fun _ => ⟨call, rfl⟩, .calling call⟩
  · rw [hr.entry] at he
    rw [hr.txResults t he]
    exact h.known he
  · rw [hr.entry] at he
    exact h.entry r he

/-- The task itself goes on, and its call is not over. -/
theorem SyncBegun.grown (h : SyncBegun t bits b waitTicks took released m) (he : m.entry t = none) (hc : Grows t m c) :
    SyncBegun t bits b waitTicks (took ∨ (Call.sync bits b waitTicks).took (c.txResults t)) released c := by
  refine ⟨fun _ => or_iff_right_of_imp fun ht => ?_, fun r hr => ?_⟩
  · exact took_mono hc.results ((h.known he).mp ht)
  · rw [hc.entry, he] at hr
    cases hr

theorem SyncHolds.recorded
    (h : SyncHolds waitList t bits b waitTicks (.ending (.sync bits b waitTicks) r) took released m)
    (hc : Recorded t r m c) :
    SyncBegun t bits b waitTicks (took ∨ (Call.sync bits b waitTicks).took (c.txResults t)) released c := by
  have he : m.entry t = none := by
    by_contra hne
    obtain ⟨c, hcalling⟩ := h.ended hne
    cases hcalling
  have htook : took ∨ (Call.sync bits b waitTicks).took (c.txResults t) ↔ took := by
    refine or_iff_left_of_imp fun ht => (h.known he).mpr ?_
    rcases hc.short with hr | hr
    · rwa [hr] at ht
    · simp [hr, Call.took] at ht
  rw [htook]
  refine ⟨fun hn => ?_, fun r' hr' => ?_⟩
  · rw [hc.results hn]
    exact h.known he
  · cases h.at_ with
    | ending _ hright =>
        rcases hc.entry with hn | hs
        · rw [hn, he] at hr'
          cases hr'
        · rw [hs] at hr'
          cases hr'
          exact hright

/-! ## Steps -/

theorem wpc_attempt_grows {call : Call width} (hcur : m.kernel.current = some t) (he : m.entry t = none) :
    wpc (attempt cfg port waitList call) (fun _ => Grows t m) True (Grows t m) m := by
  have hm : Grows t m m := .start hcur
  have hm' := frame_grows.txPtr 0 hm
  unfold attempt
  refine wpc_bind (wpc_onKernel (Kernel.wpc_getCurrent hcur hm (wpc_bind (wpc_gets hm ?_))))
  dsimp only
  rw [he]
  refine wpc_bind (wpc_store hm hm' ?_)
  exact wpc_mono (frame_grows.stays_begin tells_grows call _ hm') (fun _ _ hc => hc.1) fun _ hc => hc

/-- The task goes on in its call. -/
theorem wpc_prog_grows {call : Call width} (hcur : m.kernel.current = some t) (hcall : a.call = some call)
    (hopen : ∀ c, a = .calling c → m.entry t = none) (hend : ∀ c r, a ≠ .ending c r) :
    wpc (a.prog cfg port waitList) (fun _ => Grows t m) True (Grows t m) m := by
  have F : Frame t (Grows t m) := frame_grows
  have hpass : ∀ {p : Prog (Machine width) (Activity width)}, Stays (Grows t m) p (fun _ => True) →
      wpc p (fun _ => Grows t m) True (Grows t m) m := fun hp =>
    wpc_mono (hp m (.start hcur)) (fun _ _ hc => hc.1) fun _ hc => hc
  cases a with
  | calling c => exact wpc_attempt_grows hcur (hopen c rfl)
  | inSet bits b n orig => exact hpass ((F.stays_syncTest _ _ _ _).bind fun _ _ => stays_pure trivial)
  | ending c r => exact absurd rfl (hend c r)
  | yielding c =>
      cases c with
      | set bits => exact wpc_pure (.start hcur) (.start hcur)
      | wait bits clear all n => exact hpass ((F.stays_waitAwoken _ _).bind fun _ _ => stays_pure trivial)
      | sync bits b n => exact hpass ((F.stays_syncAwoken _).bind fun _ _ => stays_pure trivial)
  | idle => cases hcall
  | elsewhere => cases hcall

theorem took_noting_sync (h : (s.activity t).call = some (.sync bits b waitTicks)) :
    (s.noting u m).took t ↔ s.took t ∨ (Call.sync bits b waitTicks).took (m.txResults t) := by
  simp [System.noting, h]

theorem released_noting : (s.noting u m).released t ↔ s.released t ∨ t ≠ u ∧ m.entry t = none ∧
    m.blockItemValue t ≠ s.machine.blockItemValue t ∧ m.blockItemValue t &&& unblockedDueToBitSet width ≠ 0 := by
  simp [System.noting, and_assoc]

structure SyncSound (waitList : Nat) (s : System width) : Prop extends Tidy s where
  holds : ∀ t bits b waitTicks, 0 < waitTicks → (s.activity t).call = some (.sync bits b waitTicks) →
    SyncHolds waitList t bits b waitTicks (s.activity t) (s.took t) (s.released t) s.machine

/-- A task that does not go on has taken the bits or not as before. -/
theorem SyncSound.took_other (h : SyncSound waitList s) (hticks : 0 < waitTicks)
    (hcall : (s.activity t).call = some (.sync bits b waitTicks)) (hres : m.txResults t = s.machine.txResults t) :
    (s.noting u m).took t ↔ s.took t := by
  have hholds := h.holds t bits b waitTicks hticks hcall
  rw [took_noting_sync hcall, hres]
  refine or_iff_left_of_imp fun ht => ?_
  by_cases he : s.machine.entry t = none
  · exact (hholds.known he).mpr ht
  · obtain ⟨c, hc⟩ := hholds.ended he
    simp [h.ended t c hc he, Call.took] at ht

theorem SyncSound.begun_other (h : SyncSound waitList s) (hticks : 0 < waitTicks)
    (hcall : (s.activity t).call = some (.sync bits b waitTicks)) (htu : t ≠ u) (hs : Spares u s.machine m) :
    SyncBegun t bits b waitTicks ((s.noting u m).took t) ((s.noting u m).released t) m := by
  have hholds := h.holds t bits b waitTicks hticks hcall
  have hres := hs.txResults t htu
  refine hholds.spared hres (hs.entry t htu) (h.took_other hticks hcall hres) fun hne => ?_
  rw [released_noting]
  exact or_iff_left fun hr => hne hr.2.1

theorem SyncSound.running (h : SyncSound waitList s) (hu : s.Executes u) (hact : s.activity u ≠ .idle)
    (horder : Orderly waitList u s.kernel)
    (hagain : ∀ bits b waitTicks, s.activity u = .calling (.sync bits b waitTicks) → 0 < waitTicks →
      s.machine.entry u = none → s.released u = false)
    (hout : ((s.activity u).prog cfg port waitList s.machine).out = some (a, m)) :
    SyncSound waitList { s.noting u m with machine := m, activity := Function.update s.activity u a } := by
  have hspares : Spares u s.machine m :=
    (((spares_prog (s.activity u)) s.machine (.start hu.1 h.eventBits)).post hout).1
  have hprog := (after_prog hu.1 hact (h.ended u)).post hout
  refine ⟨h.toTidy.running hu hact hout, fun t bits b waitTicks hticks hcall => ?_⟩
  by_cases htu : t = u
  · subst htu
    simp only [Function.update_self] at hcall ⊢
    have hwas : (s.activity t).call = some (.sync bits b waitTicks) := by
      rcases hprog with ⟨call, hold, hnew, _⟩ | ⟨hidle, _⟩
      · rw [hold, ← hnew, hcall]
      · rw [hidle] at hcall
        cases hcall
    have hholds := h.holds t bits b waitTicks hticks hwas
    have htook := took_noting_sync (m := m) (u := t) hwas
    have hreleased : (s.noting t m).released t ↔ s.released t := by
      rw [released_noting]
      exact or_iff_left fun hr => hr.1 rfl
    have hgrown : s.machine.entry t = none → Grows t s.machine m →
        SyncAt waitList t bits b waitTicks ((s.noting t m).took t) ((s.noting t m).released t) m a →
        SyncHolds waitList t bits b waitTicks a ((s.noting t m).took t) ((s.noting t m).released t) m := by
      intro he hg hat
      refine ⟨?_, fun hne => absurd (hg.entry.trans he) hne, hat⟩
      rw [htook, hreleased]
      exact hholds.grown he hg
    have hopen : (∀ c, s.activity t ≠ .calling c) → s.machine.entry t = none := by
      intro hne
      by_contra he
      obtain ⟨c, hc⟩ := hholds.ended he
      exact hne c hc
    have hg : s.machine.entry t = none → (∀ c r, s.activity t ≠ .ending c r) → Grows t s.machine m := fun he hend =>
      (wpc_prog_grows hu.1 hwas (fun _ _ => he) hend).post hout
    have hat := hholds.at_
    cases ha : s.activity t with
    | calling call =>
        rw [ha] at hwas hout
        cases hwas
        cases he : s.machine.entry t with
        | some r =>
            rw [((wpc_bypass hu.1 he).post hout).1] at hcall
            cases hcall
        | none =>
            refine hgrown he (hg he (by simp [ha])) (((after_attempt_sync horder he hticks).post hout).at ?_)
            rw [hreleased, hagain bits b waitTicks ha hticks he]
            nofun
    | inSet bits' b' n' orig =>
        rw [ha] at hat hout
        cases hat with
        | inSet hhead hl hr =>
            have he := hopen (by simp [ha])
            refine hgrown he (hg he (by simp [ha])) (((after_syncTest hu.1 hticks hhead hl).post hout).at ?_)
            rwa [hreleased]
    | yielding call =>
        rw [ha] at hat hout
        have he := hopen (by simp [ha])
        have hgrows := hg he (by simp [ha])
        -- it returns, and whether it has been told so it does not find out by itself
        have hawoken : ∀ {orig}, (s.machine.txResults t).head? = some orig → (orig ||| bits) &&& b ≠ b →
            call = .sync bits b waitTicks → (s.released t → ∃ x, s.machine.blockItemValue t = unblocked (eventsOf x) ∧
              satisfies (eventsOf b) true (eventsOf x)) →
            SyncHolds waitList t bits b waitTicks a ((s.noting t m).took t) ((s.noting t m).released t) m := by
          rintro orig hhead hcover rfl htold
          obtain ⟨hk, r, rfl, hr⟩ := (after_awoken hu.1).post hout
          refine hgrown he hgrows (.ending ?_ ⟨fun ht => ?_, fun hrel => ?_⟩)
          · rw [hk]
            exact horder.not_listed
          · rw [htook, hholds.known he] at ht
            refine absurd ?_ hcover
            rcases ht with ht | ht
            · exact ((took_sync_iff hhead).mp ht).2
            · exact ((took_sync_iff (hgrows.head hhead)).mp ht).2
          · obtain ⟨x, hx, hsat⟩ := htold (hreleased.mp hrel)
            refine ⟨_, hr ?_, ?_⟩
            · rw [hx]
              exact unblocked_told _
            · rwa [hx, eventsOf_unblocked, eventsOf_eventsOf]
        cases hat with
        | waiting hhead hcover hv hr => exact hawoken hhead hcover rfl fun h => absurd h hr
        | told hhead hcover hv hx hl => exact hawoken hhead hcover rfl fun _ => ⟨_, hv, hx⟩
    | ending call r =>
        rw [ha] at hout
        rw [((wpc_syscallEnd_results hu.1).post hout).1] at hcall
        cases hcall
    | idle =>
        rw [ha] at hwas
        cases hwas
    | elsewhere =>
        rw [ha] at hwas
        cases hwas
  · simp only [Function.update_of_ne htu] at hcall ⊢
    have hholds := h.holds t bits b waitTicks hticks hcall
    have hres := hspares.txResults t htu
    refine ⟨h.begun_other hticks hcall htu hspares, fun hne => hholds.ended (hspares.entry t htu ▸ hne), ?_⟩
    refine hholds.at_.spared hres ((after_prog_fate htu horder).post hout) (h.took_other hticks hcall hres) ?_
    rw [released_noting]
    exact or_congr_right (and_iff_right htu)

theorem SyncSound.failing (h : SyncSound waitList s) (hu : s.Executes u)
    (hc : c ∈ crashes ((s.activity u).prog cfg port waitList) s.machine) (hr : Restarted c m) :
    SyncSound waitList { s.noting u c with machine := m, activity := fun t => (s.activity t).restarted } := by
  have hspares : Spares u s.machine c := ((spares_prog (s.activity u)) s.machine (.start hu.1 h.eventBits)).crash hc
  refine ⟨h.toTidy.failing hu hc hr, fun t bits b waitTicks hticks hcall => ?_⟩
  rw [call_restarted] at hcall
  dsimp only
  rw [restarted_calling hcall]
  refine SyncBegun.restarted ?_ hr
  by_cases htu : t = u
  · subst htu
    have hholds := h.holds t bits b waitTicks hticks hcall
    have hreleased : (s.noting t c).released t ↔ s.released t := by
      rw [released_noting]
      exact or_iff_left fun hr => hr.1 rfl
    by_cases hend : ∃ call r, s.activity t = .ending call r
    · obtain ⟨call, r, ha⟩ := hend
      rw [ha] at hcall hholds hc
      cases hcall
      have hbegun := hholds.recorded ((wpc_syscallEnd_results hu.1).crash hc)
      have htook := took_noting_sync (m := c) (u := t) (s := s) (by rw [ha]; rfl)
      rwa [← htook, ← hreleased] at hbegun
    · have hends : ∀ call r, s.activity t ≠ .ending call r := fun call r ha => hend ⟨call, r, ha⟩
      rw [took_noting_sync hcall, hreleased]
      cases he : s.machine.entry t with
      | none => exact hholds.grown he ((wpc_prog_grows hu.1 hcall (fun _ _ => he) hends).crash hc)
      | some r =>
          obtain ⟨call, ha⟩ := hholds.ended (by simp [he])
          rw [ha] at hc
          obtain ⟨hentry, hres, _⟩ := (wpc_bypass hu.1 he).crash hc
          have htook := h.took_other (u := t) hticks hcall (congrFun hres t)
          rw [took_noting_sync hcall] at htook
          exact hholds.toSyncBegun.spared (congrFun hres t) (congrFun hentry t) htook fun _ => Iff.rfl
  · exact h.begun_other hticks hcall htu hspares

theorem syncSound_start : SyncSound waitList (System.start cfg : System width) := ⟨tidy_start, fun _ _ _ _ _ => nofun⟩

/-- Nothing is done to the event group. -/
theorem SyncHolds.still (h : SyncHolds waitList t bits b waitTicks a took released m)
    (hres : m'.txResults t = m.txResults t)
    (he : m'.entry t = m.entry t) (hv : m'.blockItemValue t = m.blockItemValue t)
    (hl : Listed waitList m'.kernel t → Listed waitList m.kernel t) :
    SyncHolds waitList t bits b waitTicks a took released m' := by
  refine ⟨h.toSyncBegun.spared hres he Iff.rfl fun _ => Iff.rfl, fun hne => h.ended (he ▸ hne), ?_⟩
  exact h.at_.spared hres (.kept hv hl) Iff.rfl (or_iff_left fun hr => hr.2.1 hv).symm

theorem SyncSound.step (h : SyncSound waitList s) (hs : Intact s.kernel) (hstep : System.Step cfg port waitList e s s')
    (hok : Resumes cfg e s s') : SyncSound waitList s' := by
  have htidy := h.toTidy.step hstep
  cases hstep with
  | @call _ t c ht hidle =>
      have hnil : s.machine.txResults t = [] := h.outside t (by simp [hidle, Activity.call])
      refine ⟨htidy, fun v bits b n hn hc => ?_⟩
      by_cases hvt : v = t
      · subst hvt
        simp only [Function.update_self] at hc ⊢
        refine ⟨⟨fun _ => ?_, fun r hr => ?_⟩, fun _ => ⟨c, rfl⟩, .calling c⟩
        · simp [hnil, Call.took]
        · simp at hr
      · simp only [Function.update_of_ne hvt] at hc ⊢
        exact (h.holds v bits b n hn hc).still rfl (Function.update_of_ne hvt _ _) rfl id
  | run ht hact hout =>
      refine h.running ht hact ((hs.alive ht).orderly waitList) (fun bits b n ha hn he => ?_) hout
      exact (hok.again _ bits b n rfl ha hn he).resolve_right not_early_run
  | @bypass _ t c ht hcalling =>
      refine ⟨htidy, fun v bits b n hn hc => ?_⟩
      have hholds := h.holds v bits b n hn hc
      by_cases hvt : v = t
      · subst hvt
        rw [hcalling] at hholds ⊢
        exact ⟨⟨hholds.known, hholds.entry⟩, hholds.ended, .calling c⟩
      · exact hholds.still rfl rfl (Function.update_of_ne hvt _ _) id
  | @syscallBegin _ t ht hidle =>
      refine ⟨htidy, fun v bits b n hn hc => ?_⟩
      by_cases hvt : v = t
      · subst hvt
        simp [Activity.call] at hc
      · simp only [Function.update_of_ne hvt] at hc ⊢
        exact (h.holds v bits b n hn hc).still rfl (Function.update_of_ne hvt _ _) rfl id
  | @other _ op k ho hother hout =>
      have hop : op.entered ≠ some waitList := by
        cases op with
        | block l n => exact fun he => hother.2 (Option.some.inj he)
        | blockUnsorted l n => exact fun he => hother.2 (Option.some.inj he)
        | _ => simp [Kernel.Op.entered]
      exact ⟨htidy, fun t bits b n hn hc => (h.holds t bits b n hn hc).still rfl rfl rfl
        (Kernel.listed_of_prog hop hout)⟩
  | fail ht hc hr => exact h.failing ht hc (restarted_reboot hr)
  | failOther ho hother hk hr =>
      have hr := restarted_reboot hr
      refine ⟨htidy, fun t bits b n hn hc => ?_⟩
      rw [call_restarted] at hc
      have hholds := h.holds t bits b n hn hc
      dsimp only
      rw [restarted_calling hc]
      refine SyncBegun.restarted ?_ hr
      exact ⟨hholds.known, hholds.entry⟩

/-! ## The scheduler's lists -/

theorem intact_syscallEnd {call : Call width} :
    Stays (fun c : Machine width => Intact c.kernel) (syscallEnd call r) fun _ => True := by
  refine (keeps_kernel_getCurrent.stays Intact).bind fun t _ => ?_
  refine Stays.bind (stays_store fun _ hc => hc) fun _ _ => Stays.bind (stays_store fun _ hc => hc) fun _ _ => ?_
  refine Stays.bind (Q := fun _ => True) ?_ fun _ _ => ?_
  · exact stays_zoom (stays_store fun k hk => Intact.listTxDone hk _) (fun _ => rfl) (fun _ => id) fun _ _ _ => id
  · exact (keeps_kernel_epilogue.stays Intact).bind fun _ _ => stays_pure trivial

/-- Outside of list transactions the lists are in order wherever power fails. -/
theorem intact_resting (ha : a.movesTasks = false) :
    Stays (fun c : Machine width => Intact c.kernel) (a.prog cfg port waitList) fun _ => True := by
  cases a with
  | calling call => cases ha
  | inSet bits b n orig => cases ha
  | idle => exact stays_pure trivial
  | ending call r => exact intact_syscallEnd
  | elsewhere => exact intact_syscallEnd
  | yielding call =>
      cases call with
      | set bits => exact stays_pure trivial
      | wait bits clear all n => exact Keeps.stays ((keeps_kernel_waitAwoken _).bind fun _ => keeps_pure _) Intact
      | sync bits b n => exact Keeps.stays (keeps_kernel_syncAwoken.bind fun _ => keeps_pure _) Intact

/-- The restart finds no list transaction. -/
theorem Intact.reboot (h : Intact c.kernel) (hr : (reboot cfg c).out = some ((), m)) : Intact m.kernel := by
  have hafter : After (EventGroup.reboot cfg) (fun _ m => Intact m.kernel) c := by
    simp only [EventGroup.reboot, after_bind, after_onKernel]
    refine Ends.after ((Kernel.ends_recover_idle h.inv.op h.inv.microOp).mpr ?_)
    exact ⟨⟨h.inv.linked, h.inv.timely, h.inv.placed, h.inv.free, h.inv.current, h.inv.running, h.inv.stopped, h.inv.op,
      h.inv.microOp⟩, h.typed⟩
  exact hafter.post hr

theorem Resumes.keeps_intact (hok : Resumes cfg e s s') (h : Intact s.kernel)
    (hstep : System.Step cfg port waitList e s s') : Intact s'.kernel := by
  cases hstep with
  | @fail _ t c m ht hc hr =>
      cases ha : (s.activity t).movesTasks with
      | true => exact hok.intact (some t) rfl fun u hu => Option.some.inj hu ▸ ha
      | false => exact ((intact_resting ha s.machine h).crash hc).reboot hr
  | failOther ho hother hk hr => exact hok.intact none rfl fun _ => nofun
  | run ht hact hout => exact h.step (.run ht hact hout) fun _ => nofun
  | call c ht hidle => exact h
  | bypass ht hcalling => exact h
  | syscallBegin ht hidle => exact h
  | other ho hother hout => exact h.prog ho hout

/-- The lists are in order throughout. -/
theorem intact_resumes (h : System.Reachable cfg port waitList (Resumes cfg) s) : Intact s.kernel := by
  induction h with
  | start => exact intact_new
  | step _ hstep hok ih => exact hok.keeps_intact ih hstep

theorem SyncSound.reachable (h : System.Reachable cfg port waitList (Resumes cfg) s) : SyncSound waitList s := by
  induction h with
  | start => exact syncSound_start
  | step hs hstep hok ih => exact ih.step (intact_resumes hs) hstep hok

/-! ## The end of a `sync` -/

/-- A `sync` that has taken its bits or has been unblocked goes on to the end, and its task does not come into the
wait list. -/
theorem SyncHolds.goes (h : SyncHolds waitList t bits b waitTicks a took released m) (hover : took ∨ released)
    (hcall : a.call = some (.sync bits b waitTicks)) (hm : Alive t m.kernel)
    (hconf : Confined m.kernel.taskCnt m.kernel.recoveryMode m.kernel)
    (hcalling : ∀ c, a = .calling c → m.entry t ≠ none ∨ m.txResults t ≠ [] → m.kernel.recoveryMode t = true)
    (hinSet : ∀ bits b n orig, a = .inSet bits b n orig → ¬ Fresh t m → m.kernel.recoveryMode t = true)
    (hagain : ∀ c, a = .calling c → m.entry t = none → ¬ released) :
    wpc (a.prog cfg port waitList) (fun a' c => (∃ c orig, a = .calling c ∧ a' = .inSet bits b waitTicks orig) ∨
      Over t (.sync bits b waitTicks) (Promised b took released) a' c) False
      (fun c => ¬ Listed waitList c.kernel t) m := by
  have hl : ¬ Listed waitList m.kernel t := hm.not_listed
  have hcur := hm.current
  have hopen : (∀ c, a ≠ .calling c) → m.entry t = none := by
    intro hne
    by_contra he
    obtain ⟨c, hc⟩ := h.ended he
    exact hne c hc
  -- what the results say of a `sync` that has taken its bits
  have hresults : took → m.entry t = none → ∃ orig, (m.txResults t).head? = some orig ∧ (orig ||| bits) &&& b = b := by
    intro ht he
    have htook := (h.known he).mp ht
    cases hres : m.txResults t with
    | nil => simp [hres, Call.took] at htook
    | cons orig rest =>
        rw [hres] at htook
        exact ⟨orig, rfl, ((took_sync_iff rfl).mp htook).2⟩
  have hstill : ∀ c, Still m c → ¬ Listed waitList c.kernel t := by
    intro c hc hlc
    rw [Listed, hc.lists] at hlc
    exact hl hlc
  have hat := h.at_
  cases a with
  | calling call =>
      cases hcall
      cases he : m.entry t with
      | none =>
          have hn := hagain _ rfl he
          have ht := hover.resolve_right hn
          obtain ⟨orig, hhead, hcover⟩ := hresults ht he
          have hne : m.txResults t ≠ [] := by
            rintro hnil
            simp [hnil] at hhead
          refine wpc_mono (wpc_attempt_resumed hm hconf (hcalling _ rfl (Or.inr hne)) he hhead hcover) ?_ fun _ hc => hc
          rintro a' c (rfl | rfl)
          · exact Or.inl ⟨_, orig, rfl, rfl⟩
          · exact Or.inr (Or.inl ⟨_, rfl, fun _ => right_cover hcover, fun hr => absurd hr hn⟩)
      | some r =>
          refine wpc_mono (wpc_recorded hcur (hcalling _ rfl (Or.inl (by simp [he]))) he) ?_ hstill
          rintro a' c ⟨⟨rfl, hentry⟩, -⟩
          exact Or.inr (Or.inr ⟨rfl, r, hentry, h.entry r he⟩)
  | inSet bits' b' n' orig' =>
      cases hat with
      | inSet hhead' _ hn =>
          obtain ⟨orig, hhead, hcover⟩ := hresults (hover.resolve_right hn) (hopen fun _ hc => by cases hc)
          cases hhead'.symm.trans hhead
          refine wpc_mono (wpc_test_resumed hcur (hinSet _ _ _ _ rfl) hl hcover) ?_ fun _ hc => hc
          rintro a' c rfl
          exact Or.inr (Or.inl ⟨_, rfl, fun _ => right_cover hcover, fun hr => absurd hr hn⟩)
  | yielding call =>
      have hnot : ∀ {orig}, (m.txResults t).head? = some orig → (orig ||| bits) &&& b ≠ b → ¬ took := by
        intro orig hhead hn ht
        obtain ⟨orig', hhead', hcover⟩ := hresults ht (hopen fun _ hc => by cases hc)
        cases hhead.symm.trans hhead'
        exact hn hcover
      cases hat with
      | waiting hhead hn _ hr => exact absurd hover (not_or.mpr ⟨hnot hhead hn, hr⟩)
      | @told _ x hhead hn hv hx _ =>
          have htold : m.blockItemValue t &&& unblockedDueToBitSet width ≠ 0 := by
            rw [hv]
            exact unblocked_told _
          refine wpc_mono (wpc_awoken_told hcur hl htold) ?_ fun _ hc => hc
          rintro a' c rfl
          refine Or.inr (Or.inl ⟨_, rfl, fun ht => absurd ht (hnot hhead hn), fun _ => ⟨_, rfl, ?_⟩⟩)
          rwa [hv, eventsOf_unblocked, eventsOf_eventsOf]
  | ending call r =>
      cases hat with
      | ending _ hp =>
          refine wpc_mono (wpc_syscallEnd_still hcur) ?_ hstill
          rintro a' c ⟨⟨rfl, hentry⟩, -⟩
          exact Or.inr (Or.inr ⟨rfl, r, hentry, hp⟩)
  | idle => cases hcall
  | elsewhere => cases hcall

end EventGroup

end IntOS
