import IntOS.EventGroup.Lemmas.Alive
import IntOS.EventGroup.Lemmas.Returns

/-!
# Whether the event happened

One call of a task, with what all others do while it lasts, without a power failure. The states of the call are those
that all tasks go through meanwhile, those within a critical section as well.
-/

namespace IntOS

open Persist Persist.Prog

namespace EventGroup

open Kernel (Listed)

variable {width : PtrWidth} {cfg : Config} {port : Port} {waitList t u : Nat} {m m' m₀ c : Machine width}
  {b bits x : EventBits width} {clear all : Bool} {waitTicks : Nat} {a a' : Activity width} {call : Call width}
  {x' : Activity width} {r : Outcome width} {s s' s₀ : System width} {e : System.Event}
  {seen seen' : Set (Machine width)}

/-- What the call waits for: the bits, and whether all of them. -/
def Call.awaits : Call width → Option (EventBits width × Bool)
  | .wait bitsToWaitFor _ waitForAll _ => some (bitsToWaitFor, waitForAll)
  | .sync _ bitsToWaitFor _ => some (bitsToWaitFor, true)
  | .set _ => none

/-- The call has not returned. -/
def Activity.Unfinished : Activity width → Prop
  | calling _ | inSet _ _ _ _ | yielding _ => True
  | ending _ _ | idle | elsewhere => False

instance (a : Activity width) : Decidable a.Unfinished := by
  unfold Activity.Unfinished
  split <;> infer_instance

namespace System

/-- The states that a step goes through. -/
def moments (cfg : Config) (port : Port) (waitList : Nat) (s : System width) : Event → Set (Machine width)
  | .run t => {m | m ∈ crashes ((s.activity t).prog cfg port waitList) s.machine}
  | _ => {s.machine}

/-- A call of the task `t` that begins in `s₀` lasts up to `s`, and these are the states it has gone through. -/
inductive During (cfg : Config) (port : Port) (waitList t : Nat) (s₀ : System width) :
    Set (Machine width) → System width → Prop
  | begin : During cfg port waitList t s₀ ∅ s₀
  | step {e : Event} {seen : Set (Machine width)} {s s' : System width} : During cfg port waitList t s₀ seen s →
      Step cfg port waitList e s s' → (∀ u, e ≠ .fail u) → (∀ call, s.activity t = .calling call → e = .run t) →
      (s'.activity t).Unfinished → During cfg port waitList t s₀ (seen ∪ s.moments cfg port waitList e) s'

end System

/-- The call succeeds only with bits that satisfy the wait, and only if the wait condition has held. -/
def Honest (b : EventBits width) (all : Bool) (seen : Set (Machine width)) (r : Outcome width) : Prop :=
  ∀ bits, r = .ok bits → (∃ m ∈ seen, waitConditionOk b all m) ∧ satisfies b all bits

/-- A call that begins in `m₀` and that returns from `m` on succeeds because the event happened. -/
def Meant (t : Nat) (m₀ m : Machine width) : Call width → Prop
  | .wait bitsToWaitFor _ waitForAll waitTicks =>
      if m₀.blockItemValue t &&& unblockedDueToBitSet width ≠ 0 then
        waitConditionOk bitsToWaitFor waitForAll m₀ ∧
          satisfies bitsToWaitFor waitForAll (eventsOf (m₀.blockItemValue t))
      else
        0 < waitTicks ∨ waitConditionOk bitsToWaitFor waitForAll m₀
  | .sync bitsToSet bitsToWaitFor waitTicks =>
      0 < waitTicks ∨ (getEventBits m₀ ||| bitsToSet) &&& bitsToWaitFor = bitsToWaitFor ∨
        waitConditionOk bitsToWaitFor true m
  | .set _ => True

/-- Where the task is in its call. -/
inductive Point (waitList t : Nat) (b : EventBits width) (all : Bool) (call : Call width) (m₀ : Machine width)
    (seen : Set (Machine width)) (m : Machine width) : Activity width → Prop
  | calling : m = m₀ → seen = ∅ → Point waitList t b all call m₀ seen m (.calling call)
  | inSet {bits : EventBits width} {waitTicks : Nat} : call = .sync bits b waitTicks →
      ((getEventBits m₀ ||| bits) &&& b = b → ∃ m' ∈ seen, waitConditionOk b all m') →
      Point waitList t b all call m₀ seen m (.inSet bits b waitTicks (getEventBits m₀))
  | waiting {clear : Bool} : (∀ m', Meant t m₀ m' call) → m.blockItemValue t = itemOf b clear all →
      Point waitList t b all call m₀ seen m (.yielding call)
  | told {x : EventBits width} : (∀ m', Meant t m₀ m' call) → m.blockItemValue t = unblocked (eventsOf x) →
      satisfies b all (eventsOf x) → (∃ m' ∈ seen, waitConditionOk b all m') → ¬ Listed waitList m.kernel t →
      Point waitList t b all call m₀ seen m (.yielding call)

/-- What the part of the call from `m` on comes to. -/
inductive Onward (waitList t : Nat) (b : EventBits width) (all : Bool) (call : Call width) (m₀ : Machine width)
    (seen : Set (Machine width)) (m c : Machine width) : Activity width → Prop
  | passed : Onward waitList t b all call m₀ seen m c .idle
  | ending {r : Outcome width} : (Honest b all seen r ↔ Meant t m₀ m call) →
      Onward waitList t b all call m₀ seen m c (.ending call r)
  | goes {a : Activity width} : Point waitList t b all call m₀ seen c a → Onward waitList t b all call m₀ seen m c a

/-! ## The task goes on -/

theorem honest_ok (hseen : ∃ m ∈ seen, waitConditionOk b all m) (hx : satisfies b all x) :
    Honest b all seen (.ok x : Outcome width) := by
  rintro _ ⟨⟩
  exact ⟨hseen, hx⟩

theorem honest_error : Honest b all seen (.error x : Outcome width) := nofun

theorem not_honest_ok (hx : ¬ satisfies b all x) : ¬ Honest b all seen (.ok x : Outcome width) := fun h =>
  hx (h x rfl).2

/-- A wait begins. -/
theorem onward_wait (hb : eventsOf b = b) (hcur : m.kernel.current = some t) (he : m.entry t = none) :
    After (attempt cfg port waitList (.wait b clear all waitTicks)) (fun a c =>
      Onward waitList t b all (.wait b clear all waitTicks) m
        {c | c ∈ crashes (attempt cfg port waitList (.wait b clear all waitTicks)) m} m c a) m := by
  refine (after_attempt_wait hcur he).mono ?_
  rintro a c h
  cases h with
  | told htold =>
      refine .ending ?_
      rw [Meant, if_pos htold]
      constructor
      · intro h
        obtain ⟨⟨c, hc, hok⟩, hx⟩ := h _ rfl
        rw [waitConditionOk_eq, (wpc_attempt_told htold hcur he).crash hc] at hok
        exact ⟨hok, hx⟩
      · rintro ⟨hok, hx⟩
        exact honest_ok ⟨m, mem_crashes_self _ _, hok⟩ hx
  | found hnew hok =>
      refine .ending (iff_of_true (honest_ok ⟨m, mem_crashes_self _ _, hok⟩ ?_) ?_)
      · rwa [getEventBits, satisfies_eventsOf hb]
      · rw [Meant, if_neg (not_not_intro hnew)]
        exact Or.inr hok
  | waiting hnew hticks hv =>
      refine .goes (.waiting (fun m' => ?_) hv)
      rw [Meant, if_neg (not_not_intro hnew)]
      exact Or.inl hticks
  | refused hnew hok hticks =>
      refine .ending (iff_of_false (not_honest_ok ?_) ?_)
      · rwa [getEventBits, satisfies_eventsOf hb]
      · rw [Meant, if_neg (not_not_intro hnew)]
        exact not_or_intro hticks hok

/-- A `sync` begins. -/
theorem onward_sync (hb : eventsOf b = b) (h : Orderly waitList t m.kernel) (he : m.entry t = none)
    (hnil : m.txResults t = []) :
    After (attempt cfg port waitList (.sync bits b waitTicks)) (fun a c =>
      Onward waitList t b true (.sync bits b waitTicks) m
        {c | c ∈ crashes (attempt cfg port waitList (.sync bits b waitTicks)) m} m c a) m := by
  refine ((after_attempt_opened h he hnil).and (meets_attempt_covered hb h he hnil)).mono ?_
  rintro a c ⟨hopened, hmeets⟩
  have hseen : (getEventBits m ||| bits) &&& b = b →
      ∃ c ∈ {c | c ∈ crashes (attempt cfg port waitList (.sync bits b waitTicks)) m}, waitConditionOk b true c := by
    intro hcover
    rcases hmeets with ⟨c, hc, hok⟩ | hn
    · exact ⟨c, List.mem_cons_of_mem _ hc, hok⟩
    · exact absurd hcover hn
  cases hopened with
  | inSet ha =>
      subst ha
      exact .goes (.inSet rfl hseen)
  | tested hle ht =>
      cases ht with
      | found hcover _ =>
          exact .ending (iff_of_true (honest_ok (hseen hcover) (satisfies_all.mpr hcover)) (Or.inr (Or.inl hcover)))
      | waiting _ hticks hv => exact .goes (.waiting (fun _ => Or.inl hticks) hv)
      | refused hcover hticks =>
          have hset : ¬ satisfies b true (m.eventBits ||| eventsOf bits) := fun h => hcover ((covers_iff hb).mpr h)
          refine .ending (iff_of_false (not_honest_ok fun hx => hset ?_) ?_)
          · rw [getEventBits, satisfies_eventsOf hb] at hx
            exact satisfies_mono hb hle hx
          · refine not_or_intro hticks (not_or_intro hcover fun hok => hset (satisfies_mono hb (fun i hi => ?_) hok))
            simp [hi]

/-- The rest of a `sync` after the yield of its set. -/
theorem Point.test (hb : eventsOf b = b) (hcur : m.kernel.current = some t)
    (hcover : (getEventBits m₀ ||| bits) &&& b = b → ∃ m' ∈ seen, waitConditionOk b true m') (hm : m ∈ seen) :
    After ((Activity.inSet bits b waitTicks (getEventBits m₀)).prog cfg port waitList) (fun a c =>
      Onward waitList t b true (.sync bits b waitTicks) m₀ seen m c a) m := by
  refine (after_test hcur).mono ?_
  rintro a c h
  cases h with
  | found hfound _ =>
      exact .ending (iff_of_true (honest_ok (hcover hfound) (satisfies_all.mpr hfound)) (Or.inr (Or.inl hfound)))
  | waiting _ hticks hv => exact .goes (.waiting (fun _ => Or.inl hticks) hv)
  | refused hn hticks =>
      have hmeant : Meant t m₀ m (.sync bits b waitTicks) ↔ waitConditionOk b true m = true := by
        simp [Meant, hticks, hn]
      have hbits : satisfies b true (getEventBits m) = waitConditionOk b true m := satisfies_eventsOf hb
      refine .ending (Iff.trans ⟨fun h => ?_, fun hok => ?_⟩ hmeant.symm)
      · rw [← hbits]
        exact (h _ rfl).2
      · exact honest_ok ⟨m, hm, hok⟩ (hbits ▸ hok)

/-- A task that has slept in its call returns what it has been told, or looks at the event bits. -/
theorem Point.awoken (hb : eventsOf b = b) (h : Point waitList t b all call m₀ seen m (.yielding call))
    (hle : seen ⊆ seen') (hm : m ∈ seen') :
    Honest b all seen' (awokenWith b all (m.blockItemValue t) m) ↔ Meant t m₀ m call := by
  cases h with
  | waiting hmeant hv =>
      refine iff_of_true ?_ (hmeant m)
      rw [hv, awokenWith, itemOf_told hb, eventsOf_itemOf hb]
      by_cases hok : waitConditionOk b all m = true
      · rw [if_pos (Or.inr hok)]
        exact honest_ok ⟨m, hm, hok⟩ (satisfies_self hok)
      · rw [if_neg (not_or_intro (not_not_intro rfl) hok)]
        exact honest_error
  | told hmeant hv hx hseen _ =>
      obtain ⟨m', hm', hok⟩ := hseen
      refine iff_of_true ?_ (hmeant m)
      rw [hv, awokenWith, if_pos (Or.inl (unblocked_told _)), eventsOf_unblocked, eventsOf_eventsOf]
      exact honest_ok ⟨m', hle hm', hok⟩ hx

theorem Point.onward (hb : eventsOf b = b) (hcall : call.awaits = some (b, all)) (hnil : m₀.txResults t = [])
    (hm : Orderly waitList t m.kernel) (h : Point waitList t b all call m₀ seen m a) :
    After (a.prog cfg port waitList) (fun a' c =>
      Onward waitList t b all call m₀ (seen ∪ {c | c ∈ crashes (a.prog cfg port waitList) m}) m c a') m := by
  have hle : ∀ p : Prog (Machine width) (Activity width), seen ⊆ seen ∪ {c | c ∈ crashes p m} := fun _ =>
    Set.subset_union_left
  have hself : ∀ p : Prog (Machine width) (Activity width), m ∈ seen ∪ {c | c ∈ crashes p m} := fun _ =>
    Or.inr (mem_crashes_self _ _)
  have hawoken : Point waitList t b all call m₀ seen m (.yielding call) →
      After ((Activity.yielding call).prog cfg port waitList) (fun a' c => Onward waitList t b all call m₀
        (seen ∪ {c | c ∈ crashes ((Activity.yielding call).prog cfg port waitList) m}) m c a') m := by
    intro h
    cases call with
    | wait b' clear all' waitTicks =>
        cases hcall
        refine (after_wait_awoken hm.current).mono ?_
        rintro _ c rfl
        exact .ending (h.awoken hb (hle _) (hself _))
    | set bits => cases hcall
    | sync bits b' waitTicks =>
        cases hcall
        refine (after_sync_awoken hm.current).mono ?_
        rintro _ c rfl
        exact .ending (h.awoken hb (hle _) (hself _))
  cases h with
  | calling hstart hempty =>
      subst hstart hempty
      rw [Set.empty_union]
      cases he : m.entry t with
      | some r =>
          refine After.mono (wpc_bypass hm.current he).2 ?_
          rintro a c ⟨rfl, _⟩
          exact .passed
      | none =>
          cases call with
          | wait b' clear all' waitTicks =>
              cases hcall
              exact onward_wait hb hm.current he
          | set bits => cases hcall
          | sync bits b' waitTicks =>
              cases hcall
              exact onward_sync hb hm he hnil
  | inSet hsync hcover =>
      subst hsync
      cases hcall
      refine Point.test hb hm.current (fun hc => ?_) (hself _)
      obtain ⟨m', hm', hok⟩ := hcover hc
      exact ⟨m', hle _ hm', hok⟩
  | waiting hmeant hv => exact hawoken (.waiting hmeant hv)
  | told hmeant hv hx hseen hl => exact hawoken (.told hmeant hv hx hseen hl)

/-! ## The others go on -/

theorem Point.not_idle (h : Point waitList t b all call m₀ seen m a) : a ≠ .idle := by
  cases h <;> nofun

/-- Nothing happens to the task. -/
theorem Point.still (h : Point waitList t b all call m₀ seen m a) (hle : seen ⊆ seen') (hc : ∀ c, a ≠ .calling c)
    (hv : m'.blockItemValue t = m.blockItemValue t) (hl : Listed waitList m'.kernel t → Listed waitList m.kernel t) :
    Point waitList t b all call m₀ seen' m' a := by
  cases h with
  | calling _ _ => exact absurd rfl (hc call)
  | inSet hsync hcover => exact .inSet hsync fun h => (hcover h).imp fun _ hc => ⟨hle hc.1, hc.2⟩
  | waiting hmeant hv' => exact .waiting hmeant (hv.trans hv')
  | told hmeant hv' hx hseen hn =>
      obtain ⟨c, hc, hok⟩ := hseen
      exact .told hmeant (hv.trans hv') hx ⟨c, hle hc, hok⟩ fun h => hn (hl h)

/-- Another task goes on, and what it may do is tell the task that it is unblocked. -/
theorem Point.spared (hb : eventsOf b = b) (htu : t ≠ u) (hu : Orderly waitList u m.kernel)
    (h : Point waitList t b all call m₀ seen m a) (hc : ∀ c, a ≠ .calling c)
    (hout : (a'.prog cfg port waitList m).out = some (x', m')) :
    Point waitList t b all call m₀ (seen ∪ {c | c ∈ crashes (a'.prog cfg port waitList) m}) m' a := by
  have hle : seen ⊆ seen ∪ {c | c ∈ crashes (a'.prog cfg port waitList) m} := Set.subset_union_left
  cases (after_prog_fate htu hu).post hout with
  | kept hv hl => exact h.still hle hc hv hl
  | told x hl hx hv hn =>
      cases h with
      | calling _ _ => exact absurd rfl (hc call)
      | inSet hsync hcover => exact .inSet hsync fun h => (hcover h).imp fun _ hc => ⟨hle hc.1, hc.2⟩
      | told _ _ _ _ hn' => exact absurd hl hn'
      | waiting hmeant hitem =>
          rw [hitem, unblocks_itemOf hb] at hx
          refine .told hmeant hv hx ?_ hn
          -- the task that sets the bits goes through a state in which the condition holds
          rcases (meets_prog_kept htu hb hitem hu).post hout with ⟨c, hc, hok⟩ | hkept
          · exact ⟨c, Or.inr (List.mem_cons_of_mem _ hc), hok⟩
          · exact absurd (hkept ▸ itemOf_told hb) (hv ▸ unblocked_told _)

theorem Point.step (hb : eventsOf b = b) (hcall : call.awaits = some (b, all)) (hnil : m₀.txResults t = [])
    (hs : Intact s.kernel) (h : Point waitList t b all call m₀ seen s.machine (s.activity t))
    (hstep : System.Step cfg port waitList e s s') (he : ∀ u, e ≠ .fail u)
    (hfirst : ∀ c, s.activity t = .calling c → e = .run t) (hopen : (s'.activity t).Unfinished) :
    Point waitList t b all call m₀ (seen ∪ s.moments cfg port waitList e) s'.machine (s'.activity t) := by
  have hother : e ≠ .run t → ∀ c, s.activity t ≠ .calling c := fun hne c hc => hne (hfirst c hc)
  have hle : seen ⊆ seen ∪ s.moments cfg port waitList e := Set.subset_union_left
  cases hstep with
  | @call _ v c hv hidle =>
      have hne : t ≠ v := by
        rintro rfl
        exact h.not_idle hidle
      dsimp only
      rw [Function.update_of_ne hne]
      exact h.still hle (hother nofun) rfl id
  | @run _ u a m hu hact hout =>
      by_cases htu : t = u
      · subst htu
        simp only [Function.update_self] at hopen ⊢
        have honward := (h.onward hb hcall hnil ((hs.alive hu).orderly waitList)).post hout
        cases honward with
        | passed => exact hopen.elim
        | ending _ => exact hopen.elim
        | goes hp => exact hp
      · simp only [Function.update_of_ne htu]
        refine h.spared hb htu ((hs.alive hu).orderly waitList) (hother fun hrun => ?_) hout
        cases hrun
        exact htu rfl
  | @bypass _ v c hv hcalling =>
      have hne : t ≠ v := by
        rintro rfl
        exact hother nofun c hcalling
      exact h.still hle (hother nofun) (Function.update_of_ne hne _ _) id
  | @syscallBegin _ v hv hidle =>
      have hne : t ≠ v := by
        rintro rfl
        exact h.not_idle hidle
      dsimp only
      rw [Function.update_of_ne hne]
      exact h.still hle (hother nofun) rfl id
  | @other _ op k ho hop hout =>
      have hentered : op.entered ≠ some waitList := by
        cases op with
        | block l n => exact fun he => hop.2 (Option.some.inj he)
        | blockUnsorted l n => exact fun he => hop.2 (Option.some.inj he)
        | _ => nofun
      exact h.still hle (hother nofun) rfl (Kernel.listed_of_prog hentered hout)
  | fail _ _ _ => exact absurd rfl (he _)
  | failOther _ _ _ _ => exact absurd rfl (he _)

/-! ## The whole call -/

theorem During.point (hb : eventsOf b = b) (hcall : call.awaits = some (b, all)) (hs₀ : Intact s₀.kernel)
    (hnil : s₀.machine.txResults t = []) (hbegin : s₀.activity t = .calling call)
    (h : System.During cfg port waitList t s₀ seen s) :
    Intact s.kernel ∧ Point waitList t b all call s₀.machine seen s.machine (s.activity t) := by
  induction h with
  | begin =>
      rw [hbegin]
      exact ⟨hs₀, .calling rfl rfl⟩
  | step _ hstep he hfirst hopen ih =>
      exact ⟨ih.1.step hstep he, ih.2.step hb hcall hnil ih.1 hstep he hfirst hopen⟩

/-- Whatever the other tasks do meanwhile, a call that returns `Ok` has been through a state in which the event has
happened, and the bits are those it has waited for, exactly when it was to wait or had not to. -/
theorem succeeds_honestly_iff (hb : eventsOf b = b) (hcall : call.awaits = some (b, all)) (hs₀ : Intact s₀.kernel)
    (hnil : s₀.machine.txResults t = []) (hbegin : s₀.activity t = .calling call)
    (h : System.During cfg port waitList t s₀ seen s) (hstep : System.Step cfg port waitList (.run t) s s')
    (hend : s'.activity t = .ending call r) :
    Honest b all (seen ∪ s.moments cfg port waitList (.run t)) r ↔ Meant t s₀.machine s.machine call := by
  obtain ⟨hs, hpoint⟩ := During.point hb hcall hs₀ hnil hbegin h
  cases hstep with
  | run ht hact hout =>
      simp only [Function.update_self] at hend
      subst hend
      cases (hpoint.onward hb hcall hnil ((hs.alive ht).orderly waitList)).post hout with
      | ending hiff => exact hiff
      | goes hp => nomatch hp

/-! ## Runs -/

/-- Power does not fail. -/
def uninterrupted (e : System.Event) (_ _ : System width) : Bool :=
  match e with
  | .fail _ => false
  | _ => true

/-- The step belongs to the call of the task `t`, which it does not end. -/
def inCall (t : Nat) (e : System.Event) (s s' : System width) : Bool :=
  (match e, s.activity t with
    | .fail _, _ => false
    | .run u, .calling _ => u == t
    | .other, .calling _ => false
    | _, _ => true) && decide (s'.activity t).Unfinished

theorem During.of_inCall (h : System.During cfg port waitList t s₀ seen s)
    (hstep : System.Step cfg port waitList e s s') (hin : inCall t e s s') :
    System.During cfg port waitList t s₀ (seen ∪ s.moments cfg port waitList e) s' := by
  obtain ⟨hin, hopen⟩ := Bool.and_eq_true_iff.mp hin
  refine h.step hstep (fun u he => ?_) (fun c hc => ?_) (of_decide_eq_true hopen)
  · simp [he] at hin
  · cases e with
    | run u =>
        rw [hc] at hin
        exact congrArg _ (eq_of_beq hin)
    | fail running => simp at hin
    | other => simp [hc] at hin

theorem During.follow {xs : List (System.Choice width)} (h : System.During cfg port waitList t s₀ seen s)
    (hf : s.follow cfg port waitList (inCall t) xs = some s') :
    ∃ seen', System.During cfg port waitList t s₀ seen' s' := by
  induction xs generalizing s seen with
  | nil =>
      cases hf
      exact ⟨seen, h⟩
  | cons x xs ih =>
      obtain ⟨⟨e, r⟩, hnext, hf⟩ := Option.bind_eq_some_iff.mp hf
      obtain ⟨_, hguard, hf⟩ := Option.bind_eq_some_iff.mp hf
      exact ih (During.of_inCall h (System.step_of_next hnext) (by simpa using hguard)) hf

theorem runs_of_next (h : s.next cfg port waitList .run = some (e, s')) (ht : s.executing = some t) : e = .run t := by
  obtain ⟨u, hu, h⟩ := Option.bind_eq_some_iff.mp h
  obtain ⟨_, _, h⟩ := Option.bind_eq_some_iff.mp h
  obtain ⟨_, _, h⟩ := Option.bind_eq_some_iff.mp h
  cases h
  cases hu.symm.trans ht
  rfl

/-- What the first task has begun after the schedule `xs`, and to what its call comes, which lasts for `ys` and then
runs to its end. -/
def callAfter (xs ys : List (System.Choice .w32)) :
    Option (Activity .w32 × List (EventBits .w32) × EventBits .w32 × Option Nat × Activity .w32) := do
  let s₀ ← (System.start Kernel.qemuDebug).follow Kernel.qemuDebug .cortexM 0 uninterrupted xs
  let s ← s₀.follow Kernel.qemuDebug .cortexM 0 (inCall 0) ys
  let (_, s') ← s.next Kernel.qemuDebug .cortexM 0 .run
  pure (s₀.activity 0, s₀.machine.txResults 0, s₀.machine.blockItemValue 0, s.executing, s'.activity 0)

/-- A run in which the call of the first task begins in `s₀`, and with the step from `s` to `s'` it returns. -/
structure Returns (call : Call .w32) (r : Outcome .w32) (s₀ : System .w32) (seen : Set (Machine .w32))
    (s s' : System .w32) : Prop where
  reachable : System.Reachable Kernel.qemuDebug .cortexM 0 (fun e _ _ => ∀ u, e ≠ .fail u) s₀
  begins : s₀.activity 0 = .calling call
  fresh : s₀.machine.txResults 0 = []
  item : s₀.machine.blockItemValue 0 = 0
  lasts : System.During Kernel.qemuDebug .cortexM 0 0 s₀ seen s
  step : System.Step Kernel.qemuDebug .cortexM 0 (.run 0) s s'
  ends : s'.activity 0 = .ending call r

theorem returns_of_callAfter (xs ys : List (System.Choice .w32)) {call : Call .w32} {r : Outcome .w32}
    (h : callAfter xs ys = some (.calling call, [], 0, some 0, .ending call r)) :
    ∃ s₀ seen s s', Returns call r s₀ seen s s' := by
  obtain ⟨s₀, hs₀, h⟩ := Option.bind_eq_some_iff.mp h
  obtain ⟨s, hs, h⟩ := Option.bind_eq_some_iff.mp h
  obtain ⟨⟨e, s'⟩, hnext, h⟩ := Option.bind_eq_some_iff.mp h
  obtain ⟨hbegins, h⟩ := Prod.mk.inj (Option.some.inj h)
  obtain ⟨hfresh, h⟩ := Prod.mk.inj h
  obtain ⟨hitem, h⟩ := Prod.mk.inj h
  obtain ⟨hexec, hends⟩ := Prod.mk.inj h
  obtain ⟨seen, hlasts⟩ := During.follow .begin hs
  cases runs_of_next hnext hexec
  refine ⟨s₀, seen, s, s', .follow (fun e _ _ hok u he => ?_) .start hs₀, hbegins, hfresh, hitem, hlasts,
    System.step_of_next hnext, hends⟩
  simp [uninterrupted, he] at hok

/-- The first task waits for the bit 0, and the second sets it. -/
theorem returns_waited : ∃ s₀ seen s s', Returns (.wait 1 true false 5) (.ok 1) s₀ seen s s' :=
  returns_of_callAfter [.createTask 0, .createTask 0, .startKernel, .call (.wait 1 true false 5)]
    [.run, .taskSwitch, .call (.set 1), .run, .run, .taskSwitch] (by decide +kernel)

/-- No bit is set, and the task is not to wait. -/
theorem returns_at_once : ∃ s₀ seen s s', Returns (.wait 1 false false 0) (.ok 0) s₀ seen s s' :=
  returns_of_callAfter [.createTask 0, .startKernel, .call (.wait 1 false false 0)] [] (by decide +kernel)

theorem succeeds_honestly_waited : ∃ s₀ seen s s', Returns (.wait 1 true false 5) (.ok 1) s₀ seen s s' ∧
    Honest 1 false (seen ∪ s.moments Kernel.qemuDebug .cortexM 0 (.run 0)) (.ok 1 : Outcome .w32) := by
  obtain ⟨s₀, seen, s, s', h⟩ := returns_waited
  refine ⟨s₀, seen, s, s', h, ?_⟩
  have hs₀ : Intact s₀.kernel := intact_reachable (fun _ _ _ he => he) h.reachable
  refine (succeeds_honestly_iff (by decide) rfl hs₀ h.fresh h.begins h.lasts h.step h.ends).mpr ?_
  rw [Meant, h.item]
  exact Or.inl (by decide)

/-- A call that is not to wait succeeds although the bit that it waits for is not set. -/
theorem succeeds_without_event : ¬ ∀ (s₀ s s' : System .w32) (seen : Set (Machine .w32)) (b : EventBits .w32)
    (all : Bool) (call : Call .w32) (r : Outcome .w32), eventsOf b = b → call.awaits = some (b, all) →
    Returns call r s₀ seen s s' → Honest b all (seen ∪ s.moments Kernel.qemuDebug .cortexM 0 (.run 0)) r := by
  intro h
  obtain ⟨s₀, seen, s, s', hr⟩ := returns_at_once
  exact absurd (h s₀ s s' seen 1 false _ _ (by decide) rfl hr) (not_honest_ok (by decide))

end EventGroup

end IntOS
