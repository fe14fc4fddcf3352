import IntOS.EventGroup.Lemmas.Enrolled

/-!
# Power failures while a task waits for bits that it clears

`event_group_wait` that is begun again looks at the event bits again, and what the call itself has cleared is not
there any more. It does not look at whether the transaction that cleared the bits has been committed.
-/

namespace IntOS

open Persist Persist.Prog

namespace EventGroup

variable {width : PtrWidth} {α : Type} {cfg : Config} {port : Port} {waitList t : Nat} {m c : Machine width}
  {b bits : EventBits width} {all : Bool} {waitTicks : Nat} {r : Outcome width}

/-- The bits are what a wait for `bitsToWaitFor` is for. -/
def satisfies (bitsToWaitFor : EventBits width) (waitForAll : Bool) (bits : EventBits width) : Bool :=
  if !waitForAll then bits &&& bitsToWaitFor != 0 else bits &&& bitsToWaitFor == bitsToWaitFor

/-- The call succeeds with such bits. -/
def Right (b : EventBits width) (all : Bool) (r : Outcome width) : Prop :=
  ∃ bits, r = .ok bits ∧ satisfies b all bits

/-- A wait that begins finds bits that it is for, in the block item of its task or in the event group. -/
def Answered (t : Nat) (b : EventBits width) (all : Bool) (m : Machine width) : Prop :=
  if m.blockItemValue t &&& unblockedDueToBitSet width ≠ 0 then satisfies b all (eventsOf (m.blockItemValue t))
  else waitConditionOk b all m

/-- Power fails, and what is left is what would be if it had failed before the task went on. -/
def Early (cfg : Config) (e : System.Event) (s s' : System width) : Prop :=
  (∃ running, e = .fail running) ∧ ∃ m, (reboot cfg s.machine).out = some ((), m) ∧
    s'.machine.kernel = m.kernel ∧ s'.machine.blockItemValue = m.blockItemValue

/-- No wait that has cleared its bits gets anywhere in a state that does not answer it. -/
def FindsAgain (cfg : Config) (e : System.Event) (s s' : System width) : Prop :=
  ∀ t b all waitTicks, e.Runs t → s.activity t = .calling (.wait b true all waitTicks) → 0 < waitTicks →
    s.machine.entry t = none → s.machine.txResults t ≠ [] → Answered t b all s.machine ∨ Early cfg e s s'

theorem not_early_run {s s' : System width} (h : Early cfg (.run t) s s') : False := by
  obtain ⟨⟨_, he⟩, _⟩ := h
  cases he

/-! ## The segments of a wait -/

/-- The block item of a task that waits for `b`. -/
def waiting (b : EventBits width) (all : Bool) : EventBits width :=
  b ||| (clearEventsOnExitBit width ||| if all then waitForAllBits width else 0)

theorem eventsOf_waiting : eventsOf (waiting b all) = eventsOf b := by
  have hclear : clearEventsOnExitBit width &&& ~~~eventBitsControlBytes width = BitVec.ofNat width.bits 0 := by
    cases width <;> decide
  have hall : waitForAllBits width &&& ~~~eventBitsControlBytes width = BitVec.ofNat width.bits 0 := by
    cases width <;> decide
  unfold waiting eventsOf
  rw [BitVec.and_or_distrib_right, BitVec.and_or_distrib_right, hclear]
  split
  · rw [hall, BitVec.or_zero, BitVec.or_zero]
  · simp

/-- A task that the event bits let go waits for none but event bits that are set. -/
theorem satisfies_waiting (hbits : eventsOf m.eventBits = m.eventBits) (h : waitConditionOk b all m) :
    satisfies b all (eventsOf (waiting b all)) := by
  rw [eventsOf_waiting]
  unfold waitConditionOk at h
  unfold satisfies
  have hbit : ∀ i, m.eventBits.getLsbD i = true → (~~~eventBitsControlBytes width).getLsbD i = true := by
    intro i hi
    rw [← hbits, eventsOf_getLsbD, Bool.and_eq_true] at hi
    exact hi.2
  cases all with
  | false =>
      simp only [Bool.not_false, if_true, bne_iff_ne, ne_eq] at h ⊢
      intro hzero
      refine h (BitVec.eq_of_getLsbD_eq fun i hi => ?_)
      have hz := congrArg (·.getLsbD i) hzero
      simp only [BitVec.getLsbD_and, eventsOf_getLsbD, BitVec.ofNat_eq_ofNat, BitVec.getLsbD_zero] at hz ⊢
      have := hbit i
      grind
  | true =>
      simp only [Bool.not_true, Bool.false_eq_true, if_false, beq_iff_eq] at h ⊢
      refine BitVec.eq_of_getLsbD_eq fun i hi => ?_
      have hz := congrArg (·.getLsbD i) h
      simp only [BitVec.getLsbD_and, eventsOf_getLsbD] at hz ⊢
      have := hbit i
      grind

/-- The task has no entry, and it has committed at most one transaction. -/
structure Grown (t : Nat) (m c : Machine width) : Prop where
  entry : c.entry t = none
  results : c.txResults t = m.txResults t ∨ m.txResults t = [] ∧ ∃ x, c.txResults t = [x]

theorem Grown.start (h : m.entry t = none) : Grown t m m := ⟨h, Or.inl rfl⟩

/-- The bits are cleared once. -/
theorem wpc_clear {Q : Unit → Machine width → Prop} {m₀ : Machine width} (hcur : m.kernel.current = some t)
    (h : Grown t m₀ m) (hptr : m.txResults t = [] ∨ m.txPtr t = 0) (hlen : (m.txResults t).length ≤ 1)
    (hQ : ∀ c, Grown t m₀ c → Q () c) : wpc (clearEventBits cfg bits) Q True (Grown t m₀) m := by
  have hC' : Grown t m₀ (advanced t m) := ⟨h.entry, h.results⟩
  cases hres : m.txResults t with
  | nil =>
      have hm₀ : m₀.txResults t = [] := by
        rcases h.results with hr | ⟨hr, _⟩
        · rw [← hr, hres]
        · exact hr
      have hgrown : ∀ {c : Machine width}, c.entry t = m.entry t → c.txResults t = m.txResults t ++ [0] →
          Grown t m₀ c := by
        intro c he hr
        refine ⟨he.trans h.entry, Or.inr ⟨hm₀, 0, ?_⟩⟩
        rw [hr, hres]
        rfl
      refine wpc_bind (wpc_run_new hcur ?_ h (hgrown rfl ?_) (hgrown rfl ?_)
        (wpc_pure (hgrown rfl ?_) (hQ _ (hgrown rfl ?_))))
      · rw [hres]
        rfl
      all_goals simp [advanced, applied]
  | cons x xs =>
      have hxs : xs = [] := by
        rw [hres, List.length_cons] at hlen
        exact List.length_eq_zero_iff.mp (by omega)
      have hptr : m.txPtr t = 0 := hptr.resolve_left fun hnil => by simp [hres] at hnil
      refine wpc_bind (wpc_run_cached x hcur ?_ h hC' (wpc_pure hC' (hQ _ hC')))
      rw [hres, hptr]
      rfl

/-- A wait that begins. -/
theorem wpc_attempt_wait (hcur : m.kernel.current = some t) (he : m.entry t = none) (hlen : (m.txResults t).length ≤ 1)
    (hbits : eventsOf m.eventBits = m.eventBits) (hticks : 0 < waitTicks) :
    wpc (attempt cfg port waitList (.wait b true all waitTicks)) (fun a c => Grown t m c ∧
      ((m.txResults t ≠ [] → Answered t b all m) →
        a = .yielding (.wait b true all waitTicks) ∧ c.txResults t = [] ∧ c.blockItemValue t = waiting b all ∨
        ∃ r, a = .ending (.wait b true all waitTicks) r ∧ (c.txResults t ≠ [] → Right b all r)))
      True (Grown t m) m := by
  have hm := Grown.start he
  unfold attempt
  refine wpc_bind (wpc_onKernel (Kernel.wpc_getCurrent hcur hm (wpc_bind (wpc_gets hm ?_))))
  dsimp only
  rw [he]
  have hm' : Grown t m { m with txPtr := Function.update m.txPtr t 0 } := ⟨he, Or.inl rfl⟩
  refine wpc_bind (wpc_store hm hm' (wpc_bind ?_))
  refine wpc_bind (wpc_onKernel (Kernel.wpc_getCurrent hcur hm' (wpc_bind (wpc_gets hm' ?_))))
  have hright : ∀ {c : Machine width} {r : Outcome width}, Grown t m c →
      ((m.txResults t ≠ [] → Answered t b all m) → c.txResults t ≠ [] → Right b all r) →
      Grown t m c ∧ ((m.txResults t ≠ [] → Answered t b all m) →
        Activity.ending (.wait b true all waitTicks) r = .yielding (.wait b true all waitTicks) ∧
        c.txResults t = [] ∧ c.blockItemValue t = waiting b all ∨
        ∃ r', Activity.ending (.wait b true all waitTicks) r = .ending (.wait b true all waitTicks) r' ∧
          (c.txResults t ≠ [] → Right b all r')) := fun hc hr => ⟨hc, fun hagain => Or.inr ⟨_, rfl, hr hagain⟩⟩
  by_cases htold : m.blockItemValue t &&& unblockedDueToBitSet width ≠ 0
  · rw [if_pos (by simpa using htold)]
    refine wpc_pure hm' (wpc_pure hm' (hright hm' fun hagain hr => ⟨_, rfl, ?_⟩))
    have hans := hagain hr
    rwa [Answered, if_pos htold] at hans
  · rw [if_neg (by simpa using htold)]
    refine wpc_bind (wpc_gets hm' ?_)
    split
    case isTrue hok =>
      refine wpc_bind (wpc_gets hm' ?_)
      rw [if_pos rfl]
      refine wpc_bind (wpc_clear (t := t) hcur hm' (Or.inr (Function.update_self _ _ _)) hlen fun c hc => ?_)
      refine wpc_pure hc (wpc_pure hc (hright hc fun _ _ => ⟨_, rfl, ?_⟩))
      change satisfies b all (eventsOf m.eventBits) = true
      rw [hbits]
      exact hok
    case isFalse hok =>
      have hnil : (m.txResults t ≠ [] → Answered t b all m) → m.txResults t = [] := by
        intro hagain
        by_contra hne
        have hans := hagain hne
        rw [Answered, if_neg htold] at hans
        exact hok hans
      refine wpc_bind (wpc_bind (wpc_onKernel (Kernel.wpc_getCurrent hcur hm' ?_)))
      have hstay : ∀ k, Grown t m { m with
          kernel := k
          txPtr := Function.update m.txPtr t 0
          blockItemValue := Function.update m.blockItemValue t (waiting b all) } := fun k => ⟨he, Or.inl rfl⟩
      refine wpc_bind (wpc_store hm' (hstay _) (wpc_bind (wpc_gets (hstay _) (wpc_bind (wpc_onKernel ?_)))))
      refine wpc_mono (wpc_trivial _ _) (fun wakeupTime k _ => wpc_onKernel ?_) fun k _ => hstay k
      refine wpc_mono (wpc_trivial _ _) (fun _ k _ => ?_) fun k _ => hstay k
      exact wpc_pure (hstay k) (wpc_pure (hstay k) ⟨hstay k, fun hagain =>
        Or.inl ⟨rfl, hnil hagain, Function.update_self _ _ _⟩⟩)

/-- A wait after its yield. -/
theorem wpc_waitAwoken (hcur : m.kernel.current = some t) (he : m.entry t = none) (hnil : m.txResults t = [])
    (hbits : eventsOf m.eventBits = m.eventBits) (hvalue : m.blockItemValue t = waiting b all ∨
      m.blockItemValue t &&& unblockedDueToBitSet width ≠ 0) :
    wpc (waitAwoken cfg b all) (fun r c => Grown t m c ∧ (c.txResults t ≠ [] → Right b all r)) True (Grown t m) m := by
  have hm := Grown.start he
  unfold waitAwoken lastLook
  refine wpc_bind (wpc_onKernel (Kernel.wpc_getCurrent hcur hm (wpc_bind (wpc_gets hm ?_))))
  by_cases htold : m.blockItemValue t &&& unblockedDueToBitSet width = 0
  · rw [if_pos (by simpa using htold)]
    have hv := hvalue.resolve_right fun h => h htold
    refine wpc_bind (wpc_gets hm ?_)
    dsimp only
    split
    case isTrue hclear =>
      have hok : waitConditionOk b all m = true := by
        rw [Bool.and_eq_true] at hclear
        exact hclear.1
      refine wpc_bind (wpc_clear hcur hm (Or.inl hnil) (by simp [hnil]) fun c hc => wpc_pure hc ⟨hc, fun _ => ?_⟩)
      rw [if_pos hok, hv]
      exact ⟨_, rfl, satisfies_waiting hbits hok⟩
    case isFalse => exact wpc_pure hm ⟨hm, fun h => absurd hnil h⟩
  · rw [if_neg (by simpa using htold)]
    exact wpc_pure hm ⟨hm, fun h => absurd hnil h⟩

/-! ## What holds of a task in such a wait -/

/-- What a failure leaves of the call. -/
structure Begun (b : EventBits width) (all : Bool) (took : Prop) (t : Nat) (m : Machine width) : Prop where
  short : (m.txResults t).length ≤ 1
  known : m.entry t = none → (took ↔ m.txResults t ≠ [])
  entry : ∀ r, m.entry t = some r → took → Right b all r

structure Holds (b : EventBits width) (all : Bool) (a : Activity width) (took : Prop) (t : Nat)
    (m : Machine width) : Prop
    extends Begun b all took t m where
  ended : m.entry t ≠ none → m.txResults t = [] ∧ ∃ c, a = .calling c
  yielding : ∀ c, a = .yielding c → m.txResults t = [] ∧
    (m.blockItemValue t = waiting b all ∨ m.blockItemValue t &&& unblockedDueToBitSet width ≠ 0)
  ending : ∀ c r, a = .ending c r → m.txResults t ≠ [] → Right b all r

structure Sound (s : System width) : Prop extends Tidy s where
  holds : ∀ t b all waitTicks, 0 < waitTicks → (s.activity t).call = some (.wait b true all waitTicks) →
    Holds b all (s.activity t) (s.took t) t s.machine

variable {a : Activity width} {took : Prop} {m' : Machine width}

theorem Holds.took_iff (h : Holds b all a took t m) : took ∨ m.txResults t ≠ [] ↔ took := by
  refine or_iff_left_of_imp fun hr => ?_
  by_cases he : m.entry t = none
  · exact (h.known he).mpr hr
  · exact absurd (h.ended he).1 hr

/-- The task does nothing. -/
theorem Holds.spared (h : Holds b all a took t m) (hr : m'.txResults t = m.txResults t) (he : m'.entry t = m.entry t)
    (hv : m'.blockItemValue t = m.blockItemValue t ∨ m'.blockItemValue t &&& unblockedDueToBitSet width ≠ 0) :
    Holds b all a took t m' where
  short := hr ▸ h.short
  known := by
    rw [hr, he]
    exact h.known
  entry := by
    rw [he]
    exact h.entry
  ended := by
    rw [hr, he]
    exact h.ended
  yielding := by
    intro c hc
    obtain ⟨hnil, hvalue⟩ := h.yielding c hc
    refine ⟨hr.trans hnil, ?_⟩
    rcases hv with hv | hv
    · rwa [hv]
    · exact Or.inr hv
  ending := by
    rw [hr]
    exact h.ending

theorem Begun.restarted {call : Call width} (h : Begun b all took t c) (hr : Restarted c m) :
    Holds b all (.calling call) took t m := by
  refine ⟨⟨?_, fun he => ?_, fun r he => ?_⟩, fun he => ?_, fun _ => nofun, fun _ _ => nofun⟩
  · by_cases he : c.entry t = none
    · exact hr.txResults t he ▸ h.short
    · simp [hr.ended t he]
  · rw [hr.entry] at he
    rw [hr.txResults t he]
    exact h.known he
  · rw [hr.entry] at he
    exact h.entry r he
  · rw [hr.entry] at he
    exact ⟨hr.ended t he, call, rfl⟩

/-- The task has committed a transaction, or not. -/
theorem Holds.grown (h : Holds b all a took t m) (he : m.entry t = none) (hc : Grown t m c) :
    Begun b all (took ∨ c.txResults t ≠ []) t c := by
  refine ⟨?_, fun _ => or_iff_right_of_imp fun ht => ?_, fun r hr => ?_⟩
  · rcases hc.results with hr | ⟨_, x, hr⟩
    · exact hr ▸ h.short
    · simp [hr]
  · rcases hc.results with hr | ⟨_, x, hr⟩
    · rw [hr]
      exact (h.known he).mp ht
    · simp [hr]
  · simp [hc.entry] at hr

theorem Holds.recorded {call : Call width} (h : Holds b all (.ending call r) took t m) (hc : Recorded t r m c) :
    Begun b all (took ∨ c.txResults t ≠ []) t c := by
  have he : m.entry t = none := by
    by_contra hne
    obtain ⟨_, c, hcalling⟩ := h.ended hne
    cases hcalling
  have hright : took ∨ c.txResults t ≠ [] → Right b all r := by
    rintro (ht | hr)
    · exact h.ending _ _ rfl ((h.known he).mp ht)
    · exact h.ending _ _ rfl fun hm => hr (hc.short.elim (·.trans hm) id)
  refine ⟨?_, fun hn => ?_, fun r' hr' ht => ?_⟩
  · rcases hc.short with hr | hr
    · exact hr ▸ h.short
    · simp [hr]
  · rw [hc.results hn]
    exact or_iff_right_of_imp (h.known he).mp
  · rcases hc.entry with hn | hs
    · rw [hn, he] at hr'
      cases hr'
    · rw [hs] at hr'
      cases hr'
      exact hright ht

/-! ## Steps -/

variable {s s' : System width} {u : Nat} {e : System.Event}

theorem took_noting {clear : Bool} (h : (s.activity t).call = some (.wait b clear all waitTicks)) :
    (s.noting u m).took t ↔ s.took t ∨ m.txResults t ≠ [] := by
  simp [System.noting, h, Call.took]

theorem Sound.running (h : Sound s) (hu : s.Executes u) (hact : s.activity u ≠ .idle)
    (hagain : ∀ b all waitTicks, s.activity u = .calling (.wait b true all waitTicks) → 0 < waitTicks →
      s.machine.entry u = none → s.machine.txResults u ≠ [] → Answered u b all s.machine)
    (hout : ((s.activity u).prog cfg port waitList s.machine).out = some (a, m)) :
    Sound { s.noting u m with machine := m, activity := Function.update s.activity u a } := by
  have hspares : Spares u s.machine m :=
    (((spares_prog (s.activity u)) s.machine (.start hu.1 h.eventBits)).post hout).1
  have hprog := (after_prog hu.1 hact (h.ended u)).post hout
  refine ⟨h.toTidy.running hu hact hout, fun t b all waitTicks hticks hcall => ?_⟩
  by_cases htu : t = u
  · subst htu
    simp only [Function.update_self] at hcall ⊢
    have hwas : (s.activity t).call = some (.wait b true all waitTicks) := by
      rcases hprog with ⟨call, hold, hnew, _⟩ | ⟨hidle, _⟩
      · rw [hold, ← hnew, hcall]
      · rw [hidle] at hcall
        cases hcall
    have hholds := h.holds t b all waitTicks hticks hwas
    have htook := took_noting (m := m) (u := t) hwas
    have hbegun : ∀ {a' : Activity width}, s.machine.entry t = none → Grown t s.machine m →
        (∀ c, a' = .yielding c → m.txResults t = [] ∧
          (m.blockItemValue t = waiting b all ∨ m.blockItemValue t &&& unblockedDueToBitSet width ≠ 0)) →
        (∀ c r, a' = .ending c r → m.txResults t ≠ [] → Right b all r) →
        Holds b all a' ((s.noting t m).took t) t m := by
      intro a' he hg hy hr
      rw [htook]
      exact ⟨hholds.grown he hg, fun hne => absurd hg.entry hne, hy, hr⟩
    cases ha : s.activity t with
    | calling call =>
        rw [ha] at hwas hout
        cases hwas
        cases he : s.machine.entry t with
        | some r =>
            rw [((wpc_bypass hu.1 he).post hout).1] at hcall
            cases hcall
        | none =>
            obtain ⟨hg, hpost⟩ := (wpc_attempt_wait hu.1 he hholds.short h.eventBits hticks).post hout
            rcases hpost (hagain b all waitTicks ha hticks he) with ⟨rfl, hnil, hv⟩ | ⟨r, rfl, hr⟩
            · exact hbegun he hg (fun _ _ => ⟨hnil, Or.inl hv⟩) (fun _ _ => nofun)
            · refine hbegun he hg (fun _ => nofun) fun c r' hr' => ?_
              cases hr'
              exact hr
    | yielding call =>
        rw [ha] at hwas hout
        cases hwas
        have he : s.machine.entry t = none := by
          by_contra hne
          obtain ⟨_, c, hc⟩ := hholds.ended hne
          cases ha.symm.trans hc
        obtain ⟨hnil, hv⟩ := hholds.yielding _ ha
        have hpost := (wpc_bind (R := fun a' c => Grown t s.machine c ∧
          ∃ r, a' = .ending (.wait b true all waitTicks) r ∧ (c.txResults t ≠ [] → Right b all r))
          (wpc_mono (wpc_waitAwoken hu.1 he hnil h.eventBits hv) (fun r c hc =>
            wpc_pure hc.1 ⟨hc.1, r, rfl, hc.2⟩) fun _ hc => hc)).post hout
        obtain ⟨hg, r, rfl, hr⟩ := hpost
        refine hbegun he hg (fun _ => nofun) fun c r' hr' => ?_
        cases hr'
        exact hr
    | ending call r =>
        rw [ha] at hout
        rw [((wpc_syscallEnd_results hu.1).post hout).1] at hcall
        cases hcall
    | inSet bits bitsToWaitFor n o =>
        rw [ha] at hwas
        cases hwas
    | idle =>
        rw [ha] at hwas
        cases hwas
    | elsewhere =>
        rw [ha] at hwas
        cases hwas
  · simp only [Function.update_of_ne htu] at hcall ⊢
    rw [took_noting hcall]
    have hholds := h.holds t b all waitTicks hticks hcall
    have hr := hspares.txResults t htu
    rw [hr, hholds.took_iff]
    exact hholds.spared hr (hspares.entry t htu) (hspares.value t htu)

theorem Sound.failing (h : Sound s) (hu : s.Executes u)
    (hc : c ∈ crashes ((s.activity u).prog cfg port waitList) s.machine) (hr : Restarted c m) :
    Sound { s.noting u c with machine := m, activity := fun t => (s.activity t).restarted } := by
  have hspares : Spares u s.machine c := ((spares_prog (s.activity u)) s.machine (.start hu.1 h.eventBits)).crash hc
  refine ⟨h.toTidy.failing hu hc hr, fun t b all waitTicks hticks hcall => ?_⟩
  rw [call_restarted] at hcall
  dsimp only
  rw [restarted_calling hcall]
  refine Begun.restarted ?_ hr
  have hholds := h.holds t b all waitTicks hticks hcall
  rw [took_noting hcall]
  by_cases htu : t = u
  · subst htu
    have hsame : c.entry t = s.machine.entry t → c.txResults t = s.machine.txResults t →
        Begun b all (s.took t ∨ c.txResults t ≠ []) t c := by
      intro he hres
      have htook := hholds.took_iff
      rw [hres, htook]
      refine ⟨hres ▸ hholds.short, ?_, ?_⟩
      · rw [he, hres]
        exact hholds.known
      · rw [he]
        exact hholds.entry
    cases ha : s.activity t with
    | calling call =>
        rw [ha] at hcall hc
        cases hcall
        cases he : s.machine.entry t with
        | some r =>
            obtain ⟨hentry, hres, _⟩ := (wpc_bypass hu.1 he).crash hc
            exact hsame (congrFun hentry t) (congrFun hres t)
        | none =>
            exact hholds.grown he ((wpc_attempt_wait hu.1 he hholds.short h.eventBits hticks).crash hc)
    | yielding call =>
        rw [ha] at hcall hc
        cases hcall
        have he : s.machine.entry t = none := by
          by_contra hne
          obtain ⟨_, c, hc⟩ := hholds.ended hne
          cases ha.symm.trans hc
        obtain ⟨hnil, hv⟩ := hholds.yielding _ ha
        have hpost := (wpc_bind (R := fun _ _ => True) (wpc_mono (wpc_waitAwoken hu.1 he hnil h.eventBits hv)
          (fun r c hc => wpc_pure hc.1 trivial) fun _ hc => hc)).crash hc
        exact hholds.grown he hpost
    | ending call r =>
        rw [ha] at hholds hc
        exact hholds.recorded ((wpc_syscallEnd_results hu.1).crash hc)
    | inSet bits bitsToWaitFor n o =>
        rw [ha] at hcall
        cases hcall
    | idle =>
        rw [ha] at hcall
        cases hcall
    | elsewhere =>
        rw [ha] at hcall
        cases hcall
  · have hres := hspares.txResults t htu
    rw [hres, hholds.took_iff]
    exact (hholds.spared hres (hspares.entry t htu) (hspares.value t htu)).toBegun

theorem sound_start : Sound (System.start cfg : System width) := ⟨tidy_start, fun _ _ _ _ _ => nofun⟩

theorem Sound.step (h : Sound s) (hstep : System.Step cfg port waitList e s s') (hok : FindsAgain cfg e s s') :
    Sound s' := by
  have htidy := h.toTidy.step hstep
  cases hstep with
  | @call _ t c ht hidle =>
      have hnil : s.machine.txResults t = [] := h.outside t (by simp [hidle, Activity.call])
      refine ⟨htidy, fun v b all n hn hc => ?_⟩
      by_cases hvt : v = t
      · subst hvt
        simp only [Function.update_self] at hc ⊢
        refine ⟨⟨?_, fun _ => ?_, fun _ => ?_⟩, fun he => ?_, fun _ h => (by cases h), fun _ _ h => by cases h⟩
        · simp [hnil]
        · simp [hnil]
        · simp
        · simp at he
      · simp only [Function.update_of_ne hvt] at hc ⊢
        exact (h.holds v b all n hn hc).spared rfl (Function.update_of_ne hvt _ _) (Or.inl rfl)
  | run ht hact hout =>
      refine h.running ht hact (fun b all n ha hn he hr => ?_) hout
      exact (hok _ b all n rfl ha hn he hr).resolve_right not_early_run
  | @bypass _ t c ht hcalling =>
      refine ⟨htidy, fun v b all n hn hc => ?_⟩
      have hholds := h.holds v b all n hn hc
      by_cases hvt : v = t
      · subst hvt
        rw [hcalling] at hholds ⊢
        exact ⟨⟨hholds.short, hholds.known, hholds.entry⟩, hholds.ended,
          fun _ h => (by cases h), fun _ _ h => by cases h⟩
      · exact hholds.spared rfl rfl (Or.inl (Function.update_of_ne hvt _ _))
  | @syscallBegin _ t ht hidle =>
      refine ⟨htidy, fun v b all n hn hc => ?_⟩
      by_cases hvt : v = t
      · subst hvt
        simp [Activity.call] at hc
      · simp only [Function.update_of_ne hvt] at hc ⊢
        exact (h.holds v b all n hn hc).spared rfl (Function.update_of_ne hvt _ _) (Or.inl rfl)
  | other ho hother hout => exact ⟨htidy, fun t b all n hn hc => (h.holds t b all n hn hc).spared rfl rfl (Or.inl rfl)⟩
  | fail ht hc hr => exact h.failing ht hc (restarted_reboot hr)
  | failOther ho hother hk hr =>
      have hr := restarted_reboot hr
      refine ⟨htidy, fun t b all n hn hc => ?_⟩
      rw [call_restarted] at hc
      have hholds := h.holds t b all n hn hc
      dsimp only
      rw [restarted_calling hc]
      refine Begun.restarted ?_ hr
      exact ⟨hholds.short, hholds.known, hholds.entry⟩

theorem Sound.reachable (h : System.Reachable cfg port waitList (FindsAgain cfg) s) : Sound s := by
  induction h with
  | start => exact sound_start
  | step _ hstep hok ih => exact ih.step hstep hok

/-! ## The end of a call -/

/-- Nothing is set or cleared, and no task moves. -/
structure Still (m c : Machine width) : Prop where
  eventBits : c.eventBits = m.eventBits
  lists : c.kernel.lists = m.kernel.lists
  status : c.kernel.status = m.kernel.status

theorem Still.refl : Still m m := ⟨rfl, rfl, rfl⟩

/-- The body of the call has returned, or the call is over, with such a result. -/
def Over (t : Nat) (call : Call width) (P : Outcome width → Prop) (a : Activity width) (c : Machine width) : Prop :=
  (∃ r, a = .ending call r ∧ P r) ∨ a = .idle ∧ ∃ r, c.entry t = some r ∧ P r

theorem wpc_epilogue {call : Call width} {Q : Activity width → Machine width → Prop} (hm : Still m c)
    (hQ : ∀ c', Still m c' → c'.entry = c.entry → Q .idle c') :
    wpc (epilogue t call >>= fun _ => pure (Activity.idle : Activity width)) Q False (Still m) c := by
  cases call with
  | wait bits clear all waitTicks =>
      have hc : Still m { c with blockItemValue := Function.update c.blockItemValue t 0 } :=
        ⟨hm.eventBits, hm.lists, hm.status⟩
      exact wpc_bind (wpc_store hm hc (wpc_pure hc (hQ _ hc rfl)))
  | _ => exact wpc_bind (wpc_pure hm (wpc_pure hm (hQ _ hm rfl)))

/-- A call whose result is recorded is bypassed. -/
theorem wpc_recorded {call : Call width} (hcur : m.kernel.current = some t) (hmode : m.kernel.recoveryMode t = true)
    (he : m.entry t = some r) :
    wpc (attempt cfg port waitList call) (fun a c => (a = .idle ∧ c.entry t = some r) ∧ Still m c) False
      (Still m) m := by
  unfold attempt
  refine wpc_bind (wpc_onKernel (Kernel.wpc_getCurrent hcur .refl (wpc_bind (wpc_gets .refl ?_))))
  dsimp only
  rw [he]
  refine wpc_bind (wpc_gets .refl (wpc_bind (wpc_check .refl (fun hn => hn fun _ => hmode) fun _ => ?_)))
  exact wpc_epilogue .refl fun c hc hentry => ⟨⟨rfl, (congrFun hentry t).trans he⟩, hc⟩

theorem wpc_syscallEnd_still {call : Call width} (hcur : m.kernel.current = some t) :
    wpc (syscallEnd call r) (fun a c => (a = .idle ∧ c.entry t = some r) ∧ Still m c) False (Still m) m := by
  unfold syscallEnd
  refine wpc_bind (wpc_onKernel (Kernel.wpc_getCurrent hcur .refl (wpc_bind (wpc_store .refl ⟨rfl, rfl, rfl⟩ ?_))))
  refine wpc_bind (wpc_store ⟨rfl, rfl, rfl⟩ ⟨rfl, rfl, rfl⟩ (wpc_bind (wpc_onKernel ?_)))
  refine wpc_store ⟨rfl, rfl, rfl⟩ ⟨rfl, rfl, rfl⟩ (wpc_epilogue ⟨rfl, rfl, rfl⟩ fun c hc hentry => ⟨⟨rfl, ?_⟩, hc⟩)
  rw [hentry]
  exact Function.update_self _ _ _

/-- A wait that begins again, and finds bits that it is for. -/
theorem wpc_answered {x : EventBits width} (hcur : m.kernel.current = some t) (hmode : m.kernel.recoveryMode t = true)
    (he : m.entry t = none) (hres : m.txResults t = [x]) (hbits : eventsOf m.eventBits = m.eventBits)
    (hans : Answered t b all m) :
    wpc (attempt cfg port waitList (.wait b true all waitTicks)) (fun a c =>
      (∃ r, a = .ending (.wait b true all waitTicks) r ∧ Right b all r) ∧ Still m c) False (Still m) m := by
  unfold attempt
  refine wpc_bind (wpc_onKernel (Kernel.wpc_getCurrent hcur .refl (wpc_bind (wpc_gets .refl ?_))))
  dsimp only
  rw [he]
  have hm' : Still m { m with txPtr := Function.update m.txPtr t 0 } := ⟨rfl, rfl, rfl⟩
  refine wpc_bind (wpc_store .refl hm' (wpc_bind ?_))
  refine wpc_bind (wpc_onKernel (Kernel.wpc_getCurrent hcur hm' (wpc_bind (wpc_gets hm' ?_))))
  by_cases htold : m.blockItemValue t &&& unblockedDueToBitSet width ≠ 0
  · rw [Answered, if_pos htold] at hans
    rw [if_pos (by simpa using htold)]
    exact wpc_pure hm' (wpc_pure hm' ⟨⟨_, rfl, _, rfl, hans⟩, hm'⟩)
  · rw [Answered, if_neg htold] at hans
    rw [if_neg (by simpa using htold)]
    have hok : waitConditionOk b all { m with txPtr := Function.update m.txPtr t 0 } = true := hans
    refine wpc_bind (wpc_gets hm' ?_)
    rw [if_pos hok]
    refine wpc_bind (wpc_gets hm' ?_)
    rw [if_pos rfl]
    have hsat : satisfies b all (eventsOf m.eventBits) = true := by
      rw [hbits]
      exact hans
    -- the transaction that has cleared them is read again
    refine wpc_bind (wpc_bind (wpc_run_again (t := t) x hcur ?_ ?_ hm' ⟨rfl, rfl, rfl⟩ ?_))
    · simp [hres]
    · simp [hmode]
    · have hc : Still m (advanced t { m with txPtr := Function.update m.txPtr t 0 }) := ⟨rfl, rfl, rfl⟩
      exact wpc_pure hc (wpc_pure hc (wpc_pure hc ⟨⟨_, rfl, _, rfl, hsat⟩, hc⟩))

/-- A wait that has cleared its bits goes on to the end. -/
theorem Holds.goes (h : Holds b all a took t m) (hcall : a.call = some (.wait b true all waitTicks)) (htook : took)
    (hcur : m.kernel.current = some t) (hbits : eventsOf m.eventBits = m.eventBits)
    (hmode : ∀ c, a = .calling c → m.entry t ≠ none ∨ m.txResults t ≠ [] → m.kernel.recoveryMode t = true)
    (hans : ∀ c, a = .calling c → m.entry t = none → Answered t b all m) :
    wpc (a.prog cfg port waitList) (fun a' c => Over t (.wait b true all waitTicks) (Right b all) a' c ∧ Still m c)
      False (Still m) m := by
  have hopen : (∀ c, a ≠ .calling c) → m.entry t = none := by
    intro hne
    by_contra he
    obtain ⟨_, c, hc⟩ := h.ended he
    exact hne c hc
  cases a with
  | calling call =>
      cases hcall
      cases he : m.entry t with
      | none =>
          have hres := (h.known he).mp htook
          obtain ⟨x, hx⟩ : ∃ x, m.txResults t = [x] := by
            refine List.length_eq_one_iff.mp (Nat.le_antisymm h.short ?_)
            exact List.length_pos_iff.mpr hres
          refine wpc_mono (wpc_answered hcur (hmode _ rfl (Or.inr hres)) he hx hbits (hans _ rfl he)) ?_ fun _ hc => hc
          exact fun _ _ hc => ⟨Or.inl hc.1, hc.2⟩
      | some r =>
          refine wpc_mono (wpc_recorded hcur (hmode _ rfl (Or.inl (by simp [he]))) he) ?_ fun _ hc => hc
          rintro _ c ⟨⟨rfl, hentry⟩, hc⟩
          exact ⟨Or.inr ⟨rfl, r, hentry, h.entry r he htook⟩, hc⟩
  | yielding call =>
      cases hcall
      exact absurd (h.yielding _ rfl).1 ((h.known (hopen fun _ => nofun)).mp htook)
  | ending call r =>
      cases hcall
      have hright : Right b all r := h.ending _ _ rfl ((h.known (hopen fun _ => nofun)).mp htook)
      refine wpc_mono (wpc_syscallEnd_still hcur) ?_ fun _ hc => hc
      rintro _ c ⟨⟨rfl, hentry⟩, hc⟩
      exact ⟨Or.inr ⟨rfl, r, hentry, hright⟩, hc⟩
  | inSet bits b' n o => cases hcall
  | idle => cases hcall
  | elsewhere => cases hcall

instance (t : Nat) (b : EventBits width) (all : Bool) (m : Machine width) : Decidable (Answered t b all m) := by
  unfold Answered
  infer_instance

end EventGroup

end IntOS
