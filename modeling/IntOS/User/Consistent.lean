import IntOS.User.PBox

/-!
# When a body is crash-consistent

A body is, whatever it reads and writes, if every order that it can take logs or overwrites the object before an
unlogged write that follows a read. A fresh `PRef` allows the other orders.
-/

namespace IntOS

open Persist Persist.Prog

namespace PBox

/-- A change with no record comes after one of the calls that return such a handle. -/
def Granted : Bool → List Effect → Prop
  | _, [] => True
  | _, .log :: es => Granted true es
  | _, .overwrite :: es => Granted true es
  | g, .mutate :: es => g = true ∧ Granted g es
  | g, _ :: es => Granted g es

def logs (es : List Effect) : Nat := es.count .log

/-- Until the object is logged or overwritten, nothing is written after a read and no selector reads. -/
def Safe : Bool → List Effect → Prop
  | _, [] => True
  | _, .look :: es => Safe true es
  | read, .overwrite :: _ => read = false
  | read, .field looks :: es => read = false ∧ looks = false ∧ Safe false es
  | _, .log :: _ => True
  | _, .mutate :: _ => True

variable {n room : Nat} {O : Type} {s s' x : PObject n} {v w : Bytes n} {hs : List Handle} {i : Nat} {m : Method}
  {c : Call n O} {b : Body n O} {next : List O → Body n O} {r rs : List O} {S : List Effect → Prop} {read g : Bool}

/-! ## Copies -/

def put : List (Fin n × UInt8) → Bytes n → Bytes n
  | [], v => v
  | (i, b) :: bs, v => put bs (Function.update v i b)

theorem put_of_not_mem {bs : List (Fin n × UInt8)} {j : Fin n} (h : ∀ b, (j, b) ∉ bs) : put bs v j = v j := by
  induction bs generalizing v with
  | nil => rfl
  | cons p bs ih =>
      have hjp : j ≠ p.1 := by
        rintro rfl
        exact h p.2 (List.mem_cons_self ..)
      rw [put, ih fun b hb => h b (List.mem_cons_of_mem _ hb), Function.update_of_ne hjp]

theorem put_of_mem {bs : List (Fin n × UInt8)} {j : Fin n} {b : UInt8} (h : (j, b) ∈ bs) : put bs v j = put bs w j := by
  induction bs generalizing v w b with
  | nil => cases h
  | cons p bs ih =>
      by_cases hbs : ∃ b, (j, b) ∈ bs
      · obtain ⟨b', hb'⟩ := hbs
        exact ih hb'
      · have hnot : ∀ b, (j, b) ∉ bs := fun b hb => hbs ⟨b, hb⟩
        rcases List.mem_cons.mp h with rfl | hb
        · simp [put, put_of_not_mem hnot]
        · exact absurd hb (hnot b)

/-- The places copied to do not matter before the copy. -/
theorem put_congr {bs : List (Fin n × UInt8)} (h : ∀ i, (∀ b, (i, b) ∉ bs) → v i = w i) : put bs v = put bs w := by
  funext i
  by_cases hi : ∃ b, (i, b) ∈ bs
  · obtain ⟨b, hb⟩ := hi
    exact put_of_mem hb
  · have hnot : ∀ b, (i, b) ∉ bs := fun b hb => hi ⟨b, hb⟩
    rw [put_of_not_mem hnot, put_of_not_mem hnot, h i hnot]

theorem put_all (data v : Bytes n) : put ((List.finRange n).map fun i => (i, data i)) v = data := by
  have h : ∀ (l : List (Fin n)) (v : Bytes n) (i : Fin n),
      put (l.map fun i => (i, data i)) v i = if i ∈ l then data i else v i := by
    intro l
    induction l with
    | nil => simp [put]
    | cons j l ih =>
        intro v i
        rw [List.map_cons, put, ih]
        by_cases hij : i = j
        · simp [hij]
        · simp [hij]
  exact funext fun i => by simp [h]

/-- Outside of the places copied to nothing changes. -/
theorem wpc_copyBytes {bs : List (Fin n × UInt8)} :
    wpc (copyBytes bs) (fun _ s' => s' = ⟨put bs s.value, s.journal⟩) False
      (fun x => x.journal = s.journal ∧ ∀ i, (∀ b, (i, b) ∉ bs) → x.value i = s.value i) s := by
  induction bs generalizing s with
  | nil => exact wpc_pure ⟨rfl, fun _ _ => rfl⟩ rfl
  | cons p bs ih =>
      have hkeep : ∀ j, (∀ b, (j, b) ∉ p :: bs) → Function.update s.value p.1 p.2 j = s.value j := by
        intro j hj
        have hjp : j ≠ p.1 := by
          rintro rfl
          exact hj p.2 (List.mem_cons_self ..)
        rw [Function.update_of_ne hjp]
      refine wpc_bind (wpc_store ⟨rfl, fun _ _ => rfl⟩ ⟨rfl, hkeep⟩ ?_)
      refine wpc_mono ih (fun _ s' hs' => hs') fun x hx => ⟨hx.1, fun j hj => ?_⟩
      rw [hx.2 j fun b hb => hj b (List.mem_cons_of_mem _ hb)]
      exact hkeep j hj

theorem copyBytes_out (bs : List (Fin n × UInt8)) (s : PObject n) :
    (copyBytes bs s).out = some ((), ⟨put bs s.value, s.journal⟩) := by
  obtain ⟨_, s', hout, rfl⟩ := wpc_copyBytes.returns
  exact hout

/-! ## Calls -/

/-- What a call returns and leaves, whether or not there is room for a record. -/
def Call.result : Call n O → PObject n → List O × PObject n
  | .move, s => ([], s)
  | .look f, s => ([f s.value], s)
  | .overwrite data, s => ([], ⟨data, s.journal⟩)
  | .field places data, s => ([], ⟨put (places.zip data) s.value, s.journal⟩)
  | .select selector data, s =>
      ([(selector s.value).1], ⟨put ((selector s.value).2.zip data) s.value, s.journal⟩)
  | .log, s => ([], ⟨s.value, s.value :: s.journal⟩)
  | .mutate i b, s => ([], ⟨Function.update s.value i b, s.journal⟩)

theorem Call.out_run (h : c ≠ .log ∨ s.journal.length < room) : (c.run room s).out = some (c.result s) := by
  cases c with
  | overwrite data => simp [Call.run, bind_of_out (copyBytes_out _ _), put_all, Call.result]
  | field places data => simp [Call.run, bind_of_out (copyBytes_out _ _), Call.result]
  | select selector data => simp [Call.run, bind_of_out (copyBytes_out _ _), Call.result]
  | log =>
      have hroom := h.resolve_left (· rfl)
      simp [Call.run, appendLogOf, assoc, check_bind_apply, hroom, Call.result]
  | _ => rfl

theorem Call.room_of_out (h : (Call.run room (.log : Call n O) s).out = some (r, s')) : s.journal.length < room := by
  by_contra hroom
  simp [Call.run, appendLogOf, assoc, check_bind_apply, hroom] at h

theorem Call.result_of_out (h : (c.run room s).out = some (r, s')) : c.result s = (r, s') := by
  have hroom : c ≠ .log ∨ s.journal.length < room := by
    by_cases hc : c = .log
    · subst hc
      exact Or.inr (Call.room_of_out h)
    · exact Or.inl hc
  rw [Call.out_run hroom] at h
  exact Option.some.inj h

/-- The oldest record is this copy. -/
def Logged (v : Bytes n) (s : PObject n) : Prop := s.journal.getLast? = some v

theorem Logged.recover (h : Logged v x) : recover x = ⟨v, []⟩ := by
  have hundo : ∀ (ws : List (Bytes n)) (u : Bytes n), ws.getLast? = some v → undo ws u = v := by
    intro ws
    induction ws with
    | nil => nofun
    | cons w ws ih =>
        intro u hw
        cases ws with
        | nil => exact Option.some.inj hw
        | cons w' ws => exact ih w (by simpa using hw)
  rw [PBox.recover, hundo _ _ h]

theorem Call.crash_log (hx : x ∈ crashes (Call.run room (.log : Call n O)) s) :
    x = s ∨ x = ⟨s.value, s.value :: s.journal⟩ := by
  simp only [Call.run, appendLogOf, assoc, crashes, gets_bind_apply, check_bind_apply] at hx
  split at hx
  · simpa using hx
  · simp at hx
    exact Or.inl hx

/-- A failure while bytes are copied, or behind the copy. -/
theorem crash_copyBytes {bs : List (Fin n × UInt8)} {rs : List O} (hx : x ∈ crashes (do copyBytes bs; pure rs) s) :
    x.journal = s.journal ∧ ∀ i, (∀ b, (i, b) ∉ bs) → x.value i = s.value i := by
  have hwpc : wpc (do copyBytes bs; pure rs) (fun _ _ => True) False
      (fun x => x.journal = s.journal ∧ ∀ i, (∀ b, (i, b) ∉ bs) → x.value i = s.value i) s := by
    refine wpc_bind (wpc_mono wpc_copyBytes (fun _ s' hs' => ?_) fun _ h => h)
    rw [hs']
    exact wpc_pure ⟨rfl, fun i hi => put_of_not_mem hi⟩ trivial
  exact hwpc.crash hx

/-- A failure within a call leaves the journal, but for a record that was added. -/
theorem Call.crash_journal (hx : x ∈ crashes (c.run room) s) :
    x.journal = s.journal ∨ c = .log ∧ x = ⟨s.value, s.value :: s.journal⟩ := by
  cases c with
  | overwrite data => exact Or.inl (crash_copyBytes hx).1
  | field places data => exact Or.inl (crash_copyBytes hx).1
  | select selector data =>
      have hcopy : x ∈ crashes (do copyBytes ((selector s.value).2.zip data); pure [(selector s.value).1]) s := by
        simpa [Call.run, crashes] using hx
      exact Or.inl (crash_copyBytes hcopy).1
  | log =>
      rcases Call.crash_log hx with rfl | rfl
      · exact Or.inl rfl
      · exact Or.inr ⟨rfl, rfl⟩
  | move => simp_all [Call.run, crashes]
  | look f => simp_all [Call.run, crashes, gets]
  | mutate i b =>
      simp [Call.run, crashes, setByte] at hx
      rcases hx with rfl | rfl <;> exact Or.inl rfl

theorem Logged.result (h : Logged v s) : Logged v (c.result s).2 := by
  cases c with
  | log =>
      unfold Logged at h ⊢
      cases hj : s.journal with
      | nil => simp [hj] at h
      | cons w ws => simp [Call.result, hj, ← h]
  | _ => exact h

theorem Logged.call (h : Logged v s) (hx : x ∈ crashes (c.run room) s) : Logged v x := by
  rcases Call.crash_journal hx with hj | ⟨rfl, rfl⟩
  · rw [Logged, hj]
    exact h
  · exact h.result (c := (.log : Call n O))

/-! ## Bodies -/

theorem Body.out_call (h : ((Body.call i m c next).run room s).out = some (rs, s')) :
    ∃ rs', (c.run room s).out = some (c.result s) ∧
      ((next (c.result s).1).run room (c.result s).2).out = some (rs', s') ∧ rs = (c.result s).1 ++ rs' := by
  rw [Body.run] at h
  cases hc : (c.run room s).out with
  | none => simp [bind_of_none hc] at h
  | some q =>
      obtain ⟨r, s₁⟩ := q
      rw [bind_of_out hc] at h
      rw [Call.result_of_out hc]
      dsimp only at h ⊢
      cases hn : ((next r).run room s₁).out with
      | none => simp [bind_of_none hn] at h
      | some q =>
          obtain ⟨rs', s₂⟩ := q
          simp [bind_of_out hn] at h
          exact ⟨rs', rfl, by rw [h.2], h.1.symm⟩

theorem Body.run_call (h : (c.run room s).out = some (c.result s)) :
    ((Body.call i m c next).run room s).out =
      ((next (c.result s).1).run room (c.result s).2).out.map fun q => ((c.result s).1 ++ q.1, q.2) := by
  cases hq : c.result s with
  | mk r s₁ =>
      rw [hq] at h
      rw [Body.run, bind_of_out h]
      cases hn : ((next r).run room s₁).out with
      | none => simp [bind_of_none hn]
      | some q => simp [bind_of_out hn]

theorem Body.crash_call (h : x ∈ crashes ((Body.call i m c next).run room) s) :
    x ∈ crashes (c.run room) s ∨ x ∈ crashes ((next (c.result s).1).run room) (c.result s).2 := by
  rcases List.mem_cons.mp h with rfl | h
  · exact Or.inl (List.mem_cons_self ..)
  · rw [Body.run] at h
    rcases mem_trace_bind h with h | ⟨r, s₁, hc, h⟩
    · exact Or.inl (List.mem_cons_of_mem _ h)
    · rw [Call.result_of_out hc]
      rcases mem_trace_bind h with h | ⟨rs', s₂, -, h⟩
      · exact Or.inr (List.mem_cons_of_mem _ h)
      · cases h

theorem Logged.run (h : Logged v s) (hx : x ∈ crashes (b.run room) s) : Logged v x := by
  induction b generalizing s with
  | done =>
      simp [Body.run, crashes] at hx
      rwa [hx]
  | call i m c next ih =>
      rcases Body.crash_call hx with hx | hx
      · exact h.call hx
      · exact ih _ h.result hx

theorem Logged.recover_run (h : Logged v s) (hx : x ∈ crashes (b.run room) s) : PBox.recover x = ⟨v, []⟩ :=
  (h.run hx).recover

/-! ## Orders -/

def Effect.grants : Option Effect → Bool
  | some .log | some .overwrite => true
  | _ => false

theorem granted_cons {es : List Effect} :
    Granted g (c.effect.toList ++ es) ↔ (c.effect = some .mutate → g = true) ∧
    Granted (g || Effect.grants c.effect) es := by
  cases c <;> simp [Call.effect, Granted, Effect.grants]

theorem Method.mutate_writable (h : m.signature.effect = some .mutate) : m.signature.receiver.writable = true := by
  cases m <;> first | rfl | cases h

theorem Method.result_writable {h : Handle} (hr : m.signature.result = some h) (hw : h.writable = true) :
    m.signature.receiver.writable = true ∨ Effect.grants m.signature.effect = true := by
  cases m <;> cases hr <;> revert hw <;> decide

/-- Handles through which the object is changed with no record come from a call that logs it or overwrites it. -/
theorem Method.after_writable (hg : ∀ h ∈ hs, h.writable = true → g = true) (hi : hs[i]? = some m.signature.receiver) :
    ∀ h ∈ m.after i hs, h.writable = true → (g || Effect.grants m.signature.effect) = true := by
  intro h hh hw
  have hreceiver : m.signature.receiver ∈ hs := List.mem_of_getElem? hi
  rw [Method.after, List.mem_append] at hh
  rcases hh with hh | hh
  · have hmem : h ∈ hs := by
      split at hh
      · exact List.mem_of_mem_eraseIdx hh
      · exact hh
    simp [hg h hmem hw]
  · rcases Method.result_writable (Option.mem_toList.mp hh) hw with hw | hw
    · simp [hg _ hreceiver hw]
    · simp [hw]

theorem order_step {es : List Effect} (hg : ∀ h ∈ hs, h.writable = true → g = true)
    (hi : hs[i]? = some m.signature.receiver) (he : c.effect = m.signature.effect)
    (hc : (c.run room s).out = some (c.result s)) (hes : Granted (g || Effect.grants c.effect) es)
    (hlogs : logs es ≤ room - (c.result s).2.journal.length) :
    Granted g (c.effect.toList ++ es) ∧ logs (c.effect.toList ++ es) ≤ room - s.journal.length := by
  refine ⟨granted_cons.mpr ⟨fun hm => ?_, hes⟩, ?_⟩
  · rw [he] at hm
    exact hg _ (List.mem_of_getElem? hi) (Method.mutate_writable hm)
  · cases c with
    | log =>
        have hroom := Call.room_of_out hc
        simp only [Call.result, List.length_cons] at hlogs
        simp only [Call.effect, Option.toList, logs, List.cons_append, List.nil_append, List.count_cons_self] at hlogs ⊢
        omega
    | _ => simpa [Call.effect, logs, Call.result] using hlogs

/-- A body that ends takes one of its orders. -/
theorem Body.exists_order (hg : ∀ h ∈ hs, h.writable = true → g = true) (ht : b.Typed hs) (hw : b.Within S)
    (hout : (b.run room s).out = some (rs, s')) :
    ∃ es, S es ∧ Granted g es ∧ logs es ≤ room - s.journal.length := by
  induction b generalizing S hs g s rs with
  | done => exact ⟨[], hw, trivial, Nat.zero_le _⟩
  | call i m c next ih =>
      obtain ⟨hi, he, hnext⟩ := ht
      obtain ⟨rs', hc, hout', -⟩ := Body.out_call hout
      obtain ⟨es, hS, hes, hlogs⟩ := ih _ (Method.after_writable hg hi) (hnext _) (hw _) hout'
      rw [← he] at hes
      exact ⟨_, hS, order_step hg hi he hc hes hlogs⟩

theorem Body.order_call (hg : ∀ h ∈ hs, h.writable = true → g = true) (ht : (Body.call i m c next).Typed hs)
    (hw : (Body.call i m c next).Within S) (hout : ((Body.call i m c next).run room s).out = some (rs, s')) :
    ∃ es, S (c.effect.toList ++ es) ∧ Granted g (c.effect.toList ++ es) ∧
      logs (c.effect.toList ++ es) ≤ room - s.journal.length := by
  obtain ⟨hi, he, hnext⟩ := ht
  obtain ⟨rs', hc, hout', -⟩ := Body.out_call hout
  obtain ⟨es, hS, hes, hlogs⟩ := Body.exists_order (Method.after_writable hg hi) (hnext _) (hw _) hout'
  rw [← he] at hes
  exact ⟨es, hS, order_step hg hi he hc hes hlogs⟩

/-! ## Safe orders -/

/-- Once something was read, roll back restores what the object was. -/
theorem Body.recover_read (hg : ∀ h ∈ hs, h.writable = true → false = true) (ht : b.Typed hs) (hw : b.Within S)
    (hsafe : ∀ es, S es → Granted false es → logs es ≤ room → Safe true es)
    (hout : (b.run room ⟨v, []⟩).out = some (rs, s)) (hx : x ∈ crashes (b.run room) ⟨v, []⟩) : recover x = ⟨v, []⟩ := by
  induction b generalizing S hs rs with
  | done =>
      simp [Body.run, crashes] at hx
      rw [hx]
      rfl
  | call i m c next ih =>
      obtain ⟨es, hS, hes, hlogs⟩ := Body.order_call hg ht hw hout
      have hhead := hsafe _ hS hes hlogs
      obtain ⟨hi, he, hnext⟩ := ht
      obtain ⟨rs', hc, hout', -⟩ := Body.out_call hout
      have hafter := Method.after_writable hg hi
      have hlogged : Logged v (⟨v, [v]⟩ : PObject n) := rfl
      rw [← he] at hafter
      cases c with
      | move =>
          rcases Body.crash_call hx with hx | hx
          · simp [Call.run, crashes] at hx
            rw [hx]
            rfl
          · exact ih _ hafter (hnext _) (hw _) (fun es hS hes hlogs => hsafe es hS hes hlogs) hout' hx
      | look f =>
          rcases Body.crash_call hx with hx | hx
          · simp [Call.run, crashes, gets] at hx
            rw [hx]
            rfl
          · exact ih _ hafter (hnext _) (hw _)
              (fun es hS hes hlogs => hsafe (.look :: es) hS hes (by simpa [logs] using hlogs)) hout' hx
      | overwrite data => cases (hhead : true = false)
      | field places data => cases hhead.1
      | select selector data => cases hhead.1
      | log =>
          rcases Body.crash_call hx with hx | hx
          · rcases Call.crash_log hx with rfl | rfl
            · rfl
            · rfl
          · exact hlogged.recover_run hx
      | mutate i b => cases hes.1

/-- Each byte is one of the two. -/
def Mixed (u v w : Bytes n) : Prop := ∀ i, w i = u i ∨ w i = v i

theorem Mixed.self (h : Mixed v v w) : w = v := funext fun i => (h i).elim id id

/-- What was written up to the failure is written again, over what is left of the first run. -/
theorem Body.rerun {u : Bytes n} (hg : ∀ h ∈ hs, h.writable = true → false = true) (ht : b.Typed hs) (hw : b.Within S)
    (hsafe : ∀ es, S es → Granted false es → logs es ≤ room → Safe false es)
    (hout : (b.run room ⟨v, []⟩).out = some (rs, s)) (hx : x ∈ crashes (b.run room) ⟨v, []⟩)
    (hu : Mixed (recover x).value v u) : (b.run room ⟨u, []⟩).out = some (rs, s) := by
  induction b generalizing S hs rs v u with
  | done =>
      simp [Body.run, crashes] at hx
      rw [hx] at hu
      rwa [hu.self]
  | call i m c next ih =>
      obtain ⟨es, hS, hes, hlogs⟩ := Body.order_call hg ht hw hout
      have hhead := hsafe _ hS hes hlogs
      have hcall := ht
      obtain ⟨hi, he, hnext⟩ := hcall
      obtain ⟨rs', hc, hout', hrs⟩ := Body.out_call hout
      have hafter := Method.after_writable hg hi
      have hlogged : Logged v (⟨v, [v]⟩ : PObject n) := rfl
      rw [← he] at hafter
      cases c with
      | move =>
          rcases Body.crash_call hx with hx | hx
          · simp [Call.run, crashes] at hx
            rw [hx] at hu
            rwa [hu.self]
          · have hrun := ih _ hafter (hnext _) (hw _) (fun es hS hes hlogs => hsafe es hS hes hlogs) hout' hx hu
            rw [Body.run_call rfl, hrs]
            dsimp only [Call.result] at hrun ⊢
            simp [hrun]
      | look f =>
          have hrec : recover x = ⟨v, []⟩ := by
            rcases Body.crash_call hx with hx | hx
            · simp [Call.run, crashes, gets] at hx
              rw [hx]
              rfl
            · exact Body.recover_read hafter (hnext _) (hw _)
                (fun es hS hes hlogs => hsafe (.look :: es) hS hes (by simpa [logs] using hlogs)) hout' hx
          rw [hrec] at hu
          rwa [hu.self]
      | overwrite data =>
          have hne : (Call.overwrite data : Call n O) ≠ .log := by simp
          rw [Body.run_call (Call.out_run (Or.inl hne)), hrs]
          dsimp only [Call.result] at hout' ⊢
          simp [hout']
      | field places data =>
          have hne : (Call.field places data : Call n O) ≠ .log := by simp
          rw [Body.run_call (Call.out_run (Or.inl hne)), hrs]
          dsimp only [Call.result] at hout' ⊢
          rcases Body.crash_call hx with hx | hx
          · obtain ⟨hj, hoff⟩ := crash_copyBytes hx
            have hrec : (recover x).value = x.value := by rw [recover, hj]; rfl
            have hput : put (places.zip data) u = put (places.zip data) v := by
              refine put_congr fun i hi => ?_
              rcases hu i with h | h
              · rw [h, hrec, hoff i hi]
              · exact h
            rw [hput]
            simp [hout']
          · have hmixed : Mixed (recover x).value (put (places.zip data) v) (put (places.zip data) u) := by
              intro i
              by_cases hi : ∃ b, (i, b) ∈ places.zip data
              · obtain ⟨b, hb⟩ := hi
                exact Or.inr (put_of_mem hb)
              · have hnot : ∀ b, (i, b) ∉ places.zip data := fun b hb => hi ⟨b, hb⟩
                rw [put_of_not_mem hnot, put_of_not_mem hnot]
                exact hu i
            have hrun := ih _ hafter (hnext _) (hw _)
              (fun es hS hes hlogs => (hsafe (.field false :: es) hS hes (by simpa [logs] using hlogs)).2.2) hout' hx
              hmixed
            simp [hrun]
      | select selector data => cases hhead.2.1
      | log =>
          have hrec : recover x = ⟨v, []⟩ := by
            rcases Body.crash_call hx with hx | hx
            · rcases Call.crash_log hx with rfl | rfl
              · rfl
              · rfl
            · exact hlogged.recover_run hx
          rw [hrec] at hu
          rwa [hu.self]
      | mutate i b => cases hes.1

theorem Body.consistent (hwritable : ∀ h ∈ hs, h.writable = false) (ht : b.Typed hs) (hw : b.Within S)
    (hsafe : ∀ es, S es → Granted false es → logs es ≤ room → Safe false es) : b.Consistent room := by
  intro v rs s x hout hx
  have hg : ∀ h ∈ hs, h.writable = true → false = true := by
    intro h hh hw
    rwa [hwritable h hh] at hw
  exact ⟨s, Body.rerun hg ht hw hsafe hout hx fun i => Or.inl rfl, rfl⟩

/-! ## Unsafe orders -/

/-- The handles of `ofOrder` after `k` calls that return a `PRefRW`. -/
def staticHandles (k : Nat) : List Handle := .pstatic :: List.replicate k .prefRW

/-- A body on a static that takes this order: it reads the second byte and, once it may have been read, writes it. -/
def ofOrder : Bool → Nat → List Effect → Body 2 UInt8
  | _, _, [] => .done
  | _, k, .look :: es => .call 0 .pstaticAsRef (.look (· 1)) fun _ => ofOrder true k es
  | read, k, .overwrite :: es =>
      .call 0 .pstaticAsPref .move fun _ => .call (k + 1) .prefWrite (.overwrite fun _ => 1) fun _ =>
        ofOrder read (k + 1) es
  | read, k, .field false :: es =>
      .call 0 .pstaticAsPref .move fun _ =>
        .call (k + 1) (.prefPartialWrite false) (.field [if read then 1 else 0] [1]) fun _ =>
          .call (k + 1) (.drop .pref) .move fun _ => ofOrder read k es
  | read, k, .field true :: es =>
      .call 0 .pstaticAsPref .move fun _ =>
        .call (k + 1) (.prefPartialWrite true) (.select (fun v => (v 1, [1])) [1]) fun _ =>
          .call (k + 1) (.drop .pref) .move fun _ => ofOrder read k es
  | read, k, .log :: es =>
      .call 0 .pstaticAsPref .move fun _ => .call (k + 1) .prefReadWr .log fun _ => ofOrder read (k + 1) es
  | read, k, .mutate :: es => .call 1 .prefRWDerefMut (.mutate 0 0) fun _ => ofOrder read k es

section
variable {k : Nat} {es : List Effect}

theorem staticHandles_append : staticHandles k ++ [.prefRW] = staticHandles (k + 1) := by
  simp [staticHandles, List.replicate_succ']

@[simp] theorem staticHandles_length : (staticHandles k).length = k + 1 := by simp [staticHandles]

theorem staticHandles_last : (staticHandles k ++ [Handle.pref])[k + 1]? = some .pref := by
  rw [List.getElem?_append_right (by simp)]
  simp

theorem staticHandles_eraseIdx : (staticHandles k ++ [Handle.pref]).eraseIdx (k + 1) = staticHandles k := by
  rw [List.eraseIdx_append_of_length_le (by simp)]
  simp

theorem after_asPref : Method.pstaticAsPref.after 0 (staticHandles k) = staticHandles k ++ [.pref] := rfl

theorem after_consume {h : Handle} (hm : m.signature = ⟨.pref, true, m.signature.effect, some h⟩) :
    m.after (k + 1) (staticHandles k ++ [.pref]) = staticHandles k ++ [h] := by
  rw [Method.after, hm]
  simp [staticHandles_eraseIdx]

theorem ofOrder_typed (h : Granted (decide (0 < k)) es) : (ofOrder read k es).Typed (staticHandles k) := by
  induction es generalizing read k with
  | nil => exact trivial
  | cons e es ih =>
      cases e with
      | look =>
          refine ⟨rfl, rfl, fun _ => ?_⟩
          rw [show Method.pstaticAsRef.after 0 (staticHandles k) = staticHandles k by
            simp [Method.after, Method.signature]]
          exact ih h
      | overwrite =>
          refine ⟨rfl, rfl, fun _ => ⟨by rw [after_asPref, staticHandles_last]; rfl, rfl, fun _ => ?_⟩⟩
          rw [after_asPref, after_consume rfl, staticHandles_append]
          exact ih (by rw [decide_eq_true (Nat.succ_pos k)]; exact h)
      | field looks =>
          have hdrop : (Method.drop .pref).after (k + 1) (staticHandles k ++ [.pref]) = staticHandles k := by
            simp [Method.after, Method.signature, staticHandles_eraseIdx]
          have hkeep : (Method.prefPartialWrite looks).after (k + 1) (staticHandles k ++ [.pref]) =
              staticHandles k ++ [.pref] := by simp [Method.after, Method.signature]
          cases looks with
          | false =>
              refine ⟨rfl, rfl, fun _ => ⟨by rw [after_asPref, staticHandles_last]; rfl, rfl, fun _ => ?_⟩⟩
              rw [after_asPref, hkeep]
              refine ⟨by rw [staticHandles_last]; rfl, rfl, fun _ => ?_⟩
              rw [hdrop]
              exact ih h
          | true =>
              refine ⟨rfl, rfl, fun _ => ⟨by rw [after_asPref, staticHandles_last]; rfl, rfl, fun _ => ?_⟩⟩
              rw [after_asPref, hkeep]
              refine ⟨by rw [staticHandles_last]; rfl, rfl, fun _ => ?_⟩
              rw [hdrop]
              exact ih h
      | log =>
          refine ⟨rfl, rfl, fun _ => ⟨by rw [after_asPref, staticHandles_last]; rfl, rfl, fun _ => ?_⟩⟩
          rw [after_asPref, after_consume rfl, staticHandles_append]
          exact ih (by rw [decide_eq_true (Nat.succ_pos k)]; exact h)
      | mutate =>
          obtain ⟨hk, hes⟩ := h
          obtain ⟨k, rfl⟩ : ∃ k', k = k' + 1 := ⟨k - 1, by simp at hk; omega⟩
          refine ⟨rfl, rfl, fun _ => ?_⟩
          rw [show Method.prefRWDerefMut.after 1 (staticHandles (k + 1)) = staticHandles (k + 1) by
            simp [Method.after, Method.signature]]
          exact ih hes

theorem ofOrder_within (h : S es) : (ofOrder read k es).Within S := by
  induction es generalizing read k S with
  | nil => exact h
  | cons e es ih =>
      cases e with
      | field looks =>
          cases looks with
          | false => exact fun _ _ _ => ih h
          | true => exact fun _ _ _ => ih h
      | overwrite => exact fun _ _ => ih h
      | log => exact fun _ _ => ih h
      | _ => exact fun _ => ih h

theorem Call.result_mem_crashes (h : (c.run room s).out = some (c.result s)) :
    (c.result s).2 ∈ crashes (c.run room) s := by
  have hcopy : ∀ (bs : List (Fin n × UInt8)) (s : PObject n) (rs : List O),
      (⟨put bs s.value, s.journal⟩ : PObject n) ∈ crashes (do copyBytes bs; pure rs) s := by
    intro bs
    induction bs with
    | nil => exact fun s rs => List.mem_cons_self ..
    | cons p bs ih =>
        intro s rs
        have hmem := ih ⟨Function.update s.value p.1 p.2, s.journal⟩ rs
        rw [crashes, copyBytes, assoc, setByte, store_bind_apply]
        exact List.mem_cons_of_mem _ hmem
  cases c with
  | move => exact List.mem_cons_self ..
  | look f => exact List.mem_cons_self ..
  | overwrite data =>
      have hmem := hcopy ((List.finRange n).map fun i => (i, data i)) s []
      rwa [put_all] at hmem
  | field places data => exact hcopy _ _ _
  | select selector data => exact hcopy _ _ _
  | log =>
      have hroom := Call.room_of_out h
      simp [Call.run, appendLogOf, assoc, crashes, check_bind_apply, hroom, Call.result]
  | mutate i b => simp [Call.run, setByte, crashes, Call.result]

theorem Body.crash_here (hx : x ∈ crashes (c.run room) s) : x ∈ crashes ((Body.call i m c next).run room) s := by
  rw [crashes, Body.run]
  rcases List.mem_cons.mp hx with rfl | hx
  · exact List.mem_cons_self ..
  · exact List.mem_cons_of_mem _ (mem_trace_bind_left hx)

theorem Body.crash_next (h : (c.run room s).out = some (c.result s))
    (hx : x ∈ crashes ((next (c.result s).1).run room) (c.result s).2) :
    x ∈ crashes ((Body.call i m c next).run room) s := by
  rcases List.mem_cons.mp hx with rfl | hx
  · exact Body.crash_here (Call.result_mem_crashes h)
  · cases hq : c.result s with
    | mk r s₁ =>
        rw [hq] at h hx
        rw [crashes, Body.run]
        exact List.mem_cons_of_mem _ (mem_trace_bind_right h (mem_trace_bind_left hx))

/-- With room for its records the body ends. -/
theorem ofOrder_ends {s : PObject 2} (h : s.journal.length + logs es ≤ room) :
    ∃ rs s', ((ofOrder read k es).run room s).out = some (rs, s') := by
  have hstep : ∀ {i m} {c : Call 2 UInt8} {next} {s : PObject 2}, (c.run room s).out = some (c.result s) →
      (∃ rs s', (((next : List UInt8 → Body 2 UInt8) (c.result s).1).run room (c.result s).2).out = some (rs, s')) →
      ∃ rs s', ((Body.call i m c next).run room s).out = some (rs, s') := by
    rintro i m c next s hc ⟨rs, s', hn⟩
    rw [Body.run_call hc, hn]
    exact ⟨_, _, rfl⟩
  induction es generalizing read k s with
  | nil => exact ⟨_, _, rfl⟩
  | cons e es ih =>
      cases e with
      | log =>
          simp only [logs, List.count_cons_self] at h
          refine hstep rfl (hstep (Call.out_run (Or.inr ?_)) (ih ?_))
          · simp only [Call.result]
            omega
          · simp only [Call.result, List.length_cons, logs]
            omega
      | look => exact hstep rfl (ih (by simpa [logs, Call.result] using h))
      | mutate => exact hstep rfl (ih (by simpa [logs, Call.result] using h))
      | overwrite => exact hstep rfl (hstep (Call.out_run (Or.inl nofun)) (ih (by simpa [logs, Call.result] using h)))
      | field looks =>
          cases looks with
          | false => exact hstep rfl (hstep (Call.out_run (Or.inl nofun))
              (hstep rfl (ih (by simpa [logs, Call.result] using h))))
          | true => exact hstep rfl (hstep (Call.out_run (Or.inl nofun))
              (hstep rfl (ih (by simpa [logs, Call.result] using h))))

theorem Call.out_of_ne (h : c ≠ .log) : (c.run room s).out = some (c.result s) := Call.out_run (Or.inl h)

/-- No record is kept of what other calls write. -/
theorem Call.unlogged_crash (room : Nat) (v : Bytes 2) {c : Call 2 UInt8} (h : c ≠ .log) :
    (c.result ⟨v, []⟩).2 ∈ crashes (c.run room) ⟨v, []⟩ := Call.result_mem_crashes (Call.out_of_ne h)

/-- After a read the second byte is written with no record. -/
theorem ofOrder_crash_read {v : Bytes 2} (h : ¬ Safe true es) :
    ∃ x ∈ crashes ((ofOrder true k es).run room) ⟨v, []⟩, x.journal = [] ∧ x.value 1 = 1 := by
  induction es generalizing k with
  | nil => exact absurd trivial h
  | cons e es ih =>
      cases e with
      | look =>
          obtain ⟨x, hx, hvalue⟩ := ih (k := k) h
          exact ⟨x, Body.crash_next rfl hx, hvalue⟩
      | overwrite =>
          have hmem := Call.unlogged_crash room v (c := .overwrite fun _ => 1) nofun
          exact ⟨_, Body.crash_next rfl (Body.crash_here hmem), rfl, rfl⟩
      | field looks =>
          cases looks with
          | false =>
              have hmem := Call.unlogged_crash room v (c := .field [1] [1]) nofun
              exact ⟨_, Body.crash_next rfl (Body.crash_here hmem), rfl, rfl⟩
          | true =>
              have hmem := Call.unlogged_crash room v (c := .select (fun v => (v 1, [1])) [1]) nofun
              exact ⟨_, Body.crash_next rfl (Body.crash_here hmem), rfl, rfl⟩
      | log => exact absurd trivial h
      | mutate => exact absurd trivial h

theorem ofOrder_crash {v : Bytes 2} (h : ¬ Safe false es) :
    ∃ x ∈ crashes ((ofOrder false k es).run room) ⟨v, []⟩, x.journal = [] ∧ x.value 1 = 1 := by
  induction es generalizing k v with
  | nil => exact absurd trivial h
  | cons e es ih =>
      cases e with
      | look =>
          obtain ⟨x, hx, hvalue⟩ := ofOrder_crash_read (k := k) h
          exact ⟨x, Body.crash_next rfl hx, hvalue⟩
      | overwrite => exact absurd rfl h
      | field looks =>
          cases looks with
          | false =>
              have hes : ¬ Safe false es := fun hes => h ⟨rfl, rfl, hes⟩
              obtain ⟨x, hx, hvalue⟩ := ih (k := k) hes
              exact ⟨x, Body.crash_next rfl (Body.crash_next (Call.out_of_ne nofun) (Body.crash_next rfl hx)), hvalue⟩
          | true =>
              have hmem := Call.unlogged_crash room v (c := .select (fun v => (v 1, [1])) [1]) nofun
              exact ⟨_, Body.crash_next rfl (Body.crash_here hmem), rfl, rfl⟩
      | log => exact absurd trivial h
      | mutate => exact absurd trivial h

/-- What is read first is the second byte as it was. -/
theorem ofOrder_head {v : Bytes 2} {s' : PObject 2} {rs : List UInt8} (h : ¬ Safe false es)
    (hout : ((ofOrder false k es).run room ⟨v, []⟩).out = some (rs, s')) : rs.head? = some (v 1) := by
  induction es generalizing k v rs with
  | nil => exact absurd trivial h
  | cons e es ih =>
      cases e with
      | look =>
          obtain ⟨rs', -, -, rfl⟩ := Body.out_call hout
          rfl
      | overwrite => exact absurd rfl h
      | field looks =>
          cases looks with
          | false =>
              have hes : ¬ Safe false es := fun hes => h ⟨rfl, rfl, hes⟩
              obtain ⟨rs₁, -, hout, rfl⟩ := Body.out_call hout
              obtain ⟨rs₂, -, hout, rfl⟩ := Body.out_call hout
              obtain ⟨rs₃, -, hout, rfl⟩ := Body.out_call hout
              have hhead := ih (v := Function.update v 0 1) hes hout
              simpa using hhead
          | true =>
              obtain ⟨rs₁, -, hout, rfl⟩ := Body.out_call hout
              obtain ⟨rs₂, -, hout, rfl⟩ := Body.out_call hout
              rfl
      | log => exact absurd trivial h
      | mutate => exact absurd trivial h

theorem ofOrder_not_consistent (hlogs : logs es ≤ room) (h : ¬ Safe false es) :
    ¬ (ofOrder false 0 es).Consistent room := by
  intro hc
  have hends : ∃ rs s, ((ofOrder false 0 es).run room ⟨fun _ => 0, []⟩).out = some (rs, s) :=
    ofOrder_ends (by simpa using hlogs)
  have hcrash : ∃ x ∈ crashes ((ofOrder false 0 es).run room) ⟨fun _ => 0, []⟩, x.journal = [] ∧ x.value 1 = 1 :=
    ofOrder_crash h
  obtain ⟨rs, s, hout⟩ := hends
  obtain ⟨x, hx, hj, hvalue⟩ := hcrash
  obtain ⟨s', hout', -⟩ := hc _ _ _ _ hout hx
  have hrec : recover x = ⟨x.value, []⟩ := by rw [recover, hj]; rfl
  rw [hrec] at hout'
  have hbefore := ofOrder_head h hout
  have hafter := ofOrder_head h hout'
  rw [hbefore, hvalue] at hafter
  cases hafter

end

/-- The bodies that keep to some orders are crash-consistent exactly if those orders are safe: those that a body can
take and that have room for their records. -/
theorem consistent_iff (room : Nat) (S : List Effect → Prop) :
    (∀ (hs : List Handle), (∀ h ∈ hs, h.writable = false) → ∀ (n : Nat) (O : Type) (b : Body n O),
      b.Typed hs → b.Within S → b.Consistent room) ↔
    ∀ es, S es → Granted false es → logs es ≤ room → Safe false es := by
  refine ⟨fun h es hS hes hlogs => ?_, fun hsafe hs hwritable n O b ht hw => b.consistent hwritable ht hw hsafe⟩
  by_contra hunsafe
  refine ofOrder_not_consistent hlogs hunsafe (h [.pstatic] ?_ 2 UInt8 _ (ofOrder_typed (k := 0) hes)
    (ofOrder_within hS))
  simp [Handle.writable]

/-- The object is read through one `PRef` and written through the next. -/
def freshPref : Body 1 UInt8 :=
  .call 0 .ptrAsPref .move fun _ => .call 1 .prefRead (.look (· 0)) fun _ => .call 1 (.drop .prefWLog) .move fun _ =>
    .call 0 .ptrAsPref .move fun _ => .call 1 .prefWrite (.overwrite fun _ => 1) fun _ => .done

theorem not_consistent_freshPref :
    ¬ ∀ (room n : Nat) (O : Type) (b : Body n O), b.Typed [.ptr] → b.Consistent room := by
  intro h
  have htyped : freshPref.Typed [.ptr] := by simp [freshPref, Body.Typed, Call.effect, Method.signature, Method.after]
  obtain ⟨s', hout, -⟩ := h 0 1 UInt8 freshPref htyped (fun _ => 0) [0] _ ⟨Function.update (fun _ => 0) 0 1, []⟩ rfl
    (.tail _ (.head _))
  have hread : [(1 : UInt8)] = [0] := congrArg Prod.fst (Option.some.inj hout)
  exact absurd hread (by decide)

end PBox

end IntOS
