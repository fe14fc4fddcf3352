import IntOS.Pmem.Body
import IntOS.Tx.Lemmas.Transaction

/-!
# Transactions with unlogged stores

A body that stores to some addresses without logging them is still rolled back everywhere else.
-/

namespace IntOS

open Persist Persist.Prog Transaction

variable {b : Board} {α β : Type}

namespace Body

variable {w : PtrWidth} {R : Nat → Prop} {W : List (Obj w) → Nat → Prop} {os : List (Obj w)}
  {m : Nat → UInt8} {p : Body w α}

/-- The postcondition may speak of what the body computes. -/
theorem wp.and_eval {Q : α → List (Obj w) → (Nat → UInt8) → Prop} (h : wp R W Q p os m) :
    wp R W (fun a os' m' => Q a os' m' ∧ p.eval m = (a, m')) p os m := by
  induction p generalizing os m with
  | ret a => exact ⟨h, rfl⟩
  | log o k ih => exact ⟨h.1, ih h.2⟩
  | load a k ih => exact ⟨h.1, ih _ h.2⟩
  | store a v k ih => exact ⟨h.1, ih h.2⟩

/-- A body that logs before it stores, in the terms of `wp`. -/
theorem wp_of_logged {os' : List (Obj w)} (h : p.Logged os m) (hsub : ∀ o ∈ os, o ∈ os') :
    wp (fun _ => True) (fun os a => ∃ o ∈ os, o.Contains a) (fun a _ m' => p.eval m = (a, m')) p os' m := by
  induction p generalizing os os' m with
  | ret a => exact rfl
  | log o k ih =>
      refine ⟨fun _ _ => trivial, ih h fun o' ho' => ?_⟩
      rcases List.mem_cons.mp ho' with rfl | ho'
      · exact List.mem_cons_self
      · exact List.mem_cons_of_mem _ (hsub o' ho')
  | load a k ih => exact ⟨trivial, ih _ h hsub⟩
  | store a v k ih =>
      obtain ⟨⟨o, ho, ha⟩, hk⟩ := h
      exact ⟨⟨o, hsub o ho, ha⟩, ih hk hsub⟩

end Body

/-- A failure before the commit point: recovery leads back to the memory of `s`, except for addresses of
`S`. -/
def NotYetOff (b : Board) (S : Nat → Prop) (s c : Transaction) : Prop :=
  ∃ m', (∀ a, ¬ S a → m' a = s.pm.mem a) ∧ NotYet b { s with pm.mem := m' } c

/-- The crash points of a transaction whose body writes logged objects and addresses of `S`, up to the store
that sets the flag. -/
theorem Transaction.crashes_off {f : Body b.width α} {S R : Nat → Prop}
    {Q : α → List (Obj b.width) → (Nat → UInt8) → Prop} {finish : α → Prog Transaction Unit} {s c : Transaction}
    (hw : s.pm.journal.WellFormed) (ht : s.pm.journal.tail = 0)
    (hf : f.wp R (fun os a => (∃ o ∈ os, o.Contains a) ∨ S a) Q [] s.pm.mem)
    (hfinish : ∀ a (s' c' : Transaction), Running b s' c' → wpc (finish a) (fun _ _ => True) True
      (fun c => NotYet b s' c ∨ c.cache.isCommitted b.width) c')
    (hc : c ∈ crashes (do
      begin b
      let ret ← onPm (f.run b)
      finish ret
      pure ret) s) :
    c = s ∨ NotYetOff b S s c ∨ c.cache.isCommitted b.width := by
  have hsame : ∀ a, ¬ S a → s.pm.mem a = s.pm.mem a := fun _ _ => rfl
  rw [crashes, List.mem_cons] at hc
  rcases hc with hc | hc
  · exact Or.inl hc
  right
  rcases mem_trace_bind hc with hc | ⟨_, s₁, ho₁, hc⟩
  · exact Or.inl ⟨_, hsame, begin_trace hw ht hc⟩
  obtain ⟨hrun, hpm⟩ := (wpc_begin hw ht (Or.inr trivial)).post ho₁
  have hback : ∀ pm, UndoableOff b S s.pm.mem pm →
      ∃ m', (∀ a, ¬ S a → m' a = s.pm.mem a) ∧
        Running b { s with pm.mem := m' } { s₁ with pm := pm } := by
    rintro pm ⟨m', hm', hund⟩
    exact ⟨m', hm', hund, hrun.tail, hrun.ptr, hrun.kept, hrun.nestingLevel⟩
  have hbody : wpc (onPm (f.run b)) (fun _ c => ∃ pm, c = { s₁ with pm := pm } ∧ UndoableOff b S s.pm.mem pm)
      True (fun c => ∃ pm, c = { s₁ with pm := pm } ∧ UndoableOff b S s.pm.mem pm) s₁ := by
    apply wpc_zoom rfl
    rw [hpm]
    refine wpc_mono (wpc_bodyOff f hsame (Undoes.empty hw ht) hf) ?_ ?_
    · exact fun _ pm h => ⟨pm, rfl, h.1⟩
    · exact fun pm h => ⟨pm, rfl, h⟩
  rcases mem_trace_bind hc with hc | ⟨ret, s₂, ho₂, hc⟩
  · obtain ⟨pm, rfl, hpm'⟩ := hbody.trace hc
    obtain ⟨m', hm', hr⟩ := hback pm hpm'
    exact Or.inl ⟨m', hm', hr.notYet⟩
  obtain ⟨pm, rfl, hpm'⟩ := hbody.post ho₂
  obtain ⟨m', hm', hr⟩ := hback pm hpm'
  rcases mem_trace_bind hc with hc | ⟨_, s₃, _, hc⟩
  · exact ((hfinish ret _ _ hr).trace hc).imp_left fun h => ⟨m', hm', h⟩
  · cases hc

theorem Transaction.wpc_commit_off {s c : Transaction} (h : Running b s c) (res : List UInt8) :
    wpc (commit b res) (fun _ _ => True) True (fun r => NotYet b s r ∨ r.cache.isCommitted b.width) c := by
  have hcache := wpc_cacheResult (E := True) res h.unmoved h.tail (Or.inr trivial)
  have hcommit : wpc (TxCache.cacheResult b res) (fun _ t => TxCache.Advanced b s.cache res t ∧ True) True
      (fun t => (TxCache.Unmoved b s.cache t ∧ t.tail = c.cache.tail) ∨ TxCache.Advanced b s.cache res t) c.cache :=
    wpc_mono hcache (fun _ _ h => ⟨h.1, trivial⟩) fun _ h => h
  refine wpc_mono (wpc_commit h (fun _ h => TxCache.Advanced.isCommitted h) (Or.inr trivial) hcommit) ?_ ?_
  · exact fun _ _ _ => trivial
  · exact fun r hr => hr.imp_right Past.committed

theorem Transaction.wpc_commitNoReplay_off {s c : Transaction} (h : Running b s c) :
    wpc (commitNoReplay b) (fun _ _ => True) True (fun r => NotYet b s r ∨ r.cache.isCommitted b.width)
      c := by
  have hcache := wpc_commitNoReplay (E := True) h.unmoved h.tail
  have hcommit : wpc (TxCache.commitNoReplay b.width)
      (fun _ t => (TxCache.Unmoved b s.cache t ∧ t.isCommitted b.width) ∧ True) True
      (fun t => (TxCache.Unmoved b s.cache t ∧ t.tail = c.cache.tail) ∨
        (TxCache.Unmoved b s.cache t ∧ t.isCommitted b.width)) c.cache :=
    wpc_mono hcache (fun _ _ h => ⟨h, trivial⟩) fun _ h => h
  refine wpc_mono (wpc_commit h (fun _ h => h.2) (Or.inr trivial) hcommit) ?_ ?_
  · exact fun _ _ _ => trivial
  · exact fun r hr => hr.imp_right Past.committed

/-- Recovery before the commit point brings back all of the memory of `s` but addresses of `S`. -/
theorem NotYetOff.recovers {S : Nat → Prop} {s c : Transaction} (h : NotYetOff b S s c) :
    (∃ r, (rollBackIfUncommitted b c).out = some ((), r)) ∧
      ∀ r, Recovers (rollBackIfUncommitted b) c r →
        r.pm.journal.tail = 0 ∧ ∀ a, ¬ S a → r.pm.mem a = s.pm.mem a := by
  obtain ⟨m', hm', hn⟩ := h
  obtain ⟨hout, hset⟩ := recovery_of_settles hn.settles
  refine ⟨hout, fun r hr => ⟨(hset r hr).tail, fun a ha => ?_⟩⟩
  rw [(hset r hr).mem]
  exact hm' a ha

end IntOS
