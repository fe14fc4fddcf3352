import IntOS.Lib.Persist

/-!
# Persistent pointers (`src/user/pbox.rs`, `src/user/pstatics.rs`)

The safe operations on one persistent object in a transaction. Each is a call of a method of a handle on the object.
What a closure with `&mut T` does comes after the call, through the handle that the method returns. A `&T` reads
whenever its handle does. Lifetimes are not tracked: more bodies are typed here than in the source.
-/

namespace IntOS

open Persist Persist.Prog

namespace PBox

/-- The bytes of an object. -/
abbrev Bytes (n : Nat) := Fin n → UInt8

/-- The object, and its copies in the journal of the transaction, newest first. -/
structure PObject (n : Nat) where
  value : Bytes n
  journal : List (Bytes n)

variable {n : Nat} {O : Type}

/-- `append_log_of`: the journal has room for some records of this size. -/
def appendLogOf (room : Nat) : Prog (PObject n) Unit := do
  let len ← gets (·.journal.length)
  check (len < room)
  store fun s => { s with journal := s.value :: s.journal }

def setByte (i : Fin n) (b : UInt8) : Prog (PObject n) Unit :=
  store fun s => { s with value := Function.update s.value i b }

/-- A copy is not atomic. -/
def copyBytes : List (Fin n × UInt8) → Prog (PObject n) Unit
  | [] => pure ()
  | (i, b) :: bs => do
      setByte i b
      copyBytes bs

def undo : List (Bytes n) → Bytes n → Bytes n
  | [], v => v
  | w :: ws, _ => undo ws w

/-- `Journal::recover`. -/
def recover (s : PObject n) : PObject n := ⟨undo s.journal s.value, []⟩

/-! ## Handles -/

inductive Handle
  | ptr
  | ptrRO
  | ptrWLog
  | ptrRW
  | pbox
  | pmPtr
  | pref
  | prefWLog
  | prefRW
  | pstatic
  /-- `&mut T`. -/
  | mutRef
deriving DecidableEq, Repr

/-- Through these the object is changed with no record. -/
def Handle.writable : Handle → Bool
  | ptrRW | prefRW | mutRef => true
  | _ => false

/-- What a method does to the object. -/
inductive Effect
  | look
  | overwrite
  /-- A field of the object is set, that of a selector which looks at the object or does not. -/
  | field (looks : Bool)
  | log
  | mutate
deriving DecidableEq, Repr

inductive Method
  | ptrWrite
  | ptrRead
  | ptrIntoPtrRo
  | ptrIntoPbox
  | ptrAsPref
  | ptrROAsRef
  | ptrWLogWrite
  | ptrWLogAsMut
  | ptrWLogAsRef
  | ptrWLogIntoPbox
  | ptrRWDownCast
  | ptrRWIntoPbox
  | ptrRWIntoPtr
  | ptrRWDeref
  | ptrRWDerefMut
  | pboxAsMut
  | pboxAsRef
  | pboxAsPrefWlog
  | pboxIntoInner
  | pmPtrCreateLog
  | pmPtrAsMut
  | pmPtrAsRef
  | prefRead
  | prefIntoReadable
  | prefWrite
  | prefPartialWrite (looks : Bool)
  | prefReadWr
  | prefAsPmPtr
  | prefWLogRead
  | prefWLogAsRef
  | prefWLogAsMut
  | prefWLogWrite
  | prefWLogIntoPrefRw
  | prefWLogReadWr
  | prefRWAsRef
  | prefRWAsMut
  | prefRWAsPmPtr
  | prefRWDeref
  | prefRWDerefMut
  | pstaticAsMut
  | pstaticAsRef
  | pstaticAsPref
  | mutRefRead
  | mutRefWrite
  | drop (h : Handle)
deriving DecidableEq, Repr

structure Signature where
  receiver : Handle
  /-- `self` rather than `&self` or `&mut self`. -/
  byValue : Bool
  effect : Option Effect
  result : Option Handle

namespace Method

def signature : Method → Signature
  | ptrWrite => ⟨.ptr, true, some .overwrite, some .ptrRW⟩
  | ptrRead => ⟨.ptr, true, some .look, some .ptrWLog⟩
  | ptrIntoPtrRo => ⟨.ptr, true, none, some .ptrRO⟩
  | ptrIntoPbox => ⟨.ptr, true, none, some .pbox⟩
  | ptrAsPref => ⟨.ptr, false, none, some .pref⟩
  | ptrROAsRef => ⟨.ptrRO, false, some .look, none⟩
  | ptrWLogWrite => ⟨.ptrWLog, true, some .log, some .ptrRW⟩
  | ptrWLogAsMut => ⟨.ptrWLog, false, some .log, some .mutRef⟩
  | ptrWLogAsRef => ⟨.ptrWLog, false, some .look, none⟩
  | ptrWLogIntoPbox => ⟨.ptrWLog, true, none, some .pbox⟩
  | ptrRWDownCast => ⟨.ptrRW, true, none, some .ptrWLog⟩
  | ptrRWIntoPbox => ⟨.ptrRW, true, none, some .pbox⟩
  | ptrRWIntoPtr => ⟨.ptrRW, true, none, some .ptr⟩
  | ptrRWDeref => ⟨.ptrRW, false, some .look, none⟩
  | ptrRWDerefMut => ⟨.ptrRW, false, some .mutate, none⟩
  | pboxAsMut => ⟨.pbox, false, some .log, some .mutRef⟩
  | pboxAsRef => ⟨.pbox, false, some .look, none⟩
  | pboxAsPrefWlog => ⟨.pbox, false, none, some .prefWLog⟩
  | pboxIntoInner => ⟨.pbox, true, some .look, none⟩
  | pmPtrCreateLog => ⟨.pmPtr, false, some .log, none⟩
  | pmPtrAsMut => ⟨.pmPtr, false, some .log, some .mutRef⟩
  | pmPtrAsRef => ⟨.pmPtr, false, some .look, none⟩
  | prefRead => ⟨.pref, true, some .look, some .prefWLog⟩
  | prefIntoReadable => ⟨.pref, true, none, some .prefWLog⟩
  | prefWrite => ⟨.pref, true, some .overwrite, some .prefRW⟩
  | prefPartialWrite looks => ⟨.pref, false, some (.field looks), none⟩
  | prefReadWr => ⟨.pref, true, some .log, some .prefRW⟩
  | prefAsPmPtr => ⟨.pref, false, none, some .pmPtr⟩
  | prefWLogRead => ⟨.prefWLog, false, some .look, none⟩
  | prefWLogAsRef => ⟨.prefWLog, false, some .look, none⟩
  | prefWLogAsMut => ⟨.prefWLog, false, some .log, some .mutRef⟩
  | prefWLogWrite => ⟨.prefWLog, true, some .log, some .prefRW⟩
  | prefWLogIntoPrefRw => ⟨.prefWLog, true, some .log, some .prefRW⟩
  | prefWLogReadWr => ⟨.prefWLog, true, some .log, some .prefRW⟩
  | prefRWAsRef => ⟨.prefRW, false, some .look, none⟩
  | prefRWAsMut => ⟨.prefRW, false, none, some .mutRef⟩
  | prefRWAsPmPtr => ⟨.prefRW, false, none, some .pmPtr⟩
  | prefRWDeref => ⟨.prefRW, false, some .look, none⟩
  | prefRWDerefMut => ⟨.prefRW, false, some .mutate, none⟩
  | pstaticAsMut => ⟨.pstatic, false, some .log, some .mutRef⟩
  | pstaticAsRef => ⟨.pstatic, false, some .look, none⟩
  | pstaticAsPref => ⟨.pstatic, false, none, some .pref⟩
  | mutRefRead => ⟨.mutRef, false, some .look, none⟩
  | mutRefWrite => ⟨.mutRef, false, some .mutate, none⟩
  | drop h => ⟨h, true, none, none⟩

/-- The handles after a call on the `i`th of them. -/
def after (m : Method) (i : Nat) (hs : List Handle) : List Handle :=
  (if m.signature.byValue then hs.eraseIdx i else hs) ++ m.signature.result.toList

end Method

/-! ## Bodies -/

/-- A call with its arguments: closures that read, data, a field as the places of its bytes. -/
inductive Call (n : Nat) (O : Type)
  | move
  | look (f : Bytes n → O)
  | overwrite (data : Bytes n)
  | field (places : List (Fin n)) (data : List UInt8)
  | select (selector : Bytes n → O × List (Fin n)) (data : List UInt8)
  | log
  | mutate (i : Fin n) (b : UInt8)

namespace Call

def effect : Call n O → Option Effect
  | move => none
  | look _ => some .look
  | overwrite _ => some .overwrite
  | field _ _ => some (.field false)
  | select _ _ => some (.field true)
  | log => some .log
  | mutate _ _ => some .mutate

/-- What is read is returned. -/
def run (room : Nat) : Call n O → Prog (PObject n) (List O)
  | move => pure []
  | look f => gets fun s => [f s.value]
  | overwrite data => do
      copyBytes ((List.finRange n).map fun i => (i, data i))
      pure []
  | field places data => do
      copyBytes (places.zip data)
      pure []
  | select selector data => do
      let (r, places) ← gets fun s => selector s.value
      copyBytes (places.zip data)
      pure [r]
  | log => do
      appendLogOf room
      pure []
  | mutate i b => do
      setByte i b
      pure []

end Call

/-- A body calls a method of one of its handles and goes on with what it has read. -/
inductive Body (n : Nat) (O : Type)
  | done
  | call (i : Nat) (m : Method) (c : Call n O) (next : List O → Body n O)

namespace Body

def run (room : Nat) : Body n O → Prog (PObject n) (List O)
  | done => pure []
  | call _ _ c next => do
      let r ← c.run room
      let rs ← (next r).run room
      pure (r ++ rs)

/-- The body has the handles that it uses. -/
def Typed : List Handle → Body n O → Prop
  | _, done => True
  | hs, call i m c next =>
      hs[i]? = some m.signature.receiver ∧ c.effect = m.signature.effect ∧ ∀ r, (next r).Typed (m.after i hs)

/-- The orders that the body can take are of this kind. -/
def Within (S : List Effect → Prop) : Body n O → Prop
  | done => S []
  | call _ _ c next => ∀ r, (next r).Within fun es => S (c.effect.toList ++ es)

/-- After any failure before the commit, roll back and re-execution read and leave what an uninterrupted run does. -/
def Consistent (room : Nat) (b : Body n O) : Prop :=
  ∀ v rs s c, (b.run room ⟨v, []⟩).out = some (rs, s) → c ∈ crashes (b.run room) ⟨v, []⟩ →
    ∃ s', (b.run room (recover c)).out = some (rs, s') ∧ s'.value = s.value

end Body

end PBox

end IntOS
