import ClassEdit.Session.Basic

/-!
Runs of a session: the calls that a caller makes one after the other, on a storage that may
change between them. All queueing methods come down to one, since they differ only in the
descriptor that they queue.
-/

namespace ClassEdit

namespace Session

/-- What may happen to a session and to the storage next to it. -/
inductive Call (σ : Type) where
  | enqueue (d : Descriptor)
  | register (kind : String) (c : Constructor)
  | applyPending
  | render
  | persist (path : Option String)
  | snapshot (path : String)
  /-- Something else changes the storage. -/
  | outside (change : σ → σ)

namespace Call

def queued? {σ : Type} : Call σ → Option Descriptor
  | enqueue d => some d
  | _ => none

def registers {σ : Type} : Call σ → Bool
  | register .. => true
  | _ => false

variable {σ : Type} [Storage σ]

/-- The session and the storage after a call. A snapshot that fails leaves the storage as it is. -/
def step (s : Session) (storage : σ) : Call σ → Session × σ
  | enqueue d => (s.enqueue d, storage)
  | register kind c => (s.register kind c, storage)
  | applyPending => (s.applyPending.1, storage)
  | render => (s.render.1, storage)
  | persist path =>
    let (s', storage', _) := s.persist storage path
    (s', storage')
  | snapshot path => (s, (s.snapshot storage path).toOption.getD storage)
  | outside change => (s, change storage)

def run (s : Session) (storage : σ) : List (Call σ) → Session × σ
  | [] => (s, storage)
  | call :: calls =>
    let (s', storage') := call.step s storage
    run s' storage' calls

end Call

end Session

end ClassEdit
