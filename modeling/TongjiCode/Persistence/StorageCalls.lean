import TongjiCode.Persistence.StorageRuns

/-!
# The promises of a storage

What the promises wait for that `set`, `flush` and `whenFlushed` return, with updates that can fail.  A promise of the
throttled delayer counts as resolved there when it is settled; those that are rejected are listed here.  One that follows a
rejected promise is not settled, since nobody here tells a rejected promise from a pending one.

The changes that were made to the cache are kept, in order.
-/

namespace TongjiCode.Persistence

structure Change where
  key : String
  value : Option String

def after (items : Items) (changes : List Change) : Items :=
  changes.foldl (fun items change => Function.update items change.key change.value) items

inductive Waits where
  /-- It is resolved. -/
  | nothing
  /-- The event of the call is being fired. -/
  | firing
  | flush (promise : Nat)
  /-- It is in `whenFlushedCallbacks`. -/
  | callback
deriving DecidableEq, Repr

/-- A promise that a call returned when `made` changes had been made. -/
structure Promised where
  made : Nat
  waits : Waits
deriving DecidableEq, Repr

structure StorageCalls where
  storage : Storage
  changes : List Change := []
  promised : List Promised := []
  /-- The calls that are firing their event, the innermost first; a call of `delete` has no promise here. -/
  firing : List (Option Nat) := []
  /-- `updateItems` has completed or failed, and the callback passed to `finally` was not called. -/
  finallyDue : Bool := false
  failing : Bool := false
  rejected : List Nat := []

namespace StorageCalls

def initial (items : Items) : StorageCalls := { storage := Storage.initial items }

section Methods

variable (s : StorageCalls)

/-- `set` or `delete` returns early. -/
def returnsEarly (key : String) (value : Option String) : Bool := s.storage.cache key = value

/-- A promise is returned, unless the storage is closed. -/
def returned (waits : Waits) : StorageCalls :=
  if s.storage.state = .closed then s else { s with promised := s.promised ++ [⟨s.changes.length, waits⟩] }

def changed (storage : Storage) (key : String) (value : Option String) : StorageCalls :=
  { s with storage, changes := s.changes ++ [⟨key, value⟩] }

def delete (key : String) : StorageCalls :=
  if s.storage.state = .closed ∨ s.returnsEarly key none then s
  else { s.changed (s.storage.delete key) key none with firing := none :: s.firing }

def set (key : String) (value : Option String) : StorageCalls :=
  if s.storage.state = .closed then s
  else if s.returnsEarly key value then s.returned .nothing
  else { (s.changed (s.storage.set key value) key value).returned .firing with firing := some s.promised.length :: s.firing }

/-- The listeners have returned, and the innermost call goes on. -/
def fired : StorageCalls :=
  match s.firing with
  | [] => s
  | call :: firing =>
    let promise := s.storage.flushDelayer.trigger.2
    { s with
      storage := { s.storage with firing := firing.length }.doFlush
      firing
      promised := match call with
        | some index => s.promised.modify index fun p => { p with waits := .flush promise }
        | none => s.promised }

def flush : StorageCalls :=
  ({ s with storage := s.storage.flush } : StorageCalls).returned
    (if s.storage.hasPending then .flush s.storage.flushDelayer.trigger.2 else .nothing)

def whenFlushed : StorageCalls := s.returned (if s.storage.hasPending then .callback else .nothing)

def finallyCallback : StorageCalls :=
  if s.finallyDue then
    { s with
      finallyDue := false
      promised :=
        if s.storage.hasPending then s.promised
        else s.promised.map fun p => if p.waits = .callback then { p with waits := .nothing } else p }
  else s

/-- The call of `updateItems` fails. -/
def fail (index : Nat) : StorageCalls :=
  match s.storage.inFlight[index]? with
  | none => s
  | some _ =>
    { s with
      storage := { s.storage with inFlight := s.storage.inFlight.eraseIdx index }
      finallyDue := true
      failing := true }

/-- The promise of `flushPending` is settled. -/
def settle : StorageCalls :=
  if s.finallyDue ∨ s.storage.inFlight.any (fun call => s.storage.flushDelayer.activePromise = some call.promise) then s
  else
    { s with
      storage := s.storage.step .settled
      failing := false
      rejected := if s.failing then s.storage.flushDelayer.activePromise.toList ++ s.rejected else s.rejected }

def followsRejected (promise : Nat) : Bool :=
  match s.storage.flushDelayer.outcome promise with
  | some (.follows followed) => followed ∈ s.rejected
  | _ => false

end Methods

/-! ## Steps -/

inductive Step where
  | set (key : String) (value : Option String)
  | delete (key : String)
  | fired
  | flush
  | whenFlushed
  | close
  | timer
  | job
  | written (index : Nat)
  | completed (index : Nat)
  | failed (index : Nat)
  | finallyCallback
  | settled
  | followed (promise : Nat)
deriving DecidableEq, Repr

/-- One step.  A step that is not possible changes nothing. -/
def step (s : StorageCalls) : Step → StorageCalls
  | .set key value => s.set key value
  | .delete key => s.delete key
  | .fired => s.fired
  | .flush => s.flush
  | .whenFlushed => s.whenFlushed
  | .close => { s with storage := s.storage.close }
  | .timer => { s with storage := s.storage.step .timer }
  | .job => { s with storage := s.storage.step .job }
  | .written index => { s with storage := s.storage.step (.written index) }
  | .completed index =>
    match s.storage.inFlight[index]? with
    | none => s
    | some _ => { s with storage := s.storage.step (.completed index), finallyDue := true }
  | .failed index => s.fail index
  | .finallyCallback => s.finallyCallback
  | .settled => s.settle
  | .followed promise =>
    if s.followsRejected promise then s else { s with storage := s.storage.step (.followed promise) }

def run (s : StorageCalls) (steps : List Step) : StorageCalls := steps.foldl step s

def Fulfilled (s : StorageCalls) (p : Promised) : Prop :=
  p.waits = .nothing ∨
    ∃ promise, p.waits = .flush promise ∧ s.storage.flushDelayer.outcome promise = some .resolved ∧ promise ∉ s.rejected

/-- Every change that was made before the call is in the database or was overwritten there by a later change. -/
def Stored (items : Items) (s : StorageCalls) (p : Promised) : Prop :=
  ∀ key, ∃ n, p.made ≤ n ∧ n ≤ s.changes.length ∧ s.storage.database key = after items (s.changes.take n) key

/-- No change is lost: what the database holds, with the update in flight and the pending changes, is what was set. -/
def Kept (items : Items) (s : StorageCalls) : Prop :=
  overlay s.storage.flown s.storage.pending = after items s.changes

end StorageCalls

end TongjiCode.Persistence
