import Mathlib.Data.Finmap
import TongjiCode.Persistence.ThrottledDelayer

/-!
# Storage

The class `Storage` of `storage.ts` over a database, when it is not in memory.  A value that is set is given as the text
it is stored as, or as none if it is undefined or null.  The database is known by what `updateItems` does to its items.
-/

namespace TongjiCode.Persistence

inductive StorageState where
  | initialized
  | closed
deriving DecidableEq, Repr

abbrev Items := String → Option String

structure UpdateRequest where
  insert : Finmap fun _ : String => String
  delete : Finset String

def overlay (items : Items) (request : UpdateRequest) : Items := fun key =>
  if key ∈ request.delete then none
  else
    match request.insert.lookup key with
    | some value => some value
    | none => items key

/-- A call of `updateItems`, made for the promise of a throttler. -/
structure Call where
  promise : Nat
  request : UpdateRequest

structure Storage where
  state : StorageState := .initialized
  cache : Items
  flushDelayer : ThrottledDelayer := {}
  pendingDeletes : Finset String := ∅
  pendingInserts : Finmap (fun _ : String => String) := ∅
  pendingClose : Option Nat := none
  /-- The promise of `close` is resolved. -/
  closeResolved : Bool := false
  /-- How many calls of `set` and `delete` are firing their event. -/
  firing : Nat := 0
  database : Items
  /-- The calls of `updateItems` that are not completed. -/
  inFlight : List Call := []

namespace Storage

/-- A storage after `init`. -/
def initial (items : Items) : Storage := { cache := items, database := items }

def pending (s : Storage) : UpdateRequest := ⟨s.pendingInserts, s.pendingDeletes⟩

def hasPending (s : Storage) : Bool := s.pendingInserts ≠ ∅ || s.pendingDeletes ≠ ∅

def doFlush (s : Storage) : Storage := { s with flushDelayer := s.flushDelayer.trigger.1 }

/-- `delete` until the event is fired. -/
def delete (s : Storage) (key : String) : Storage :=
  if s.state = .closed then s
  else if (s.cache key).isNone then s
  else
    { s with
      cache := Function.update s.cache key none
      pendingDeletes := insert key s.pendingDeletes
      pendingInserts := s.pendingInserts.erase key
      firing := s.firing + 1 }

/-- `set` until the event is fired. -/
def set (s : Storage) (key : String) (value : Option String) : Storage :=
  if s.state = .closed then s
  else
    match value with
    | none => s.delete key
    | some value =>
      if s.cache key = some value then s
      else
        { s with
          cache := Function.update s.cache key (some value)
          pendingInserts := s.pendingInserts.insert key value
          pendingDeletes := s.pendingDeletes.erase key
          firing := s.firing + 1 }

/-- The listeners have returned, and `set` or `delete` goes on. -/
def fired (s : Storage) : Storage := if s.firing = 0 then s else { s with firing := s.firing - 1 }.doFlush

def flush (s : Storage) : Storage := if s.hasPending then s.doFlush else s

/-- `close`, with `doClose` until it awaits the flush. -/
def close (s : Storage) : Storage :=
  match s.pendingClose with
  | some _ => s
  | none =>
    { s with
      state := .closed
      flushDelayer := s.flushDelayer.trigger.1
      pendingClose := some s.flushDelayer.trigger.2 }

/-- `flushPending`, called for a promise of the throttler. -/
def flushPending (s : Storage) (promise : Nat) : Storage :=
  if s.hasPending then
    { s with
      inFlight := s.inFlight ++ [⟨promise, s.pending⟩]
      pendingDeletes := ∅
      pendingInserts := ∅ }
  else s

/-! ## Steps -/

inductive Step where
  | set (key : String) (value : Option String)
  | delete (key : String)
  | fired
  | flush
  | close
  /-- The flush timer fires. -/
  | timer
  /-- The event loop runs a job. -/
  | job
  /-- A call of `updateItems` has written its items, and may not have completed yet. -/
  | written (index : Nat)
  | completed (index : Nat)
  /-- The promise of `flushPending` is resolved. -/
  | settled
  /-- A promise is resolved because the one it follows is. -/
  | followed (promise : Nat)
  | closeResolved
deriving DecidableEq, Repr

/-- One step.  A step that is not possible changes nothing. -/
def step (s : Storage) : Step → Storage
  | .set key value => s.set key value
  | .delete key => s.delete key
  | .fired => s.fired
  | .flush => s.flush
  | .close => s.close
  | .timer => if s.firing = 0 then { s with flushDelayer := s.flushDelayer.fire } else s
  | .job =>
    if s.firing = 0 then
      let (flushDelayer, called) := s.flushDelayer.runJob
      let s := { s with flushDelayer }
      match called, flushDelayer.activePromise with
      | true, some promise => s.flushPending promise
      | _, _ => s
    else s
  | .written index =>
    match s.inFlight[index]? with
    | none => s
    | some call => { s with database := overlay s.database call.request }
  | .completed index =>
    match s.inFlight[index]? with
    | none => s
    | some call => { s with database := overlay s.database call.request, inFlight := s.inFlight.eraseIdx index }
  | .settled =>
    -- the promise waits for its call of `updateItems`
    if s.inFlight.any fun call => s.flushDelayer.activePromise = some call.promise then s
    else { s with flushDelayer := s.flushDelayer.settleActive }
  | .followed promise => { s with flushDelayer := s.flushDelayer.follow promise }
  | .closeResolved =>
    match s.pendingClose with
    | none => s
    | some promise => if s.flushDelayer.outcome promise = some .resolved then { s with closeResolved := true } else s

def run (s : Storage) (steps : List Step) : Storage := steps.foldl step s

end Storage

end TongjiCode.Persistence
