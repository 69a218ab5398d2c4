import TongjiCode.Lib.Promises

/-!
# The throttler

`Throttler` of `async.ts`, while it is not disposed, with each promise it makes and each callback it registers.  `α` are the
values that tasks are fulfilled with and `ε` the errors.  A factory is known by the call of `queue` that brought it, and by
whether the promise it will return is settled from the start.
-/

namespace TongjiCode.Async

inductive Outcome (α ε : Type) where
  | fulfilled (value : α)
  | rejected (error : ε)
deriving DecidableEq, Repr

/-- The callbacks, with the promise that each settles. -/
inductive Reaction where
  /-- `activePromise` is set to null, and the promise that `queue` returned is settled. -/
  | clear (promise : Nat)
  /-- `onComplete`, with the promise that `then` returned. -/
  | onComplete (promise : Nat)
  /-- `then(resolve)`. -/
  | resolve (promise : Nat)
  /-- `then(resolve, reject)`. -/
  | forward (promise : Nat)
  /-- A promise is resolved with another one: `then` is called on that one. -/
  | adopt (promise : Nat)
deriving DecidableEq, Repr

namespace Reaction

/-- The promise that the callback settles. -/
def target : Reaction → Nat
  | clear promise => promise
  | onComplete promise => promise
  | resolve promise => promise
  | forward promise => promise
  | adopt promise => promise

/-- The promise is settled as the one that the callback reacts to.  `then(resolve)` does this for a value only. -/
def carries : Reaction → Bool
  | onComplete _ => false
  | _ => true

end Reaction

structure Factory (α ε : Type) where
  call : Nat
  /-- What the promise it returns is settled with, if it is when it is returned. -/
  already : Option (Outcome α ε) := none
deriving DecidableEq, Repr

/-- A task that was started: the call that brought it, its promise and whether it was queued before. -/
structure Started where
  call : Nat
  promise : Nat
  queued : Bool
deriving DecidableEq, Repr

/-- A call of `queue`: the promise it returned and how many tasks had been started before. -/
structure Called where
  promise : Nat
  before : Nat
deriving DecidableEq, Repr

structure Throttler (α ε : Type) where
  promises : Promises Reaction (Outcome α ε) := {}
  activePromise : Option Nat := none
  queuedPromise : Option Nat := none
  queuedPromiseFactory : Option (Factory α ε) := none
  started : List Started := []
  calls : List Called := []

namespace Throttler

variable {α ε : Type}

section Queue

variable (t : Throttler α ε)

/-- The factory is called, and callbacks are registered on the promise it returns. -/
def start (factory : Factory α ε) (queued : Bool) : Throttler α ε × Nat :=
  let (promises, task) := t.promises.create
  let promises := match factory.already with
    | some o => promises.settle task o
    | none => promises
  let (promises, result) := promises.create
  ({ t with
      promises := promises.andThen task (.clear result)
      activePromise := some task
      started := t.started ++ [⟨factory.call, task, queued⟩] },
    result)

/-- The queued promise, which is made if there is none. -/
def queuedPromiseFor (active : Nat) : Throttler α ε × Nat :=
  match t.queuedPromise with
  | some queued => (t, queued)
  | none =>
    let (promises, completed) := t.promises.create
    let (promises, queued) := promises.create
    ({ t with
        promises := (promises.andThen active (.onComplete completed)).andThen completed (.resolve queued)
        queuedPromise := some queued },
      queued)

/-- `queue`, for a factory that may be null.  There is no result if the call throws. -/
def queue (factory : Option (Factory α ε)) (queued : Bool) : Throttler α ε × Option Nat :=
  match t.activePromise with
  | some active =>
    let (t, waits) := { t with queuedPromiseFactory := factory }.queuedPromiseFor active
    let (promises, result) := t.promises.create
    ({ t with promises := promises.andThen waits (.forward result) }, some result)
  | none =>
    match factory with
    | none => (t, none)
    | some factory =>
      let (t, result) := t.start factory queued
      (t, some result)

/-- A call of `queue` from outside. -/
def call (already : Option (Outcome α ε)) : Throttler α ε :=
  let (t', result) := t.queue (some ⟨t.calls.length, already⟩) false
  { t' with calls := t.calls ++ [⟨result.getD 0, t.started.length⟩] }

/-- The running task is settled. -/
def settleTask (index : Nat) (o : Outcome α ε) : Throttler α ε :=
  match t.started[index]? with
  | none => t
  | some task => { t with promises := t.promises.settle task.promise o }

/-- A promise is settled as the source of the job is. -/
def pass (source promise : Nat) : Throttler α ε :=
  match t.promises.outcome source with
  | none => t
  | some o => { t with promises := t.promises.settle promise o }

/-- `onComplete`, with what `then` does with its result. -/
def onComplete (typeError : ε) (promise : Nat) : Throttler α ε :=
  match { t with queuedPromise := none }.queue t.queuedPromiseFactory true with
  | (t, some result) => { t with queuedPromiseFactory := none, promises := t.promises.enqueue result (.adopt promise) }
  | (t, none) => { t with promises := t.promises.settle promise (.rejected typeError) }

/-- The callback is run. -/
def react (typeError : ε) (source : Nat) : Reaction → Throttler α ε
  | .clear promise => { t with activePromise := none }.pass source promise
  | .onComplete promise => t.onComplete typeError promise
  | .resolve promise =>
    match t.promises.outcome source with
    | some (.fulfilled _) => t.pass source promise
    | _ => t
  | .forward promise => t.pass source promise
  | .adopt promise => { t with promises := t.promises.andThen source (.forward promise) }

/-- The event loop runs its first job. -/
def runJob (typeError : ε) : Throttler α ε :=
  match t.promises.jobs with
  | [] => t
  | (source, reaction) :: jobs =>
    ({ t with promises := { t.promises with jobs } } : Throttler α ε).react typeError source reaction

end Queue

/-! ## Steps -/

inductive Step (α ε : Type) where
  | queue (already : Option (Outcome α ε))
  | settle (index : Nat) (o : Outcome α ε)
  | job

def step (typeError : ε) (t : Throttler α ε) : Step α ε → Throttler α ε
  | .queue already => t.call already
  | .settle index o => t.settleTask index o
  | .job => t.runJob typeError

def run (typeError : ε) (t : Throttler α ε) (steps : List (Step α ε)) : Throttler α ε := steps.foldl (step typeError) t

/-- The promise of a task that was started is not settled. -/
def Runs (t : Throttler α ε) (task : Started) : Prop := task ∈ t.started ∧ t.promises.outcome task.promise = none

end Throttler

end TongjiCode.Async
