import Mathlib.Algebra.Order.Ring.Int
import Mathlib.Data.List.Basic

/-!
# Throttled delayers

`Delayer`, `Throttler` and `ThrottledDelayer` of `async.ts`, for a task that is always the same, with the part of the event
loop they need: the jobs that promises have scheduled, first in first out, and what became of each promise.  A promise that
only passes on the result of another one is identified with it.
-/

namespace TongjiCode.Persistence

inductive Outcome where
  | pending
  | follows (promise : Nat)
  | resolved
deriving DecidableEq, Repr

/-- The callbacks that are passed to `then`. -/
inductive Job where
  /-- In `trigger`: the task of the completion promise is run. -/
  | complete (promise : Nat)
  /-- In `queue`: `activePromise` is set to null. -/
  | activeDone
  /-- In `queue`: the queued factory is called. -/
  | onComplete
deriving DecidableEq, Repr

structure ThrottledDelayer where
  /-- A timer is set. -/
  deferred : Bool := false
  completionPromise : Option Nat := none
  task : Bool := false
  activePromise : Option Nat := none
  queuedPromise : Option Nat := none
  queuedPromiseFactory : Bool := false
  /-- The callbacks that wait for `activePromise`. -/
  reactions : List Job := []
  jobs : List Job := []
  promises : List Outcome := []
deriving DecidableEq, Repr

namespace ThrottledDelayer

def outcome (d : ThrottledDelayer) (promise : Nat) : Option Outcome := d.promises[promise]?

def settleWith (d : ThrottledDelayer) (promise : Nat) (outcome : Outcome) : ThrottledDelayer :=
  { d with promises := d.promises.set promise outcome }

/-- `queue`, for a factory that may be null.  The result has the promise, unless the call throws, and says whether the factory
was called. -/
def queue (d : ThrottledDelayer) (promiseFactory : Bool) : ThrottledDelayer × Option Nat × Bool :=
  match d.activePromise with
  | some active =>
    match d.queuedPromise with
    | some queued => ({ d with queuedPromiseFactory := promiseFactory }, some queued, false)
    | none =>
      let queued := d.promises.length
      let settled := d.outcome active == some .resolved
      ({ d with
          queuedPromiseFactory := promiseFactory
          queuedPromise := some queued
          promises := d.promises ++ [.pending]
          jobs := if settled then d.jobs ++ [.onComplete] else d.jobs
          reactions := if settled then d.reactions else d.reactions ++ [.onComplete] },
        some queued, false)
  | none =>
    if promiseFactory then
      let active := d.promises.length
      ({ d with activePromise := some active, promises := d.promises ++ [.pending], reactions := [.activeDone] },
        some active, true)
    else (d, none, false)

/-- `trigger`, with the completion promise. -/
def trigger (d : ThrottledDelayer) : ThrottledDelayer × Nat :=
  match d.completionPromise with
  | some completion => ({ d with task := true, deferred := true }, completion)
  | none =>
    let completion := d.promises.length
    ({ d with
        task := true
        completionPromise := some completion
        promises := d.promises ++ [.pending]
        deferred := true },
      completion)

/-- The timer fires.  This happens only when all jobs are done. -/
def fire (d : ThrottledDelayer) : ThrottledDelayer :=
  if d.deferred && d.jobs.isEmpty then
    { d with deferred := false, jobs := d.completionPromise.toList.map .complete }
  else d

/-- The first job is run.  The result says whether the factory was called. -/
def runJob (d : ThrottledDelayer) : ThrottledDelayer × Bool :=
  match d.jobs with
  | [] => (d, false)
  | .complete completion :: jobs =>
    let d := { d with jobs, completionPromise := none }
    if d.task then
      let (d, result, called) := { d with task := false }.queue true
      match result with
      | some result => (d.settleWith completion (.follows result), called)
      | none => (d, called)
    else (d.settleWith completion .resolved, false)
  | .activeDone :: jobs => ({ d with jobs, activePromise := none }, false)
  | .onComplete :: jobs =>
    let queued := d.queuedPromise
    let (d, result, called) := { d with jobs, queuedPromise := none }.queue d.queuedPromiseFactory
    match queued, result with
    | some queued, some result => ({ d with queuedPromiseFactory := false }.settleWith queued (.follows result), called)
    | _, _ => (d, called)

/-- The promise that the factory returned is resolved. -/
def settleActive (d : ThrottledDelayer) : ThrottledDelayer :=
  match d.activePromise with
  | none => d
  | some active =>
    if d.outcome active = some .pending then
      { d.settleWith active .resolved with jobs := d.jobs ++ d.reactions, reactions := [] }
    else d

/-- A promise is resolved after the one that it follows. -/
def follow (d : ThrottledDelayer) (promise : Nat) : ThrottledDelayer :=
  match d.outcome promise with
  | some (.follows followed) => if d.outcome followed = some .resolved then d.settleWith promise .resolved else d
  | _ => d

end ThrottledDelayer

end TongjiCode.Persistence
