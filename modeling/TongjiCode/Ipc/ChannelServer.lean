import Mathlib.Algebra.Order.Ring.Int
import Mathlib.Data.List.Basic

/-!
# `ChannelServer`: requests, pending requests and event subscriptions

A request for a registered channel starts a call or an event subscription; the server keeps what disposes it
in `activeRequests`.  A request for an unknown channel waits in `pendingRequests` with a timer and is started
when the channel comes in.  Channels are code of others: a call settles at any time and in any way, an event
fires whenever it likes until its subscription is disposed, and `listen` may throw.

The waiting requests are outside of what a dispose message looks at, and an expired one goes on waiting: a
run answers a request once and honours its dispose messages as long as no flush starts a request that is
over (`answers_once_and_honours_dispose`).
-/

open List

namespace TongjiCode.Ipc

/-! ## Messages -/

inductive RequestType where
  | promise
  | eventListen
  deriving Repr, DecidableEq

/-- `IRawPromiseRequest | IRawEventListenRequest` -/
structure Request (δ : Type) where
  type : RequestType
  id : Nat
  channelName : String
  name : String
  arg : δ
  deriving Repr, DecidableEq

inductive Response (δ : Type) where
  | initialized
  | promiseSuccess (id : Nat) (data : δ)
  | promiseError (id : Nat) (message name : String) (stack : Option (List String))
  | promiseErrorObj (id : Nat) (data : δ)
  | eventFire (id : Nat) (data : δ)
  deriving Repr, DecidableEq

/-- How the promise of a call settles. -/
inductive Settled (δ : Type) where
  | resolved (data : δ)
  | error (message name : String) (stack : Option String)
  | rejected (err : δ)
  deriving Repr, DecidableEq

/-! ## State -/

inductive Timer where
  | running
  | expired
  | cleared
  deriving Repr, DecidableEq

structure PendingRequest (δ : Type) where
  request : Request δ
  timeoutTimer : Timer := .running
  deriving Repr, DecidableEq

/-- A call of a channel; `answered` once its promise has settled. -/
structure ChannelCall where
  key : Nat
  id : Nat
  answered : Bool := false
  cancelled : Bool := false
  deriving Repr, DecidableEq

structure Subscription where
  key : Nat
  id : Nat
  deriving Repr, DecidableEq

inductive Disposable where
  | cancel (call : Nat)
  | unsubscribe (subscription : Nat)
  deriving Repr, DecidableEq

/-- The server with the calls and subscriptions that are alive, the flushes that are due and all it has
sent.  The lists of the map `pendingRequests` are one list here: the key is the name in the request. -/
structure ChannelServer (δ : Type) where
  channels : List String := []
  activeRequests : Nat → Option Disposable := fun _ => none
  pendingRequests : List (PendingRequest δ) := []
  timeoutDelay : Nat := 1000
  flushes : List String := []
  calls : List ChannelCall := []
  subscriptions : List Subscription := []
  nextKey : Nat := 0
  sent : List (Response δ) := [.initialized]

namespace ChannelServer

variable {δ : Type} (s : ChannelServer δ)

def sendResponse (response : Response δ) : ChannelServer δ := { s with sent := s.sent ++ [response] }

def registerChannel (channelName : String) : ChannelServer δ :=
  { s with channels := channelName :: s.channels, flushes := channelName :: s.flushes }

def collectPendingRequest (request : Request δ) : ChannelServer δ :=
  { s with pendingRequests := s.pendingRequests ++ [⟨request, .running⟩] }

def onPromise (request : Request δ) : ChannelServer δ :=
  if request.channelName ∉ s.channels then s.collectPendingRequest request
  else
    { s with
      calls := s.calls ++ [⟨s.nextKey, request.id, false, false⟩]
      activeRequests := Function.update s.activeRequests request.id (some (.cancel s.nextKey))
      nextKey := s.nextKey + 1 }

/-- `none` where the channel's `listen` throws. -/
def onEventListen (request : Request δ) (listenThrows : Bool) : Option (ChannelServer δ) :=
  if request.channelName ∉ s.channels then some (s.collectPendingRequest request)
  else if listenThrows then none
  else some
    { s with
      subscriptions := s.subscriptions ++ [⟨s.nextKey, request.id⟩]
      activeRequests := Function.update s.activeRequests request.id (some (.unsubscribe s.nextKey))
      nextKey := s.nextKey + 1 }

def dispose : Disposable → ChannelServer δ
  | .cancel key => { s with calls := s.calls.map fun call => if call.key = key then { call with cancelled := true } else call }
  | .unsubscribe key => { s with subscriptions := s.subscriptions.filter fun sub => sub.key ≠ key }

def disposeActiveRequest (id : Nat) : ChannelServer δ :=
  match s.activeRequests id with
  | none => s
  | some disposable =>
    { s.dispose disposable with activeRequests := Function.update s.activeRequests id none }

/-- What the timer of a pending request does; the request stays where it is. -/
def onTimeout (request : Request δ) : ChannelServer δ :=
  match request.type with
  | .promise => s.sendResponse (.promiseError request.id
      ("Channel name '" ++ request.channelName ++ "' timed out after " ++ toString s.timeoutDelay ++ "ms")
      "Unknown channel" none)
  | .eventListen => s

def onRequest (listenThrows : Bool) (request : Request δ) : Option (ChannelServer δ) :=
  match request.type with
  | .promise => some (s.onPromise request)
  | .eventListen => s.onEventListen request listenThrows

/-- The loop of `flushPendingRequests`; it ends early where a `listen` throws (`throwing` holds the ids). -/
def flushLoop (channelName : String) (throwing : List Nat) :
    ChannelServer δ → List (PendingRequest δ) → List (PendingRequest δ) × ChannelServer δ × Bool
  | s, [] => ([], s, true)
  | s, p :: ps =>
    if p.request.channelName ≠ channelName then
      let (ps, s, completed) := flushLoop channelName throwing s ps
      (p :: ps, s, completed)
    else
      let p := { p with timeoutTimer := .cleared }
      match s.onRequest (throwing.contains p.request.id) p.request with
      | none => (p :: ps, s, false)
      | some s =>
        let (ps, s, completed) := flushLoop channelName throwing s ps
        (p :: ps, s, completed)

/-- `pendingRequests.delete` is not reached when the loop throws. -/
def flushPendingRequests (channelName : String) (throwing : List Nat) : ChannelServer δ :=
  let (ps, s, completed) := flushLoop channelName throwing s s.pendingRequests
  { s with
    pendingRequests := if completed then ps.filter fun p => p.request.channelName ≠ channelName else ps }

def markAnswered (key : Nat) : ChannelServer δ :=
  { s with calls := s.calls.map fun call => if call.key = key then { call with answered := true } else call }

def responseOf (id : Nat) : Settled δ → Response δ
  | .resolved data => .promiseSuccess id data
  | .error message name stack =>
    .promiseError id message name (stack.bind fun text => if text = "" then none else some (text.splitOn "\n"))
  | .rejected err => .promiseErrorObj id err

end ChannelServer

/-! ## Runs -/

/-- What can happen to a server. -/
inductive ServerAction (δ : Type) where
  /-- A `Promise` or `EventListen` message; the flag tells whether `listen` throws. -/
  | request (request : Request δ) (listenThrows : Bool)
  | promiseCancel (id : Nat)
  | eventDispose (id : Nat)
  | registerChannel (channelName : String)
  /-- The timer of `registerChannel`. -/
  | flush (channelName : String) (throwing : List Nat)
  /-- The timer of the pending request at an index. -/
  | expire (index : Nat)
  /-- The promise of a call settles; its `finally` is a step of its own. -/
  | settle (key : Nat) (settled : Settled δ)
  | finalize (key : Nat)
  | fire (key : Nat) (data : δ)
  deriving Repr, DecidableEq

namespace ChannelServer

variable {δ : Type}

/-- One step; `none` where it cannot happen. -/
def step (s : ChannelServer δ) : ServerAction δ → Option (ChannelServer δ)
  | .request request listenThrows => some ((s.onRequest listenThrows request).getD s)
  | .promiseCancel id => some (s.disposeActiveRequest id)
  | .eventDispose id => some (s.disposeActiveRequest id)
  | .registerChannel channelName => some (s.registerChannel channelName)
  | .flush channelName throwing =>
    if channelName ∈ s.flushes then
      some ({ s with flushes := s.flushes.erase channelName }.flushPendingRequests channelName throwing)
    else none
  | .expire index =>
    match s.pendingRequests[index]? with
    | some ⟨request, .running⟩ =>
      some ({ s with pendingRequests := s.pendingRequests.set index ⟨request, .expired⟩ }.onTimeout request)
    | _ => none
  | .settle key settled =>
    match s.calls.find? fun call => call.key = key ∧ ¬ call.answered with
    | none => none
    | some call =>
      some ((s.markAnswered key).sendResponse (responseOf call.id settled))
  | .finalize key =>
    match s.calls.find? fun call => call.key = key ∧ call.answered with
    | none => none
    | some call => some
      { s with
        calls := s.calls.filter (fun c => c.key ≠ key)
        activeRequests := Function.update s.activeRequests call.id none }
  | .fire key data =>
    match s.subscriptions.find? fun sub => sub.key = key with
    | none => none
    | some sub => some (s.sendResponse (.eventFire sub.id data))

def run (s : ChannelServer δ) : List (ServerAction δ) → Option (ChannelServer δ)
  | [] => some s
  | a :: actions => (s.step a).bind fun s => s.run actions

end ChannelServer

/-! ## What the server is for -/

variable {δ : Type}

/-- One of the three answers to the `Promise` request `id`. -/
def Response.answers (id : Nat) : Response δ → Bool
  | .promiseSuccess id' _ | .promiseError id' _ _ _ | .promiseErrorObj id' _ => id' = id
  | .initialized | .eventFire _ _ => false

def Response.fires (id : Nat) : Response δ → Bool
  | .eventFire id' _ => id' = id
  | _ => false

def AnswersOnce (s : ChannelServer δ) : Prop := ∀ id, s.sent.countP (Response.answers id) ≤ 1

/-- Behind a dispose message there is no subscription for its id, and no event of the id is sent. -/
def HonoursDispose (actions : List (ServerAction δ)) : Prop :=
  ∀ before id later s₀ s, actions = before ++ .eventDispose id :: later →
    ChannelServer.run {} (before ++ [.eventDispose id]) = some s₀ → ChannelServer.run {} actions = some s →
    (∀ sub ∈ s.subscriptions, sub.id ≠ id) ∧ ∃ new, s.sent = s₀.sent ++ new ∧ ∀ r ∈ new, r.fires id = false

/-- The id of a `Promise` or `EventListen` message. -/
def ServerAction.requestId : ServerAction δ → Option Nat
  | .request r _ => some r.id
  | _ => none

def ServerAction.disposedId : ServerAction δ → Option Nat
  | .eventDispose id => some id
  | _ => none

/-- The request can still be started: it has not been started before, a call has not been given up and an
event has not been disposed. -/
def PendingRequest.Alive (disposed : List Nat) (p : PendingRequest δ) : Prop :=
  match p.request.type with
  | .promise => p.timeoutTimer = .running
  | .eventListen => p.timeoutTimer ≠ .cleared ∧ p.request.id ∉ disposed

/-- No step starts a request that is over; `disposed` holds the ids of the dispose messages so far. -/
def ServerAction.Meets (disposed : List Nat) (s : ChannelServer δ) : ServerAction δ → Prop
  | .request r _ => r.type = .eventListen → r.id ∉ disposed
  | .flush channelName _ => ∀ p ∈ s.pendingRequests, p.request.channelName = channelName → p.Alive disposed
  | _ => True

def AllMeet : List Nat → ChannelServer δ → List (ServerAction δ) → Prop
  | _, _, [] => True
  | disposed, s, a :: actions =>
    a.Meets disposed s ∧ ∀ s', s.step a = some s' → AllMeet (a.disposedId.toList ++ disposed) s' actions

/-! ## The two runs that go wrong -/

/-- A call that is given up is started all the same when its channel comes in, and answered again. -/
def lateCall : List (ServerAction Unit) :=
  [.request ⟨.promise, 0, "c", "m", ()⟩ false, .expire 0, .registerChannel "c", .flush "c" [], .settle 0 (.resolved ())]

/-- A listener that waits for its channel is not found by the dispose message. -/
def lateListener : List (ServerAction Unit) :=
  [.request ⟨.eventListen, 0, "c", "e", ()⟩ false, .eventDispose 0, .registerChannel "c", .flush "c" [], .fire 0 ()]

theorem answers_twice_and_fires_after_dispose :
    ¬ (∀ (actions : List (ServerAction Unit)) s, (actions.filterMap ServerAction.requestId).Nodup →
        ChannelServer.run {} actions = some s → AnswersOnce s) ∧
      ¬ (∀ actions : List (ServerAction Unit), (actions.filterMap ServerAction.requestId).Nodup →
        HonoursDispose actions) := by
  constructor
  · intro h
    have := h lateCall _ (by decide) rfl 0
    revert this
    decide
  · intro h
    have := (h lateListener (by decide) [.request ⟨.eventListen, 0, "c", "e", ()⟩ false] 0
      [.registerChannel "c", .flush "c" [], .fire 0 ()] _ _ rfl rfl rfl).1
    revert this
    decide

/-! ## Answers that are due, and requests that may start -/

def ChannelCall.Runs (id : Nat) (call : ChannelCall) : Bool := call.id = id && !call.answered

/-- A call that waits for its channel and has not been given up. -/
def PendingRequest.Waits (id : Nat) (p : PendingRequest δ) : Bool :=
  p.request.id = id && p.request.type = .promise && p.timeoutTimer = .running

def PendingRequest.Unstarted (id : Nat) (p : PendingRequest δ) : Bool :=
  p.request.id = id && p.timeoutTimer ≠ .cleared

namespace ChannelServer

/-- The answers to `id`, sent or still to come. -/
def due (s : ChannelServer δ) (id : Nat) : Nat :=
  s.sent.countP (Response.answers id) + s.calls.countP (ChannelCall.Runs id) + s.pendingRequests.countP (PendingRequest.Waits id)

/-- What is alive or may start under `id`. -/
def uses (s : ChannelServer δ) (id : Nat) : Nat :=
  s.calls.countP (fun call => call.id = id) + s.subscriptions.countP (fun sub => sub.id = id) +
    s.pendingRequests.countP (PendingRequest.Unstarted id)

/-- The invariant of runs whose requests have the ids `seen`. -/
structure Inv (seen : List Nat) (s : ChannelServer δ) : Prop where
  registered : ∀ channelName ∈ s.flushes, channelName ∈ s.channels
  due : ∀ id, s.due id ≤ 1
  uses : ∀ id, s.uses id ≤ 1
  fresh : ∀ id, id ∉ seen → s.due id = 0 ∧ s.uses id = 0
  held : ∀ sub ∈ s.subscriptions, s.activeRequests sub.id = some (.unsubscribe sub.key)

variable {s s' : ChannelServer δ} {seen : List Nat}

theorem Inv.mono (h : Inv seen s) (hregistered : ∀ channelName ∈ s'.flushes, channelName ∈ s'.channels)
    (hdue : ∀ id, s'.due id ≤ s.due id) (huses : ∀ id, s'.uses id ≤ s.uses id)
    (hheld : ∀ sub ∈ s'.subscriptions, s'.activeRequests sub.id = some (.unsubscribe sub.key)) : Inv seen s' := by
  refine ⟨hregistered, fun id => ?_, fun id => ?_, fun id hid => ?_, hheld⟩
  · exact Nat.le_trans (hdue id) (h.due id)
  · exact Nat.le_trans (huses id) (h.uses id)
  · obtain ⟨h1, h2⟩ := h.fresh id hid
    have := hdue id
    have := huses id
    omega

variable {id : Nat}

theorem no_subscription (huses : s.uses id = 0) :
    ∀ sub ∈ s.subscriptions, sub.id ≠ id := by
  intro sub hsub heq
  have : 0 < s.subscriptions.countP (fun sub => sub.id = id) :=
    countP_pos_iff.mpr ⟨sub, hsub, by simpa using heq⟩
  rw [ChannelServer.uses] at huses
  omega

/-! ## Starting a request -/

/-- A request that is started, or that waits, is due and in use. -/
structure Started (s s' : ChannelServer δ) (request : Request δ) : Prop where
  registered : s'.flushes = s.flushes ∧ s'.channels = s.channels
  due : ∀ id, s'.due id = s.due id + if request.type = .promise ∧ request.id = id then 1 else 0
  uses : ∀ id, s'.uses id = s.uses id + if request.id = id then 1 else 0
  held : (∀ sub ∈ s.subscriptions, sub.id ≠ request.id) →
    (∀ sub ∈ s.subscriptions, s.activeRequests sub.id = some (.unsubscribe sub.key)) →
    ∀ sub ∈ s'.subscriptions, s'.activeRequests sub.id = some (.unsubscribe sub.key)
  pending : request.channelName ∈ s.channels → s'.pendingRequests = s.pendingRequests
  sent : s'.sent = s.sent

variable {request : Request δ}

theorem collectPendingRequest_started (s : ChannelServer δ) (hunknown : request.channelName ∉ s.channels) :
    Started s (s.collectPendingRequest request) request := by
  refine ⟨⟨rfl, rfl⟩, fun id => ?_, fun id => ?_, fun _ hheld => hheld, fun hknown => (hunknown hknown).elim, rfl⟩
  · simp only [ChannelServer.due, collectPendingRequest, countP_append, countP_singleton, PendingRequest.Waits]
    by_cases h1 : request.id = id <;> by_cases h2 : request.type = .promise <;> simp [h1, h2]
    omega
  · simp only [ChannelServer.uses, collectPendingRequest, countP_append, countP_singleton, PendingRequest.Unstarted]
    by_cases h1 : request.id = id <;> simp [h1]
    omega

theorem onPromise_started (s : ChannelServer δ) (htype : request.type = .promise) :
    Started s (s.onPromise request) request := by
  rw [onPromise]
  split
  · next h => exact collectPendingRequest_started s h
  · refine ⟨⟨rfl, rfl⟩, fun id => ?_, fun id => ?_, fun hnone hheld sub hsub => ?_, fun _ => rfl, rfl⟩
    · simp only [ChannelServer.due, countP_append, countP_singleton, ChannelCall.Runs, htype]
      by_cases h1 : request.id = id <;> simp [h1]
      omega
    · simp only [ChannelServer.uses, countP_append, countP_singleton]
      by_cases h1 : request.id = id <;> simp [h1]
      omega
    · dsimp only at hsub ⊢
      rw [Function.update_of_ne (hnone sub hsub)]
      exact hheld sub hsub

variable {listenThrows : Bool}

theorem onEventListen_started (htype : request.type = .eventListen) (h : s.onEventListen request listenThrows = some s') :
    Started s s' request := by
  rw [onEventListen] at h
  split at h
  · next hunknown =>
    obtain rfl := Option.some.inj h
    exact collectPendingRequest_started s hunknown
  · split at h
    · cases h
    · obtain rfl := Option.some.inj h
      refine ⟨⟨rfl, rfl⟩, fun id => ?_, fun id => ?_, fun hnone hheld sub hsub => ?_, fun _ => rfl, rfl⟩
      · simp [ChannelServer.due, htype]
      · simp only [ChannelServer.uses, countP_append, countP_singleton]
        by_cases h1 : request.id = id <;> simp [h1]
        omega
      · dsimp only at hsub ⊢
        rcases mem_append.mp hsub with hold | hnew
        · rw [Function.update_of_ne (hnone sub hold)]
          exact hheld sub hold
        · obtain rfl := mem_singleton.mp hnew
          exact Function.update_self _ _ _

theorem onRequest_started (h : s.onRequest listenThrows request = some s') : Started s s' request := by
  rw [onRequest] at h
  split at h
  · next htype =>
    obtain rfl := Option.some.inj h
    exact onPromise_started s htype
  · next htype => exact onEventListen_started htype h

/-! ## A flush -/

/-- The server with the list of pending requests that a flush goes through. -/
def withPending (s : ChannelServer δ) (ps : List (PendingRequest δ)) : ChannelServer δ := { s with pendingRequests := ps }

theorem onRequest_withPending (hknown : request.channelName ∈ s.channels) (listenThrows : Bool)
    (ps : List (PendingRequest δ)) : (s.withPending ps).onRequest listenThrows request =
      (s.onRequest listenThrows request).map fun s => s.withPending ps := by
  have hknown' : request.channelName ∈ (s.withPending ps).channels := hknown
  unfold onRequest onPromise onEventListen
  split
  · rw [if_neg (not_not.mpr hknown), if_neg (not_not.mpr hknown')]
    rfl
  · rw [if_neg (not_not.mpr hknown), if_neg (not_not.mpr hknown')]
    split <;> rfl

section Clear

variable (before ps : List (PendingRequest δ)) (p : PendingRequest δ) (id : Nat)

theorem due_clear : (s.withPending (before ++ p :: ps)).due id =
    (s.withPending (before ++ { p with timeoutTimer := .cleared } :: ps)).due id + if p.Waits id then 1 else 0 := by
  simp only [ChannelServer.due, withPending, countP_append, countP_cons]
  have : PendingRequest.Waits id { p with timeoutTimer := .cleared } = false := by simp [PendingRequest.Waits]
  rw [this]
  simp only [Bool.false_eq_true, if_false]
  omega

theorem uses_clear : (s.withPending (before ++ p :: ps)).uses id =
    (s.withPending (before ++ { p with timeoutTimer := .cleared } :: ps)).uses id + if p.Unstarted id then 1 else 0 := by
  simp only [ChannelServer.uses, withPending, countP_append, countP_cons]
  have : PendingRequest.Unstarted id { p with timeoutTimer := .cleared } = false := by simp [PendingRequest.Unstarted]
  rw [this]
  simp only [Bool.false_eq_true, if_false]
  omega

end Clear

variable {before ps : List (PendingRequest δ)} {p : PendingRequest δ} {disposed : List Nat} {listenThrows : Bool}

theorem Inv.clear (h : Inv seen (s.withPending (before ++ p :: ps))) :
    Inv seen (s.withPending (before ++ { p with timeoutTimer := .cleared } :: ps)) := by
  refine h.mono h.registered (fun id => ?_) (fun id => ?_) h.held
  · rw [due_clear before ps p id]
    omega
  · rw [uses_clear before ps p id]
    omega

theorem alive_unstarted (h : p.Alive disposed) : p.Unstarted p.request.id = true := by
  rw [PendingRequest.Alive] at h
  split at h
  · simp [PendingRequest.Unstarted, h]
  · simp [PendingRequest.Unstarted, h.1]

theorem alive_waits (h : p.Alive disposed) (htype : p.request.type = .promise) : p.Waits p.request.id = true := by
  rw [PendingRequest.Alive, htype] at h
  simp [PendingRequest.Waits, htype, h]

/-- A pending request is started: what it waited for is now under way. -/
theorem Inv.start (h : Inv seen (s.withPending (before ++ p :: ps))) (halive : p.Alive disposed)
    (hknown : p.request.channelName ∈ s.channels) (hs : s.onRequest listenThrows p.request = some s') :
    Inv seen (s'.withPending (before ++ { p with timeoutTimer := .cleared } :: ps)) := by
  have hstart : Started _ (s'.withPending (before ++ { p with timeoutTimer := .cleared } :: ps)) p.request :=
    onRequest_started (by rw [onRequest_withPending hknown, hs]; rfl)
  have huses := uses_clear (s := s) before ps p
  have hdue := due_clear (s := s) before ps p
  refine h.mono ?_ (fun id => ?_) (fun id => ?_) (hstart.held ?_ h.held)
  · rw [hstart.registered.1, hstart.registered.2]
    exact h.registered
  · rw [hstart.due id, hdue id]
    split
    · next heq =>
      obtain ⟨htype, rfl⟩ := heq
      exact Nat.le_of_eq (by rw [if_pos (alive_waits halive htype)])
    · exact Nat.le_add_right _ _
  · rw [hstart.uses id, huses id]
    split
    · next heq =>
      subst heq
      exact Nat.le_of_eq (by rw [if_pos (alive_unstarted halive)])
    · exact Nat.le_add_right _ _
  · apply no_subscription
    have := huses p.request.id
    rw [if_pos (alive_unstarted halive)] at this
    have := h.uses p.request.id
    omega

theorem onRequest_channels (h : s.onRequest listenThrows request = some s') :
    s'.channels = s.channels := (onRequest_started h).registered.2

variable {channelName : String}

theorem Inv.flushLoop {throwing : List Nat} (ps : List (PendingRequest δ)) :
    ∀ {s : ChannelServer δ} {before : List (PendingRequest δ)}, Inv seen (s.withPending (before ++ ps)) →
      channelName ∈ s.channels → (∀ p ∈ ps, p.request.channelName = channelName → p.Alive disposed) →
      Inv seen ((flushLoop channelName throwing s ps).2.1.withPending
        (before ++ (flushLoop channelName throwing s ps).1)) := by
  induction ps with
  | nil => intro s before h _ _; exact h
  | cons p ps ih =>
    intro s before h hknown halive
    obtain ⟨hp, hps⟩ := forall_mem_cons.mp halive
    have hskip : ∀ {s : ChannelServer δ} (q : PendingRequest δ), Inv seen (s.withPending (before ++ q :: ps)) →
        channelName ∈ s.channels → Inv seen ((ChannelServer.flushLoop channelName throwing s ps).2.1.withPending
          (before ++ q :: (ChannelServer.flushLoop channelName throwing s ps).1)) := by
      intro s q hq hknown
      rw [append_cons] at hq ⊢
      exact ih hq hknown hps
    unfold ChannelServer.flushLoop
    split
    · exact hskip p h hknown
    · next hname =>
      have hname := not_not.mp hname
      dsimp only
      split
      · exact h.clear
      · next s' hs' =>
        refine hskip _ (h.start (hp hname) (hname ▸ hknown) hs') ?_
        rw [onRequest_channels hs']
        exact hknown

theorem Inv.flushPendingRequests (h : Inv seen s) (hknown : channelName ∈ s.channels)
    (halive : ∀ p ∈ s.pendingRequests, p.request.channelName = channelName → p.Alive disposed) (throwing : List Nat) :
    Inv seen (s.flushPendingRequests channelName throwing) := by
  have hloop : Inv seen ((ChannelServer.flushLoop channelName throwing s s.pendingRequests).2.1.withPending
      ([] ++ (ChannelServer.flushLoop channelName throwing s s.pendingRequests).1)) :=
    Inv.flushLoop s.pendingRequests (show Inv seen (s.withPending ([] ++ s.pendingRequests)) from h) hknown halive
  unfold ChannelServer.flushPendingRequests
  dsimp only
  split
  · refine hloop.mono hloop.registered (fun id => ?_) (fun id => ?_) hloop.held
    · exact Nat.add_le_add_left (filter_sublist.countP_le) _
    · exact Nat.add_le_add_left (filter_sublist.countP_le) _
  · exact hloop

/-! ## The other steps -/

theorem Inv.disposeActiveRequest (h : Inv seen s) (id : Nat) : Inv seen (s.disposeActiveRequest id) := by
  rw [ChannelServer.disposeActiveRequest]
  split
  · exact h
  · next disposable hactive =>
    cases disposable with
    | cancel key =>
      have hcalls : ∀ p : ChannelCall → Bool, (∀ call : ChannelCall, p { call with cancelled := true } = p call) →
          (s.calls.map fun call => if call.key = key then { call with cancelled := true } else call).countP p =
            s.calls.countP p := by
        intro p hp
        rw [countP_map]
        refine countP_congr fun call _ => ?_
        rw [Function.comp_apply]
        split
        · rw [hp]
        · rfl
      refine h.mono h.registered (fun id' => ?_) (fun id' => ?_) (fun sub hsub => ?_)
      · simp only [ChannelServer.due, dispose]
        exact Nat.le_of_eq (by rw [hcalls _ fun _ => rfl])
      · simp only [ChannelServer.uses, dispose]
        exact Nat.le_of_eq (by rw [hcalls _ fun _ => rfl])
      · have hheld := h.held sub hsub
        have hne : sub.id ≠ id := by
          rintro rfl
          rw [hheld] at hactive
          cases hactive
        dsimp only
        rw [Function.update_of_ne hne]
        exact hheld
    | unsubscribe key =>
      refine h.mono h.registered (fun id' => Nat.le_refl _) (fun id' => ?_) (fun sub hsub => ?_)
      · exact Nat.add_le_add_right (Nat.add_le_add_left (filter_sublist.countP_le) _) _
      · obtain ⟨hsub, hkey⟩ := mem_filter.mp hsub
        have hheld := h.held sub hsub
        have hne : sub.id ≠ id := by
          rintro rfl
          rw [hheld] at hactive
          simp only [Option.some.injEq, Disposable.unsubscribe.injEq] at hactive
          simp [hactive] at hkey
        dsimp only
        rw [Function.update_of_ne hne]
        exact hheld

theorem countP_lt {α : Type} {p q : α → Bool} {l : List α} {a : α} (ha : a ∈ l) (hle : ∀ b ∈ l, p b = true → q b = true)
    (hp : p a = false) (hq : q a = true) : l.countP p < l.countP q := by
  obtain ⟨l1, l2, rfl⟩ := append_of_mem ha
  have h1 : l1.countP p ≤ l1.countP q := countP_mono_left fun b hb => hle b (mem_append_left _ hb)
  have h2 : l2.countP p ≤ l2.countP q :=
    countP_mono_left fun b hb => hle b (mem_append_right _ (mem_cons_of_mem _ hb))
  rw [countP_append, countP_append, countP_cons, countP_cons, hp, hq]
  simp only [Bool.false_eq_true, if_false, if_true]
  omega

theorem responseOf_answers (id id' : Nat) (settled : Settled δ) :
    (responseOf id settled).answers id' = decide (id = id') := by
  cases settled <;> rfl

theorem Inv.settle (h : Inv seen s) {key : Nat} {call : ChannelCall} (hmem : call ∈ s.calls) (hkey : call.key = key)
    (hruns : call.answered = false) (settled : Settled δ) :
    Inv seen ((s.markAnswered key).sendResponse (responseOf call.id settled)) := by
  refine h.mono h.registered (fun id => ?_) (fun id => ?_) h.held
  · simp only [ChannelServer.due, markAnswered, sendResponse, countP_append, countP_singleton,
      responseOf_answers, countP_map]
    have hle : ∀ c ∈ s.calls, (ChannelCall.Runs id ∘ fun call => if call.key = key then { call with answered := true } else call) c =
        true → ChannelCall.Runs id c = true := by
      intro c _ hc
      rw [Function.comp_apply] at hc
      split at hc
      · simp [ChannelCall.Runs] at hc
      · exact hc
    by_cases hid : call.id = id
    · have := countP_lt hmem hle (by simp [ChannelCall.Runs, hkey]) (by simp [ChannelCall.Runs, hid, hruns])
      simp only [hid, decide_true, if_true]
      omega
    · have := countP_mono_left hle
      simp only [hid, decide_false, Bool.false_eq_true, if_false]
      omega
  · simp only [ChannelServer.uses, markAnswered, sendResponse, countP_map]
    have : (fun call : ChannelCall => decide (call.id = id)) ∘ (fun call => if call.key = key then { call with answered := true } else call) =
        fun call => decide (call.id = id) := by
      funext call
      rw [Function.comp_apply]
      split <;> rfl
    exact Nat.le_of_eq (by rw [this])

theorem Inv.finalize (h : Inv seen s) {key : Nat} {call : ChannelCall} (hmem : call ∈ s.calls) : Inv seen
    { s with
      calls := s.calls.filter (fun c => c.key ≠ key)
      activeRequests := Function.update s.activeRequests call.id none } := by
  refine h.mono h.registered (fun id => ?_) (fun id => ?_) (fun sub hsub => ?_)
  · exact Nat.add_le_add_right (Nat.add_le_add_left (filter_sublist.countP_le) _) _
  · exact Nat.add_le_add_right (Nat.add_le_add_right (filter_sublist.countP_le) _) _
  · -- a call and a subscription never have the same id
    have hne : sub.id ≠ call.id := by
      intro heq
      have h1 : 0 < s.subscriptions.countP (fun sub => sub.id = call.id) :=
        countP_pos_iff.mpr ⟨sub, hsub, by simpa using heq⟩
      have h2 : 0 < s.calls.countP (fun c => c.id = call.id) := countP_pos_iff.mpr ⟨call, hmem, by simp⟩
      have := h.uses call.id
      rw [ChannelServer.uses] at this
      omega
    dsimp only
    rw [Function.update_of_ne hne]
    exact h.held sub hsub

theorem Inv.expire (h : Inv seen s) {index : Nat} (hget : s.pendingRequests[index]? = some ⟨request, .running⟩) :
    Inv seen ({ s with pendingRequests := s.pendingRequests.set index ⟨request, .expired⟩ }.onTimeout request) := by
  obtain ⟨hlt, hget⟩ := List.getElem?_eq_some_iff.mp hget
  have hset : s.pendingRequests.set index ⟨request, .expired⟩ =
      s.pendingRequests.take index ++ ⟨request, .expired⟩ :: s.pendingRequests.drop (index + 1) :=
    set_eq_take_append_cons_drop ▸ if_pos hlt
  have hold : s.pendingRequests =
      s.pendingRequests.take index ++ ⟨request, .running⟩ :: s.pendingRequests.drop (index + 1) := by
    rw [← hget, ← drop_eq_getElem_cons hlt, take_append_drop]
  rw [hset]
  generalize s.pendingRequests.take index = ps at hold
  generalize s.pendingRequests.drop (index + 1) = qs at hold
  have huses : ∀ id, PendingRequest.Unstarted id (⟨request, .expired⟩ : PendingRequest δ) =
      PendingRequest.Unstarted id ⟨request, .running⟩ := fun id => by simp [PendingRequest.Unstarted]
  cases htype : request.type with
  | promise =>
    rw [onTimeout, htype]
    refine h.mono h.registered (fun id => ?_) (fun id => ?_) h.held
    · simp only [ChannelServer.due, sendResponse, countP_append, countP_cons, countP_nil, hold,
        PendingRequest.Waits, Response.answers, htype]
      by_cases hid : request.id = id <;> simp [hid]
      omega
    · simp only [ChannelServer.uses, sendResponse, hold, countP_append, countP_cons, huses]
      exact Nat.le_refl _
  | eventListen =>
    rw [onTimeout, htype]
    refine h.mono h.registered (fun id => ?_) (fun id => ?_) h.held
    · simp [ChannelServer.due, hold, PendingRequest.Waits, htype]
    · simp only [ChannelServer.uses, hold, countP_append, countP_cons, huses]
      exact Nat.le_refl _

theorem Inv.step (h : Inv seen s) {a : ServerAction δ} (hfresh : ∀ id, a.requestId = some id → id ∉ seen)
    (hmeets : a.Meets disposed s) (hs : s.step a = some s') : Inv (a.requestId.toList ++ seen) s' := by
  cases a with
  | request request listenThrows =>
    have hid : request.id ∉ seen := hfresh request.id rfl
    obtain rfl := Option.some.inj hs
    have hseen : Inv (request.id :: seen) s :=
      ⟨h.registered, h.due, h.uses, fun id hnot => h.fresh id fun hmem => hnot (mem_cons_of_mem _ hmem), h.held⟩
    cases hstart : s.onRequest listenThrows request with
    | none => exact hseen
    | some s' =>
      have hstarted := onRequest_started hstart
      refine ⟨?_, fun id => ?_, fun id => ?_, fun id hnot => ?_, ?_⟩
      · show ∀ channelName ∈ s'.flushes, channelName ∈ s'.channels
        rw [hstarted.registered.1, hstarted.registered.2]
        exact h.registered
      · show s'.due id ≤ 1
        have := h.due id
        rw [hstarted.due id]
        split
        · next heq => have := (h.fresh request.id hid).1; rw [heq.2] at this; omega
        · omega
      · show s'.uses id ≤ 1
        have := h.uses id
        rw [hstarted.uses id]
        split
        · next heq => have := (h.fresh request.id hid).2; rw [heq] at this; omega
        · omega
      · show s'.due id = 0 ∧ s'.uses id = 0
        have hne : request.id ≠ id := fun heq => hnot (mem_cons.mpr (.inl heq.symm))
        rw [hstarted.due id, hstarted.uses id, if_neg hne, if_neg fun hand => hne hand.2]
        exact h.fresh id fun hmem => hnot (mem_cons_of_mem _ hmem)
      · exact hstarted.held (no_subscription (h.fresh request.id hid).2) h.held
  | promiseCancel id =>
    obtain rfl := Option.some.inj hs
    exact h.disposeActiveRequest id
  | eventDispose id =>
    obtain rfl := Option.some.inj hs
    exact h.disposeActiveRequest id
  | registerChannel channelName =>
    obtain rfl := Option.some.inj hs
    refine h.mono ?_ (fun _ => Nat.le_refl _) (fun _ => Nat.le_refl _) h.held
    intro name hname
    rcases mem_cons.mp hname with rfl | hname
    · exact mem_cons_self
    · exact mem_cons_of_mem _ (h.registered name hname)
  | flush channelName throwing =>
    rw [ChannelServer.step] at hs
    split at hs
    · next hmem =>
      obtain rfl := Option.some.inj hs
      have h' : Inv seen { s with flushes := s.flushes.erase channelName } :=
        h.mono (fun name hname => h.registered name (mem_of_mem_erase hname)) (fun _ => Nat.le_refl _)
          (fun _ => Nat.le_refl _) h.held
      exact h'.flushPendingRequests (h.registered _ hmem) hmeets throwing
    · cases hs
  | expire index =>
    rw [ChannelServer.step] at hs
    split at hs
    · next request hget =>
      obtain rfl := Option.some.inj hs
      exact h.expire hget
    · cases hs
  | settle key settled =>
    rw [ChannelServer.step] at hs
    split at hs
    · cases hs
    · next call hfind =>
      obtain rfl := Option.some.inj hs
      have hcall := find?_some hfind
      simp only [decide_eq_true_eq, Bool.not_eq_true] at hcall
      exact h.settle (mem_of_find?_eq_some hfind) hcall.1 hcall.2 settled
  | finalize key =>
    rw [ChannelServer.step] at hs
    split at hs
    · cases hs
    · next call hfind =>
      obtain rfl := Option.some.inj hs
      exact h.finalize (mem_of_find?_eq_some hfind)
  | fire key data =>
    rw [ChannelServer.step] at hs
    split at hs
    · cases hs
    · obtain rfl := Option.some.inj hs
      refine h.mono h.registered (fun id => ?_) (fun _ => Nat.le_refl _) h.held
      simp [ChannelServer.due, sendResponse, Response.answers]

/-! ## After a dispose message -/

/-- No subscription for `id`, and nothing of it is sent on the way from `s`. -/
structure Quiet (id : Nat) (s s' : ChannelServer δ) : Prop where
  subscriptions : ∀ sub ∈ s'.subscriptions, sub.id ≠ id
  sent : ∃ new, s'.sent = s.sent ++ new ∧ ∀ r ∈ new, r.fires id = false

theorem Quiet.of_eq (h : ∀ sub ∈ s'.subscriptions, sub.id ≠ id) (hsent : s'.sent = s.sent) : Quiet id s s' :=
  ⟨h, [], by rw [hsent, append_nil], by simp⟩

theorem Quiet.trans {s'' : ChannelServer δ} (h : Quiet id s s') (h' : Quiet id s' s'') : Quiet id s s'' := by
  obtain ⟨-, new, hnew, hfires⟩ := h
  obtain ⟨hsub, new', hnew', hfires'⟩ := h'
  refine ⟨hsub, new ++ new', ?_, ?_⟩
  · rw [hnew', hnew, append_assoc]
  · intro r hr
    rcases mem_append.mp hr with hr | hr
    · exact hfires r hr
    · exact hfires' r hr

theorem Quiet.response (h : ∀ sub ∈ s'.subscriptions, sub.id ≠ id) {r : Response δ} (hsent : s'.sent = s.sent ++ [r])
    (hr : r.fires id = false) : Quiet id s s' := ⟨h, [r], hsent, by simpa using hr⟩

theorem Quiet.onRequest (h : ∀ sub ∈ s.subscriptions, sub.id ≠ id) (hne : request.type = .eventListen → request.id ≠ id)
    (hs : s.onRequest listenThrows request = some s') : Quiet id s s' := by
  refine Quiet.of_eq ?_ (onRequest_started hs).sent
  · rw [ChannelServer.onRequest] at hs
    split at hs
    · obtain rfl := Option.some.inj hs
      rw [onPromise]
      split <;> exact h
    · next htype =>
      rw [onEventListen] at hs
      split at hs
      · obtain rfl := Option.some.inj hs
        exact h
      · split at hs
        · cases hs
        · obtain rfl := Option.some.inj hs
          intro sub hsub
          rcases mem_append.mp hsub with hold | hnew
          · exact h sub hold
          · obtain rfl := mem_singleton.mp hnew
            exact hne htype

theorem Quiet.flushLoop {throwing : List Nat} (hid : id ∈ disposed) (ps : List (PendingRequest δ)) :
    ∀ {s : ChannelServer δ}, (∀ sub ∈ s.subscriptions, sub.id ≠ id) →
      (∀ p ∈ ps, p.request.channelName = channelName → p.Alive disposed) →
      Quiet id s (ChannelServer.flushLoop channelName throwing s ps).2.1 := by
  induction ps with
  | nil => intro s h _; exact Quiet.of_eq h rfl
  | cons p ps ih =>
    intro s h halive
    obtain ⟨hp, hps⟩ := forall_mem_cons.mp halive
    unfold ChannelServer.flushLoop
    split
    · exact ih h hps
    · next hname =>
      dsimp only
      split
      · exact Quiet.of_eq h rfl
      · next s' hs' =>
        have hquiet : Quiet id s s' := by
          refine Quiet.onRequest h ?_ hs'
          rintro htype rfl
          have halive := hp (not_not.mp hname)
          rw [PendingRequest.Alive, htype] at halive
          exact halive.2 hid
        exact hquiet.trans (ih hquiet.subscriptions hps)

theorem disposeActiveRequest_subscriptions (s : ChannelServer δ) (id : Nat) :
    (∀ sub ∈ (s.disposeActiveRequest id).subscriptions, sub ∈ s.subscriptions) ∧ (s.disposeActiveRequest id).sent = s.sent := by
  rw [ChannelServer.disposeActiveRequest]
  split
  · exact ⟨fun _ h => h, rfl⟩
  · next disposable _ =>
    cases disposable with
    | cancel key => exact ⟨fun _ h => h, rfl⟩
    | unsubscribe key => exact ⟨fun _ h => (mem_filter.mp h).1, rfl⟩

theorem Quiet.step (hid : id ∈ disposed) (h : ∀ sub ∈ s.subscriptions, sub.id ≠ id) {a : ServerAction δ}
    (hmeets : a.Meets disposed s) (hs : s.step a = some s') : Quiet id s s' := by
  have hdispose : ∀ id', Quiet id s (s.disposeActiveRequest id') := by
    intro id'
    obtain ⟨hsub, hsent⟩ := disposeActiveRequest_subscriptions s id'
    exact Quiet.of_eq (fun sub hmem => h sub (hsub sub hmem)) hsent
  cases a with
  | request request listenThrows =>
    obtain rfl := Option.some.inj hs
    cases hstart : s.onRequest listenThrows request with
    | none => exact Quiet.of_eq h rfl
    | some s' =>
      refine Quiet.onRequest h ?_ hstart
      rintro htype rfl
      exact hmeets htype hid
  | promiseCancel id' =>
    obtain rfl := Option.some.inj hs
    exact hdispose id'
  | eventDispose id' =>
    obtain rfl := Option.some.inj hs
    exact hdispose id'
  | registerChannel channelName =>
    obtain rfl := Option.some.inj hs
    exact Quiet.of_eq h rfl
  | flush channelName throwing =>
    rw [ChannelServer.step] at hs
    split at hs
    · obtain rfl := Option.some.inj hs
      obtain ⟨hsub, hsent⟩ := Quiet.flushLoop (s := { s with flushes := s.flushes.erase channelName }) hid
        s.pendingRequests h hmeets
      exact ⟨hsub, hsent⟩
    · cases hs
  | expire index =>
    rw [ChannelServer.step] at hs
    split at hs
    · next request _ =>
      obtain rfl := Option.some.inj hs
      rw [onTimeout]
      split
      · exact Quiet.response h rfl rfl
      · exact Quiet.of_eq h rfl
    · cases hs
  | settle key settled =>
    rw [ChannelServer.step] at hs
    split at hs
    · cases hs
    · obtain rfl := Option.some.inj hs
      refine Quiet.response h rfl ?_
      cases settled <;> rfl
  | finalize key =>
    rw [ChannelServer.step] at hs
    split at hs
    · cases hs
    · obtain rfl := Option.some.inj hs
      exact Quiet.of_eq h rfl
  | fire key data =>
    rw [ChannelServer.step] at hs
    split at hs
    · cases hs
    · next sub hfind =>
      obtain rfl := Option.some.inj hs
      refine Quiet.response h rfl ?_
      simpa [Response.fires] using h sub (mem_of_find?_eq_some hfind)

/-! ## Whole runs -/

theorem Inv.initial : Inv [] ({} : ChannelServer δ) :=
  ⟨by simp, fun _ => Nat.zero_le 1, fun _ => Nat.zero_le 1, fun _ _ => ⟨rfl, rfl⟩, by simp⟩

theorem Inv.run (before : List (ServerAction δ)) : ∀ {s : ChannelServer δ} {seen disposed : List Nat} (later : List (ServerAction δ)),
    Inv seen s → AllMeet disposed s (before ++ later) →
    (∀ id ∈ before.filterMap ServerAction.requestId, id ∉ seen) → (before.filterMap ServerAction.requestId).Nodup →
    s.run before = some s' → ∃ seen' disposed', Inv seen' s' ∧ AllMeet disposed' s' later := by
  induction before with
  | nil =>
    intro s seen disposed later h hmeets _ _ hrun
    obtain rfl := Option.some.inj hrun
    exact ⟨seen, disposed, h, hmeets⟩
  | cons a before ih =>
    intro s seen disposed later h hmeets hfresh hnodup hrun
    obtain ⟨s1, hs1, hrun⟩ := Option.bind_eq_some_iff.mp hrun
    have hids : (a :: before).filterMap ServerAction.requestId =
        a.requestId.toList ++ before.filterMap ServerAction.requestId := by
      cases ha : a.requestId with
      | none => rw [filterMap_cons_none ha]; rfl
      | some id => rw [filterMap_cons_some ha]; rfl
    rw [hids] at hfresh hnodup
    obtain ⟨-, hnodup, hdisjoint⟩ := nodup_append.mp hnodup
    have hstep : Inv (a.requestId.toList ++ seen) s1 := by
      refine h.step (fun id hid => hfresh id (mem_append_left _ ?_)) hmeets.1 hs1
      rw [hid]
      exact mem_singleton_self id
    refine ih later hstep (hmeets.2 s1 hs1) ?_ hnodup hrun
    intro id hid hmem
    rcases mem_append.mp hmem with hmem | hmem
    · exact hdisjoint id hmem id hid rfl
    · exact hfresh id (mem_append_right _ hid) hmem

theorem Quiet.run (actions : List (ServerAction δ)) : ∀ {s : ChannelServer δ} {disposed : List Nat}, id ∈ disposed →
    (∀ sub ∈ s.subscriptions, sub.id ≠ id) → AllMeet disposed s actions → s.run actions = some s' → Quiet id s s' := by
  induction actions with
  | nil =>
    intro s disposed _ h _ hrun
    obtain rfl := Option.some.inj hrun
    exact Quiet.of_eq h rfl
  | cons a actions ih =>
    intro s disposed hid h hmeets hrun
    obtain ⟨s1, hs1, hrun⟩ := Option.bind_eq_some_iff.mp hrun
    have hquiet := Quiet.step hid h hmeets.1 hs1
    exact hquiet.trans (ih (mem_append_right _ hid) hquiet.subscriptions (hmeets.2 s1 hs1) hrun)

theorem run_append (before later : List (ServerAction δ)) : ∀ s : ChannelServer δ,
    s.run (before ++ later) = (s.run before).bind fun s => s.run later := by
  induction before with
  | nil => intro s; rfl
  | cons a before ih =>
    intro s
    rw [cons_append, ChannelServer.run, ChannelServer.run, Option.bind_assoc]
    exact Option.bind_congr fun s1 _ => ih s1

theorem Inv.disposed_subscriptions (h : Inv seen s) (id : Nat) :
    ∀ sub ∈ (s.disposeActiveRequest id).subscriptions, sub.id ≠ id := by
  rintro sub hsub rfl
  have hold := (disposeActiveRequest_subscriptions s sub.id).1 sub hsub
  rw [ChannelServer.disposeActiveRequest, h.held sub hold] at hsub
  simp [dispose] at hsub

end ChannelServer

/-- As long as no request that is over is started, every call is answered at most once, and nothing comes of
a listener behind its dispose message. -/
theorem answers_once_and_honours_dispose {actions : List (ServerAction δ)} {s : ChannelServer δ}
    (hdistinct : (actions.filterMap ServerAction.requestId).Nodup) (hmeets : AllMeet [] {} actions)
    (hrun : ChannelServer.run {} actions = some s) : AnswersOnce s ∧ HonoursDispose actions := by
  constructor
  · obtain ⟨seen, -, h, -⟩ := ChannelServer.Inv.run actions [] ChannelServer.Inv.initial
      (by rwa [append_nil]) (by simp) hdistinct hrun
    intro id
    have := h.due id
    rw [ChannelServer.due] at this
    omega
  · rintro before id later s0 s' rfl hrun0 hrun'
    rw [ChannelServer.run_append] at hrun0 hrun'
    obtain ⟨s1, hs1, hrun0⟩ := Option.bind_eq_some_iff.mp hrun0
    obtain ⟨s1', hs1', hrun'⟩ := Option.bind_eq_some_iff.mp hrun'
    obtain rfl : s1 = s1' := Option.some.inj (hs1.symm.trans hs1')
    obtain rfl : s1.disposeActiveRequest id = s0 := Option.some.inj hrun0
    rw [filterMap_append, nodup_append] at hdistinct
    obtain ⟨seen, disposed, h, hmeets⟩ := ChannelServer.Inv.run before _ ChannelServer.Inv.initial hmeets (by simp)
      hdistinct.1 hs1
    have hquiet := ChannelServer.Quiet.run later mem_cons_self (h.disposed_subscriptions id)
      (hmeets.2 _ rfl) hrun'
    exact ⟨hquiet.subscriptions, hquiet.sent⟩

/-- A call and a listener that wait for their channel; the listener is disposed once it listens. -/
theorem answers_once_and_honours_dispose_waiting :
    let actions : List (ServerAction Unit) := [.request ⟨.promise, 0, "c", "m", ()⟩ false,
      .request ⟨.eventListen, 1, "c", "e", ()⟩ false, .registerChannel "c", .flush "c" [], .fire 1 (),
      .eventDispose 1, .settle 0 (.resolved ()), .finalize 0]
    ∃ s, ChannelServer.run {} actions = some s ∧ s.sent = [.initialized, .eventFire 1 (), .promiseSuccess 0 ()] ∧
      AnswersOnce s ∧ HonoursDispose actions := by
  refine ⟨_, rfl, rfl, answers_once_and_honours_dispose (by decide) ?_ rfl⟩
  simp [AllMeet, ServerAction.Meets, ChannelServer.step, ChannelServer.onRequest, ChannelServer.onPromise,
    ChannelServer.onEventListen, ChannelServer.collectPendingRequest, ChannelServer.registerChannel, PendingRequest.Alive, ServerAction.disposedId]

end TongjiCode.Ipc
