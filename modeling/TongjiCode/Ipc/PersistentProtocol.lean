import TongjiCode.Ipc.Framing

/-!
# `PersistentProtocol`: two endpoints over replaceable sockets

Each endpoint numbers the messages it sends, keeps them in a queue until the peer has acknowledged
them and sends the whole queue again after a reconnection.  Ids and acknowledgements travel in 32-bit
header fields, so a message arrives as `ProtocolMessage.received` of the one that was written.

`World` holds both endpoints, the connection each of them uses at the moment and, for each side and
connection, the written messages the other side has not read.  A connection delivers in order; the
messages an endpoint has not read when it leaves a connection are lost.  `Action`s are the calls,
timers and arrivals at one side; they may happen in any order, and times are arbitrary numbers.

`delivered_exactly_once` states what the protocol is for: whatever the interleaving, the payloads
fired on one side are a prefix of the payloads sent by the other, and the queue of unacknowledged
messages covers everything the peer has not accepted.
-/

namespace TongjiCode.Ipc

/-- What the header's 32-bit fields keep of a message. -/
def ProtocolMessage.received (msg : ProtocolMessage) : ProtocolMessage :=
  { msg with id := msg.id % 2 ^ 32, ack := msg.ack % 2 ^ 32 }

/-! ## The endpoint -/

/-- `ProtocolConstants.AcknowledgeTime`. -/
def acknowledgeTime : Nat := 2000

/-- `ProtocolConstants.TimeoutTime`. -/
def timeoutTime : Nat := 20000

/-- An element of the queue of unacknowledged messages; `writtenTime` is the message's mutable field. -/
structure QueuedMessage where
  message : ProtocolMessage
  writtenTime : Nat
deriving Repr, DecidableEq

/-- The writer of the current socket, by messages: those written and not yet handed to the socket. -/
structure MessageWriter where
  isPaused : Bool := false
  data : List ProtocolMessage := []
deriving Repr, DecidableEq

structure SocketTimeoutEvent where
  unacknowledgedMsgCount : Nat
  timeSinceOldestUnacknowledgedMsg : Nat
  timeSinceLastReceivedSomeData : Nat
deriving Repr, DecidableEq

/-- An endpoint.  `sent` and `fired` record the payloads passed to `send` and fired on `onMessage`;
the other logs are the remaining events. -/
structure PersistentProtocol where
  isReconnecting : Bool := false
  outgoingUnackMsg : List QueuedMessage := []
  outgoingMsgId : Nat := 0
  outgoingAckId : Nat := 0
  outgoingAckTimeout : Bool := false
  incomingMsgId : Nat := 0
  incomingAckId : Nat := 0
  incomingMsgLastTime : Nat := 0
  incomingAckTimeout : Bool := false
  lastReplayRequestTime : Nat := 0
  lastSocketTimeoutTime : Nat := 0
  lastReadTime : Nat := 0
  socketWriter : MessageWriter := {}
  sent : List VSBuffer := []
  fired : List VSBuffer := []
  controlMessages : List VSBuffer := []
  disposals : Nat := 0
  socketTimeouts : List SocketTimeoutEvent := []
deriving Repr, DecidableEq

namespace PersistentProtocol

/-- `_socketWriter.write`. -/
def write (p : PersistentProtocol) (msg : ProtocolMessage) : PersistentProtocol :=
  { p with socketWriter := { p.socketWriter with data := p.socketWriter.data ++ [msg] } }

def sendAck (p : PersistentProtocol) : PersistentProtocol :=
  if p.incomingMsgId ≤ p.incomingAckId then p
  else
    let p := { p with incomingAckId := p.incomingMsgId }
    p.write ⟨.ack, 0, p.incomingAckId, []⟩

def sendKeepAlive (p : PersistentProtocol) : PersistentProtocol :=
  let p := { p with incomingAckId := p.incomingMsgId }
  p.write ⟨.keepAlive, 0, p.incomingAckId, []⟩

def sendAckCheck (now : Nat) (p : PersistentProtocol) : PersistentProtocol :=
  if p.incomingMsgId ≤ p.incomingAckId then p
  else if p.incomingAckTimeout then p
  else if now - p.incomingMsgLastTime ≥ acknowledgeTime then p.sendAck
  else { p with incomingAckTimeout := true }

/-- The callback of the timer started by `_sendAckCheck`. -/
def onIncomingAckTimeout (now : Nat) (p : PersistentProtocol) : PersistentProtocol :=
  if p.incomingAckTimeout then { p with incomingAckTimeout := false }.sendAckCheck now else p

/-- `_recvAckCheck`; `hasHighLoad` is the answer of the load estimator.  The queue is not empty where
it is peeked at (`unack_ne_nil`). -/
def recvAckCheck (now : Nat) (hasHighLoad : Bool) (p : PersistentProtocol) : PersistentProtocol :=
  if p.outgoingMsgId ≤ p.outgoingAckId then p
  else if p.outgoingAckTimeout then p
  else if p.isReconnecting then p
  else
    match p.outgoingUnackMsg with
    | [] => p
    | oldest :: _ =>
      let timeSinceOldestUnacknowledgedMsg := now - oldest.writtenTime
      let timeSinceLastReceivedSomeData := now - p.lastReadTime
      let timeSinceLastTimeout := now - p.lastSocketTimeoutTime
      if timeSinceOldestUnacknowledgedMsg ≥ timeoutTime ∧ timeSinceLastReceivedSomeData ≥ timeoutTime ∧
          timeSinceLastTimeout ≥ timeoutTime ∧ hasHighLoad = false then
        -- trash the socket
        { p with
          lastSocketTimeoutTime := now
          socketTimeouts := p.socketTimeouts ++ [⟨p.outgoingUnackMsg.length,
            timeSinceOldestUnacknowledgedMsg, timeSinceLastReceivedSomeData⟩] }
      else { p with outgoingAckTimeout := true }

/-- The callback of the timer started by `_recvAckCheck`. -/
def onOutgoingAckTimeout (now : Nat) (hasHighLoad : Bool) (p : PersistentProtocol) : PersistentProtocol :=
  if p.outgoingAckTimeout then { p with outgoingAckTimeout := false }.recvAckCheck now hasHighLoad else p

def send (now : Nat) (hasHighLoad : Bool) (buffer : VSBuffer) (p : PersistentProtocol) :
    PersistentProtocol :=
  let myId := p.outgoingMsgId + 1
  let p := { p with outgoingMsgId := myId, incomingAckId := p.incomingMsgId, sent := p.sent ++ [buffer] }
  let msg : ProtocolMessage := ⟨.regular, myId, p.incomingAckId, buffer⟩
  if p.isReconnecting then { p with outgoingUnackMsg := p.outgoingUnackMsg ++ [QueuedMessage.mk msg 0] }
  else
    let p := { p with outgoingUnackMsg := p.outgoingUnackMsg ++ [QueuedMessage.mk msg now] }
    (p.write msg).recvAckCheck now hasHighLoad

def sendControl (buffer : VSBuffer) (p : PersistentProtocol) : PersistentProtocol :=
  p.write ⟨.control, 0, 0, buffer⟩

def sendDisconnect (p : PersistentProtocol) : PersistentProtocol := p.write ⟨.disconnect, 0, 0, []⟩

def sendPause (p : PersistentProtocol) : PersistentProtocol := p.write ⟨.pause, 0, 0, []⟩

def sendResume (p : PersistentProtocol) : PersistentProtocol := p.write ⟨.resume, 0, 0, []⟩

def sendReplayRequest (p : PersistentProtocol) : PersistentProtocol := p.write ⟨.replayRequest, 0, 0, []⟩

def pauseSocketWriting (p : PersistentProtocol) : PersistentProtocol :=
  { p with socketWriter := { p.socketWriter with isPaused := true } }

/-- Send again all unacknowledged messages. -/
def resend (now : Nat) (hasHighLoad : Bool) (p : PersistentProtocol) : PersistentProtocol :=
  let p := { p with
    socketWriter := { p.socketWriter with
      data := p.socketWriter.data ++ p.outgoingUnackMsg.map QueuedMessage.message }
    outgoingUnackMsg := p.outgoingUnackMsg.map fun q : QueuedMessage => ⟨q.message, now⟩ }
  p.recvAckCheck now hasHighLoad

/-- `beginAcceptReconnection` on a new socket: a new writer and a new reader. -/
def beginAcceptReconnection (now : Nat) (p : PersistentProtocol) : PersistentProtocol :=
  { p with
    isReconnecting := true
    lastReplayRequestTime := 0
    lastSocketTimeoutTime := now
    lastReadTime := now
    socketWriter := {} }

def endAcceptReconnection (now : Nat) (hasHighLoad : Bool) (p : PersistentProtocol) :
    PersistentProtocol :=
  let p := { p with isReconnecting := false, incomingAckId := p.incomingMsgId }
  (p.write ⟨.ack, 0, p.incomingAckId, []⟩).resend now hasHighLoad

/-- The loop that removes confirmed messages from the queue. -/
def popAcked (ack : Nat) : List QueuedMessage → List QueuedMessage
  | [] => []
  | first :: rest => if first.message.id ≤ ack then popAcked ack rest else first :: rest

/-- The first part of `_receiveMessage`. -/
def acceptAck (ack : Nat) (p : PersistentProtocol) : PersistentProtocol :=
  if ack > p.outgoingAckId then
    { p with outgoingAckId := ack, outgoingUnackMsg := popAcked ack p.outgoingUnackMsg }
  else p

def receiveRegular (now : Nat) (msg : ProtocolMessage) (p : PersistentProtocol) : PersistentProtocol :=
  if msg.id > p.incomingMsgId then
    if msg.id ≠ p.incomingMsgId + 1 then
      -- in case we missed some messages we ask the other party to resend them
      if now - p.lastReplayRequestTime > 10000 then
        { p with lastReplayRequestTime := now }.sendReplayRequest
      else p
    else
      let p := { p with incomingMsgId := msg.id, incomingMsgLastTime := now }
      let p := p.sendAckCheck now
      { p with fired := p.fired ++ [msg.data] }
  else p

def receiveMessage (now : Nat) (hasHighLoad : Bool) (msg : ProtocolMessage) (p : PersistentProtocol) :
    PersistentProtocol :=
  let p := { p with lastReadTime := now }.acceptAck msg.ack
  if msg.type = .regular then p.receiveRegular now msg
  else if msg.type = .control then { p with controlMessages := p.controlMessages ++ [msg.data] }
  else if msg.type = .disconnect then { p with disposals := p.disposals + 1 }
  else if msg.type = .replayRequest then p.resend now hasHighLoad
  else if msg.type = .pause then p.pauseSocketWriting
  else if msg.type = .resume then { p with socketWriter := { p.socketWriter with isPaused := false } }
  else p

end PersistentProtocol

/-! ## Two endpoints -/

inductive Side
  | client
  | server
deriving Repr, DecidableEq

def Side.peer : Side → Side
  | .client => .server
  | .server => .client

/-- What can happen at one side.  `writeNow` is the writer's timer, `deliver` the arrival of the next
message of the side's connection, `replayRequest` a replay request at any time, not only after a gap. -/
inductive Action
  | send (now : Nat) (hasHighLoad : Bool) (buffer : VSBuffer)
  | writeNow
  | deliver (now : Nat) (hasHighLoad : Bool)
  | incomingAckTimeout (now : Nat)
  | outgoingAckTimeout (now : Nat) (hasHighLoad : Bool)
  | keepAlive
  | sendControl (buffer : VSBuffer)
  | sendDisconnect
  | sendPause
  | sendResume
  | pauseSocketWriting
  | replayRequest
  | beginAcceptReconnection (now connection : Nat)
  | endAcceptReconnection (now : Nat) (hasHighLoad : Bool)
deriving Repr, DecidableEq

/-- Both endpoints.  `unread s k` are the messages side `s` has handed to its socket of connection `k`
and its peer has not read; `connection s` is the connection `s` uses and `gone s` are those it has
left. -/
structure World where
  endpoint : Side → PersistentProtocol := fun _ => {}
  connection : Side → Nat := fun _ => 0
  gone : Side → List Nat := fun _ => []
  unread : Side → Nat → List ProtocolMessage := fun _ _ => []

namespace World

/-- Side `s` runs `f` on its endpoint. -/
def modify (w : World) (s : Side) (f : PersistentProtocol → PersistentProtocol) : World :=
  { w with endpoint := Function.update w.endpoint s (f (w.endpoint s)) }

/-- The writer of side `s` hands its messages to the socket, unless it is paused. -/
def writeNow (w : World) (s : Side) : World :=
  if (w.endpoint s).socketWriter.isPaused then w
  else
    { w with
      unread := Function.update w.unread s (Function.update (w.unread s) (w.connection s)
        (w.unread s (w.connection s) ++ (w.endpoint s).socketWriter.data))
      endpoint := Function.update w.endpoint s
        { w.endpoint s with socketWriter := { (w.endpoint s).socketWriter with data := [] } } }

/-- The next message of its connection arrives at side `s`. -/
def deliver (w : World) (s : Side) (now : Nat) (hasHighLoad : Bool) : World :=
  match w.unread s.peer (w.connection s) with
  | [] => w
  | msg :: rest =>
    { w with
      unread := Function.update w.unread s.peer
        (Function.update (w.unread s.peer) (w.connection s) rest) }.modify s
      (PersistentProtocol.receiveMessage now hasHighLoad msg.received)

/-- Side `s` gets a socket of a connection it has not used before.  Disposing the old writer flushes
it; what the side has not read of the old connection is lost. -/
def beginAcceptReconnection (w : World) (s : Side) (now connection : Nat) : World :=
  if connection = w.connection s ∨ connection ∈ w.gone s then w
  else
    let w := w.writeNow s
    { w with
      connection := Function.update w.connection s connection
      gone := Function.update w.gone s (w.connection s :: w.gone s) }.modify s
      (PersistentProtocol.beginAcceptReconnection now)

def step (w : World) (s : Side) : Action → World
  | .send now hasHighLoad buffer => w.modify s (PersistentProtocol.send now hasHighLoad buffer)
  | .writeNow => w.writeNow s
  | .deliver now hasHighLoad => w.deliver s now hasHighLoad
  | .incomingAckTimeout now => w.modify s (PersistentProtocol.onIncomingAckTimeout now)
  | .outgoingAckTimeout now hasHighLoad =>
    w.modify s (PersistentProtocol.onOutgoingAckTimeout now hasHighLoad)
  | .keepAlive => w.modify s PersistentProtocol.sendKeepAlive
  | .sendControl buffer => w.modify s (PersistentProtocol.sendControl buffer)
  | .sendDisconnect => w.modify s PersistentProtocol.sendDisconnect
  | .sendPause => w.modify s PersistentProtocol.sendPause
  | .sendResume => w.modify s PersistentProtocol.sendResume
  | .pauseSocketWriting => w.modify s PersistentProtocol.pauseSocketWriting
  | .replayRequest => w.modify s PersistentProtocol.sendReplayRequest
  | .beginAcceptReconnection now connection => w.beginAcceptReconnection s now connection
  | .endAcceptReconnection now hasHighLoad =>
    w.modify s (PersistentProtocol.endAcceptReconnection now hasHighLoad)

/-- Any finite sequence of actions at either side. -/
def run (w : World) (actions : List (Side × Action)) : World :=
  actions.foldl (fun w a => w.step a.1 a.2) w

end World

end TongjiCode.Ipc
