import TongjiCode.Ipc.ChunkStream

/-!
# Message framing: `ProtocolWriter` and `ProtocolReader`

A `ProtocolMessage` travels as a 13-byte header (type, id, ack, data length; the numbers big endian)
followed by its data.  `ProtocolWriter` collects headers and bodies and hands them to the socket in
one buffer (`_writeNow`); `ProtocolReader.acceptChunk` is a two-state machine over a `ChunkStream`
that alternates between reading a header and reading a body.

* `run_output`: whatever the timers, pauses and flushes do, the bytes handed to the socket followed by
  the bytes still collected are the encodings of the accepted messages, in order.
* `acceptChunks_parsed`: for *any* bytes in any chunks, the reader's emitted messages, the header it
  has already consumed and its leftover bytes spell out exactly the bytes received.
-/

open List

namespace TongjiCode.Ipc

/-! ## Messages -/

/-- The numbers of `ProtocolMessageType`; on the wire any byte may stand in their place. -/
abbrev ProtocolMessageType := UInt8

namespace ProtocolMessageType

def none : ProtocolMessageType := 0
def regular : ProtocolMessageType := 1
def control : ProtocolMessageType := 2
def ack : ProtocolMessageType := 3
def disconnect : ProtocolMessageType := 5
def replayRequest : ProtocolMessageType := 6
def pause : ProtocolMessageType := 7
def resume : ProtocolMessageType := 8
def keepAlive : ProtocolMessageType := 9

end ProtocolMessageType

/-- `ProtocolConstants.HeaderLength`. -/
def headerLength : Nat := 13

structure ProtocolMessage where
  type : ProtocolMessageType
  id : Nat
  ack : Nat
  data : VSBuffer
deriving Repr, DecidableEq

namespace ProtocolMessage

/-- The numbers of the header fit in 32 bits. -/
def InRange (msg : ProtocolMessage) : Prop :=
  msg.id < 2 ^ 32 ∧ msg.ack < 2 ^ 32 ∧ msg.data.length < 2 ^ 32

instance (msg : ProtocolMessage) : Decidable msg.InRange := by
  unfold InRange; infer_instance

/-- The header `ProtocolWriter.write` fills in. -/
def header (msg : ProtocolMessage) : VSBuffer :=
  let header : VSBuffer := List.replicate headerLength 0
  let header := writeUInt8 header msg.type 0
  let header := writeUInt32BE header msg.id 1
  let header := writeUInt32BE header msg.ack 5
  writeUInt32BE header msg.data.length 9

def encode (msg : ProtocolMessage) : VSBuffer := msg.header ++ msg.data

end ProtocolMessage

def encodeAll (msgs : List ProtocolMessage) : VSBuffer := (msgs.map ProtocolMessage.encode).flatten

/-! ## `ProtocolWriter` -/

/-- `VSBuffer.concat`: a buffer of `totalLength` bytes into which the buffers are copied one after the
other. -/
def concat (buffers : List VSBuffer) (totalLength : Nat) : VSBuffer :=
  buffers.flatten.take totalLength ++ List.replicate (totalLength - buffers.flatten.length) 0

/-- The writer; `socket` are the buffers passed to `socket.write` so far and `writeNowTimeout` says
whether the timer of `_scheduleWriting` is running. -/
structure ProtocolWriter where
  isDisposed : Bool := false
  isPaused : Bool := false
  data : List VSBuffer := []
  totalLength : Nat := 0
  writeNowTimeout : Bool := false
  socket : List VSBuffer := []
deriving Repr, DecidableEq

namespace ProtocolWriter

/-- `_bufferAdd`: whether the buffer was empty, and the writer with both buffers collected. -/
def bufferAdd (w : ProtocolWriter) (head body : VSBuffer) : Bool × ProtocolWriter :=
  let wasEmpty := w.totalLength == 0
  (wasEmpty, { w with data := w.data ++ [head, body], totalLength := w.totalLength + (head.length + body.length) })

def bufferTake (w : ProtocolWriter) : VSBuffer × ProtocolWriter :=
  (concat w.data w.totalLength, { w with data := [], totalLength := 0 })

def writeNow (w : ProtocolWriter) : ProtocolWriter :=
  if w.totalLength = 0 then w
  else if w.isPaused then w
  else
    let (data, w) := w.bufferTake
    { w with socket := w.socket ++ [data] }

/-- `_scheduleWriting`: start the timer unless it is running. -/
def scheduleWriting (w : ProtocolWriter) : ProtocolWriter := { w with writeNowTimeout := true }

def onWriteNowTimeout (w : ProtocolWriter) : ProtocolWriter :=
  if w.writeNowTimeout then { w with writeNowTimeout := false }.writeNow else w

def writeSoon (w : ProtocolWriter) (header data : VSBuffer) : ProtocolWriter :=
  let (wasEmpty, w) := w.bufferAdd header data
  if wasEmpty then w.scheduleWriting else w

def write (w : ProtocolWriter) (msg : ProtocolMessage) : ProtocolWriter :=
  -- ignore: there could be left-over promises which complete and then decide to write a response
  if w.isDisposed then w else w.writeSoon msg.header msg.data

def flush (w : ProtocolWriter) : ProtocolWriter := w.writeNow

def pause (w : ProtocolWriter) : ProtocolWriter := { w with isPaused := true }

def resume (w : ProtocolWriter) : ProtocolWriter := { w with isPaused := false }.scheduleWriting

def dispose (w : ProtocolWriter) : ProtocolWriter := { w.flush with isDisposed := true }

/-- What can happen to a writer: calls from its protocol and its own timer. -/
inductive Call
  | write (msg : ProtocolMessage)
  | writeNowTimeout
  | flush
  | pause
  | resume
  | dispose
deriving Repr, DecidableEq

def step (w : ProtocolWriter) : Call → ProtocolWriter
  | .write msg => w.write msg
  | .writeNowTimeout => w.onWriteNowTimeout
  | .flush => w.flush
  | .pause => w.pause
  | .resume => w.resume
  | .dispose => w.dispose

def run (w : ProtocolWriter) (calls : List Call) : ProtocolWriter := calls.foldl step w

/-- The messages written before the writer is disposed. -/
def accepted : List Call → List ProtocolMessage
  | [] => []
  | .write msg :: calls => msg :: accepted calls
  | .dispose :: _ => []
  | _ :: calls => accepted calls

def output (w : ProtocolWriter) : VSBuffer := w.socket.flatten

/-- Bytes collected but not yet handed to the socket. -/
def pending (w : ProtocolWriter) : VSBuffer := w.data.flatten

def Counted (w : ProtocolWriter) : Prop := w.totalLength = w.pending.length

end ProtocolWriter

/-! ## `ProtocolReader` -/

structure ReaderState where
  readHead : Bool := true
  readLen : Nat := headerLength
  messageType : ProtocolMessageType := ProtocolMessageType.none
  id : Nat := 0
  ack : Nat := 0
deriving Repr, DecidableEq

structure ProtocolReader where
  isDisposed : Bool := false
  incomingData : ChunkStream := ChunkStream.empty
  state : ReaderState := {}
deriving Repr, DecidableEq

namespace ProtocolReader

/-- One turn of the loop of `acceptChunk`: the reader afterwards and the message it fires, if the
turn read a body.  `none` is an exception. -/
def turn (r : ProtocolReader) : Option (ProtocolReader × Option ProtocolMessage) :=
  match r.incomingData.read r.state.readLen with
  | none => none
  | some (buff, incomingData) =>
    if r.state.readHead then
      -- buff is the header; next time will read the body
      some ({ r with
        incomingData
        state := {
          readHead := false
          readLen := readUInt32BE buff 9
          messageType := readUInt8 buff 0
          id := readUInt32BE buff 1
          ack := readUInt32BE buff 5 } }, none)
    else
      -- buff is the body; next time will read the header
      some ({ r with incomingData, state := {} },
        some ⟨r.state.messageType, r.state.id, r.state.ack, buff⟩)

/-- The loop of `acceptChunk`.  `disposes msg` says whether a listener of `onMessage` disposes the
reader on `msg`. -/
def loop (disposes : ProtocolMessage → Bool) :
    Nat → ProtocolReader → Option (ProtocolReader × List ProtocolMessage)
  | 0, r => some (r, [])
  | fuel + 1, r =>
    if r.incomingData.byteLength ≥ r.state.readLen then
      match r.turn with
      | none => none
      | some (r, none) => loop disposes fuel r
      | some (r, some msg) =>
        if disposes msg then some ({ r with isDisposed := true }, [msg])
        else (loop disposes fuel r).map fun (r, msgs) => (r, msg :: msgs)
    else some (r, [])

/-- Turns that are always enough: a header turn consumes bytes and a body turn follows a header turn. -/
def loopFuel (r : ProtocolReader) : Nat := 2 * r.incomingData.byteLength + 2

def acceptChunk (disposes : ProtocolMessage → Bool) (r : ProtocolReader) (data : Option VSBuffer) :
    Option (ProtocolReader × List ProtocolMessage) :=
  match data with
  | none => some (r, [])
  | some data =>
    if data.length = 0 then some (r, [])
    else
      let r := { r with incomingData := r.incomingData.acceptChunk data }
      loop disposes r.loopFuel r

/-- Chunks handed to `acceptChunk` one after the other, no listener disposing the reader. -/
def acceptChunks (r : ProtocolReader) : List VSBuffer → Option (ProtocolReader × List ProtocolMessage)
  | [] => some (r, [])
  | chunk :: chunks =>
    match acceptChunk (fun _ => false) r (some chunk) with
    | none => none
    | some (r, msgs) => (acceptChunks r chunks).map fun (r, msgs') => (r, msgs ++ msgs')

/-- The bytes `readEntireBuffer` would return. -/
def leftover (r : ProtocolReader) : VSBuffer := r.incomingData.bytes

/-- The header bytes of the message under way that the reader has consumed into its state. -/
def consumedHeader (r : ProtocolReader) : VSBuffer :=
  if r.state.readHead then []
  else [r.state.messageType] ++ bytesBE r.state.id ++ bytesBE r.state.ack ++ bytesBE r.state.readLen

/-- The reader's bookkeeping: a header turn reads `headerLength` bytes, numbers read from a header fit
in 32 bits and the stream's count is right. -/
structure Valid (r : ProtocolReader) : Prop where
  counted : r.incomingData.Counted
  head : r.state.readHead = true → r.state.readLen = headerLength
  body : r.state.readHead = false → r.state.id < 2 ^ 32 ∧ r.state.ack < 2 ^ 32 ∧ r.state.readLen < 2 ^ 32

end ProtocolReader

/-! ## Lemmas: the header -/

variable (b : VSBuffer)

theorem bytesBE_readUInt32BE (offset : Nat) :
    bytesBE (readUInt32BE b offset) =
      [b.getD offset 0, b.getD (offset + 1) 0, b.getD (offset + 2) 0, b.getD (offset + 3) 0] := by
  have h0 := (b.getD offset 0).toNat_lt
  have h1 := (b.getD (offset + 1) 0).toNat_lt
  have h2 := (b.getD (offset + 2) 0).toNat_lt
  have h3 := (b.getD (offset + 3) 0).toNat_lt
  simp only [bytesBE, readUInt32BE, ushr8, List.cons.injEq, and_true]
  refine ⟨?_, ?_, ?_, ?_⟩ <;>
    (apply UInt8.toNat_inj.mp; simp only [Nat.toUInt8, UInt8.toNat_ofNat']; omega)

theorem readUInt32BE_lt (offset : Nat) : readUInt32BE b offset < 2 ^ 32 := by
  have h0 := (b.getD offset 0).toNat_lt
  have h1 := (b.getD (offset + 1) 0).toNat_lt
  have h2 := (b.getD (offset + 2) 0).toNat_lt
  have h3 := (b.getD (offset + 3) 0).toNat_lt
  unfold readUInt32BE
  omega

variable (msg : ProtocolMessage)

theorem header_eq :
    msg.header = [msg.type] ++ bytesBE msg.id ++ bytesBE msg.ack ++ bytesBE msg.data.length := rfl

theorem header_length : msg.header.length = headerLength := rfl

theorem header_of_reads (h : b.length = headerLength) :
    [readUInt8 b 0] ++ bytesBE (readUInt32BE b 1) ++ bytesBE (readUInt32BE b 5) ++
      bytesBE (readUInt32BE b 9) = b := by
  rw [bytesBE_readUInt32BE, bytesBE_readUInt32BE, bytesBE_readUInt32BE]
  obtain _ | ⟨b0, _ | ⟨b1, _ | ⟨b2, _ | ⟨b3, _ | ⟨b4, _ | ⟨b5, _ | ⟨b6, _ | ⟨b7, _ | ⟨b8, _ | ⟨b9, _ |
    ⟨b10, _ | ⟨b11, _ | ⟨b12, _ | ⟨b13, t⟩⟩⟩⟩⟩⟩⟩⟩⟩⟩⟩⟩⟩⟩ := b <;> simp [headerLength] at h
  rfl

theorem bytesBE_injective {m n : Nat} (hm : m < 2 ^ 32) (hn : n < 2 ^ 32) (h : bytesBE m = bytesBE n) :
    m = n := by
  have h1 := readUInt32BE_bytesBE m [] []
  have h2 := readUInt32BE_bytesBE n [] []
  rw [h, h2] at h1
  omega

theorem header_parts {t t' : UInt8} {i i' a a' l l' : Nat}
    (hi : i < 2 ^ 32) (hi' : i' < 2 ^ 32) (ha : a < 2 ^ 32) (ha' : a' < 2 ^ 32)
    (hl : l < 2 ^ 32) (hl' : l' < 2 ^ 32)
    (h : [t] ++ bytesBE i ++ bytesBE a ++ bytesBE l = [t'] ++ bytesBE i' ++ bytesBE a' ++ bytesBE l') :
    t = t' ∧ i = i' ∧ a = a' ∧ l = l' := by
  obtain ⟨h, h3⟩ := append_inj' h rfl
  obtain ⟨h, h2⟩ := append_inj' h rfl
  obtain ⟨ht, h1⟩ := append_inj' h rfl
  exact ⟨singleton_inj.mp ht, bytesBE_injective hi hi' h1, bytesBE_injective ha ha' h2, bytesBE_injective hl hl' h3⟩

theorem encode_prefix_free {m m' : ProtocolMessage} {x y : VSBuffer} (hm : m.InRange)
    (hm' : m'.InRange) (h : m.encode ++ x = m'.encode ++ y) : m = m' ∧ x = y := by
  simp only [ProtocolMessage.encode, append_assoc] at h
  obtain ⟨hh, h⟩ := append_inj h (by rw [header_length, header_length])
  rw [header_eq, header_eq] at hh
  obtain ⟨ht, hi, ha, hl⟩ := header_parts hm.1 hm'.1 hm.2.1 hm'.2.1 hm.2.2 hm'.2.2 hh
  obtain ⟨hd, hxy⟩ := append_inj h hl
  cases m
  cases m'
  subst ht hi ha hd
  exact ⟨rfl, hxy⟩

theorem encode_length : msg.encode.length = headerLength + msg.data.length := by
  rw [ProtocolMessage.encode, length_append, header_length]

theorem encodeAll_append (l l' : List ProtocolMessage) : encodeAll (l ++ l') = encodeAll l ++ encodeAll l' := by
  simp [encodeAll]

theorem encodeAll_cons (m : ProtocolMessage) (l : List ProtocolMessage) :
    encodeAll (m :: l) = m.encode ++ encodeAll l := by
  simp [encodeAll]

/-- Messages whose encodings start a stream of messages are the first messages of the stream. -/
theorem encodeAll_prefix (fired : List ProtocolMessage) :
    ∀ (msgs : List ProtocolMessage) (z : VSBuffer), (∀ m ∈ fired, m.InRange) → (∀ m ∈ msgs, m.InRange) →
      encodeAll fired ++ z = encodeAll msgs → ∃ todo, msgs = fired ++ todo ∧ z = encodeAll todo := by
  induction fired with
  | nil =>
    intro msgs z _ _ h
    exact ⟨msgs, rfl, h⟩
  | cons f fired ih =>
    intro msgs z hf hm h
    cases msgs with
    | nil =>
      have := congrArg List.length h
      rw [encodeAll_cons] at this
      simp only [length_append, encode_length, headerLength, encodeAll, map_nil,
        flatten_nil, length_nil] at this
      omega
    | cons m msgs =>
      rw [encodeAll_cons, encodeAll_cons, append_assoc] at h
      obtain ⟨rfl, hrest⟩ := encode_prefix_free (hf f (by simp)) (hm m (by simp)) h
      obtain ⟨todo, rfl, hz⟩ := ih msgs z (fun x hx => hf x (by simp [hx]))
        (fun x hx => hm x (by simp [hx])) hrest
      exact ⟨todo, rfl, hz⟩

/-! ## Lemmas: the writer -/

namespace ProtocolWriter

theorem concat_eq (buffers : List VSBuffer) (n : Nat) (h : n = buffers.flatten.length) :
    concat buffers n = buffers.flatten := by
  rw [concat, h, take_length, Nat.sub_self, replicate_zero, append_nil]

variable (w : ProtocolWriter)

theorem writeNow_spec (h : w.Counted) :
    w.writeNow.output ++ w.writeNow.pending = w.output ++ w.pending ∧ w.writeNow.Counted ∧
      w.writeNow.isDisposed = w.isDisposed := by
  unfold writeNow
  split
  · exact ⟨rfl, h, rfl⟩
  · split
    · exact ⟨rfl, h, rfl⟩
    · refine ⟨?_, rfl, rfl⟩
      simp only [bufferTake, output, pending, concat_eq _ _ h, flatten_append, flatten_cons,
        flatten_nil, append_nil]

theorem write_spec (msg : ProtocolMessage) (h : w.Counted) (hd : w.isDisposed = false) :
    (w.write msg).output ++ (w.write msg).pending = w.output ++ w.pending ++ msg.encode ∧
      (w.write msg).Counted ∧ (w.write msg).isDisposed = false := by
  have hcount : (w.bufferAdd msg.header msg.data).2.Counted := by
    simp only [Counted, pending] at h
    simp only [bufferAdd, Counted, pending, flatten_append, flatten_cons, flatten_nil,
      length_append, append_nil, h]
  have hbytes : (w.bufferAdd msg.header msg.data).2.output ++ (w.bufferAdd msg.header msg.data).2.pending =
      w.output ++ w.pending ++ msg.encode := by
    simp [bufferAdd, output, pending, ProtocolMessage.encode]
  unfold write writeSoon
  rw [if_neg (by simp [hd])]
  dsimp only
  split
  · exact ⟨hbytes, hcount, hd⟩
  · exact ⟨hbytes, hcount, hd⟩

/-- A disposed writer accepts nothing more; its bytes only move to the socket. -/
theorem step_disposed (c : Call) (h : w.Counted) (hd : w.isDisposed = true) :
    (w.step c).output ++ (w.step c).pending = w.output ++ w.pending ∧ (w.step c).Counted ∧
      (w.step c).isDisposed = true := by
  cases c with
  | write msg => simp [step, write, hd, h]
  | writeNowTimeout =>
    simp only [step, onWriteNowTimeout]
    split
    · obtain ⟨h1, h2, h3⟩ := writeNow_spec { w with writeNowTimeout := false } h
      exact ⟨h1, h2, h3.trans hd⟩
    · exact ⟨rfl, h, hd⟩
  | flush =>
    obtain ⟨h1, h2, h3⟩ := writeNow_spec w h
    exact ⟨h1, h2, h3.trans hd⟩
  | pause => exact ⟨rfl, h, hd⟩
  | resume => exact ⟨rfl, h, hd⟩
  | dispose =>
    obtain ⟨h1, h2, h3⟩ := writeNow_spec w h
    exact ⟨h1, h2, rfl⟩

theorem run_disposed (calls : List Call) : ∀ w : ProtocolWriter, w.Counted → w.isDisposed = true →
    (w.run calls).output ++ (w.run calls).pending = w.output ++ w.pending := by
  induction calls with
  | nil => intro w _ _; rfl
  | cons c calls ih =>
    intro w h hd
    obtain ⟨h1, h2, h3⟩ := step_disposed w c h hd
    exact (ih (w.step c) h2 h3).trans h1

/-- Whatever happens to a writer, the bytes handed to the socket followed by the bytes still collected
are the encodings of the accepted messages, in order. -/
theorem run_output (calls : List Call) : ∀ w : ProtocolWriter, w.Counted → w.isDisposed = false →
    (w.run calls).output ++ (w.run calls).pending =
      w.output ++ w.pending ++ encodeAll (accepted calls) := by
  induction calls with
  | nil => intro w _ _; simp [run, accepted, encodeAll]
  | cons c calls ih =>
    intro w h hd
    have hstep : (w.run (c :: calls)) = (w.step c).run calls := rfl
    rw [hstep]
    cases c with
    | write msg =>
      obtain ⟨h1, h2, h3⟩ := write_spec w msg h hd
      simp only [step, accepted]
      rw [ih _ h2 h3, encodeAll_cons, h1, append_assoc]
    | writeNowTimeout =>
      simp only [step, onWriteNowTimeout, accepted]
      split
      · obtain ⟨h1, h2, h3⟩ := writeNow_spec { w with writeNowTimeout := false } h
        rw [ih _ h2 (h3.trans hd), h1]
        rfl
      · exact ih w h hd
    | flush =>
      obtain ⟨h1, h2, h3⟩ := writeNow_spec w h
      simp only [step, flush, accepted]
      rw [ih _ h2 (h3.trans hd), h1]
    | pause => exact ih _ h hd
    | resume => exact ih _ h hd
    | dispose =>
      obtain ⟨h1, h2, h3⟩ := writeNow_spec w h
      have hrest := run_disposed calls w.dispose h2 rfl
      simp only [step, accepted]
      rw [hrest, show encodeAll [] = [] from rfl, append_nil]
      exact h1

end ProtocolWriter

/-! ## Lemmas: the reader -/

namespace ProtocolReader

/-- All bytes of the message under way that have arrived. -/
def pendingBytes (r : ProtocolReader) : VSBuffer := r.consumedHeader ++ r.leftover

/-- Bounds the turns the loop can still take. -/
def turnsLeft (r : ProtocolReader) : Nat := 2 * r.leftover.length + (if r.state.readHead then 0 else 1)

theorem valid_new : ({} : ProtocolReader).Valid where
  counted := rfl
  head := fun _ => rfl
  body := fun h => by simp at h

variable (r : ProtocolReader)

/-- A turn loses and invents no byte: what it fires, the consumed header and the leftover bytes spell
out the bytes that were pending. -/
theorem turn_spec (hv : r.Valid) (hlen : r.state.readLen ≤ r.leftover.length) :
    ∃ r' out, r.turn = some (r', out) ∧ r'.Valid ∧ r'.turnsLeft < r.turnsLeft ∧
      (∀ m ∈ out, m.InRange) ∧ encodeAll out.toList ++ r'.pendingBytes = r.pendingBytes := by
  obtain ⟨s', hread, hbytes, hcount⟩ := r.incomingData.read_spec r.state.readLen hv.counted hlen
  have hsplit := take_append_drop r.state.readLen r.incomingData.bytes
  unfold turn
  rw [hread]
  cases hhead : r.state.readHead with
  | true =>
    have hl : r.state.readLen = 13 := hv.head hhead
    simp only [leftover, hl] at hlen
    refine ⟨_, none, rfl, ⟨hcount, fun h => by simp at h, fun _ => ?_⟩, ?_, by simp, ?_⟩
    · exact ⟨readUInt32BE_lt _ _, readUInt32BE_lt _ _, readUInt32BE_lt _ _⟩
    · simp only [turnsLeft, leftover, hbytes, hl, hhead, length_drop, if_true]
      simp only [Bool.false_eq_true, if_false]
      omega
    · have hb := header_of_reads (r.incomingData.bytes.take r.state.readLen)
        (by simp [hl, headerLength]; omega)
      simp only [pendingBytes, consumedHeader, leftover, hhead, if_true, Option.toList_none, encodeAll,
        map_nil, flatten_nil, nil_append, Bool.false_eq_true, if_false]
      rw [hb, hbytes, hsplit]
  | false =>
    obtain ⟨hi, ha, hl⟩ := hv.body hhead
    simp only [leftover] at hlen
    refine ⟨_, _, rfl, ⟨hcount, fun _ => rfl, fun h => by simp at h⟩, ?_, ?_, ?_⟩
    · simp only [turnsLeft, leftover, hbytes, hhead, length_drop, if_true]
      simp only [Bool.false_eq_true, if_false]
      omega
    · intro m hm
      rw [Option.mem_some_iff] at hm
      subst hm
      refine ⟨hi, ha, ?_⟩
      simp only [length_take]
      omega
    · simp only [pendingBytes, consumedHeader, leftover, hhead, if_true, Option.toList_some, encodeAll,
        map_cons, map_nil, flatten_cons, flatten_nil, append_nil,
        Bool.false_eq_true, if_false, ProtocolMessage.encode, header_eq, length_take, nil_append]
      rw [hbytes, Nat.min_eq_left hlen, append_assoc, hsplit]

/-- The loop, by induction on the turns: it stops because the bytes of the next part are missing. -/
theorem loop_spec (fuel : Nat) : ∀ r : ProtocolReader, r.Valid → r.turnsLeft < fuel →
    ∃ r' msgs, loop (fun _ => false) fuel r = some (r', msgs) ∧ r'.Valid ∧
      r'.leftover.length < r'.state.readLen ∧ (∀ m ∈ msgs, m.InRange) ∧
      encodeAll msgs ++ r'.pendingBytes = r.pendingBytes := by
  induction fuel with
  | zero => intro r _ h; omega
  | succ fuel ih =>
    intro r hv hfuel
    have hcount : r.incomingData.byteLength = r.leftover.length := hv.counted
    unfold loop
    by_cases hlen : r.incomingData.byteLength ≥ r.state.readLen
    · rw [if_pos hlen]
      obtain ⟨r1, out, hturn, hv1, hless, hrange, hb1⟩ := turn_spec r hv (by omega)
      obtain ⟨r', msgs, hloop, hv', hexit, hms, hb'⟩ := ih r1 hv1 (by omega)
      rw [hturn]
      cases out with
      | none =>
        refine ⟨r', msgs, hloop, hv', hexit, hms, ?_⟩
        rw [hb', ← hb1]
        rfl
      | some m =>
        refine ⟨r', m :: msgs, by simp [hloop], hv', hexit, ?_, ?_⟩
        · intro x hx
          rcases mem_cons.mp hx with rfl | hx
          · exact hrange x rfl
          · exact hms x hx
        · rw [encodeAll_cons, append_assoc, hb', ← hb1]
          simp [encodeAll]
    · rw [if_neg hlen]
      exact ⟨r, [], rfl, hv, by omega, by simp, rfl⟩

theorem acceptChunk_spec (chunk : VSBuffer) (hv : r.Valid) (hexit : r.leftover.length < r.state.readLen) :
    ∃ r' msgs, acceptChunk (fun _ => false) r (some chunk) = some (r', msgs) ∧ r'.Valid ∧
      r'.leftover.length < r'.state.readLen ∧ (∀ m ∈ msgs, m.InRange) ∧
      encodeAll msgs ++ r'.pendingBytes = r.pendingBytes ++ chunk := by
  unfold acceptChunk
  dsimp only
  by_cases h0 : chunk.length = 0
  · rw [if_pos h0]
    rw [length_eq_zero_iff] at h0
    exact ⟨r, [], rfl, hv, hexit, by simp, by simp [encodeAll, h0]⟩
  · rw [if_neg h0]
    have hv1 : ({ r with incomingData := r.incomingData.acceptChunk chunk } : ProtocolReader).Valid :=
      ⟨ChunkStream.counted_acceptChunk chunk hv.counted, hv.head, hv.body⟩
    have hfuel : turnsLeft { r with incomingData := r.incomingData.acceptChunk chunk } <
        loopFuel { r with incomingData := r.incomingData.acceptChunk chunk } := by
      have := hv1.counted
      simp only [turnsLeft, loopFuel, leftover, ChunkStream.byteLength, ChunkStream.Counted] at *
      split <;> omega
    obtain ⟨r', msgs, hloop, hv', hexit', hms, hb⟩ := loop_spec _ _ hv1 hfuel
    refine ⟨r', msgs, hloop, hv', hexit', hms, ?_⟩
    rw [hb]
    simp [pendingBytes, consumedHeader, leftover, ChunkStream.bytes_acceptChunk]

/-- For any bytes in any chunks, the emitted messages, the consumed header and the leftover bytes
spell out exactly what was received, and the leftover bytes are too few for the next part. -/
theorem acceptChunks_parsed (chunks : List VSBuffer) : ∀ r : ProtocolReader, r.Valid →
    r.leftover.length < r.state.readLen →
    ∃ r' msgs, acceptChunks r chunks = some (r', msgs) ∧ r'.Valid ∧
      r'.leftover.length < r'.state.readLen ∧ (∀ m ∈ msgs, m.InRange) ∧
      encodeAll msgs ++ r'.pendingBytes = r.pendingBytes ++ chunks.flatten := by
  induction chunks with
  | nil =>
    intro r hv hexit
    exact ⟨r, [], rfl, hv, hexit, by simp, by simp [encodeAll]⟩
  | cons chunk chunks ih =>
    intro r hv hexit
    obtain ⟨r1, msgs1, h1, hv1, hexit1, hms1, hb1⟩ := acceptChunk_spec r chunk hv hexit
    obtain ⟨r', msgs, h', hv', hexit', hms, hb⟩ := ih r1 hv1 hexit1
    refine ⟨r', msgs1 ++ msgs, by simp [acceptChunks, h1, h'], hv', hexit', ?_, ?_⟩
    · intro m hm
      rcases mem_append.mp hm with hm | hm
      · exact hms1 m hm
      · exact hms m hm
    · rw [encodeAll_append, append_assoc, hb, ← append_assoc, hb1, flatten_cons,
        append_assoc]

/-- Bytes pending in a reader that start the encoding of `m` are a proper part of it. -/
theorem pendingBytes_incomplete (m : ProtocolMessage) (y z : VSBuffer) (hv : r.Valid) (hm : m.InRange)
    (hexit : r.leftover.length < r.state.readLen) (h : r.pendingBytes ++ z = m.encode ++ y) :
    ∃ missing, missing ≠ [] ∧ m.encode = r.pendingBytes ++ missing := by
  have hlt : r.pendingBytes.length < m.encode.length := by
    rw [encode_length]
    cases hhead : r.state.readHead with
    | true =>
      have := hv.head hhead
      simp only [pendingBytes, consumedHeader, hhead, if_true, nil_append]
      omega
    | false =>
      obtain ⟨hi, ha, hl⟩ := hv.body hhead
      simp only [pendingBytes, consumedHeader, hhead, Bool.false_eq_true, if_false,
        ProtocolMessage.encode, header_eq] at h ⊢
      rw [append_assoc, append_assoc (_ ++ _ ++ _ ++ bytesBE m.data.length)] at h
      obtain ⟨hh, -⟩ := append_inj h rfl
      obtain ⟨-, -, -, hlen⟩ := header_parts hi hm.1 ha hm.2.1 hl hm.2.2 hh
      simp only [length_append, bytesBE_length, length_singleton, headerLength]
      omega
  have htake := congrArg (List.take r.pendingBytes.length) h
  rw [take_left, take_append_of_le_length (Nat.le_of_lt hlt)] at htake
  refine ⟨m.encode.drop r.pendingBytes.length, ?_, ?_⟩
  · intro hnil
    have := congrArg List.length hnil
    rw [length_drop, length_nil] at this
    omega
  · conv_lhs => rw [← take_append_drop r.pendingBytes.length m.encode, ← htake]

theorem consumedHeader_eq (m : ProtocolMessage) (z : VSBuffer) (h : m.encode = r.pendingBytes ++ z) :
    r.consumedHeader = if r.state.readHead then [] else m.header := by
  cases hhead : r.state.readHead with
  | true => simp [consumedHeader, hhead]
  | false =>
    rw [pendingBytes, ProtocolMessage.encode, append_assoc] at h
    have hlen : m.header.length = r.consumedHeader.length := by
      simp [consumedHeader, hhead, bytesBE_length, header_length, headerLength]
    exact (append_inj h hlen).1.symm

end ProtocolReader

/-! ## Top theorems -/

open ProtocolWriter ProtocolReader

/-- **Framing is independent of chunking.**  Whatever happens to the writer and however its output is
cut, the reader fires exactly the messages whose bytes have all arrived, in order; the header it has
consumed and its leftover bytes are exactly the bytes that have arrived of the next message, whose
header is consumed as soon as it is complete.  When all output has arrived, every message is fired and
nothing is left over. -/
theorem acceptChunks_run (calls : List Call) (chunks : List VSBuffer) (rest : VSBuffer)
    (hrange : ∀ m ∈ accepted calls, m.InRange)
    (hcut : chunks.flatten ++ rest = (run {} calls).output) :
    ∃ r fired todo, acceptChunks {} chunks = some (r, fired) ∧ accepted calls = fired ++ todo ∧
      chunks.flatten = encodeAll fired ++ (r.consumedHeader ++ r.leftover) ∧
      (∀ m ∈ todo.head?, r.consumedHeader = (if r.state.readHead then [] else m.header) ∧
        ∃ missing, missing ≠ [] ∧ m.encode = r.consumedHeader ++ r.leftover ++ missing) ∧
      (todo = [] → r.consumedHeader = [] ∧ r.leftover = []) ∧
      (rest = [] → (run {} calls).pending = [] → todo = []) := by
  obtain ⟨r, fired, hacc, hv, hexit, hfired, hbytes⟩ := acceptChunks_parsed chunks {} valid_new (by decide)
  have hbytes' : encodeAll fired ++ r.pendingBytes = chunks.flatten := hbytes
  have hout := run_output calls {} rfl rfl
  have hall : encodeAll fired ++ (r.pendingBytes ++ (rest ++ (run {} calls).pending)) =
      encodeAll (accepted calls) := by
    rw [← append_assoc, hbytes', ← append_assoc, hcut, hout]
    rfl
  obtain ⟨todo, htodo, hz⟩ := encodeAll_prefix fired _ _ hfired hrange hall
  refine ⟨r, fired, todo, hacc, htodo, hbytes'.symm, ?_, ?_, ?_⟩
  · intro m hm
    obtain ⟨ms, rfl⟩ : ∃ ms, todo = m :: ms := by
      cases todo with
      | nil => simp at hm
      | cons x ms => exact ⟨ms, by simpa using hm⟩
    obtain ⟨missing, hne, henc⟩ := pendingBytes_incomplete r m _ _ hv
      (hrange m (by rw [htodo]; simp)) hexit hz
    exact ⟨consumedHeader_eq r m missing henc, missing, hne, henc⟩
  · rintro rfl
    rw [show encodeAll [] = [] from rfl, append_eq_nil_iff] at hz
    exact append_eq_nil_iff.mp hz.1
  · intro hrest hpend
    cases todo with
    | nil => rfl
    | cons m ms =>
      exfalso
      rw [encodeAll_cons, hrest, hpend] at hz
      obtain ⟨missing, hne, henc⟩ := pendingBytes_incomplete r m _ _ hv
        (hrange m (by rw [htodo]; simp)) hexit hz
      have hlen := congrArg List.length hz
      rw [henc] at hlen
      have := length_pos_iff.mpr hne
      simp only [length_append, length_nil] at hlen
      omega

/-- One regular message with one data byte, cut after its header. -/
theorem acceptChunks_run_header :
    let calls := [Call.write ⟨.regular, 1, 0, [7]⟩, .writeNowTimeout]
    let header : VSBuffer := [1, 0, 0, 0, 1, 0, 0, 0, 0, 0, 0, 0, 1]
    ∃ r fired todo, acceptChunks {} [header] = some (r, fired) ∧ accepted calls = fired ++ todo ∧
      header = encodeAll fired ++ (r.consumedHeader ++ r.leftover) := by
  obtain ⟨r, fired, todo, h1, h2, h3, -⟩ := acceptChunks_run
    [Call.write ⟨.regular, 1, 0, [7]⟩, .writeNowTimeout]
    [[1, 0, 0, 0, 1, 0, 0, 0, 0, 0, 0, 0, 1]] [7] (by decide) (by decide)
  exact ⟨r, fired, todo, h1, h2, by simpa using h3⟩

/-- The leftover bytes alone are not the bytes of the incomplete message: a complete header has been
moved into the reader's state. -/
theorem leftover_misses_header :
    ¬ ∀ (calls : List Call) (chunks : List VSBuffer) (rest : VSBuffer),
      (∀ m ∈ accepted calls, m.InRange) → chunks.flatten ++ rest = (run {} calls).output →
      ∃ r fired todo, acceptChunks {} chunks = some (r, fired) ∧ accepted calls = fired ++ todo ∧
        chunks.flatten = encodeAll fired ++ r.leftover := by
  intro h
  obtain ⟨r, fired, todo, hacc, -, hbytes⟩ := h
    [Call.write ⟨.regular, 1, 0, [7]⟩, .writeNowTimeout]
    [[1, 0, 0, 0, 1, 0, 0, 0, 0, 0, 0, 0, 1]] [7] (by decide) (by decide)
  obtain ⟨rfl, rfl⟩ := hacc
  exact absurd hbytes (by decide)

end TongjiCode.Ipc
