import TongjiCode.Ipc.PersistentProtocol

/-!
# Exactly-once delivery across reconnections

The invariant of one direction is `Channel`: the receiver has fired the first `incomingMsgId` payloads
of the sender, the sender's queue holds the messages after `outgoingAckId` without gaps, and on every
connection the receiver may still read, the message ids never run ahead of what the receiver will have
accepted by then (`GapFree`).  The last point is what makes the 32-bit ids of the wire harmless: a
message that is next by its received id is next by its real id.

Endpoint functions are described by what they write (`Writes`); the two-endpoint steps then follow from
`Channel.extend` (the sender writes), `Channel.acceptAck`, `Channel.send` and `Channel.receive`.
-/

open List

namespace TongjiCode.Ipc

/-! ## Streams of messages -/

/-- The last id a reader that has accepted `n` messages will know of. -/
def reach : Nat → List ProtocolMessage → Nat
  | n, [] => n
  | n, m :: ms => if m.type = .regular then reach (max n m.id) ms else reach n ms

/-- A reader that has accepted `n` messages never meets an id beyond the next one. -/
def GapFree : Nat → List ProtocolMessage → Prop
  | _, [] => True
  | n, m :: ms => if m.type = .regular then m.id ≤ n + 1 ∧ GapFree (max n m.id) ms else GapFree n ms

@[simp] theorem gapFree_nil (n : Nat) : GapFree n [] := by
  trivial

/-- A queue that holds the sent messages from number `a + 1` on, in order and without gaps. -/
def Consecutive (sent : List VSBuffer) : Nat → List ProtocolMessage → Prop
  | a, [] => a = sent.length
  | a, m :: ms => m.type = .regular ∧ m.id = a + 1 ∧ sent[a]? = some m.data ∧ Consecutive sent (a + 1) ms

/-- A written message: its acknowledgement is due, and a regular one carries the payload of its id. -/
def Faithful (sent : List VSBuffer) (accepted : Nat) (m : ProtocolMessage) : Prop :=
  m.ack ≤ accepted ∧ (m.type = .regular → 1 ≤ m.id ∧ sent[m.id - 1]? = some m.data)

theorem le_reach (ms : List ProtocolMessage) : ∀ n, n ≤ reach n ms := by
  induction ms with
  | nil => intro n; exact Nat.le_refl n
  | cons m ms ih =>
    intro n
    unfold reach
    split
    · exact Nat.le_trans (Nat.le_max_left _ _) (ih _)
    · exact ih n

theorem reach_cons (n : Nat) (m : ProtocolMessage) (ms : List ProtocolMessage) :
    reach n (m :: ms) = if m.type = .regular then reach (max n m.id) ms else reach n ms := rfl

theorem reach_append (l ms : List ProtocolMessage) : ∀ n, reach n (l ++ ms) = reach (reach n l) ms := by
  induction l with
  | nil => intro n; rfl
  | cons m l ih =>
    intro n
    simp only [cons_append, reach]
    split
    · exact ih _
    · exact ih _

theorem gapFree_append (l ms : List ProtocolMessage) :
    ∀ n, GapFree n (l ++ ms) ↔ GapFree n l ∧ GapFree (reach n l) ms := by
  induction l with
  | nil => intro n; simp [GapFree, reach]
  | cons m l ih =>
    intro n
    simp only [cons_append, GapFree, reach]
    split
    · rw [ih, and_assoc]
    · exact ih n

theorem GapFree.mono (ms : List ProtocolMessage) : ∀ {n n' : Nat}, n ≤ n' → GapFree n ms → GapFree n' ms := by
  induction ms with
  | nil => intro n n' _ _; trivial
  | cons m ms ih =>
    intro n n' hle h
    unfold GapFree at h ⊢
    split at h
    · next ht =>
      rw [if_pos ht]
      exact ⟨by omega, ih (by omega) h.2⟩
    · next ht =>
      rw [if_neg ht]
      exact ih hle h

theorem reach_mono (ms : List ProtocolMessage) : ∀ {n n' : Nat}, n ≤ n' → reach n ms ≤ reach n' ms := by
  induction ms with
  | nil => intro n n' h; exact h
  | cons m ms ih =>
    intro n n' h
    unfold reach
    split
    · exact ih (by omega)
    · exact ih h

theorem gapFree_of_not_regular (ms : List ProtocolMessage) (h : ∀ m ∈ ms, m.type ≠ .regular) :
    ∀ n, GapFree n ms := by
  induction ms with
  | nil => intro n; trivial
  | cons m ms ih =>
    intro n
    unfold GapFree
    rw [if_neg (h m (by simp))]
    exact ih (fun x hx => h x (by simp [hx])) n

variable {sent : List VSBuffer}

theorem Consecutive.gapFree (ms : List ProtocolMessage) :
    ∀ {a n : Nat}, Consecutive sent a ms → a ≤ n → GapFree n ms := by
  induction ms with
  | nil => intro a n _ _; trivial
  | cons m ms ih =>
    intro a n h hle
    obtain ⟨ht, hid, -, hrest⟩ := h
    unfold GapFree
    rw [if_pos ht]
    exact ⟨by omega, ih hrest (by omega)⟩

/-- Sending the whole queue again tells the reader of every sent message. -/
theorem Consecutive.reach (ms : List ProtocolMessage) :
    ∀ {a n : Nat}, Consecutive sent a ms → a ≤ n → sent.length ≤ reach n ms := by
  induction ms with
  | nil => intro a n h hle; exact h ▸ hle
  | cons m ms ih =>
    intro a n h hle
    obtain ⟨ht, hid, -, hrest⟩ := h
    unfold Ipc.reach
    rw [if_pos ht]
    exact ih hrest (by omega)

theorem Consecutive.push (buffer : VSBuffer) (ack : Nat) (ms : List ProtocolMessage) :
    ∀ {a : Nat}, Consecutive sent a ms →
      Consecutive (sent ++ [buffer]) a (ms ++ [⟨.regular, sent.length + 1, ack, buffer⟩]) := by
  induction ms with
  | nil =>
    intro a h
    have h' : a = sent.length := h
    subst h'
    exact ⟨rfl, rfl, by simp, by simp [Consecutive]⟩
  | cons m ms ih =>
    intro a h
    obtain ⟨ht, hid, hd, hrest⟩ := h
    refine ⟨ht, hid, ?_, ih hrest⟩
    have : a < sent.length := (List.getElem?_eq_some_iff.mp hd).1
    rw [List.getElem?_append_left this]
    exact hd

variable {ack : Nat}

/-- Dropping what an acknowledgement confirms leaves the queue from that number on. -/
theorem Consecutive.popAcked (q : List QueuedMessage) :
    ∀ {a : Nat}, Consecutive sent a (q.map QueuedMessage.message) → a ≤ ack → ack ≤ sent.length →
      Consecutive sent ack ((PersistentProtocol.popAcked ack q).map QueuedMessage.message) := by
  induction q with
  | nil =>
    intro a h hle hlen
    have h' : a = sent.length := h
    exact Nat.le_antisymm hlen (h' ▸ hle)
  | cons x q ih =>
    intro a h hle hlen
    obtain ⟨ht, hid, hd, hrest⟩ := h
    unfold PersistentProtocol.popAcked
    split
    · exact ih hrest (by omega) hlen
    · have : a = ack := by omega
      subst this
      exact ⟨ht, hid, hd, hrest⟩

theorem mem_popAcked (q : List QueuedMessage) :
    ∀ x ∈ PersistentProtocol.popAcked ack q, x ∈ q := by
  induction q with
  | nil => intro x hx; exact hx
  | cons y q ih =>
    intro x hx
    unfold PersistentProtocol.popAcked at hx
    split at hx
    · exact mem_cons_of_mem _ (ih x hx)
    · exact hx

/-! ## What the endpoint functions write -/

/-- `p'` is `p` after writing `ms`: nothing was sent or confirmed. -/
structure Writes (p p' : PersistentProtocol) (ms : List ProtocolMessage) : Prop where
  sent : p'.sent = p.sent
  outgoingMsgId : p'.outgoingMsgId = p.outgoingMsgId
  outgoingAckId : p'.outgoingAckId = p.outgoingAckId
  incomingMsgId : p.incomingMsgId ≤ p'.incomingMsgId
  isReconnecting : p'.isReconnecting = p.isReconnecting
  queue : p'.outgoingUnackMsg.map QueuedMessage.message = p.outgoingUnackMsg.map QueuedMessage.message
  data : p'.socketWriter.data = p.socketWriter.data ++ ms

/-- `p'` has accepted no further message. -/
structure Quiet (p p' : PersistentProtocol) : Prop where
  fired : p'.fired = p.fired
  incomingMsgId : p'.incomingMsgId = p.incomingMsgId

/-- Messages outside the regular flow with a due acknowledgement. -/
def Harmless (accepted : Nat) (ms : List ProtocolMessage) : Prop :=
  ∀ m ∈ ms, m.type ≠ .regular ∧ m.ack ≤ accepted

theorem harmless_nil (n : Nat) : Harmless n [] := by simp [Harmless]

variable {m : ProtocolMessage}

theorem harmless_singleton {n : Nat} (ht : m.type ≠ .regular) (ha : m.ack ≤ n) :
    Harmless n [m] := by
  intro x hx
  rw [mem_singleton] at hx
  subst hx
  exact ⟨ht, ha⟩

namespace PersistentProtocol

variable (p : PersistentProtocol)

theorem writes_nil : Writes p p [] := ⟨rfl, rfl, rfl, Nat.le_refl _, rfl, rfl, by simp⟩

theorem quiet_refl : Quiet p p := ⟨rfl, rfl⟩

theorem write_writes (msg : ProtocolMessage) : Writes p (p.write msg) [msg] :=
  ⟨rfl, rfl, rfl, Nat.le_refl _, rfl, rfl, rfl⟩

theorem sendAck_writes :
    ∃ ms, Writes p p.sendAck ms ∧ Harmless p.incomingMsgId ms ∧ Quiet p p.sendAck := by
  unfold sendAck
  split
  · exact ⟨[], writes_nil p, harmless_nil _, quiet_refl p⟩
  · exact ⟨_, ⟨rfl, rfl, rfl, Nat.le_refl _, rfl, rfl, rfl⟩,
      harmless_singleton (show ProtocolMessageType.ack ≠ .regular by decide) (Nat.le_refl _), ⟨rfl, rfl⟩⟩

section

variable (now : Nat)
include now

theorem sendAckCheck_writes :
    ∃ ms, Writes p (p.sendAckCheck now) ms ∧ Harmless p.incomingMsgId ms ∧ Quiet p (p.sendAckCheck now) := by
  unfold sendAckCheck
  split
  · exact ⟨[], writes_nil p, harmless_nil _, quiet_refl p⟩
  · split
    · exact ⟨[], writes_nil p, harmless_nil _, quiet_refl p⟩
    · split
      · exact sendAck_writes p
      · exact ⟨[], ⟨rfl, rfl, rfl, Nat.le_refl _, rfl, rfl, by simp⟩, harmless_nil _, ⟨rfl, rfl⟩⟩

theorem onIncomingAckTimeout_writes :
    ∃ ms, Writes p (p.onIncomingAckTimeout now) ms ∧ Harmless p.incomingMsgId ms ∧
      Quiet p (p.onIncomingAckTimeout now) := by
  unfold onIncomingAckTimeout
  split
  · obtain ⟨ms, h, hm, hq⟩ := sendAckCheck_writes { p with incomingAckTimeout := false } now
    exact ⟨ms, ⟨h.sent, h.outgoingMsgId, h.outgoingAckId, h.incomingMsgId, h.isReconnecting, h.queue,
      h.data⟩, hm, ⟨hq.fired, hq.incomingMsgId⟩⟩
  · exact ⟨[], writes_nil p, harmless_nil _, quiet_refl p⟩

theorem recvAckCheck_writes (hasHighLoad : Bool) :
    Writes p (p.recvAckCheck now hasHighLoad) [] ∧ Quiet p (p.recvAckCheck now hasHighLoad) := by
  unfold recvAckCheck
  split
  · exact ⟨writes_nil p, quiet_refl p⟩
  · split
    · exact ⟨writes_nil p, quiet_refl p⟩
    · split
      · exact ⟨writes_nil p, quiet_refl p⟩
      · split
        · exact ⟨writes_nil p, quiet_refl p⟩
        · dsimp only
          split
          · exact ⟨⟨rfl, rfl, rfl, Nat.le_refl _, rfl, rfl, by simp⟩, ⟨rfl, rfl⟩⟩
          · exact ⟨⟨rfl, rfl, rfl, Nat.le_refl _, rfl, rfl, by simp⟩, ⟨rfl, rfl⟩⟩

theorem onOutgoingAckTimeout_writes (hasHighLoad : Bool) :
    Writes p (p.onOutgoingAckTimeout now hasHighLoad) [] ∧
      Quiet p (p.onOutgoingAckTimeout now hasHighLoad) := by
  unfold onOutgoingAckTimeout
  split
  · obtain ⟨h, hq⟩ := recvAckCheck_writes { p with outgoingAckTimeout := false } now hasHighLoad
    exact ⟨⟨h.sent, h.outgoingMsgId, h.outgoingAckId, h.incomingMsgId, h.isReconnecting, h.queue,
      h.data⟩, ⟨hq.fired, hq.incomingMsgId⟩⟩
  · exact ⟨writes_nil p, quiet_refl p⟩

theorem resend_writes (hasHighLoad : Bool) :
    Writes p (p.resend now hasHighLoad) (p.outgoingUnackMsg.map QueuedMessage.message) ∧
      Quiet p (p.resend now hasHighLoad) := by
  obtain ⟨h, hq⟩ := recvAckCheck_writes { p with
    socketWriter := { p.socketWriter with
      data := p.socketWriter.data ++ p.outgoingUnackMsg.map QueuedMessage.message }
    outgoingUnackMsg := p.outgoingUnackMsg.map fun q : QueuedMessage => ⟨q.message, now⟩ } now hasHighLoad
  refine ⟨⟨h.sent, h.outgoingMsgId, h.outgoingAckId, h.incomingMsgId, h.isReconnecting, ?_, ?_⟩,
    ⟨hq.fired, hq.incomingMsgId⟩⟩
  · refine h.queue.trans ?_
    simp
  · exact h.data.trans (by simp)

/-- The regular case: the next message is accepted, anything else is ignored. -/
theorem receiveRegular_writes (msg : ProtocolMessage) :
    ∃ ms, Writes p (p.receiveRegular now msg) ms ∧ Harmless (p.receiveRegular now msg).incomingMsgId ms := by
  unfold receiveRegular
  split
  · split
    · split
      · exact ⟨_, ⟨rfl, rfl, rfl, Nat.le_refl _, rfl, rfl, rfl⟩,
          harmless_singleton (show ProtocolMessageType.replayRequest ≠ .regular by decide) (Nat.zero_le _)⟩
      · exact ⟨[], writes_nil p, harmless_nil _⟩
    · obtain ⟨ms, h, hm, hq⟩ := sendAckCheck_writes
        { p with incomingMsgId := msg.id, incomingMsgLastTime := now } now
      refine ⟨ms, ⟨h.sent, h.outgoingMsgId, h.outgoingAckId, ?_, h.isReconnecting, h.queue, h.data⟩, ?_⟩
      · exact Nat.le_trans (Nat.le_of_lt (by assumption)) h.incomingMsgId
      · intro m hmem
        exact ⟨(hm m hmem).1, Nat.le_trans (hm m hmem).2 h.incomingMsgId⟩
  · exact ⟨[], writes_nil p, harmless_nil _⟩

theorem receiveRegular_accepts (msg : ProtocolMessage) :
    if msg.id = p.incomingMsgId + 1 then
      (p.receiveRegular now msg).incomingMsgId = msg.id ∧
        (p.receiveRegular now msg).fired = p.fired ++ [msg.data]
    else Quiet p (p.receiveRegular now msg) := by
  unfold receiveRegular
  split
  · next heq =>
    rw [if_pos (by omega), if_neg (by omega)]
    obtain ⟨ms, -, -, hq⟩ := sendAckCheck_writes
      { p with incomingMsgId := msg.id, incomingMsgLastTime := now } now
    exact ⟨hq.incomingMsgId, by simp only [hq.fired]⟩
  · next hne =>
    split
    · split
      · exact ⟨rfl, rfl⟩
      · exact quiet_refl p
    · exact quiet_refl p

omit now in
theorem acceptAck_quiet (ack : Nat) : Quiet p (p.acceptAck ack) := by
  unfold acceptAck
  split
  · exact ⟨rfl, rfl⟩
  · exact quiet_refl p

/-- What a received message makes the endpoint write: nothing of the regular flow, or the queue. -/
theorem receiveMessage_writes (hasHighLoad : Bool) (msg : ProtocolMessage) :
    ∃ ms, Writes ({ p with lastReadTime := now }.acceptAck msg.ack)
        (p.receiveMessage now hasHighLoad msg) ms ∧
      (Harmless (p.receiveMessage now hasHighLoad msg).incomingMsgId ms ∨
        ms = ({ p with lastReadTime := now }.acceptAck msg.ack).outgoingUnackMsg.map
          QueuedMessage.message) := by
  unfold receiveMessage
  generalize ({ p with lastReadTime := now } : PersistentProtocol).acceptAck msg.ack = p1
  split
  · obtain ⟨ms, h, hm⟩ := receiveRegular_writes p1 now msg
    exact ⟨ms, h, .inl hm⟩
  · split
    · exact ⟨[], ⟨rfl, rfl, rfl, Nat.le_refl _, rfl, rfl, by simp⟩, .inl (harmless_nil _)⟩
    · split
      · exact ⟨[], ⟨rfl, rfl, rfl, Nat.le_refl _, rfl, rfl, by simp⟩, .inl (harmless_nil _)⟩
      · split
        · exact ⟨_, (resend_writes p1 now hasHighLoad).1, .inr rfl⟩
        · split
          · exact ⟨[], ⟨rfl, rfl, rfl, Nat.le_refl _, rfl, rfl, by simp [pauseSocketWriting]⟩,
              .inl (harmless_nil _)⟩
          · split
            · exact ⟨[], ⟨rfl, rfl, rfl, Nat.le_refl _, rfl, rfl, by simp⟩, .inl (harmless_nil _)⟩
            · exact ⟨[], writes_nil p1, .inl (harmless_nil _)⟩

theorem receiveMessage_accepts (hasHighLoad : Bool) (msg : ProtocolMessage) :
    if msg.type = .regular ∧ msg.id = p.incomingMsgId + 1 then
      (p.receiveMessage now hasHighLoad msg).incomingMsgId = msg.id ∧
        (p.receiveMessage now hasHighLoad msg).fired = p.fired ++ [msg.data]
    else Quiet p (p.receiveMessage now hasHighLoad msg) := by
  obtain ⟨hf, hi⟩ := acceptAck_quiet { p with lastReadTime := now } msg.ack
  unfold receiveMessage
  revert hf hi
  generalize ({ p with lastReadTime := now } : PersistentProtocol).acceptAck msg.ack = p1
  intro hf hi
  have hacc := receiveRegular_accepts p1 now msg
  rw [hi, hf] at hacc
  by_cases ht : msg.type = .regular
  · by_cases hid : msg.id = p.incomingMsgId + 1
    · rw [if_pos ⟨ht, hid⟩, if_pos ht]
      rwa [if_pos hid] at hacc
    · rw [if_neg (fun h => hid h.2), if_pos ht]
      rw [if_neg hid] at hacc
      exact ⟨hacc.fired.trans hf, hacc.incomingMsgId.trans hi⟩
  · rw [if_neg (fun h => ht h.1), if_neg ht]
    have hq : Quiet p p1 := ⟨hf, hi⟩
    split
    · exact ⟨hf, hi⟩
    · split
      · exact ⟨hf, hi⟩
      · split
        · have h := (resend_writes p1 now hasHighLoad).2
          exact ⟨h.fired.trans hf, h.incomingMsgId.trans hi⟩
        · split
          · exact ⟨hf, hi⟩
          · split
            · exact ⟨hf, hi⟩
            · exact hq

end

end PersistentProtocol

/-! ## One direction -/

/-- The invariant of the direction from `a` to `b`.  `stream k` are the messages `a` has written on
connection `k` and `b` has not read, `c` is the connection of `a` and `gone` are the connections `b` has
left.  Once the receiver has accepted `2 ^ 32 - 1` messages no received id is the next one any more. -/
structure Channel (a b : PersistentProtocol) (stream : Nat → List ProtocolMessage) (c : Nat)
    (gone : List Nat) : Prop where
  count : a.outgoingMsgId = a.sent.length
  fired : b.fired = a.sent.take b.incomingMsgId
  le : b.incomingMsgId ≤ a.sent.length
  acked : a.outgoingAckId ≤ b.incomingMsgId
  queue : Consecutive a.sent a.outgoingAckId (a.outgoingUnackMsg.map QueuedMessage.message)
  queueAck : ∀ m ∈ a.outgoingUnackMsg.map QueuedMessage.message, Faithful a.sent a.incomingMsgId m
  written : ∀ k, ∀ m ∈ stream k, Faithful a.sent a.incomingMsgId m
  gapFree : b.incomingMsgId + 1 < 2 ^ 32 → ∀ k, k ∉ gone → GapFree b.incomingMsgId (stream k)
  reach : b.incomingMsgId + 1 < 2 ^ 32 → c ∉ gone → a.isReconnecting = false →
    a.sent.length ≤ reach b.incomingMsgId (stream c)

variable {ms : List ProtocolMessage}

namespace Channel

variable {a a' b b' : PersistentProtocol} {stream stream' : Nat → List ProtocolMessage} {c : Nat}
  {gone : List Nat}

theorem faithful_mono {n n' : Nat} (h : Faithful sent n m) (hle : n ≤ n') :
    Faithful sent n' m := ⟨Nat.le_trans h.1 hle, h.2⟩

theorem faithful_append {n : Nat} (h : Faithful sent n m) (buffer : VSBuffer) : Faithful (sent ++ [buffer]) n m := by
  refine ⟨h.1, fun ht => ⟨(h.2 ht).1, ?_⟩⟩
  rw [List.getElem?_append_left (List.getElem?_eq_some_iff.mp (h.2 ht).2).1]
  exact (h.2 ht).2

section

variable (h : Channel a b stream c gone)
include h

theorem congr_receiver (hq : Quiet b b') : Channel a b' stream c gone where
  count := h.count
  fired := by rw [hq.fired, hq.incomingMsgId]; exact h.fired
  le := by rw [hq.incomingMsgId]; exact h.le
  acked := by rw [hq.incomingMsgId]; exact h.acked
  queue := h.queue
  queueAck := h.queueAck
  written := h.written
  gapFree := by rw [hq.incomingMsgId]; exact h.gapFree
  reach := by rw [hq.incomingMsgId]; exact h.reach

/-- The sender writes messages that run no further ahead than its queue does. -/
theorem extend (hw : Writes a a' ms) (hms : ∀ m ∈ ms, Faithful a.sent a'.incomingMsgId m)
    (hgap : ∀ n, a.outgoingAckId ≤ n → GapFree n ms) (hstream : ∀ k, stream' k = stream k ++ if k = c then ms else []) :
    Channel a' b stream' c gone where
  count := by rw [hw.outgoingMsgId, hw.sent]; exact h.count
  fired := by rw [hw.sent]; exact h.fired
  le := by rw [hw.sent]; exact h.le
  acked := by rw [hw.outgoingAckId]; exact h.acked
  queue := by rw [hw.sent, hw.outgoingAckId, hw.queue]; exact h.queue
  queueAck := by
    rw [hw.sent, hw.queue]
    exact fun m hm => faithful_mono (h.queueAck m hm) hw.incomingMsgId
  written := by
    intro k m hm
    rw [hw.sent]
    rw [hstream, mem_append] at hm
    rcases hm with hm | hm
    · exact faithful_mono (h.written k m hm) hw.incomingMsgId
    · split at hm
      · exact hms m hm
      · simp at hm
  gapFree := by
    intro hsmall k hk
    rw [hstream, gapFree_append]
    refine ⟨h.gapFree hsmall k hk, ?_⟩
    split
    · exact hgap _ (Nat.le_trans h.acked (le_reach _ _))
    · trivial
  reach := by
    intro hsmall hc hr
    rw [hw.sent, hstream, reach_append]
    rw [hw.isReconnecting] at hr
    exact Nat.le_trans (h.reach hsmall hc hr) (le_reach _ _)

theorem extend_harmless (hw : Writes a a' ms) (hms : Harmless a'.incomingMsgId ms)
    (hstream : ∀ k, stream' k = stream k ++ if k = c then ms else []) : Channel a' b stream' c gone :=
  h.extend hw (fun m hm => ⟨(hms m hm).2, fun ht => absurd ht (hms m hm).1⟩)
    (fun n _ => gapFree_of_not_regular ms (fun m hm => (hms m hm).1) n) hstream

theorem extend_queue (hw : Writes a a' (a.outgoingUnackMsg.map QueuedMessage.message))
    (hstream : ∀ k, stream' k = stream k ++ if k = c then a.outgoingUnackMsg.map QueuedMessage.message else []) :
    Channel a' b stream' c gone :=
  h.extend hw (fun m hm => faithful_mono (h.queueAck m hm) hw.incomingMsgId)
    (fun _ hn => h.queue.gapFree _ hn) hstream

theorem acceptAck (hack : ack ≤ b.incomingMsgId) :
    Channel (a.acceptAck ack) b stream c gone := by
  unfold PersistentProtocol.acceptAck
  split
  · next hlt =>
    refine ⟨h.count, h.fired, h.le, hack, ?_, ?_, h.written, h.gapFree, h.reach⟩
    · exact h.queue.popAcked _ (Nat.le_of_lt hlt) (Nat.le_trans hack h.le)
    · intro m hm
      obtain ⟨q, hq, rfl⟩ := mem_map.mp hm
      exact h.queueAck _ (mem_map.mpr ⟨q, mem_popAcked _ q hq, rfl⟩)
  · exact h

theorem reconnect {c' : Nat} (hsent : a'.sent = a.sent) (hid : a'.outgoingMsgId = a.outgoingMsgId)
    (hack : a'.outgoingAckId = a.outgoingAckId) (hqueue : a'.outgoingUnackMsg = a.outgoingUnackMsg)
    (hin : a'.incomingMsgId = a.incomingMsgId) (hrec : a'.isReconnecting = true) (hstream : ∀ k, stream' k <+: stream k) :
    Channel a' b stream' c' gone where
  count := by rw [hid, hsent]; exact h.count
  fired := by rw [hsent]; exact h.fired
  le := by rw [hsent]; exact h.le
  acked := by rw [hack]; exact h.acked
  queue := by rw [hsent, hack, hqueue]; exact h.queue
  queueAck := by rw [hsent, hin, hqueue]; exact h.queueAck
  written := by
    intro k m hm
    rw [hsent, hin]
    exact h.written k m ((hstream k).subset hm)
  gapFree := by
    intro hsmall k hk
    obtain ⟨t, ht⟩ := hstream k
    have := h.gapFree hsmall k hk
    rw [← ht, gapFree_append] at this
    exact this.1
  reach := by
    intro _ _ hr
    rw [hrec] at hr
    cases hr

theorem leave (k : Nat) : Channel a b stream c (k :: gone) :=
  ⟨h.count, h.fired, h.le, h.acked, h.queue, h.queueAck, h.written,
    fun hs k' hk' => h.gapFree hs k' (fun hm => hk' (mem_cons_of_mem _ hm)),
    fun hs hc => h.reach hs (fun hm => hc (mem_cons_of_mem _ hm))⟩

/-- The end of a reconnection: the sender writes its whole queue. -/
theorem resume (hreach : Ipc.reach b.incomingMsgId (stream c) ≥ a.sent.length) :
    Channel { a with isReconnecting := false } b stream c gone :=
  ⟨h.count, h.fired, h.le, h.acked, h.queue, h.queueAck, h.written, h.gapFree, fun _ _ _ => hreach⟩

theorem push (buffer : VSBuffer) (writtenTime : Nat) {msg : ProtocolMessage}
    (hmsg : msg = ⟨.regular, a.outgoingMsgId + 1, a.incomingMsgId, buffer⟩) (hsent : a'.sent = a.sent ++ [buffer])
    (hid : a'.outgoingMsgId = a.outgoingMsgId + 1) (hack : a'.outgoingAckId = a.outgoingAckId)
    (hin : a'.incomingMsgId = a.incomingMsgId) (hrec : a'.isReconnecting = a.isReconnecting)
    (hqueue : a'.outgoingUnackMsg = a.outgoingUnackMsg ++ [⟨msg, writtenTime⟩])
    (hstream : ∀ k, stream' k = stream k ++ if k = c ∧ a.isReconnecting = false then [msg] else []) :
    Channel a' b stream' c gone := by
  have hfaith : Faithful a'.sent a'.incomingMsgId msg := by
    rw [hmsg, hsent, hin]
    refine ⟨Nat.le_refl _, fun _ => ⟨by simp, ?_⟩⟩
    simp [h.count]
  refine ⟨?_, ?_, ?_, ?_, ?_, ?_, ?_, ?_, ?_⟩
  · simp [hid, hsent, h.count]
  · rw [hsent, take_append_of_le_length h.le]
    exact h.fired
  · rw [hsent, length_append]
    exact Nat.le_trans h.le (Nat.le_add_right _ _)
  · rw [hack]
    exact h.acked
  · rw [hsent, hack, hqueue, map_append, hmsg]
    simp only [map_cons, map_nil, h.count]
    exact h.queue.push buffer _ _
  · intro m hm
    rw [hqueue, map_append, mem_append] at hm
    rcases hm with hm | hm
    · rw [hsent, hin]
      exact faithful_append (h.queueAck m hm) buffer
    · simp only [map_cons, map_nil, mem_singleton] at hm
      rw [hm]
      exact hfaith
  · intro k m hm
    rw [hstream, mem_append] at hm
    rcases hm with hm | hm
    · rw [hsent, hin]
      exact faithful_append (h.written k m hm) buffer
    · split at hm
      · rw [mem_singleton] at hm
        rw [hm]
        exact hfaith
      · simp at hm
  · intro hsmall k hk
    rw [hstream, gapFree_append]
    refine ⟨h.gapFree hsmall k hk, ?_⟩
    split
    · next hc =>
      obtain ⟨rfl, hr⟩ := hc
      have := h.reach hsmall hk hr
      rw [hmsg]
      exact ⟨by rw [h.count]; simpa using this, trivial⟩
    · trivial
  · intro hsmall hc hr
    rw [hrec] at hr
    rw [hstream, if_pos ⟨rfl, hr⟩, reach_append, hsent, hmsg]
    simp only [Ipc.reach, if_true, h.count, length_append, length_singleton]
    omega

theorem receive {k : Nat} {rest : List ProtocolMessage} (hk : k ∉ gone) (hs : stream k = m :: rest)
    (hb : if m.type = .regular ∧ m.received.id = b.incomingMsgId + 1 then b'.incomingMsgId = m.received.id ∧ b'.fired = b.fired ++ [m.data] else Quiet b b')
    (hstream : ∀ k', stream' k' = if k' = k then rest else stream k') : Channel a b' stream' c gone := by
  have hm := h.written k m (by rw [hs]; simp)
  have hlt : m.received.id < 2 ^ 32 := Nat.mod_lt _ (by decide)
  have hmod : m.id < 2 ^ 32 → m.received.id = m.id := Nat.mod_eq_of_lt
  have hwritten : ∀ k', ∀ x ∈ stream' k', Faithful a.sent a.incomingMsgId x := by
    intro k' x hx
    rw [hstream] at hx
    split at hx
    · exact h.written k x (by rw [hs]; exact mem_cons_of_mem _ hx)
    · exact h.written k' x hx
  by_cases hacc : m.type = .regular ∧ m.received.id = b.incomingMsgId + 1
  · -- the received id is the next one, so by `GapFree` the real id is
    rw [if_pos hacc] at hb
    obtain ⟨ht, hid⟩ := hacc
    have hgap := h.gapFree (by omega) k hk
    rw [hs] at hgap
    unfold GapFree at hgap
    rw [if_pos ht] at hgap
    have hreal : m.id = b.incomingMsgId + 1 := by omega
    have hdata := (hm.2 ht).2
    rw [hreal, Nat.add_sub_cancel] at hdata
    have hlen := (List.getElem?_eq_some_iff.mp hdata).1
    rw [hid] at hb
    refine ⟨h.count, ?_, by omega, by have := h.acked; omega, h.queue, h.queueAck, hwritten, ?_, ?_⟩
    · rw [hb.2, hb.1, h.fired, take_add_one, hdata]
      rfl
    · intro _ k' hk'
      rw [hb.1, hstream]
      split
      · have := hgap.2
        rwa [hreal, Nat.max_eq_right (by omega)] at this
      · exact (h.gapFree (by omega) k' hk').mono _ (by omega)
    · intro _ hc hr
      have hold := h.reach (by omega) hc hr
      rw [hb.1, hstream]
      split
      · next hck =>
        rw [hck, hs] at hold
        rwa [reach_cons, if_pos ht, hreal, Nat.max_eq_right (by omega)] at hold
      · exact Nat.le_trans hold (reach_mono _ (by omega))
  · -- an ignored message is one the reader knows already, or none that counts
    rw [if_neg hacc] at hb
    have hpop : b.incomingMsgId + 1 < 2 ^ 32 → GapFree b.incomingMsgId rest ∧
        Ipc.reach b.incomingMsgId (m :: rest) = Ipc.reach b.incomingMsgId rest := by
      intro hsmall
      have hgap := h.gapFree hsmall k hk
      rw [hs] at hgap
      unfold GapFree at hgap
      rw [reach_cons]
      split at hgap
      · next ht =>
        have : m.id ≤ b.incomingMsgId := by
          by_contra hcon
          exact hacc ⟨ht, by rw [hmod (by omega)]; omega⟩
        rw [Nat.max_eq_left this] at hgap ⊢
        rw [if_pos ht]
        exact ⟨hgap.2, rfl⟩
      · next ht =>
        rw [if_neg ht]
        exact ⟨hgap, rfl⟩
    refine Channel.congr_receiver (b := b) ⟨h.count, h.fired, h.le, h.acked, h.queue, h.queueAck, hwritten,
      ?_, ?_⟩ hb
    · intro hsmall k' hk'
      rw [hstream]
      split
      · exact (hpop hsmall).1
      · exact h.gapFree hsmall k' hk'
    · intro hsmall hc hr
      have hold := h.reach hsmall hc hr
      rw [hstream]
      split
      · next hck => rwa [hck, hs, (hpop hsmall).2] at hold
      · exact hold

end

end Channel

/-! ## Both directions -/

namespace World

/-- Everything side `s` has written on connection `k` and its peer has not read. -/
def stream (w : World) (s : Side) (k : Nat) : List ProtocolMessage :=
  w.unread s k ++ if k = w.connection s then (w.endpoint s).socketWriter.data else []

structure Inv (w : World) : Prop where
  channel : ∀ s, Channel (w.endpoint s) (w.endpoint s.peer) (w.stream s) (w.connection s) (w.gone s.peer)
  current : ∀ s, w.connection s ∉ w.gone s
  fresh : ∀ s k, k ≠ w.connection s → k ∉ w.gone s → w.unread s k = []

theorem peer_ne (s : Side) : s.peer ≠ s := by cases s <;> decide

theorem peer_peer (s : Side) : s.peer.peer = s := by cases s <;> rfl

theorem eq_or_peer (s t : Side) : t = s ∨ t = s.peer := by cases s <;> cases t <;> decide

theorem inv_new : ({} : World).Inv where
  channel := by
    intro s
    refine ⟨rfl, rfl, Nat.le_refl _, Nat.le_refl _, rfl, by simp, ?_, ?_, ?_⟩
    · intro k m hm
      simp [stream] at hm
    · intro _ k _
      simp [stream]
    · intro _ _ _
      exact Nat.zero_le _
  current := by simp
  fresh := by simp

section

variable {w : World} {s : Side} {f : PersistentProtocol → PersistentProtocol}

@[simp] theorem modify_self : (w.modify s f).endpoint s = f (w.endpoint s) := by simp [modify]

@[simp] theorem modify_peer : (w.modify s f).endpoint s.peer = w.endpoint s.peer := by
  simp [modify, Function.update_of_ne (peer_ne s)]

@[simp] theorem modify_connection : (w.modify s f).connection = w.connection := rfl

@[simp] theorem modify_gone : (w.modify s f).gone = w.gone := rfl

@[simp] theorem modify_unread : (w.modify s f).unread = w.unread := rfl

@[simp] theorem stream_modify_peer : (w.modify s f).stream s.peer = w.stream s.peer := by
  funext k
  simp [stream, modify, Function.update_of_ne (peer_ne s)]

/-- What side `s` writes is added to the stream of its connection. -/
theorem stream_modify_self (h : (f (w.endpoint s)).socketWriter.data = (w.endpoint s).socketWriter.data ++ ms) (k : Nat) :
    (w.modify s f).stream s k = w.stream s k ++ if k = w.connection s then ms else [] := by
  simp only [stream, modify_self, modify_connection, modify_unread, h]
  by_cases hk : k = w.connection s <;> simp [hk]

theorem inv_modify (hw : w.Inv)
    (hout : Channel (f (w.endpoint s)) (w.endpoint s.peer) ((w.modify s f).stream s) (w.connection s)
      (w.gone s.peer))
    (hin : Channel (w.endpoint s.peer) (f (w.endpoint s)) (w.stream s.peer) (w.connection s.peer)
      (w.gone s)) : (w.modify s f).Inv where
  channel := by
    intro t
    rcases eq_or_peer s t with rfl | rfl
    · simpa using hout
    · rw [peer_peer]
      simpa using hin
  current := hw.current
  fresh := hw.fresh

theorem inv_channel_in (hw : w.Inv) (s : Side) :
    Channel (w.endpoint s.peer) (w.endpoint s) (w.stream s.peer) (w.connection s.peer) (w.gone s) := by
  have := hw.channel s.peer
  rwa [peer_peer] at this

theorem inv_harmless (hw : w.Inv) {m : List ProtocolMessage} (h : Writes (w.endpoint s) (f (w.endpoint s)) m)
    (hm : Harmless (f (w.endpoint s)).incomingMsgId m) (hq : Quiet (w.endpoint s) (f (w.endpoint s))) :
    (w.modify s f).Inv :=
  inv_modify hw ((hw.channel s).extend_harmless h hm (stream_modify_self h.data))
    ((inv_channel_in hw s).congr_receiver hq)

theorem inv_write (hw : w.Inv) {msg : ProtocolMessage} (ht : msg.type ≠ .regular) (ha : msg.ack = 0) :
    (w.modify s fun p => p.write msg).Inv :=
  inv_harmless (f := fun p => p.write msg) hw (PersistentProtocol.write_writes _ msg)
    (harmless_singleton ht (by omega)) ⟨rfl, rfl⟩

end

variable {w : World}

section

variable (hw : w.Inv) (s : Side)
include hw s

theorem inv_send (now : Nat) (hasHighLoad : Bool) (buffer : VSBuffer) :
    (w.modify s (PersistentProtocol.send now hasHighLoad buffer)).Inv := by
  cases hrec : (w.endpoint s).isReconnecting with
  | true =>
    have hdata : (PersistentProtocol.send now hasHighLoad buffer (w.endpoint s)).socketWriter.data =
        (w.endpoint s).socketWriter.data ++ [] := by simp [PersistentProtocol.send, hrec]
    refine inv_modify hw ((hw.channel s).push buffer 0 rfl ?_ ?_ ?_ ?_ ?_ ?_ ?_) ((inv_channel_in hw s).congr_receiver ⟨?_, ?_⟩)
    all_goals simp [PersistentProtocol.send, hrec]
    intro k
    have := stream_modify_self (f := PersistentProtocol.send now hasHighLoad buffer) hdata k
    simpa using this
  | false =>
    -- the state after queueing and writing, before the timeout check
    let a1 : PersistentProtocol := { w.endpoint s with
      outgoingMsgId := (w.endpoint s).outgoingMsgId + 1
      incomingAckId := (w.endpoint s).incomingMsgId
      sent := (w.endpoint s).sent ++ [buffer]
      outgoingUnackMsg := (w.endpoint s).outgoingUnackMsg ++
        [⟨⟨.regular, (w.endpoint s).outgoingMsgId + 1, (w.endpoint s).incomingMsgId, buffer⟩, now⟩] }
    let a2 := a1.write ⟨.regular, (w.endpoint s).outgoingMsgId + 1, (w.endpoint s).incomingMsgId, buffer⟩
    have hsend : PersistentProtocol.send now hasHighLoad buffer (w.endpoint s) =
        a2.recvAckCheck now hasHighLoad := by simp [PersistentProtocol.send, hrec, a1, a2]
    obtain ⟨hwr, hq⟩ := PersistentProtocol.recvAckCheck_writes a2 now hasHighLoad
    have hpush : Channel a2 (w.endpoint s.peer) ((w.modify s fun _ => a2).stream s) (w.connection s)
        (w.gone s.peer) := by
      refine (hw.channel s).push buffer now rfl rfl rfl rfl rfl rfl rfl ?_
      intro k
      rw [stream_modify_self (f := fun _ => a2) (rfl : a2.socketWriter.data = _ ++ [_]) k]
      simp [hrec]
    have hstream : (w.modify s (PersistentProtocol.send now hasHighLoad buffer)).stream s =
        (w.modify s fun _ => a2).stream s := by
      funext k
      simp only [stream, modify_self, hsend, hwr.data, append_nil]
      rfl
    refine inv_modify hw ?_ ?_
    · rw [hsend, hstream]
      exact hpush.extend_harmless hwr (harmless_nil _) (by simp)
    · rw [hsend]
      exact ((inv_channel_in hw s).congr_receiver (⟨rfl, rfl⟩ : Quiet (w.endpoint s) a2)).congr_receiver hq

theorem inv_endAcceptReconnection (now : Nat) (hasHighLoad : Bool) :
    (w.modify s (PersistentProtocol.endAcceptReconnection now hasHighLoad)).Inv := by
  -- the state after the acknowledgement is written, still counted as reconnecting
  let a1 : PersistentProtocol := { w.endpoint s with incomingAckId := (w.endpoint s).incomingMsgId }
  let a2 := a1.write ⟨.ack, 0, (w.endpoint s).incomingMsgId, []⟩
  let a3 : PersistentProtocol := { a2 with isReconnecting := false }
  have hend : PersistentProtocol.endAcceptReconnection now hasHighLoad (w.endpoint s) =
      a3.resend now hasHighLoad := rfl
  obtain ⟨hwr, hq⟩ := PersistentProtocol.resend_writes a3 now hasHighLoad
  have h2 : (w.modify s fun _ => a2).Inv :=
    inv_harmless (f := fun _ => a2) hw (m := [⟨.ack, 0, (w.endpoint s).incomingMsgId, []⟩])
      ⟨rfl, rfl, rfl, Nat.le_refl _, rfl, rfl, rfl⟩
      (harmless_singleton (show ProtocolMessageType.ack ≠ .regular by decide) (Nat.le_refl _)) ⟨rfl, rfl⟩
  have hdata : (a3.resend now hasHighLoad).socketWriter.data =
      (w.endpoint s).socketWriter.data ++ ([⟨.ack, 0, (w.endpoint s).incomingMsgId, []⟩] ++
        a3.outgoingUnackMsg.map QueuedMessage.message) := by
    rw [hwr.data, ← append_assoc]
    rfl
  have hc2 := h2.channel s
  rw [modify_self, modify_peer, modify_connection, modify_gone] at hc2
  have hstream : ∀ k, (w.modify s (PersistentProtocol.endAcceptReconnection now hasHighLoad)).stream s k =
      (w.modify s fun _ => a2).stream s k ++
        if k = w.connection s then a2.outgoingUnackMsg.map QueuedMessage.message else [] := by
    intro k
    rw [stream_modify_self (by rw [hend]; exact hdata) k,
      stream_modify_self (f := fun _ => a2) (rfl : a2.socketWriter.data = _ ++ [_]) k]
    by_cases hk : k = w.connection s
    · simp only [hk, if_true, append_assoc]
      rfl
    · simp [hk]
  refine inv_modify hw ?_ ?_
  · have hw4 : Writes a2 { a3.resend now hasHighLoad with isReconnecting := a2.isReconnecting }
        (a2.outgoingUnackMsg.map QueuedMessage.message) :=
      ⟨hwr.sent, hwr.outgoingMsgId, hwr.outgoingAckId, hwr.incomingMsgId, rfl, hwr.queue, hwr.data⟩
    have h4 := hc2.extend_queue hw4 hstream
    have hreach : Ipc.reach (w.endpoint s.peer).incomingMsgId
        ((w.modify s (PersistentProtocol.endAcceptReconnection now hasHighLoad)).stream s (w.connection s)) ≥
        a2.sent.length := by
      rw [hstream, if_pos rfl, reach_append]
      exact hc2.queue.reach _ (Nat.le_trans hc2.acked (le_reach _ _))
    have h5 := h4.resume (by simpa [hwr.sent] using hreach)
    rw [hend]
    have hfalse : (a3.resend now hasHighLoad).isReconnecting = false := hwr.isReconnecting
    convert h5 using 1
    cases hp : a3.resend now hasHighLoad
    rw [hp] at hfalse
    subst hfalse
    rfl
  · rw [hend]
    exact ((inv_channel_in hw s).congr_receiver (⟨rfl, rfl⟩ : Quiet (w.endpoint s) a3)).congr_receiver hq

omit hw s in
theorem stream_writeNow (w : World) (s t : Side) : (w.writeNow s).stream t = w.stream t := by
  unfold writeNow
  split
  · rfl
  · funext k
    rcases eq_or_peer s t with rfl | rfl
    · by_cases hk : k = w.connection t
      · subst hk
        simp [stream]
      · simp [stream, hk]
    · simp [stream, Function.update_of_ne (peer_ne s)]

omit hw s in
theorem endpoint_writeNow (w : World) (s t : Side) :
    (w.writeNow s).endpoint t = { w.endpoint t with
      socketWriter := ((w.writeNow s).endpoint t).socketWriter } := by
  unfold writeNow
  split
  · rfl
  · rcases eq_or_peer s t with rfl | rfl
    · simp
    · simp [Function.update_of_ne (peer_ne s)]

theorem inv_writeNow : (w.writeNow s).Inv := by
  have hconn : (w.writeNow s).connection = w.connection := by unfold writeNow; split <;> rfl
  have hgone : (w.writeNow s).gone = w.gone := by unfold writeNow; split <;> rfl
  refine ⟨?_, ?_, ?_⟩
  · intro t
    have h := hw.channel t
    rw [stream_writeNow, hconn, hgone, endpoint_writeNow w s t, endpoint_writeNow w s t.peer]
    exact ⟨h.count, h.fired, h.le, h.acked, h.queue, h.queueAck, h.written, h.gapFree, h.reach⟩
  · rw [hconn, hgone]
    exact hw.current
  · intro t k hk hg
    rw [hconn] at hk
    rw [hgone] at hg
    have := hw.fresh t k hk hg
    unfold writeNow
    split
    · exact this
    · rcases eq_or_peer s t with rfl | rfl
      · simpa [hk] using this
      · simpa [Function.update_of_ne (peer_ne s)] using this

theorem inv_beginAcceptReconnection (now connection : Nat) :
    (w.beginAcceptReconnection s now connection).Inv := by
  unfold beginAcceptReconnection
  split
  · exact hw
  · next hnew =>
    have hconn : (w.writeNow s).connection = w.connection := by unfold writeNow; split <;> rfl
    have hgone : (w.writeNow s).gone = w.gone := by unfold writeNow; split <;> rfl
    have h1 := inv_writeNow hw s
    rw [← hconn, ← hgone, not_or] at hnew
    generalize w.writeNow s = w1 at h1 hnew
    refine ⟨?_, ?_, ?_⟩
    · intro t
      rcases eq_or_peer s t with rfl | rfl
      · simp only [modify_self, modify_peer, modify_connection, modify_gone, Function.update_self,
          Function.update_of_ne (peer_ne t)]
        refine (h1.channel t).reconnect rfl rfl rfl rfl rfl rfl ?_
        intro k
        -- nothing is written yet on the new connection and its writer is empty
        have hdata : (PersistentProtocol.beginAcceptReconnection now (w1.endpoint t)).socketWriter.data = [] := rfl
        simp only [stream, modify_self, modify_unread, hdata, ite_self, append_nil]
        exact prefix_append _ _
      · rw [peer_peer]
        simp only [modify_self, modify_peer, modify_connection, modify_gone, Function.update_self,
          Function.update_of_ne (peer_ne s), stream_modify_peer]
        have h := ((inv_channel_in h1 s).leave (w1.connection s)).congr_receiver
          (⟨rfl, rfl⟩ : Quiet (w1.endpoint s) (PersistentProtocol.beginAcceptReconnection now (w1.endpoint s)))
        have hstream : (⟨w1.endpoint, Function.update w1.connection s connection,
            Function.update w1.gone s (w1.connection s :: w1.gone s), w1.unread⟩ : World).stream s.peer =
            w1.stream s.peer := by
          funext k
          simp [stream, Function.update_of_ne (peer_ne s)]
        rw [hstream]
        exact h
    · intro t
      rcases eq_or_peer s t with rfl | rfl
      · simpa using hnew
      · simpa [Function.update_of_ne (peer_ne s)] using h1.current s.peer
    · intro t k hk hg
      rcases eq_or_peer s t with rfl | rfl
      · simp only [modify_gone, Function.update_self, mem_cons, not_or] at hg
        exact h1.fresh t k hg.1 hg.2
      · simp only [modify_gone, modify_connection, Function.update_of_ne (peer_ne s)] at hk hg
        exact h1.fresh s.peer k hk hg

theorem inv_deliver (now : Nat) (hasHighLoad : Bool) :
    (w.deliver s now hasHighLoad).Inv := by
  unfold deliver
  split
  · exact hw
  · next msg rest hunread =>
    have hin := inv_channel_in hw s
    have hhead : w.stream s.peer (w.connection s) = msg :: (rest ++
        if w.connection s = w.connection s.peer then (w.endpoint s.peer).socketWriter.data else []) := by
      simp [stream, hunread]
    have hack : msg.received.ack ≤ (w.endpoint s.peer).incomingMsgId :=
      Nat.le_trans (Nat.mod_le _ _) (hin.written _ msg (by rw [hhead]; simp)).1
    obtain ⟨ms, hwr, hms⟩ := PersistentProtocol.receiveMessage_writes (w.endpoint s) now hasHighLoad msg.received
    have hread : Writes (w.endpoint s) { w.endpoint s with lastReadTime := now } [] :=
      ⟨rfl, rfl, rfl, Nat.le_refl _, rfl, rfl, by simp⟩
    have hsame : ∀ k, w.stream s k = w.stream s k ++ if k = w.connection s then [] else [] := by simp
    have hout := ((hw.channel s).extend_harmless hread (harmless_nil _) hsame).acceptAck hack
    have hacc := PersistentProtocol.receiveMessage_accepts (w.endpoint s) now hasHighLoad msg.received
    have hdata : (PersistentProtocol.receiveMessage now hasHighLoad msg.received
        (w.endpoint s)).socketWriter.data = (w.endpoint s).socketWriter.data ++ ms := by
      rw [hwr.data]
      congr 1
      unfold PersistentProtocol.acceptAck
      split <;> rfl
    refine ⟨?_, hw.current, ?_⟩
    · intro t
      rcases eq_or_peer s t with rfl | rfl
      · have hstream : ∀ k, (({ w with
            unread := Function.update w.unread t.peer
              (Function.update (w.unread t.peer) (w.connection t) rest) } : World).modify t
            (PersistentProtocol.receiveMessage now hasHighLoad msg.received)).stream t k =
            w.stream t k ++ if k = w.connection t then ms else [] := by
          intro k
          simp only [stream, modify_self, modify_connection, modify_unread, hdata,
            Function.update_of_ne (peer_ne t).symm]
          split
          · simp
          · simp
        simp only [modify_self, modify_peer, modify_connection, modify_gone]
        rcases hms with hms | rfl
        · exact hout.extend_harmless hwr hms hstream
        · exact hout.extend_queue hwr hstream
      · rw [peer_peer]
        simp only [modify_self, modify_peer, modify_connection, modify_gone, stream_modify_peer]
        refine hin.receive (hw.current s) hhead hacc ?_
        intro k
        by_cases hk : k = w.connection s
        · subst hk
          simp [stream]
        · simp [stream, hk]
    · intro t k hk hg
      rcases eq_or_peer s t with rfl | rfl
      · simpa [Function.update_of_ne (peer_ne t).symm] using hw.fresh t k hk hg
      · have := hw.fresh s.peer k hk hg
        by_cases hkc : k = w.connection s
        · subst hkc
          rw [this] at hunread
          cases hunread
        · simpa [hkc] using this

theorem inv_step (action : Action) : (w.step s action).Inv := by
  cases action with
  | send now hasHighLoad buffer => exact inv_send hw s now hasHighLoad buffer
  | writeNow => exact inv_writeNow hw s
  | deliver now hasHighLoad => exact inv_deliver hw s now hasHighLoad
  | incomingAckTimeout now =>
    obtain ⟨ms, h, hm, hq⟩ := PersistentProtocol.onIncomingAckTimeout_writes (w.endpoint s) now
    exact inv_harmless hw h (by rw [hq.incomingMsgId]; exact hm) hq
  | outgoingAckTimeout now hasHighLoad =>
    obtain ⟨h, hq⟩ := PersistentProtocol.onOutgoingAckTimeout_writes (w.endpoint s) now hasHighLoad
    exact inv_harmless hw h (harmless_nil _) hq
  | keepAlive =>
    exact inv_harmless (f := PersistentProtocol.sendKeepAlive) hw
      (m := [⟨.keepAlive, 0, (w.endpoint s).incomingMsgId, []⟩])
      ⟨rfl, rfl, rfl, Nat.le_refl _, rfl, rfl, rfl⟩
      (harmless_singleton (show ProtocolMessageType.keepAlive ≠ .regular by decide) (Nat.le_refl _))
      ⟨rfl, rfl⟩
  | sendControl buffer => exact inv_write hw (show ProtocolMessageType.control ≠ .regular by decide) rfl
  | sendDisconnect => exact inv_write hw (show ProtocolMessageType.disconnect ≠ .regular by decide) rfl
  | sendPause => exact inv_write hw (show ProtocolMessageType.pause ≠ .regular by decide) rfl
  | sendResume => exact inv_write hw (show ProtocolMessageType.resume ≠ .regular by decide) rfl
  | pauseSocketWriting =>
    exact inv_harmless (f := PersistentProtocol.pauseSocketWriting) hw (m := [])
      ⟨rfl, rfl, rfl, Nat.le_refl _, rfl, rfl, by simp [PersistentProtocol.pauseSocketWriting]⟩
      (harmless_nil _) ⟨rfl, rfl⟩
  | replayRequest => exact inv_write hw (show ProtocolMessageType.replayRequest ≠ .regular by decide) rfl
  | beginAcceptReconnection now connection => exact inv_beginAcceptReconnection hw s now connection
  | endAcceptReconnection now hasHighLoad => exact inv_endAcceptReconnection hw s now hasHighLoad

end

theorem inv_run (actions : List (Side × Action)) : ∀ w : World, w.Inv → (w.run actions).Inv := by
  induction actions with
  | nil => intro w hw; exact hw
  | cons x actions ih => intro w hw; exact ih _ (inv_step hw x.1 x.2)

end World

theorem Consecutive.data (ms : List ProtocolMessage) : ∀ {a : Nat},
    Consecutive sent a ms → ms.map ProtocolMessage.data = sent.drop a ∧
      ms.map ProtocolMessage.id = range' (a + 1) (sent.length - a) := by
  induction ms with
  | nil =>
    intro a h
    have h' : a = sent.length := h
    subst h'
    simp
  | cons m ms ih =>
    intro a h
    obtain ⟨-, hid, hd, hrest⟩ := h
    obtain ⟨hlt, hd⟩ := List.getElem?_eq_some_iff.mp hd
    obtain ⟨ih1, ih2⟩ := ih hrest
    constructor
    · rw [map_cons, ih1, drop_eq_getElem_cons hlt, hd]
    · rw [map_cons, ih2, hid, show sent.length - a = (sent.length - (a + 1)) + 1 by omega,
        range'_succ]

/-- **Exactly once, in order, across reconnections.**  After any interleaving of actions at both sides,
the payloads fired at the peer are a prefix of the payloads sent by side `s`, and the queue of side `s`
holds, with consecutive ids, a suffix of its sent payloads that includes everything the peer has not
accepted. -/
theorem delivered_exactly_once (actions : List (Side × Action)) (s : Side) :
    let w := World.run {} actions
    (w.endpoint s.peer).fired <+: (w.endpoint s).sent ∧
      ∃ confirmed, confirmed ≤ (w.endpoint s.peer).fired.length ∧
        (w.endpoint s).outgoingUnackMsg.map (fun q => q.message.data) = (w.endpoint s).sent.drop confirmed ∧
        (w.endpoint s).outgoingUnackMsg.map (fun q => q.message.id) =
          range' (confirmed + 1) ((w.endpoint s).sent.length - confirmed) := by
  intro w
  have hc : Channel (w.endpoint s) (w.endpoint s.peer) (w.stream s) (w.connection s) (w.gone s.peer) :=
    (World.inv_run actions {} World.inv_new).channel s
  refine ⟨?_, (w.endpoint s).outgoingAckId, ?_, ?_, ?_⟩
  · rw [hc.fired]
    exact take_prefix _ _
  · rw [hc.fired, length_take, Nat.min_eq_left hc.le]
    exact hc.acked
  · have := (hc.queue.data _).1
    rwa [map_map] at this
  · have := (hc.queue.data _).2
    rwa [map_map] at this

end TongjiCode.Ipc
