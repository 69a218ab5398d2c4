import Mathlib.Algebra.Order.Ring.Int
import Mathlib.Data.List.GetD

/-!
# `VSBuffer` and `ChunkStream`

A `VSBuffer` is a byte sequence; `slice` is `take`/`drop`, `concat` is `flatten`.  The multi-byte
accessors are the ones of `base/common/buffer.ts`: storing a number in a `Uint8Array` keeps it
modulo 256 and `>>>` works on the number modulo `2 ^ 32`.

`ChunkStream` (`base/parts/ipc/common/ipc.net.ts`) is a queue of chunks with a running byte count.
`_read` has three paths: the first chunk exactly, inside the first chunk, across chunks.  All of them
return the first `byteCount` bytes of the queue (`read_spec`).
-/

open List

namespace TongjiCode.Ipc

abbrev VSBuffer := List UInt8

/-! ## Multi-byte accessors -/

/-- `value >>> 8`: the operand is first taken modulo `2 ^ 32`. -/
def ushr8 (value : Nat) : Nat := value % 2 ^ 32 / 2 ^ 8

def readUInt8 (source : VSBuffer) (offset : Nat) : UInt8 := source.getD offset 0

def writeUInt8 (destination : VSBuffer) (value : UInt8) (offset : Nat) : VSBuffer :=
  destination.set offset value

def readUInt32BE (source : VSBuffer) (offset : Nat) : Nat :=
  (source.getD offset 0).toNat * 2 ^ 24 + (source.getD (offset + 1) 0).toNat * 2 ^ 16 +
    (source.getD (offset + 2) 0).toNat * 2 ^ 8 + (source.getD (offset + 3) 0).toNat

def writeUInt32BE (destination : VSBuffer) (value offset : Nat) : VSBuffer :=
  let destination := destination.set (offset + 3) value.toUInt8
  let value := ushr8 value
  let destination := destination.set (offset + 2) value.toUInt8
  let value := ushr8 value
  let destination := destination.set (offset + 1) value.toUInt8
  let value := ushr8 value
  destination.set offset value.toUInt8

/-- The four bytes `writeUInt32BE` stores, most significant first. -/
def bytesBE (value : Nat) : VSBuffer :=
  [(ushr8 (ushr8 (ushr8 value))).toUInt8, (ushr8 (ushr8 value)).toUInt8, (ushr8 value).toUInt8,
    value.toUInt8]

theorem bytesBE_length (value : Nat) : (bytesBE value).length = 4 := rfl

/-- Reading back four stored bytes gives the number modulo `2 ^ 32`. -/
theorem readUInt32BE_bytesBE (value : Nat) (front back : VSBuffer) :
    readUInt32BE (front ++ bytesBE value ++ back) front.length = value % 2 ^ 32 := by
  have hget : ∀ i, i < 4 →
      (front ++ bytesBE value ++ back).getD (front.length + i) 0 = (bytesBE value).getD i 0 := by
    intro i hi
    rw [append_assoc, getD_append_right _ _ _ _ (by omega),
      getD_append _ _ _ _ (by rw [bytesBE_length]; omega)]
    congr 1
    omega
  unfold readUInt32BE
  rw [show front.length = front.length + 0 from rfl, hget 0 (by omega), Nat.add_zero,
    hget 1 (by omega), hget 2 (by omega), hget 3 (by omega)]
  simp only [bytesBE, ushr8, getD_cons_zero, getD_cons_succ, Nat.toUInt8, UInt8.toNat_ofNat']
  omega

/-! ## `ChunkStream` -/

structure ChunkStream where
  chunks : List VSBuffer
  totalLength : Nat
deriving Repr, DecidableEq

namespace ChunkStream

def empty : ChunkStream := ⟨[], 0⟩

def byteLength (s : ChunkStream) : Nat := s.totalLength

def acceptChunk (s : ChunkStream) (buff : VSBuffer) : ChunkStream :=
  ⟨s.chunks ++ [buff], s.totalLength + buff.length⟩

/-- The loop of `_read` across chunks: `passed` are the chunks before `chunkIndex` (they stay in the
queue only when not advancing), `result` the bytes copied so far.  `none` is the type error on
reading past the last chunk. -/
def readLoop (advance : Bool) (passed : List VSBuffer) (totalLength byteCount : Nat)
    (result : VSBuffer) : List VSBuffer → Option (VSBuffer × ChunkStream)
  | [] => if byteCount > 0 then none else some (result, ⟨passed, totalLength⟩)
  | chunk :: rest =>
    if byteCount > 0 then
      if chunk.length > byteCount then
        -- this chunk will survive
        let result := result ++ chunk.take byteCount
        if advance then some (result, ⟨passed ++ chunk.drop byteCount :: rest, totalLength - byteCount⟩)
        else some (result, ⟨passed ++ chunk :: rest, totalLength⟩)
      else
        -- this chunk will be entirely read
        let result := result ++ chunk
        if advance then
          readLoop advance passed (totalLength - chunk.length) (byteCount - chunk.length) result rest
        else
          readLoop advance (passed ++ [chunk]) totalLength (byteCount - chunk.length) result rest
    else some (result, ⟨passed ++ chunk :: rest, totalLength⟩)

/-- `_read`; `none` is the thrown "Cannot read so many bytes!". -/
def readBytes (s : ChunkStream) (byteCount : Nat) (advance : Bool) : Option (VSBuffer × ChunkStream) :=
  if byteCount = 0 then some ([], s)
  else if byteCount > s.totalLength then none
  else
    match s.chunks with
    | [] => none
    | first :: rest =>
      if first.length = byteCount then
        some (first, if advance then ⟨rest, s.totalLength - byteCount⟩ else s)
      else if first.length > byteCount then
        some (first.take byteCount,
          if advance then ⟨first.drop byteCount :: rest, s.totalLength - byteCount⟩ else s)
      else readLoop advance [] s.totalLength byteCount [] s.chunks

def read (s : ChunkStream) (byteCount : Nat) : Option (VSBuffer × ChunkStream) :=
  s.readBytes byteCount true

def bytes (s : ChunkStream) : VSBuffer := s.chunks.flatten

/-- The running count is the number of queued bytes. -/
def Counted (s : ChunkStream) : Prop := s.totalLength = s.bytes.length

/-! ## Lemmas -/

theorem counted_acceptChunk {s : ChunkStream} (buff : VSBuffer) (h : s.Counted) :
    (s.acceptChunk buff).Counted := by
  simp only [Counted, acceptChunk, bytes, flatten_append, length_append] at *
  simp [h]

theorem bytes_acceptChunk (s : ChunkStream) (buff : VSBuffer) :
    (s.acceptChunk buff).bytes = s.bytes ++ buff := by
  simp [acceptChunk, bytes]

/-- The loop with `advance`: it copies the next `byteCount` bytes and keeps the others. -/
theorem readLoop_advance (rest : List VSBuffer) :
    ∀ (totalLength byteCount : Nat) (result : VSBuffer), byteCount ≤ rest.flatten.length →
      totalLength = rest.flatten.length →
      ∃ s', readLoop true [] totalLength byteCount result rest =
          some (result ++ rest.flatten.take byteCount, s') ∧
        s'.bytes = rest.flatten.drop byteCount ∧ s'.Counted := by
  induction rest with
  | nil =>
    intro totalLength byteCount result hle ht
    have h0 : byteCount = 0 := by simpa using hle
    subst h0
    exact ⟨⟨[], totalLength⟩, by simp [readLoop], by simp [bytes], by simpa [Counted, bytes] using ht⟩
  | cons chunk rest ih =>
    intro totalLength byteCount result hle ht
    rw [flatten_cons, length_append] at hle ht
    by_cases hpos : byteCount > 0
    · by_cases hlong : chunk.length > byteCount
      · refine ⟨⟨chunk.drop byteCount :: rest, totalLength - byteCount⟩, ?_, ?_, ?_⟩
        · simp [readLoop, hpos, hlong, take_append_of_le_length (Nat.le_of_lt hlong)]
        · simp [bytes, drop_append_of_le_length (Nat.le_of_lt hlong)]
        · simp only [Counted, bytes, flatten_cons, length_append, length_drop]
          omega
      · obtain ⟨s', heq, hb, hc⟩ := ih (totalLength - chunk.length) (byteCount - chunk.length)
          (result ++ chunk) (by omega) (by omega)
        have htake : (chunk ++ rest.flatten).take byteCount =
            chunk ++ rest.flatten.take (byteCount - chunk.length) := by
          rw [take_append, take_of_length_le (by omega)]
        refine ⟨s', ?_, ?_, hc⟩
        · simp only [readLoop, hpos, hlong, if_true, if_false, flatten_cons]
          rw [heq, htake, append_assoc]
        · have hdrop : chunk.drop byteCount = [] := drop_of_length_le (by omega)
          rw [hb, flatten_cons, drop_append, hdrop, nil_append]
    · have h0 : byteCount = 0 := by omega
      subst h0
      refine ⟨⟨chunk :: rest, totalLength⟩, by simp [readLoop], by simp [bytes], ?_⟩
      simpa [Counted, bytes] using ht

/-- `read` takes the first `byteCount` bytes off the queue, whatever the chunks are. -/
theorem read_spec (s : ChunkStream) (byteCount : Nat) (h : s.Counted) (hle : byteCount ≤ s.bytes.length) :
    ∃ s', s.read byteCount = some (s.bytes.take byteCount, s') ∧
      s'.bytes = s.bytes.drop byteCount ∧ s'.Counted := by
  obtain ⟨chunks, totalLength⟩ := s
  simp only [Counted, bytes] at h hle
  unfold read readBytes
  by_cases h0 : byteCount = 0
  · subst h0
    exact ⟨⟨chunks, totalLength⟩, by simp, by simp [bytes], by simpa [Counted, bytes] using h⟩
  rw [if_neg h0, if_neg (show ¬ byteCount > totalLength by omega)]
  cases chunks with
  | nil => simp at hle; omega
  | cons first rest =>
    rw [flatten_cons, length_append] at hle h
    by_cases heq : first.length = byteCount
    · refine ⟨⟨rest, totalLength - byteCount⟩, ?_, ?_, ?_⟩
      · subst heq; simp [bytes]
      · subst heq; simp [bytes]
      · simp only [Counted, bytes]; omega
    · by_cases hlong : first.length > byteCount
      · refine ⟨⟨first.drop byteCount :: rest, totalLength - byteCount⟩, ?_, ?_, ?_⟩
        · simp [heq, hlong, bytes, take_append_of_le_length (Nat.le_of_lt hlong)]
        · simp [bytes, drop_append_of_le_length (Nat.le_of_lt hlong)]
        · simp only [Counted, bytes, flatten_cons, length_append, length_drop]
          omega
      · obtain ⟨s', hr, hb, hc⟩ := readLoop_advance (first :: rest) totalLength byteCount []
          (by rw [flatten_cons, length_append]; omega)
          (by rw [flatten_cons, length_append]; omega)
        refine ⟨s', ?_, hb, hc⟩
        simp only [heq, hlong, if_false]
        rw [hr, nil_append]
        rfl

end ChunkStream

end TongjiCode.Ipc
