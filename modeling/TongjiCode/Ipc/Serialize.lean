import TongjiCode.Ipc.ChunkStream

/-!
# `serialize` and `deserialize`

The codec of `base/parts/ipc/common/ipc.ts` for the values that are sent between two processes: a byte that tells the type,
then the value.  Lengths and integers are written as variable-length quantities, seven bits a byte, the lowest first.

What `JSON` does is a parameter, and so is the text that bytes which are not UTF-8 are decoded to.  `-0` is not among the
values here, nor are strings with lone surrogates.
-/

namespace TongjiCode.Ipc

/-! ## Values -/

/-- The values that `serialize` tells apart; `Obj` is the type of those that it leaves to `JSON`. -/
inductive Value (Obj : Type) where
  | undefined
  | string (value : String)
  | buffer (bytes : VSBuffer)
  | vsBuffer (bytes : VSBuffer)
  | array (elements : List (Value Obj))
  /-- A number that `| 0` does not change. -/
  | int (value : BitVec 32)
  | other (value : Obj)

/-- `JSON.stringify`, which may have no text for a value, and `JSON.parse`, which may throw. -/
structure Json (Obj : Type) where
  stringify : Obj → Option String
  parse : String → Option (Value Obj)

def fromString (source : String) : VSBuffer := source.toUTF8.data.toList

def bufferToString (malformed : VSBuffer → String) (buffer : VSBuffer) : String :=
  match String.fromUTF8? ⟨buffer.toArray⟩ with
  | some text => text
  | none => malformed buffer

theorem bufferToString_fromString (malformed : VSBuffer → String) (source : String) :
    bufferToString malformed (fromString source) = source := by
  have hvalid : String.fromUTF8? source.toUTF8 = some source := by
    unfold String.fromUTF8?
    rw [String.toUTF8_eq_toByteArray, dif_pos source.isValidUTF8]
    rfl
  show (match String.fromUTF8? source.toUTF8 with | some text => text | none => _) = source
  rw [hvalid]

/-! ## The reader and the writer -/

/-- An index of `subarray`, which counts from the end if it is negative. -/
def relativeIndex (length : Nat) (index : Int) : Nat :=
  if index < 0 then (length + index).toNat else min index.toNat length

def slice (buffer : VSBuffer) (start stop : Int) : VSBuffer :=
  (buffer.take (relativeIndex buffer.length stop)).drop (relativeIndex buffer.length start)

structure BufferReader where
  buffer : VSBuffer
  pos : Nat
deriving DecidableEq, Repr

abbrev Reading := StateT BufferReader Option

/-- `read`, for any number that a length was read as. -/
def read (bytes : Int) : Reading VSBuffer := fun reader =>
  let result := slice reader.buffer reader.pos (reader.pos + bytes)
  some (result, { reader with pos := reader.pos + result.length })

structure BufferWriter where
  buffers : List VSBuffer := []
deriving DecidableEq, Repr

namespace BufferWriter

def buffer (writer : BufferWriter) : VSBuffer := writer.buffers.flatten

def write (writer : BufferWriter) (buffer : VSBuffer) : BufferWriter := ⟨writer.buffers ++ [buffer]⟩

@[simp] theorem buffer_write (writer : BufferWriter) (buffer : VSBuffer) :
    (writer.write buffer).buffer = writer.buffer ++ buffer := by
  simp [BufferWriter.write, BufferWriter.buffer]

end BufferWriter

/-! ## Variable-length quantities -/

theorem ushr7_toNat (value : BitVec 32) : (value >>> 7).toNat = value.toNat / 128 := by
  rw [BitVec.toNat_ushiftRight, Nat.shiftRight_eq_div_pow]

theorem ushr7_lt {value : BitVec 32} (h : value >>> 7 ≠ 0) : (value >>> 7).toNat < value.toNat := by
  have hpos : (value >>> 7).toNat ≠ 0 := fun hzero => h (BitVec.eq_of_toNat_eq hzero)
  rw [ushr7_toNat] at hpos ⊢
  omega

/-- The first loop of `writeInt32VQL`.  A number that is not zero has one round, also if it is a multiple of `2 ^ 32`. -/
def vqlLength (value : BitVec 32) : Nat :=
  if _h : value >>> 7 = 0 then 1 else vqlLength (value >>> 7) + 1
termination_by value.toNat
decreasing_by exact ushr7_lt _h

/-- The second loop of `writeInt32VQL`. -/
def fillVQL (scratch : VSBuffer) (i : Nat) (value : BitVec 32) : VSBuffer :=
  let byte := (value &&& 0b01111111#32).toNat.toUInt8
  if _h : value >>> 7 = 0 then scratch.set i byte
  else fillVQL (scratch.set i (byte ||| 0b10000000)) (i + 1) (value >>> 7)
termination_by value.toNat
decreasing_by exact ushr7_lt _h

def writeInt32VQL (writer : BufferWriter) (value : Int) : BufferWriter :=
  if value = 0 then writer.write [0]
  else
    let value := BitVec.ofInt 32 value
    writer.write (fillVQL (List.replicate (vqlLength value) 0) 0 value)

theorem read_one_length {reader reader' : BufferReader} {next : UInt8} {rest : VSBuffer}
    (h : read 1 reader = some (next :: rest, reader')) :
    reader'.buffer.length - reader'.pos < reader.buffer.length - reader.pos := by
  obtain ⟨hslice, rfl⟩ := Prod.mk.inj (Option.some.inj h)
  have hlength := congrArg List.length hslice
  unfold slice relativeIndex at hlength
  rw [List.length_drop, List.length_take, List.length_cons] at hlength
  show reader.buffer.length - (reader.pos + (slice reader.buffer reader.pos (reader.pos + 1)).length) < _
  rw [hslice, List.length_cons]
  split at hlength <;> split at hlength <;> omega

/-- The loop of `readIntVQL`; `<<` shifts by `n` modulo 32. -/
def readIntVQLFrom (value : BitVec 32) (n : Nat) : Reading (BitVec 32) := fun reader =>
  match _h : read 1 reader with
  | some (next :: _, reader') =>
    let value := value ||| (BitVec.ofNat 32 (next &&& 0b01111111).toNat <<< (n % 32))
    if next &&& 0b10000000 = 0 then some (value, reader') else readIntVQLFrom value (n + 7) reader'
  -- after the end of the buffer there is `undefined`, whose bits are zeros
  | some ([], reader') => some (value, reader')
  | none => none
termination_by reader => reader.buffer.length - reader.pos
decreasing_by exact read_one_length _h

def readIntVQL : Reading (BitVec 32) := readIntVQLFrom 0 0

/-! ## The codec -/

section Codec

variable {Obj : Type} (json : Json Obj)

mutual

/-- `serialize`.  There is no result if `VSBuffer.fromString` throws because there is no text. -/
def serialize (writer : BufferWriter) : Value Obj → Option BufferWriter
  | .undefined => some (writer.write [0])
  | .string data =>
    let buffer := fromString data
    some ((writeInt32VQL (writer.write [1]) buffer.length).write buffer)
  | .buffer data => some ((writeInt32VQL (writer.write [2]) data.length).write data)
  | .vsBuffer data => some ((writeInt32VQL (writer.write [3]) data.length).write data)
  | .array data => serializeAll (writeInt32VQL (writer.write [4]) data.length) data
  | .int data => some (writeInt32VQL (writer.write [6]) data.toInt)
  | .other data =>
    match json.stringify data with
    | some text =>
      let buffer := fromString text
      some ((writeInt32VQL (writer.write [5]) buffer.length).write buffer)
    | none => none

def serializeAll (writer : BufferWriter) : List (Value Obj) → Option BufferWriter
  | [] => some writer
  | el :: data =>
    match serialize writer el with
    | some writer => serializeAll writer data
    | none => none

end

/-- Read so many values, one after the other. -/
def readAll {α : Type} (readOne : Reading α) : Nat → Reading (List α)
  | 0 => pure []
  | n + 1 => do
    let el ← readOne
    let result ← readAll readOne n
    return el :: result

variable (malformed : VSBuffer → String)

/-- The `switch` of `deserialize`, which reads the elements of an array by `again`. -/
def deserializeAs (again : Reading (Value Obj)) (type : Option UInt8) : Reading (Value Obj) :=
  match type with
  | some 1 => do
    let length ← readIntVQL
    return .string (bufferToString malformed (← read length.toInt))
  | some 2 => do
    let length ← readIntVQL
    return .buffer (← read length.toInt)
  | some 3 => do
    let length ← readIntVQL
    return .vsBuffer (← read length.toInt)
  | some 4 => do
    let length ← readIntVQL
    return .array (← readAll again length.toInt.toNat)
  | some 5 => do
    let length ← readIntVQL
    json.parse (bufferToString malformed (← read length.toInt))
  | some 6 => do return .int (← readIntVQL)
  -- the type of `undefined`, another byte, or the end of the buffer
  | _ => pure .undefined

/-- `deserialize`, for arrays that are nested less deeply than `fuel` says. -/
def deserializeFrom : Nat → Reading (Value Obj)
  | 0 => fun _ => none
  | fuel + 1 => do
    let type ← read 1
    deserializeAs json malformed (deserializeFrom fuel) type.head?

/-- `deserialize`.  Each array that is begun has taken a byte. -/
def deserialize : Reading (Value Obj) := fun reader =>
  deserializeFrom json malformed (reader.buffer.length - reader.pos + 1) reader

end Codec

end TongjiCode.Ipc
