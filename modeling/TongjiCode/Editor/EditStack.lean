import TongjiCode.Base.Utf16
import TongjiCode.Editor.TextChange
import TongjiCode.Ipc.ChunkStream

/-!
# Serialised edit stack elements

`SingleModelEditStackData.serialize` writes version ids, line endings, selections and text changes into one byte buffer of the
size it computes beforehand; `deserialize` reads them back at running offsets.  A text is written code unit by code unit but read
through a `Uint16Array` view and a `TextDecoder`.

* `deserialize_serialize_iff`: reading it back gives the data exactly when every text is decoded exactly.
-/

open List

namespace TongjiCode.Editor

open Ipc (VSBuffer readUInt8 writeUInt8 readUInt32BE writeUInt32BE bytesBE)

/-! ## Two-byte accessors -/

def readUInt16LE (source : VSBuffer) (offset : Nat) : UInt16 :=
  Utf16.codeUnit (source.getD offset 0) (source.getD (offset + 1) 0)

def writeUInt16LE (destination : VSBuffer) (value : UInt16) (offset : Nat) : VSBuffer :=
  let destination := destination.set offset value.toUInt8
  destination.set (offset + 1) (value >>> 8).toUInt8

/-! ## Decoding -/

/-- The bytes of `new Uint16Array(source.buffer, offset, len)`; none is the range error on an offset that is not aligned or a view
that does not fit. -/
def uint16Array (source : VSBuffer) (offset len : Nat) : Option VSBuffer :=
  if offset % 2 = 0 ∧ offset + 2 * len ≤ source.length then some ((source.drop offset).take (2 * len)) else none

/-- An element of the view, in the byte order of the platform. -/
def viewAt (littleEndian : Bool) (view : VSBuffer) (i : Nat) : UInt16 :=
  if littleEndian then Utf16.codeUnit (view.getD (2 * i) 0) (view.getD (2 * i + 1) 0)
  else Utf16.codeUnit (view.getD (2 * i + 1) 0) (view.getD (2 * i) 0)

/-- `compatDecodeUTF16LE`: the code units as they stand. -/
def compatDecodeUTF16LE (source : VSBuffer) : Nat → Nat → JsString
  | _, 0 => []
  | offset, len + 1 => readUInt16LE source offset :: compatDecodeUTF16LE source (offset + 2) len

def decodeUTF16LE (littleEndian : Bool) (source : VSBuffer) (offset len : Nat) : Option JsString :=
  match uint16Array source offset len with
  | none => none
  | some view =>
    if len > 0 ∧ (viewAt littleEndian view 0 = 0xFEFF ∨ viewAt littleEndian view 0 = 0xFFFE) then
      some (compatDecodeUTF16LE source offset len)
    else some (Utf16.textDecoderDecode view)

/-! ## Text changes -/

namespace TextChange

def writeStringSize (str : JsString) : Nat := 4 + 2 * str.length

def writeChars (b : VSBuffer) : JsString → Nat → VSBuffer × Nat
  | [], offset => (b, offset)
  | u :: us, offset => writeChars (writeUInt16LE b u offset) us (offset + 2)

def writeString (b : VSBuffer) (str : JsString) (offset : Nat) : VSBuffer × Nat :=
  writeChars (writeUInt32BE b str.length offset) str (offset + 4)

def readString (littleEndian : Bool) (b : VSBuffer) (offset : Nat) : Option JsString :=
  decodeUTF16LE littleEndian b (offset + 4) (readUInt32BE b offset)

def writeSize (c : TextChange) : Nat := 4 + 4 + writeStringSize c.oldText + writeStringSize c.newText

/-- A position as `writeUInt32BE` takes it: modulo `2 ^ 32`. -/
def position32 (position : Int) : Nat := (position % 2 ^ 32).toNat

def write (c : TextChange) (b : VSBuffer) (offset : Nat) : VSBuffer × Nat :=
  let b := writeUInt32BE b (position32 c.oldPosition) offset
  let offset := offset + 4
  let b := writeUInt32BE b (position32 c.newPosition) offset
  let offset := offset + 4
  let (b, offset) := writeString b c.oldText offset
  writeString b c.newText offset

def read (littleEndian : Bool) (b : VSBuffer) (offset : Nat) : Option (TextChange × Nat) := do
  let oldPosition := readUInt32BE b offset
  let offset := offset + 4
  let newPosition := readUInt32BE b offset
  let offset := offset + 4
  let oldText ← readString littleEndian b offset
  let offset := offset + writeStringSize oldText
  let newText ← readString littleEndian b offset
  let offset := offset + writeStringSize newText
  return (⟨oldPosition, oldText, newPosition, newText⟩, offset)

end TextChange

/-! ## Edit stack data -/

/-- The numbers of `EndOfLineSequence`; `deserialize` takes over any byte. -/
abbrev EndOfLineSequence := UInt8

namespace EndOfLineSequence

def lf : EndOfLineSequence := 0
def crlf : EndOfLineSequence := 1

end EndOfLineSequence

structure Selection where
  selectionStartLineNumber : Nat
  selectionStartColumn : Nat
  positionLineNumber : Nat
  positionColumn : Nat
  deriving Repr, DecidableEq

structure SingleModelEditStackData where
  beforeVersionId : Nat
  afterVersionId : Nat
  beforeEOL : EndOfLineSequence
  afterEOL : EndOfLineSequence
  beforeCursorState : Option (List Selection)
  afterCursorState : Option (List Selection)
  changes : List TextChange
  deriving Repr, DecidableEq

namespace SingleModelEditStackData

def writeSelectionsSize (selections : Option (List Selection)) : Nat :=
  4 + 4 * 4 * (selections.elim 0 List.length)

def writeEach (b : VSBuffer) : List Selection → Nat → VSBuffer × Nat
  | [], offset => (b, offset)
  | selection :: rest, offset =>
    let b := writeUInt32BE b selection.selectionStartLineNumber offset
    let offset := offset + 4
    let b := writeUInt32BE b selection.selectionStartColumn offset
    let offset := offset + 4
    let b := writeUInt32BE b selection.positionLineNumber offset
    let offset := offset + 4
    let b := writeUInt32BE b selection.positionColumn offset
    let offset := offset + 4
    writeEach b rest offset

def writeSelections (b : VSBuffer) (selections : Option (List Selection)) (offset : Nat) : VSBuffer × Nat :=
  let b := writeUInt32BE b (selections.elim 0 List.length) offset
  let offset := offset + 4
  match selections with
  | some selections => writeEach b selections offset
  | none => (b, offset)

/-- The loop of `_readSelections`, with the count still to read. -/
def readEach (b : VSBuffer) : Nat → Nat → List Selection × Nat
  | offset, 0 => ([], offset)
  | offset, count + 1 =>
    let selectionStartLineNumber := readUInt32BE b offset
    let offset := offset + 4
    let selectionStartColumn := readUInt32BE b offset
    let offset := offset + 4
    let positionLineNumber := readUInt32BE b offset
    let offset := offset + 4
    let positionColumn := readUInt32BE b offset
    let offset := offset + 4
    let (rest, offset) := readEach b offset count
    (⟨selectionStartLineNumber, selectionStartColumn, positionLineNumber, positionColumn⟩ :: rest, offset)

def readSelections (b : VSBuffer) (offset : Nat) : List Selection × Nat :=
  readEach b (offset + 4) (readUInt32BE b offset)

/-- The size `serialize` computes. -/
def necessarySize (d : SingleModelEditStackData) : Nat :=
  (d.changes.map TextChange.writeSize).foldl (· + ·)
    (4 + 4 + 1 + 1 + writeSelectionsSize d.beforeCursorState + writeSelectionsSize d.afterCursorState + 4)

/-- The last loop of `serialize`. -/
def writeChanges (b : VSBuffer) : List TextChange → Nat → VSBuffer × Nat
  | [], offset => (b, offset)
  | change :: rest, offset =>
    let (b, offset) := change.write b offset
    writeChanges b rest offset

def serialize (d : SingleModelEditStackData) : VSBuffer :=
  let b : VSBuffer := List.replicate d.necessarySize 0
  let b := writeUInt32BE b d.beforeVersionId 0
  let b := writeUInt32BE b d.afterVersionId 4
  let b := writeUInt8 b d.beforeEOL 8
  let b := writeUInt8 b d.afterEOL 9
  let (b, offset) := writeSelections b d.beforeCursorState 10
  let (b, offset) := writeSelections b d.afterCursorState offset
  let b := writeUInt32BE b d.changes.length offset
  (writeChanges b d.changes (offset + 4)).1

/-- The last loop of `deserialize`, with the count still to read. -/
def readChanges (littleEndian : Bool) (b : VSBuffer) : Nat → Nat → Option (List TextChange)
  | _, 0 => some []
  | offset, count + 1 => do
    let (change, offset) ← TextChange.read littleEndian b offset
    let rest ← readChanges littleEndian b offset count
    return change :: rest

/-- `deserialize`; none is a range error. -/
def deserialize (littleEndian : Bool) (b : VSBuffer) : Option SingleModelEditStackData :=
  let beforeCursorState := readSelections b 10
  let afterCursorState := readSelections b beforeCursorState.2
  let changeCount := readUInt32BE b afterCursorState.2
  (readChanges littleEndian b (afterCursorState.2 + 4) changeCount).map fun changes =>
    { beforeVersionId := readUInt32BE b 0
      afterVersionId := readUInt32BE b 4
      beforeEOL := readUInt8 b 8
      afterEOL := readUInt8 b 9
      beforeCursorState := some beforeCursorState.1
      afterCursorState := some afterCursorState.1
      changes := changes }

end SingleModelEditStackData

/-! ## What a writer writes -/

/-- On a buffer with room from the offset on, `write` overwrites the next bytes by `bytes` and returns the offset after them. -/
def Writes (bytes : VSBuffer) (write : VSBuffer → Nat → VSBuffer × Nat) : Prop :=
  ∀ front rest : VSBuffer, bytes.length ≤ rest.length →
    write (front ++ rest) front.length = (front ++ bytes ++ rest.drop bytes.length, front.length + bytes.length)

theorem Writes.nil : Writes [] fun b offset => (b, offset) := by
  intro front rest _
  simp

variable {bytes bytes' : VSBuffer}

theorem Writes.andThen {write write' : VSBuffer → Nat → VSBuffer × Nat} (h : Writes bytes write)
    (h' : Writes bytes' write') :
    Writes (bytes ++ bytes') fun b offset =>
      let (b, offset) := write b offset
      write' b offset := by
  intro front rest hroom
  rw [length_append] at hroom
  have hfirst := h front rest (by omega)
  have hsecond := h' (front ++ bytes) (rest.drop bytes.length) (by rw [length_drop]; omega)
  rw [length_append] at hsecond
  dsimp only
  rw [hfirst]
  rw [hsecond, drop_drop, length_append, append_assoc front, Nat.add_assoc]

theorem writes_uint32BE (value : Nat) : Writes (bytesBE value) fun b offset => (writeUInt32BE b value offset, offset + 4) := by
  intro front rest hroom
  match rest, hroom with
  | b0 :: b1 :: b2 :: b3 :: rest, _ =>
    simp [writeUInt32BE, bytesBE, set_append_right]

theorem writes_uint16LE (value : UInt16) :
    Writes (Utf16.bytesLE [value]) fun b offset => (writeUInt16LE b value offset, offset + 2) := by
  intro front rest hroom
  match rest, hroom with
  | b0 :: b1 :: rest, _ =>
    simp [writeUInt16LE, Utf16.bytesLE, set_append_right]

theorem writes_uint8 (value : UInt8) : Writes [value] fun b offset => (writeUInt8 b value offset, offset + 1) := by
  intro front rest hroom
  match rest, hroom with
  | b0 :: rest, _ => simp [writeUInt8, set_append_right]

variable (c : TextChange)

namespace TextChange

def textBytes (str : JsString) : VSBuffer := bytesBE str.length ++ Utf16.bytesLE str

theorem textBytes_length (str : JsString) : (textBytes str).length = writeStringSize str := by
  rw [textBytes, length_append, Utf16.bytesLE_length, Ipc.bytesBE_length, writeStringSize]

theorem writes_writeChars : ∀ str : JsString, Writes (Utf16.bytesLE str) fun b offset => writeChars b str offset
  | [] => Writes.nil
  | u :: us => (writes_uint16LE u).andThen (writes_writeChars us)

theorem writes_writeString (str : JsString) : Writes (textBytes str) fun b offset => writeString b str offset :=
  (writes_uint32BE str.length).andThen (writes_writeChars str)

def encode (c : TextChange) : VSBuffer :=
  bytesBE (position32 c.oldPosition) ++ (bytesBE (position32 c.newPosition) ++ (textBytes c.oldText ++ textBytes c.newText))

theorem encode_length : c.encode.length = c.writeSize := by
  simp only [encode, length_append, textBytes_length, Ipc.bytesBE_length, writeSize]
  omega

theorem writes_write : Writes c.encode c.write :=
  (writes_uint32BE _).andThen ((writes_uint32BE _).andThen ((writes_writeString c.oldText).andThen (writes_writeString c.newText)))

end TextChange

namespace Selection

def encode (s : Selection) : VSBuffer :=
  bytesBE s.selectionStartLineNumber ++ (bytesBE s.selectionStartColumn ++
    (bytesBE s.positionLineNumber ++ bytesBE s.positionColumn))

theorem encode_length (s : Selection) : s.encode.length = 16 := rfl

theorem writes_encode (s : Selection) : Writes s.encode fun b offset =>
    let b := writeUInt32BE b s.selectionStartLineNumber offset
    let b := writeUInt32BE b s.selectionStartColumn (offset + 4)
    let b := writeUInt32BE b s.positionLineNumber (offset + 4 + 4)
    (writeUInt32BE b s.positionColumn (offset + 4 + 4 + 4), offset + 4 + 4 + 4 + 4) :=
  (writes_uint32BE s.selectionStartLineNumber).andThen ((writes_uint32BE s.selectionStartColumn).andThen
    ((writes_uint32BE s.positionLineNumber).andThen (writes_uint32BE s.positionColumn)))

end Selection

namespace SingleModelEditStackData

/-- The bytes of a cursor state: its number of selections and the selections. -/
def selectionsBytes (selections : Option (List Selection)) : VSBuffer :=
  bytesBE (selections.elim 0 List.length) ++ (selections.getD []).flatMap Selection.encode

theorem flatMap_encode_length (selections : List Selection) :
    (selections.flatMap Selection.encode).length = 4 * 4 * selections.length := by
  induction selections with
  | nil => rfl
  | cons s rest ih =>
    rw [flatMap_cons, length_append, ih, Selection.encode_length, length_cons]
    omega

variable (selections : Option (List Selection))

theorem selectionsBytes_length :
    (selectionsBytes selections).length = writeSelectionsSize selections := by
  rw [selectionsBytes, length_append, Ipc.bytesBE_length, flatMap_encode_length, writeSelectionsSize]
  cases selections <;> rfl

theorem writes_writeEach : ∀ selections : List Selection,
    Writes (selections.flatMap Selection.encode) fun b offset => writeEach b selections offset
  | [] => Writes.nil
  | s :: rest => by
    have h := s.writes_encode.andThen (writes_writeEach rest)
    simp only [writeEach]
    exact h

theorem writes_writeSelections :
    Writes (selectionsBytes selections) fun b offset => writeSelections b selections offset := by
  cases selections with
  | none => exact (writes_uint32BE _).andThen Writes.nil
  | some selections => exact (writes_uint32BE _).andThen (writes_writeEach selections)

theorem writes_writeChanges : ∀ changes : List TextChange,
    Writes (changes.flatMap TextChange.encode) fun b offset => writeChanges b changes offset
  | [] => Writes.nil
  | change :: rest => change.writes_write.andThen (writes_writeChanges rest)

def encode (d : SingleModelEditStackData) : VSBuffer :=
  bytesBE d.beforeVersionId ++ (bytesBE d.afterVersionId ++ ([d.beforeEOL] ++ ([d.afterEOL] ++
    (selectionsBytes d.beforeCursorState ++ (selectionsBytes d.afterCursorState ++
      (bytesBE d.changes.length ++ d.changes.flatMap TextChange.encode))))))

theorem foldl_writeSize (changes : List TextChange) : ∀ size : Nat,
    (changes.map TextChange.writeSize).foldl (· + ·) size = size + (changes.flatMap TextChange.encode).length := by
  induction changes with
  | nil =>
    intro size
    rfl
  | cons change rest ih =>
    intro size
    rw [map_cons, foldl_cons, ih, flatMap_cons, length_append, TextChange.encode_length]
    omega

variable (d : SingleModelEditStackData)

theorem encode_length : d.encode.length = d.necessarySize := by
  rw [necessarySize, foldl_writeSize]
  simp only [encode, length_append, Ipc.bytesBE_length, selectionsBytes_length, length_cons, length_nil]
  omega

theorem serialize_eq : d.serialize = d.encode := by
  have hwrites : Writes d.encode fun b offset =>
      let b := writeUInt32BE b d.beforeVersionId offset
      let b := writeUInt32BE b d.afterVersionId (offset + 4)
      let b := writeUInt8 b d.beforeEOL (offset + 4 + 4)
      let b := writeUInt8 b d.afterEOL (offset + 4 + 4 + 1)
      let (b, offset) := writeSelections b d.beforeCursorState (offset + 4 + 4 + 1 + 1)
      let (b, offset) := writeSelections b d.afterCursorState offset
      let b := writeUInt32BE b d.changes.length offset
      writeChanges b d.changes (offset + 4) :=
    (writes_uint32BE d.beforeVersionId).andThen ((writes_uint32BE d.afterVersionId).andThen
      ((writes_uint8 d.beforeEOL).andThen ((writes_uint8 d.afterEOL).andThen
        ((writes_writeSelections d.beforeCursorState).andThen ((writes_writeSelections d.afterCursorState).andThen
          ((writes_uint32BE d.changes.length).andThen (writes_writeChanges d.changes)))))))
  have hsize : (List.replicate d.necessarySize (0 : UInt8)).length = d.encode.length := by
    rw [encode_length, length_replicate]
  have hfull := hwrites [] (List.replicate d.necessarySize 0) (by omega)
  rw [drop_of_length_le (by omega), append_nil, nil_append] at hfull
  exact congrArg Prod.fst hfull

end SingleModelEditStackData

/-! ## What a reader reads -/

def At (b : VSBuffer) (offset : Nat) (bytes : VSBuffer) : Prop :=
  ∃ front back, b = front ++ bytes ++ back ∧ front.length = offset

variable {b : VSBuffer} {offset : Nat}

theorem At.left (h : At b offset (bytes ++ bytes')) : At b offset bytes := by
  obtain ⟨front, back, rfl, hfront⟩ := h
  exact ⟨front, bytes' ++ back, by simp, hfront⟩

theorem At.right (h : At b offset (bytes ++ bytes')) :
    At b (offset + bytes.length) bytes' := by
  obtain ⟨front, back, rfl, hfront⟩ := h
  exact ⟨front ++ bytes, back, by simp, by simp [hfront]⟩

theorem readUInt32BE_at {offset value : Nat} (h : At b offset (bytesBE value)) (hvalue : value < 2 ^ 32) :
    readUInt32BE b offset = value := by
  obtain ⟨front, back, rfl, rfl⟩ := h
  rw [Ipc.readUInt32BE_bytesBE, Nat.mod_eq_of_lt hvalue]

theorem readUInt8_at {value : UInt8} (h : At b offset [value]) : readUInt8 b offset = value := by
  obtain ⟨front, back, rfl, rfl⟩ := h
  simp [readUInt8, List.getD]

theorem readUInt16LE_at {value : UInt16} (h : At b offset (Utf16.bytesLE [value])) :
    readUInt16LE b offset = value := by
  obtain ⟨front, back, rfl, rfl⟩ := h
  have hlow : (front ++ Utf16.bytesLE [value] ++ back).getD front.length 0 = value.toUInt8 := by
    simp [Utf16.bytesLE, List.getD]
  have hhigh : (front ++ Utf16.bytesLE [value] ++ back).getD (front.length + 1) 0 = (value >>> 8).toUInt8 := by
    simp [Utf16.bytesLE, List.getD]
  rw [readUInt16LE, hlow, hhigh, Utf16.codeUnit_bytes]

theorem compatDecodeUTF16LE_at : ∀ {s : JsString} {offset : Nat}, At b offset (Utf16.bytesLE s) →
    compatDecodeUTF16LE b offset s.length = s
  | [], _, _ => rfl
  | u :: us, offset, h => by
    have h : At b offset (Utf16.bytesLE [u] ++ Utf16.bytesLE us) := h
    have hrest : At b (offset + 2) (Utf16.bytesLE us) := h.right
    rw [length_cons, compatDecodeUTF16LE, readUInt16LE_at h.left, compatDecodeUTF16LE_at hrest]

variable {s : JsString}

theorem uint16Array_at (h : At b offset (Utf16.bytesLE s)) (heven : offset % 2 = 0) :
    uint16Array b offset s.length = some (Utf16.bytesLE s) := by
  obtain ⟨front, back, rfl, rfl⟩ := h
  have hlength := Utf16.bytesLE_length s
  have hroom : front.length + 2 * s.length ≤ (front ++ Utf16.bytesLE s ++ back).length := by
    simp only [length_append]
    omega
  rw [uint16Array, if_pos ⟨heven, hroom⟩, append_assoc, drop_left, ← hlength, take_left]

/-- The string starts with a byte order mark, of either byte order. -/
def startsWithMark (s : JsString) : Bool := s.head? = some 0xFEFF || s.head? = some 0xFFFE

/-- The check of the first view element does not depend on the byte order of the platform: the two marks have swapped bytes. -/
theorem viewAt_mark (littleEndian : Bool) (u : UInt16) (us : JsString) :
    (viewAt littleEndian (Utf16.bytesLE (u :: us)) 0 = 0xFEFF ∨ viewAt littleEndian (Utf16.bytesLE (u :: us)) 0 = 0xFFFE) ↔
      startsWithMark (u :: us) = true := by
  have hmark : startsWithMark (u :: us) = true ↔ u = 0xFEFF ∨ u = 0xFFFE := by simp [startsWithMark]
  rw [hmark]
  cases littleEndian with
  | true =>
    have hview : viewAt true (Utf16.bytesLE (u :: us)) 0 = u := Utf16.codeUnit_bytes u
    rw [hview]
  | false =>
    have hview : viewAt false (Utf16.bytesLE (u :: us)) 0 = Utf16.codeUnit (u >>> 8).toUInt8 u.toUInt8 := rfl
    have hself := Utf16.codeUnit_bytes u
    rw [hview]
    constructor
    · rintro (h | h)
      · obtain ⟨hhigh, hlow⟩ := Utf16.codeUnit_inj (h.trans (by decide : (0xFEFF : UInt16) = Utf16.codeUnit 0xFF 0xFE))
        right
        rw [← hself, hhigh, hlow]
        decide
      · obtain ⟨hhigh, hlow⟩ := Utf16.codeUnit_inj (h.trans (by decide : (0xFFFE : UInt16) = Utf16.codeUnit 0xFE 0xFF))
        left
        rw [← hself, hhigh, hlow]
        decide
    · rintro (rfl | rfl)
      · right
        decide
      · left
        decide

/-- A text as `decodeUTF16LE` returns it. -/
def asDecoded (s : JsString) : JsString := if startsWithMark s then s else Utf16.decode s

theorem asDecoded_length (s : JsString) : (asDecoded s).length = s.length := by
  unfold asDecoded
  by_cases hs : startsWithMark s = true
  · rw [if_pos hs]
  · rw [if_neg hs, Utf16.decode_length]

variable {littleEndian : Bool}

theorem decodeUTF16LE_at (h : At b offset (Utf16.bytesLE s)) (heven : offset % 2 = 0) :
    decodeUTF16LE littleEndian b offset s.length = some (asDecoded s) := by
  rw [decodeUTF16LE, uint16Array_at h heven]
  cases s with
  | nil => rfl
  | cons u us =>
    dsimp only
    unfold asDecoded
    by_cases hs : startsWithMark (u :: us) = true
    · rw [if_pos ⟨Nat.succ_pos _, (viewAt_mark littleEndian u us).mpr hs⟩, if_pos hs, compatDecodeUTF16LE_at h]
    · have hhead : (u :: us).head? ≠ some 0xFEFF := by
        intro hhead
        exact hs (by simp [startsWithMark, hhead])
      rw [if_neg (fun hview => hs ((viewAt_mark littleEndian u us).mp hview.2)), if_neg hs,
        Utf16.textDecoderDecode_bytesLE hhead]

namespace TextChange

theorem readString_at (h : At b offset (textBytes s)) (heven : offset % 2 = 0) (hlength : s.length < 2 ^ 32) :
    readString littleEndian b offset = some (asDecoded s) := by
  have hright := h.right
  rw [readString, readUInt32BE_at h.left hlength]
  exact decodeUTF16LE_at hright (by omega)

/-- The positions and text lengths of the change fit in 32 bits. -/
structure InRange (c : TextChange) : Prop where
  oldPosition : 0 ≤ c.oldPosition ∧ c.oldPosition < 2 ^ 32
  newPosition : 0 ≤ c.newPosition ∧ c.newPosition < 2 ^ 32
  oldText : c.oldText.length < 2 ^ 32
  newText : c.newText.length < 2 ^ 32

/-- The change with its texts as `decodeUTF16LE` returns them. -/
def decoded (c : TextChange) : TextChange :=
  ⟨c.oldPosition, Editor.asDecoded c.oldText, c.newPosition, Editor.asDecoded c.newText⟩

theorem position32_cast {position : Int} (h : 0 ≤ position ∧ position < 2 ^ 32) : (position32 position : Int) = position := by
  unfold position32
  omega

theorem position32_lt (position : Int) : position32 position < 2 ^ 32 := by
  unfold position32
  omega

theorem read_at {c : TextChange} (h : At b offset c.encode) (heven : offset % 2 = 0) (hc : c.InRange) :
    read littleEndian b offset = some (c.decoded, offset + c.encode.length) := by
  have hold := h.left
  have hnew := h.right.left
  have holdText := h.right.right.left
  have hnewText := h.right.right.right
  rw [Ipc.bytesBE_length] at hnew holdText hnewText
  rw [Ipc.bytesBE_length] at holdText hnewText
  rw [textBytes_length] at hnewText
  have hsize : writeStringSize c.oldText % 2 = 0 := by
    unfold writeStringSize
    omega
  have hdecoded : ∀ s, writeStringSize (Editor.asDecoded s) = writeStringSize s := by
    intro s
    rw [writeStringSize, writeStringSize, asDecoded_length]
  rw [read, readUInt32BE_at hold (position32_lt _), readUInt32BE_at hnew (position32_lt _),
    readString_at holdText (by omega) hc.oldText]
  simp only [Option.bind_eq_bind, Option.bind_some, hdecoded]
  rw [readString_at hnewText (by omega) hc.newText]
  simp only [Option.bind_some, hdecoded, position32_cast hc.oldPosition, position32_cast hc.newPosition]
  have hend : offset + 4 + 4 + writeStringSize c.oldText + writeStringSize c.newText = offset + c.encode.length := by
    rw [encode_length, writeSize]
    omega
  rw [hend]
  rfl

end TextChange

namespace Selection

/-- The coordinates fit in 32 bits. -/
structure InRange (s : Selection) : Prop where
  selectionStartLineNumber : s.selectionStartLineNumber < 2 ^ 32
  selectionStartColumn : s.selectionStartColumn < 2 ^ 32
  positionLineNumber : s.positionLineNumber < 2 ^ 32
  positionColumn : s.positionColumn < 2 ^ 32

end Selection

namespace SingleModelEditStackData

theorem readEach_at : ∀ {selections : List Selection} {offset : Nat},
    At b offset (selections.flatMap Selection.encode) → (∀ s ∈ selections, s.InRange) →
    readEach b offset selections.length = (selections, offset + 4 * 4 * selections.length)
  | [], _, _, _ => rfl
  | s :: rest, offset, h, hrange => by
    have h : At b offset (s.encode ++ rest.flatMap Selection.encode) := h
    have hs := hrange s (mem_cons_self ..)
    have hrest : At b (offset + 4 + 4 + 4 + 4) (rest.flatMap Selection.encode) := h.right
    have h0 := h.left
    have h1 : At b (offset + 4) _ := h0.right
    have h2 : At b (offset + 4 + 4) _ := h1.right
    have h3 : At b (offset + 4 + 4 + 4) _ := h2.right
    rw [length_cons, readEach, readUInt32BE_at h0.left hs.selectionStartLineNumber,
      readUInt32BE_at h1.left hs.selectionStartColumn, readUInt32BE_at h2.left hs.positionLineNumber,
      readUInt32BE_at h3 hs.positionColumn, readEach_at hrest fun s' hs' => hrange s' (mem_cons_of_mem _ hs')]
    dsimp only
    rw [show offset + 4 + 4 + 4 + 4 + 4 * 4 * rest.length = offset + 4 * 4 * (rest.length + 1) by omega]

theorem readSelections_at {selections : List Selection} (h : At b offset (selectionsBytes (some selections)))
    (hlength : selections.length < 2 ^ 32) (hrange : ∀ s ∈ selections, s.InRange) :
    readSelections b offset = (selections, offset + writeSelectionsSize (some selections)) := by
  have hrest : At b (offset + 4) (selections.flatMap Selection.encode) := h.right
  have hcount : readUInt32BE b offset = selections.length := readUInt32BE_at h.left hlength
  rw [readSelections, hcount, readEach_at hrest hrange, writeSelectionsSize, Nat.add_assoc]
  rfl

theorem readChanges_at {littleEndian : Bool} {b : VSBuffer} : ∀ {changes : List TextChange} {offset : Nat},
    At b offset (changes.flatMap TextChange.encode) → offset % 2 = 0 → (∀ c ∈ changes, c.InRange) →
    readChanges littleEndian b offset changes.length = some (changes.map TextChange.decoded)
  | [], _, _, _, _ => rfl
  | c :: rest, offset, h, heven, hrange => by
    have h : At b offset (c.encode ++ rest.flatMap TextChange.encode) := h
    have hlength : c.encode.length % 2 = 0 := by
      rw [TextChange.encode_length, TextChange.writeSize, TextChange.writeStringSize, TextChange.writeStringSize]
      omega
    rw [length_cons, readChanges, TextChange.read_at h.left heven (hrange c (mem_cons_self ..))]
    simp only [Option.bind_eq_bind, Option.bind_some]
    rw [readChanges_at h.right (by omega) fun c' hc' => hrange c' (mem_cons_of_mem _ hc')]
    rfl

/-- The numbers of the data fit in 32 bits, and so do the lengths of its arrays and texts. -/
structure InRange (d : SingleModelEditStackData) : Prop where
  beforeVersionId : d.beforeVersionId < 2 ^ 32
  afterVersionId : d.afterVersionId < 2 ^ 32
  beforeCursorState : ∀ selections ∈ d.beforeCursorState, selections.length < 2 ^ 32 ∧ ∀ s ∈ selections, s.InRange
  afterCursorState : ∀ selections ∈ d.afterCursorState, selections.length < 2 ^ 32 ∧ ∀ s ∈ selections, s.InRange
  changes : d.changes.length < 2 ^ 32 ∧ ∀ c ∈ d.changes, c.InRange

/-- The data with every text as `decodeUTF16LE` returns it. -/
def decoded (d : SingleModelEditStackData) : SingleModelEditStackData := { d with changes := d.changes.map TextChange.decoded }

/-- What is read back differs in nothing but the decoded texts. -/
theorem deserialize_decoded (littleEndian : Bool) {d : SingleModelEditStackData} (hd : d.InRange)
    (hbefore : d.beforeCursorState ≠ none) (hafter : d.afterCursorState ≠ none) :
    deserialize littleEndian d.serialize = some d.decoded := by
  obtain ⟨before, hbefore⟩ := Option.ne_none_iff_exists'.mp hbefore
  obtain ⟨after, hafter⟩ := Option.ne_none_iff_exists'.mp hafter
  have h0 : At d.serialize 0 d.encode := ⟨[], [], by rw [serialize_eq]; simp, rfl⟩
  have h4 : At d.serialize 4 _ := h0.right
  have h8 : At d.serialize 8 _ := h4.right
  have h9 : At d.serialize 9 _ := h8.right
  have h10 : At d.serialize 10 _ := h9.right
  rw [hbefore, hafter] at h10
  have hstate := h10.right
  have hcount := hstate.right
  have hchanges := hcount.right
  rw [selectionsBytes_length] at hstate hcount hchanges
  rw [selectionsBytes_length] at hcount hchanges
  rw [Ipc.bytesBE_length] at hchanges
  have heven : ∀ selections : List Selection, writeSelectionsSize (some selections) % 2 = 0 := by
    intro selections
    rw [writeSelectionsSize]
    omega
  have hbefore' := hd.beforeCursorState before hbefore
  have hafter' := hd.afterCursorState after hafter
  have hread0 := readUInt32BE_at h0.left hd.beforeVersionId
  have hread4 := readUInt32BE_at h4.left hd.afterVersionId
  have hread8 := readUInt8_at h8.left
  have hread9 := readUInt8_at h9.left
  have hreadBefore := readSelections_at h10.left hbefore'.1 hbefore'.2
  have hreadAfter := readSelections_at hstate.left hafter'.1 hafter'.2
  have hreadCount := readUInt32BE_at hcount.left hd.changes.1
  have hevenBefore := heven before
  have hevenAfter := heven after
  have hreadChanges := @readChanges_at littleEndian _ _ _ hchanges (by omega) hd.changes.2
  unfold deserialize
  simp only [hread0, hread4, hread8, hread9, hreadBefore, hreadAfter, hreadCount, hreadChanges, Option.map_some]
  rw [decoded, hbefore, hafter]

end SingleModelEditStackData

/-- `decodeUTF16LE` returns the text itself: it has no unpaired surrogate, or it starts with a byte order mark, which sends it
through `compatDecodeUTF16LE`. -/
def DecodedExactly (s : JsString) : Bool := startsWithMark s || Utf16.isWellFormed s

theorem asDecoded_eq_iff (s : JsString) : asDecoded s = s ↔ DecodedExactly s = true := by
  unfold asDecoded DecodedExactly
  by_cases hs : startsWithMark s = true
  · rw [if_pos hs, hs]
    simp
  · rw [if_neg hs, Bool.eq_false_iff.mpr hs, Bool.false_or]
    exact Utf16.decode_eq_self_iff s

theorem TextChange.decoded_eq_iff :
    c.decoded = c ↔ DecodedExactly c.oldText = true ∧ DecodedExactly c.newText = true := by
  rw [← asDecoded_eq_iff, ← asDecoded_eq_iff]
  cases c
  simp [TextChange.decoded]

namespace SingleModelEditStackData

/-- Reading the serialised data back gives the data exactly when each text of each change is decoded exactly. -/
theorem deserialize_serialize_iff (littleEndian : Bool) (d : SingleModelEditStackData) (hd : d.InRange)
    (hbefore : d.beforeCursorState ≠ none) (hafter : d.afterCursorState ≠ none) :
    deserialize littleEndian d.serialize = some d ↔
      ∀ c ∈ d.changes, DecodedExactly c.oldText = true ∧ DecodedExactly c.newText = true := by
  rw [deserialize_decoded littleEndian hd hbefore hafter]
  have hchanges : d.decoded = d ↔ d.changes.map TextChange.decoded = d.changes := by
    cases d
    simp [decoded]
  rw [Option.some.injEq, hchanges]
  constructor
  · intro h c hc
    rw [← TextChange.decoded_eq_iff]
    exact map_inj_left.mp (h.trans (map_id' d.changes).symm) c hc
  · intro h
    refine (map_inj_left.mpr ?_).trans (map_id' d.changes)
    intro c hc
    exact c.decoded_eq_iff.mpr (h c hc)

/-- An edit that replaced a lone lead surrogate by text that starts with a byte order mark. -/
def surrogateEdit (oldText : JsString) : SingleModelEditStackData :=
  { beforeVersionId := 1
    afterVersionId := 2
    beforeEOL := .lf
    afterEOL := .crlf
    beforeCursorState := some [⟨10, 2, 10, 2⟩]
    afterCursorState := some []
    changes := [⟨10, oldText, 12, [0xFEFF, 0xD83D]⟩] }

theorem surrogateEdit_inRange (oldText : JsString) (h : oldText.length < 2 ^ 32) : (surrogateEdit oldText).InRange where
  beforeVersionId := (by decide : 1 < 2 ^ 32)
  afterVersionId := (by decide : 2 < 2 ^ 32)
  beforeCursorState := by
    rintro selections ⟨⟩
    refine ⟨by decide, ?_⟩
    intro s hs
    rw [mem_singleton] at hs
    subst hs
    exact ⟨by decide, by decide, by decide, by decide⟩
  afterCursorState := by
    rintro selections ⟨⟩
    exact ⟨by decide, by simp⟩
  changes := by
    refine ⟨(by decide : 1 < 2 ^ 32), ?_⟩
    intro c hc
    have hc := mem_singleton.mp hc
    subst hc
    exact ⟨(by decide : (0 : Int) ≤ 10 ∧ (10 : Int) < 2 ^ 32), (by decide : (0 : Int) ≤ 12 ∧ (12 : Int) < 2 ^ 32), h,
      (by decide : 2 < 2 ^ 32)⟩

/-- A pair of surrogates comes back, and so does a lone one after a byte order mark. -/
theorem deserialize_serialize_pair :
    deserialize true (surrogateEdit [0xD83D, 0xDE0A]).serialize = some (surrogateEdit [0xD83D, 0xDE0A]) ↔
      ∀ c ∈ (surrogateEdit [0xD83D, 0xDE0A]).changes, DecodedExactly c.oldText = true ∧ DecodedExactly c.newText = true :=
  deserialize_serialize_iff true (surrogateEdit [0xD83D, 0xDE0A]) (surrogateEdit_inRange _ (by decide)) (by decide) (by decide)

/-- A lone lead surrogate comes back as U+FFFD. -/
theorem deserialize_serialize_lone :
    deserialize true (surrogateEdit [0xD83D]).serialize = some (surrogateEdit [0xFFFD]) ∧
      deserialize true (surrogateEdit [0xD83D]).serialize ≠ some (surrogateEdit [0xD83D]) := by
  decide +kernel

end SingleModelEditStackData

/-! ## Appending to an element -/

/-- The arguments of a call of `append`; the model is not read. -/
structure Append where
  textChanges : List TextChange
  afterEOL : EndOfLineSequence
  afterVersionId : Nat
  afterCursorState : Option (List Selection)

namespace SingleModelEditStackData

/-- `create`; of the model its alternative version and its end of line are read. -/
def create (alternativeVersionId : Nat) (eol : EndOfLineSequence) (beforeCursorState : Option (List Selection)) :
    SingleModelEditStackData :=
  ⟨alternativeVersionId, alternativeVersionId, eol, eol, beforeCursorState, beforeCursorState, []⟩

def append (d : SingleModelEditStackData) (a : Append) : SingleModelEditStackData :=
  { d with
    changes := if a.textChanges.length > 0 then compressConsecutiveTextChanges (some d.changes) a.textChanges else d.changes
    afterEOL := a.afterEOL
    afterVersionId := a.afterVersionId
    afterCursorState := a.afterCursorState }

/-- The appended changes turn the text `s` into `t`, one list after the other. -/
def TurnsAll : List Append → JsString → JsString → Prop
  | [], s, t => s = t
  | a :: appends, s, t => ∃ middle, Turns a.textChanges s middle ∧ TurnsAll appends middle t

theorem append_edits {d : SingleModelEditStackData} {a : Append} {s m t : JsString} (h : Edits d.changes 0 0 s m)
    (ha : Turns a.textChanges m t) : Edits (d.append a).changes 0 0 s t := by
  rw [append]
  dsimp only
  split
  · exact compressConsecutiveTextChanges_edits (some d.changes) a.textChanges h ha.edits
  · next hnone =>
    have hnil : a.textChanges = [] := length_eq_zero_iff.mp (by omega)
    have htext := ha.replaceAll
    rw [hnil] at htext
    exact htext ▸ h

theorem foldl_append {appends : List Append} {d : SingleModelEditStackData} {s m t : JsString} (h : Edits d.changes 0 0 s m)
    (hall : TurnsAll appends m t) : Edits (appends.foldl append d).changes 0 0 s t ∧
      (appends.foldl append d).beforeVersionId = d.beforeVersionId ∧ (appends.foldl append d).beforeEOL = d.beforeEOL ∧
      (appends.foldl append d).beforeCursorState = d.beforeCursorState := by
  induction appends generalizing d m with
  | nil => exact ⟨hall ▸ h, rfl, rfl, rfl⟩
  | cons a appends ih =>
    obtain ⟨middle, ha, hrest⟩ := hall
    exact ih (append_edits h ha) hrest

/-- Whatever is appended to an element, redoing it turns the first text into the last one, and undoing it turns that back
into the first one, with the version, line ending and selections from before. -/
theorem undoes_all (alternativeVersionId : Nat) (eol : EndOfLineSequence) (beforeCursorState : Option (List Selection))
    (appends : List Append) (s t : JsString) (h : TurnsAll appends s t) :
    let d := appends.foldl append (create alternativeVersionId eol beforeCursorState)
    Turns d.changes s t ∧ Turns (d.changes.map TextChange.inverse) t s ∧
      d.beforeVersionId = alternativeVersionId ∧ d.beforeEOL = eol ∧ d.beforeCursorState = beforeCursorState := by
  obtain ⟨hedits, hbefore⟩ := foldl_append (d := create alternativeVersionId eol beforeCursorState) (.nil 0 0 s) h
  exact ⟨hedits.turns, hedits.inverse.turns, hbefore⟩

/-- A letter is typed, the selections change, and the letter is replaced. -/
theorem undoes_all_typed :
    let d := [(⟨[⟨1, [], 1, [98]⟩], .lf, 2, none⟩ : Append), ⟨[], .lf, 2, some []⟩, ⟨[⟨1, [98], 1, [99]⟩], .lf, 3, none⟩].foldl
      append (create 1 .lf none)
    Turns d.changes [97] [97, 99] ∧ Turns (d.changes.map TextChange.inverse) [97, 99] [97] ∧
      d.beforeVersionId = 1 ∧ d.beforeEOL = .lf ∧ d.beforeCursorState = none :=
  undoes_all 1 .lf none _ _ _ ⟨[97, 98], ⟨by simp, ⟨rfl, trivial⟩, by decide, by decide⟩, _, ⟨by simp, trivial, by simp, rfl⟩,
    _, ⟨by simp, ⟨rfl, trivial⟩, by decide, by decide⟩, rfl⟩

end SingleModelEditStackData

end TongjiCode.Editor
