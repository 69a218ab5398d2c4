import Mathlib.Data.List.Forall2
import TongjiCode.Ipc.Serialize

/-!
# What is serialized is read back

A decoder reads some bytes as a value, whatever stands before and after them.  The quantities are read as they are written,
bit by bit; the values by induction on how they are nested.
-/

open List

namespace TongjiCode.Ipc

/-! ## Reading bytes as a value -/

/-- Where the bytes stand in a buffer, they are read as the value and nothing else is read. -/
def Reads {α : Type} (decoder : Reading α) (bytes : VSBuffer) (a : α) : Prop :=
  ∀ front back : VSBuffer, decoder ⟨front ++ (bytes ++ back), front.length⟩ =
    some (a, ⟨front ++ (bytes ++ back), front.length + bytes.length⟩)

section Reads

variable {α β : Type} {decoder : Reading α} {bytes bytes' : VSBuffer} {a : α} {b : β}

theorem Reads.pure (a : α) : Reads (Pure.pure a) [] a := fun _ _ => rfl

theorem bind_eq {reader reader' : BufferReader} (h : decoder reader = some (a, reader')) (next : α → Reading β) :
    (decoder >>= next) reader = next a reader' := by
  show (decoder reader).bind (fun p => next p.1 p.2) = _
  rw [h]
  rfl

theorem Reads.bind {next : α → Reading β} (h : Reads decoder bytes a) (h' : Reads (next a) bytes' b) :
    Reads (decoder >>= next) (bytes ++ bytes') b := by
  intro front back
  have hfirst := h front (bytes' ++ back)
  have hsecond := h' (front ++ bytes) back
  rw [append_assoc front, ← append_assoc bytes, length_append] at hsecond
  rw [← append_assoc bytes] at hfirst
  rw [bind_eq hfirst, hsecond, length_append, Nat.add_assoc]

theorem Reads.map {next : α → β} (h : Reads decoder bytes a) (heq : next a = b) :
    Reads (do return next (← decoder)) bytes b := by
  have hpure : Reads (Pure.pure (next a)) [] (next a) := .pure (next a)
  have := @Reads.bind _ _ _ _ _ _ _ (fun a => Pure.pure (next a)) h hpure
  rw [append_nil, heq] at this
  exact this

theorem relativeIndex_ofNat {length index : Nat} (h : index ≤ length) : relativeIndex length index = index := by
  unfold relativeIndex
  rw [if_neg (Int.not_lt.mpr (Int.natCast_nonneg index)), Int.toNat_natCast, Nat.min_eq_left h]

theorem reads_read (bytes : VSBuffer) : Reads (read bytes.length) bytes bytes := by
  intro front back
  have hslice : slice (front ++ (bytes ++ back)) front.length ((front.length : Int) + bytes.length) = bytes := by
    unfold slice
    rw [← Int.natCast_add, relativeIndex_ofNat (by simp), relativeIndex_ofNat (by simp), drop_take,
      drop_left, Nat.add_sub_cancel_left, take_left]
  unfold read
  rw [hslice]

theorem Reads.all {readOne : Reading α} {items : List α} {pieces : List VSBuffer}
    (h : List.Forall₂ (Reads readOne) pieces items) : Reads (readAll readOne items.length) pieces.flatten items := by
  induction h with
  | nil => exact .pure []
  | cons hone _ ih => exact hone.bind (ih.map rfl)

end Reads

/-! ## Variable-length quantities -/

def groups (value : BitVec 32) : VSBuffer :=
  let byte := (value &&& 0b01111111#32).toNat.toUInt8
  if _h : value >>> 7 = 0 then [byte] else (byte ||| 0b10000000) :: groups (value >>> 7)
termination_by value.toNat
decreasing_by exact ushr7_lt _h

theorem groups_length (value : BitVec 32) : (groups value).length = vqlLength value := by
  fun_induction vqlLength value with
  | case1 value h => rw [groups, dif_pos h]; rfl
  | case2 value h ih => rw [groups, dif_neg h, length_cons, ih]

/-- The loop writes the groups where the scratch buffer has room for them. -/
theorem fillVQL_eq (value : BitVec 32) (front : VSBuffer) :
    fillVQL (front ++ List.replicate (vqlLength value) 0) front.length value = front ++ groups value := by
  fun_induction vqlLength value generalizing front with
  | case1 value h =>
    rw [fillVQL, dif_pos h, groups, dif_pos h]
    simp
  | case2 value h ih =>
    have := ih (front ++ [(value &&& 0b01111111#32).toNat.toUInt8 ||| 0b10000000])
    rw [fillVQL, dif_neg h, groups, dif_neg h, replicate_succ]
    simpa using this

theorem writeInt32VQL_buffer (writer : BufferWriter) (value : Int) :
    (writeInt32VQL writer value).buffer = writer.buffer ++ groups (BitVec.ofInt 32 value) := by
  unfold writeInt32VQL
  split
  · next hzero =>
    subst hzero
    rw [BufferWriter.buffer_write, groups, dif_pos (by decide)]
    rfl
  · have := fillVQL_eq (BitVec.ofInt 32 value) []
    rw [BufferWriter.buffer_write]
    exact congrArg (writer.buffer ++ ·) this

theorem byte_bits : ∀ k < 128, (k.toUInt8 &&& 0b01111111).toNat = k ∧ k.toUInt8 &&& 0b10000000 = 0 ∧
    ((k.toUInt8 ||| 0b10000000) &&& 0b01111111).toNat = k ∧ (k.toUInt8 ||| 0b10000000) &&& 0b10000000 ≠ 0 := by
  decide

theorem low_toNat (value : BitVec 32) : (value &&& 0b01111111#32).toNat = value.toNat % 128 := by
  exact Nat.and_two_pow_sub_one_eq_mod value.toNat 7

theorem low_or_high (value : BitVec 32) : (value &&& 0b01111111#32) ||| (value >>> 7) <<< 7 = value := by
  have hmask : ∀ i, (h : i < 32) → (0b01111111#32)[i] = decide (i < 7) := by decide
  ext i hi
  rw [BitVec.getElem_or, BitVec.getElem_and, hmask, BitVec.getElem_shiftLeft, BitVec.getElem_ushiftRight]
  by_cases h : i < 7
  · simp [h]
  · rw [Nat.add_sub_cancel' (by omega), BitVec.getLsbD_eq_getElem hi]
    simp [h]

theorem readIntVQLFrom_eq {reader reader' : BufferReader} {next : UInt8} (h : read 1 reader = some ([next], reader'))
    (acc : BitVec 32) (n : Nat) :
    readIntVQLFrom acc n reader =
      let acc := acc ||| (BitVec.ofNat 32 (next &&& 0b01111111).toNat <<< (n % 32))
      if next &&& 0b10000000 = 0 then some (acc, reader') else readIntVQLFrom acc (n + 7) reader' := by
  rw [readIntVQLFrom]
  split
  · next heq =>
    rw [h] at heq
    cases heq
    rfl
  · next heq =>
    rw [h] at heq
    cases heq
  · next heq =>
    cases heq

variable {n : Nat}

theorem ushr7_bound {value : BitVec 32} (hmore : value >>> 7 ≠ 0) (h : value.toNat < 2 ^ (32 - n)) :
    n + 7 < 32 ∧ (value >>> 7).toNat < 2 ^ (32 - (n + 7)) := by
  have hpos : (value >>> 7).toNat ≠ 0 := fun hzero => hmore (BitVec.eq_of_toNat_eq hzero)
  rw [ushr7_toNat] at hpos ⊢
  by_cases hn : n + 7 < 32
  · refine ⟨hn, ?_⟩
    have hpow : 2 ^ (32 - n) = 2 ^ (32 - (n + 7)) * 128 := by
      rw [show 32 - n = 32 - (n + 7) + 7 by omega, Nat.pow_add]
    omega
  · have hpow : 2 ^ (32 - n) ≤ 2 ^ 7 := Nat.pow_le_pow_right (by omega) (by omega)
    omega

/-- The loop puts the groups together; the value has no bits that would be shifted out. -/
theorem reads_groups (value acc : BitVec 32) (hn : n < 32) (h : value.toNat < 2 ^ (32 - n)) :
    Reads (readIntVQLFrom acc n) (groups value) (acc ||| value <<< n) := by
  induction hsize : vqlLength value generalizing value acc n with
  | zero =>
    rw [vqlLength] at hsize
    split at hsize <;> cases hsize
  | succ k ih =>
    intro front back
    obtain ⟨hlow, hstops, hlow', hcontinues⟩ := byte_bits (value &&& 0b01111111#32).toNat (by rw [low_toNat]; omega)
    have hvalue : acc ||| (value &&& 0b01111111#32) <<< n ||| (value >>> 7) <<< (n + 7) = acc ||| value <<< n := by
      rw [Nat.add_comm n 7, BitVec.shiftLeft_add, BitVec.or_assoc, ← BitVec.shiftLeft_or_distrib, low_or_high]
    rw [groups]
    split
    · next hlast =>
      rw [readIntVQLFrom_eq (reads_read [_] front back), if_pos hstops, hlow, Nat.mod_eq_of_lt hn, BitVec.ofNat_toNat,
        BitVec.setWidth_eq]
      rw [hlast] at hvalue
      simpa using hvalue
    · next hmore =>
      obtain ⟨hn', h'⟩ := ushr7_bound hmore h
      have hsize' : vqlLength (value >>> 7) = k := by
        rw [vqlLength, dif_neg hmore] at hsize
        omega
      have hrest := ih (value >>> 7) (acc ||| (value &&& 0b01111111#32) <<< n) hn' h' hsize'
        (front ++ [(value &&& 0b01111111#32).toNat.toUInt8 ||| 0b10000000]) back
      rw [append_assoc, length_append, hvalue] at hrest
      rw [cons_append, ← singleton_append, readIntVQLFrom_eq (reads_read [_] front (groups (value >>> 7) ++ back)),
        if_neg hcontinues, hlow', Nat.mod_eq_of_lt hn, BitVec.ofNat_toNat, BitVec.setWidth_eq, hrest, length_cons]
      simp only [length_cons, length_nil, Nat.zero_add, Nat.add_assoc, Nat.add_comm 1]

theorem reads_int (value : Int) : Reads readIntVQL (groups (BitVec.ofInt 32 value)) (BitVec.ofInt 32 value) := by
  have := reads_groups (BitVec.ofInt 32 value) 0#32 (n := 0) (by decide) (BitVec.ofInt 32 value).isLt
  rw [BitVec.shiftLeft_zero, BitVec.zero_or] at this
  exact this

theorem toInt_length {length : Nat} (h : length < 2 ^ 31) : (BitVec.ofInt 32 length).toInt = length := by
  rw [BitVec.toInt_ofInt]
  apply Int.bmod_eq_of_le <;> omega

/-! ## Values -/

section Codec

variable {Obj : Type} (json : Json Obj)

mutual

/-- The lengths in the value are below `2 ^ 31`, and `JSON.parse` makes what `JSON` is left to from its text again. -/
def Encodable : Value Obj → Prop
  | .undefined => True
  | .string value => (fromString value).length < 2 ^ 31
  | .buffer bytes => bytes.length < 2 ^ 31
  | .vsBuffer bytes => bytes.length < 2 ^ 31
  | .array elements => elements.length < 2 ^ 31 ∧ AllEncodable elements
  | .int _ => True
  | .other value => ∃ text, json.stringify value = some text ∧ json.parse text = some (.other value) ∧
      (fromString text).length < 2 ^ 31

def AllEncodable : List (Value Obj) → Prop
  | [] => True
  | el :: elements => Encodable el ∧ AllEncodable elements

end

variable {json} {malformed : VSBuffer → String} {α : Type} {a : α} {fuel : Nat}

theorem reads_content {data : VSBuffer} {next : VSBuffer → Reading α} (hlength : data.length < 2 ^ 31)
    (h : Reads (next data) [] a) :
    Reads (do
      let length ← readIntVQL
      next (← read length.toInt)) (groups (BitVec.ofInt 32 data.length) ++ data) a := by
  refine (reads_int _).bind ?_
  rw [toInt_length hlength]
  have := (reads_read data).bind h
  rw [append_nil] at this
  exact this

variable {bytes : VSBuffer} {v : Value Obj}

theorem reads_type {type : UInt8}
    (h : Reads (deserializeAs json malformed (deserializeFrom json malformed fuel) (some type)) bytes v) :
    Reads (deserializeFrom json malformed (fuel + 1)) (type :: bytes) v :=
  (reads_read [type]).bind h

theorem reads_lift (h : Option α) (heq : h = some a) : Reads (liftM h) [] a := by
  subst heq
  exact fun _ _ => rfl

theorem writeContent_buffer (writer : BufferWriter) (type : UInt8) (data : VSBuffer) :
    ((writeInt32VQL (writer.write [type]) data.length).write data).buffer =
      writer.buffer ++ type :: (groups (BitVec.ofInt 32 data.length) ++ data) := by
  rw [BufferWriter.buffer_write, writeInt32VQL_buffer, BufferWriter.buffer_write]
  simp

/-- The bytes are read as the value: their number is fuel enough. -/
def Decodes (json : Json Obj) (malformed : VSBuffer → String) (bytes : VSBuffer) (v : Value Obj) : Prop :=
  ∀ fuel, bytes.length ≤ fuel → Reads (deserializeFrom json malformed fuel) bytes v

theorem Decodes.all {pieces : List VSBuffer} {values : List (Value Obj)}
    (h : List.Forall₂ (Decodes json malformed) pieces values) (hfuel : pieces.flatten.length ≤ fuel) :
    List.Forall₂ (Reads (deserializeFrom json malformed fuel)) pieces values := by
  induction h with
  | nil => exact .nil
  | cons hone _ ih =>
    rw [flatten_cons, length_append] at hfuel
    exact .cons (hone fuel (by omega)) (ih (by omega))

/-- What it means that a value is written so that it is read back. -/
def RoundTrips (json : Json Obj) (malformed : VSBuffer → String) (writer : BufferWriter) (v : Value Obj) : Prop :=
  ∃ bytes writer', serialize json writer v = some writer' ∧ writer'.buffer = writer.buffer ++ bytes ∧
    Decodes json malformed bytes v

theorem RoundTrips.of_type {writer writer' : BufferWriter} {type : UInt8}
    (hwrite : serialize json writer v = some writer') (hbuffer : writer'.buffer = writer.buffer ++ type :: bytes)
    (h : ∀ fuel, bytes.length ≤ fuel → Reads (deserializeAs json malformed (deserializeFrom json malformed fuel) (some type)) bytes v) :
    RoundTrips json malformed writer v := by
  refine ⟨type :: bytes, writer', hwrite, hbuffer, fun fuel hfuel => ?_⟩
  obtain ⟨fuel, rfl⟩ := Nat.exists_eq_succ_of_ne_zero (Nat.ne_zero_of_lt hfuel)
  exact reads_type (h fuel (Nat.le_of_succ_le_succ hfuel))

mutual

theorem serialize_reads (writer : BufferWriter) : (v : Value Obj) → Encodable json v → RoundTrips json malformed writer v
  | .undefined, _ => .of_type rfl (BufferWriter.buffer_write writer [0]) fun _ _ => .pure _
  | .string value, h => by
    refine .of_type rfl (writeContent_buffer writer 1 _) fun fuel _ => reads_content h ?_
    rw [bufferToString_fromString]
    exact .pure _
  | .buffer bytes, h => .of_type rfl (writeContent_buffer writer 2 _) fun fuel _ => reads_content h (.pure _)
  | .vsBuffer bytes, h => .of_type rfl (writeContent_buffer writer 3 _) fun fuel _ => reads_content h (.pure _)
  | .array elements, h => by
    obtain ⟨pieces, writer', hall, hbuffer, hdecodes⟩ :=
      serializeAll_reads (writeInt32VQL (writer.write [4]) elements.length) elements h.2
    rw [writeInt32VQL_buffer, BufferWriter.buffer_write, append_assoc, append_assoc, singleton_append] at hbuffer
    refine .of_type hall hbuffer fun fuel hfuel => (reads_int _).bind ?_
    rw [length_append] at hfuel
    have helements := Reads.all (Decodes.all hdecodes (Nat.le_trans (Nat.le_add_left _ _) hfuel))
    rw [toInt_length h.1, Int.toNat_natCast]
    exact helements.map rfl
  | .int value, _ => by
    have hbuffer := writeInt32VQL_buffer (writer.write [6]) value.toInt
    rw [BufferWriter.buffer_write, append_assoc] at hbuffer
    refine .of_type rfl hbuffer fun fuel _ => (reads_int value.toInt).map ?_
    rw [BitVec.ofInt_toInt]
  | .other value, h => by
    obtain ⟨text, hstringify, hparse, hlength⟩ := h
    have hwrite : serialize json writer (.other value) =
        some ((writeInt32VQL (writer.write [5]) (fromString text).length).write (fromString text)) := by
      rw [serialize, hstringify]
    refine .of_type hwrite (writeContent_buffer writer 5 _) fun fuel _ => reads_content hlength ?_
    rw [bufferToString_fromString]
    exact reads_lift _ hparse

theorem serializeAll_reads (writer : BufferWriter) : (elements : List (Value Obj)) → AllEncodable json elements →
    ∃ pieces writer', serializeAll json writer elements = some writer' ∧ writer'.buffer = writer.buffer ++ pieces.flatten ∧
      List.Forall₂ (Decodes json malformed) pieces elements
  | [], _ => ⟨[], writer, rfl, (append_nil _).symm, .nil⟩
  | el :: elements, h => by
    obtain ⟨bytes, writer', hone, hbuffer, hdecodes⟩ := serialize_reads writer el h.1
    obtain ⟨pieces, writer'', hall, hbuffer', hdecodes'⟩ := serializeAll_reads writer' elements h.2
    refine ⟨bytes :: pieces, writer'', ?_, ?_, .cons hdecodes hdecodes'⟩
    · rw [serializeAll, hone]
      exact hall
    · rw [hbuffer', hbuffer, flatten_cons, append_assoc]

end

theorem allEncodable_iff {elements : List (Value Obj)} : AllEncodable json elements ↔ ∀ el ∈ elements, Encodable json el := by
  induction elements with
  | nil => simp [AllEncodable]
  | cons el elements ih => simp [AllEncodable, ih]

theorem reads_deserialize (h : Decodes json malformed bytes v) : Reads (deserialize json malformed) bytes v :=
  fun front back => h _ (by simp [Nat.add_assoc]) front back

/-- Each value of a sequence is written, and read back where it was written: `deserialize` takes its bytes and no others.  So
the whole sequence is read back as it was. -/
theorem deserialize_serialize (json : Json Obj) (malformed : VSBuffer → String) (values : List (Value Obj))
    (h : ∀ v ∈ values, Encodable json v) (writer : BufferWriter) :
    (∀ v ∈ values, ∃ writer', serialize json writer v = some writer' ∧ ∀ back,
      deserialize json malformed ⟨writer'.buffer ++ back, writer.buffer.length⟩ =
        some (v, ⟨writer'.buffer ++ back, writer'.buffer.length⟩)) ∧
    ∃ writer', serializeAll json writer values = some writer' ∧ ∀ back,
      readAll (deserialize json malformed) values.length ⟨writer'.buffer ++ back, writer.buffer.length⟩ =
        some (values, ⟨writer'.buffer ++ back, writer'.buffer.length⟩) := by
  constructor
  · intro v hv
    obtain ⟨bytes, writer', hwrite, hbuffer, hreads⟩ := @serialize_reads _ _ malformed writer v (h v hv)
    refine ⟨writer', hwrite, fun back => ?_⟩
    rw [hbuffer, append_assoc, length_append]
    exact reads_deserialize hreads writer.buffer back
  · obtain ⟨pieces, writer', hwrite, hbuffer, hreads⟩ :=
      @serializeAll_reads _ _ malformed writer values (allEncodable_iff.mpr h)
    refine ⟨writer', hwrite, fun back => ?_⟩
    have hall : Reads (readAll (deserialize json malformed) values.length) pieces.flatten values := by
      exact .all (hreads.imp fun _ _ => reads_deserialize)
    rw [hbuffer, append_assoc, length_append]
    exact hall writer.buffer back

end Codec

/-! ## Lengths from `2 ^ 31` on -/

/-- The text of an object with one string of so many letters. -/
def lettersText (n : Nat) : String := "\x7b\"a\":\"" ++ (String.ofList (List.replicate n 'x') ++ "\"\x7d")

/-- `JSON` for objects with one string. -/
def letters : Json Nat where
  stringify n := some (lettersText n)
  parse text := if text = lettersText (text.length - 8) then some (.other (text.length - 8)) else none

theorem lettersText_length (n : Nat) : (lettersText n).length = n + 8 := by
  have hletters : (String.ofList (List.replicate n 'x')).length = n := by
    rw [String.length_ofList, length_replicate]
  unfold lettersText
  rw [String.length_append, String.length_append, hletters]
  show 6 + (n + 2) = n + 8
  omega

theorem letters_parse (n : Nat) : letters.parse (lettersText n) = some (.other n) := by
  have hn : (lettersText n).length - 8 = n := by
    rw [lettersText_length]
    omega
  unfold letters
  dsimp only
  rw [hn, if_pos rfl]

theorem fromString_append (s t : String) : fromString (s ++ t) = fromString s ++ fromString t := by
  unfold fromString
  simp

theorem fromString_letters (n : Nat) : (fromString (lettersText n)).length = n + 8 := by
  have hletters : (fromString (String.ofList (List.replicate n 'x'))).length = n := by
    induction n with
    | zero => rfl
    | succ n ih =>
      rw [replicate_succ, ← singleton_append, String.ofList_append, fromString_append, length_append, ih]
      show 1 + n = n + 1
      omega
  unfold lettersText
  rw [fromString_append, fromString_append, length_append, length_append, hletters]
  show 6 + (n + 2) = n + 8
  omega

/-- Values of each kind that has a length, with text and without, are written and read back one after the other. -/
theorem deserialize_serialize_nested :
    ∃ writer', serializeAll letters {} [.array [.int (-5), .array [.undefined, .string "é"]], .other 3, .buffer [1, 2]] =
        some writer' ∧
      readAll (deserialize letters fun _ => "") 3 ⟨writer'.buffer, 0⟩ =
        some ([.array [.int (-5), .array [.undefined, .string "é"]], .other 3, .buffer [1, 2]],
          ⟨writer'.buffer, writer'.buffer.length⟩) := by
  have hencodable : ∀ v ∈ ([.array [.int (-5), .array [.undefined, .string "é"]], .other 3, .buffer [1, 2]] : List (Value Nat)),
      Encodable letters v := by
    refine allEncodable_iff.mp ⟨⟨by decide, trivial, ⟨by decide, trivial, by show (fromString "é").length < _; decide, trivial⟩, trivial⟩,
      ⟨lettersText 3, rfl, letters_parse 3, ?_⟩, by show [1, 2].length < _; decide, trivial⟩
    decide
  obtain ⟨writer', hwrite, hread⟩ := (deserialize_serialize letters (fun _ => "") _ hencodable {}).2
  refine ⟨writer', hwrite, ?_⟩
  have := hread []
  rw [append_nil] at this
  exact this

/-- A length of `2 ^ 31` is read as a negative number, so that six bytes are read. -/
theorem content_long {α : Type} {data : VSBuffer} (hdata : data.length = 2 ^ 31) (type : UInt8)
    (next : VSBuffer → Reading α) : ∃ six reader, six.length = 6 ∧
      (do
        let length ← readIntVQL
        next (← read length.toInt)) ⟨type :: (groups (BitVec.ofInt 32 data.length) ++ data), 1⟩ = next six reader := by
  have hgroups : (groups (BitVec.ofInt 32 data.length)).length = 5 := by
    rw [groups_length, hdata]
    simp [vqlLength]
  have hnegative : (BitVec.ofInt 32 data.length).toInt = -2 ^ 31 := by
    rw [hdata]
    decide
  have hint := reads_int data.length [type] data
  rw [singleton_append, length_singleton, hgroups] at hint
  generalize hbuffer : type :: (groups (BitVec.ofInt 32 data.length) ++ data) = buffer at hint ⊢
  have hlength : buffer.length = 2 ^ 31 + 6 := by
    have hcount : List.length (type :: (groups (BitVec.ofInt 32 data.length) ++ data)) = 5 + data.length + 1 := by
      rw [length_cons, length_append, hgroups]
    rw [← hbuffer, hcount]
    omega
  have hsix : (slice buffer 6 (6 + -2 ^ 31)).length = 6 := by
    unfold slice
    rw [length_drop, length_take, hlength]
    decide
  refine ⟨slice buffer 6 (6 + -2 ^ 31), ⟨buffer, 6 + (slice buffer 6 (6 + -2 ^ 31)).length⟩, hsix, ?_⟩
  rw [bind_eq hint]
  show next (slice buffer 6 (6 + (BitVec.ofInt 32 data.length).toInt))
    ⟨buffer, 6 + (slice buffer 6 (6 + (BitVec.ofInt 32 data.length).toInt)).length⟩ = _
  rw [hnegative]

theorem long_not_read {json : Json Nat} {malformed : VSBuffer → String} {data : VSBuffer} (hdata : data.length = 2 ^ 31)
    {type : UInt8} {v : Value Nat} (next : VSBuffer → Reading (Value Nat))
    (htype : ∀ again, deserializeAs json malformed again (some type) = (do
      let length ← readIntVQL
      next (← read length.toInt)))
    (hnext : ∀ six reader reader', List.length six = 6 → next six reader ≠ some (v, reader')) (reader' : BufferReader) :
    deserialize json malformed ⟨((writeInt32VQL (BufferWriter.write {} [type]) data.length).write data).buffer, 0⟩ ≠
      some (v, reader') := by
  obtain ⟨six, reader, hsix, hcontent⟩ := content_long hdata type next
  have htypeRead : read 1 ⟨type :: (groups (BitVec.ofInt 32 data.length) ++ data), 0⟩ =
      some ([type], ⟨type :: (groups (BitVec.ofInt 32 data.length) ++ data), 1⟩) :=
    reads_read [type] [] (groups (BitVec.ofInt 32 data.length) ++ data)
  rw [writeContent_buffer]
  show deserializeFrom json malformed (_ + 1) ⟨type :: (groups (BitVec.ofInt 32 data.length) ++ data), 0⟩ ≠ _
  rw [deserializeFrom, bind_eq htypeRead, head?_cons, htype, hcontent]
  exact hnext six reader reader' hsix

theorem bufferToString_ne_letters {six : VSBuffer} (hsix : six.length = 6) (n : Nat) :
    bufferToString (fun _ => "") six ≠ lettersText n := by
  intro heq
  have hlength : (fromString (bufferToString (fun _ => "") six)).length = n + 8 := by
    rw [heq, fromString_letters]
  unfold bufferToString String.fromUTF8? at hlength
  split at hlength
  · next text hvalid =>
    split at hvalid
    · cases hvalid
      have hsame : (fromString (String.fromUTF8 ⟨six.toArray⟩ ‹_›)).length = six.length := rfl
      omega
    · cases hvalid
  · have hlength : (fromString "").length = n + 8 := hlength
    cases hlength

/-- What is read is not the value. -/
def NotRestored (json : Json Nat) (malformed : VSBuffer → String) (v : Value Nat) : Prop :=
  ∃ writer', serialize json {} v = some writer' ∧
    ∀ reader', deserialize json malformed ⟨writer'.buffer, 0⟩ ≠ some (v, reader')

theorem buffer_not_restored {json : Json Nat} {malformed : VSBuffer → String} {data : VSBuffer}
    (hdata : data.length = 2 ^ 31) :
    NotRestored json malformed (.buffer data) ∧ NotRestored json malformed (.vsBuffer data) := by
  have hne : ∀ six : VSBuffer, six.length = 6 → six ≠ data := by
    rintro six hsix rfl
    omega
  constructor
  · refine ⟨_, rfl, long_not_read hdata (fun bytes => pure (.buffer bytes)) (fun _ => rfl) fun six reader reader' hsix heq => ?_⟩
    exact hne six hsix (Value.buffer.inj (congrArg Prod.fst (Option.some.inj heq)))
  · refine ⟨_, rfl, long_not_read hdata (fun bytes => pure (.vsBuffer bytes)) (fun _ => rfl) fun six reader reader' hsix heq => ?_⟩
    exact hne six hsix (Value.vsBuffer.inj (congrArg Prod.fst (Option.some.inj heq)))

theorem array_not_restored {json : Json Nat} {malformed : VSBuffer → String} {elements : List (Value Nat)}
    (hlength : elements.length = 2 ^ 31) (hall : AllEncodable json elements) :
    NotRestored json malformed (.array elements) := by
  obtain ⟨pieces, writer', hwrite, hbuffer, -⟩ :=
    @serializeAll_reads _ _ malformed (writeInt32VQL (BufferWriter.write {} [4]) elements.length) elements hall
  rw [writeInt32VQL_buffer, BufferWriter.buffer_write, append_assoc] at hbuffer
  have htypeRead : read 1 ⟨4 :: (groups (BitVec.ofInt 32 elements.length) ++ pieces.flatten), 0⟩ =
      some ([4], ⟨4 :: (groups (BitVec.ofInt 32 elements.length) ++ pieces.flatten), 1⟩) := reads_read [4] [] _
  have hint := reads_int elements.length [4] pieces.flatten
  have hnone : (BitVec.ofInt 32 elements.length).toInt.toNat = 0 := by
    rw [hlength]
    decide
  refine ⟨writer', hwrite, fun reader' heq => ?_⟩
  rw [hbuffer] at heq
  have heq : deserializeFrom json malformed (_ + 1) ⟨4 :: (groups (BitVec.ofInt 32 elements.length) ++ pieces.flatten), 0⟩ =
      some (.array elements, reader') := heq
  rw [deserializeFrom, bind_eq htypeRead, head?_cons] at heq
  generalize deserializeFrom json malformed _ = again at heq
  have hrest := (bind_eq hint fun length => do
    return Value.array (← readAll again length.toInt.toNat)).symm.trans heq
  rw [hnone] at hrest
  have hempty := Value.array.inj (congrArg Prod.fst (Option.some.inj hrest))
  rw [← hempty] at hlength
  cases hlength

theorem letters_not_restored (hn : n + 8 = 2 ^ 31) : NotRestored letters (fun _ => "") (.other n) := by
  have hdata : (fromString (lettersText n)).length = 2 ^ 31 := by
    rw [fromString_letters, hn]
  refine ⟨_, rfl, long_not_read hdata (fun bytes => liftM (letters.parse (bufferToString (fun _ => "") bytes))) (fun _ => rfl)
    fun six reader reader' hsix heq => ?_⟩
  unfold letters at heq
  dsimp only at heq
  rw [if_neg (bufferToString_ne_letters hsix _)] at heq
  cases heq

/-- Bytes, an array and an object whose lengths are `2 ^ 31` are not read back. -/
theorem long_not_restored :
    NotRestored letters (fun _ => "") (.buffer (List.replicate (2 ^ 31) 0)) ∧
      NotRestored letters (fun _ => "") (.vsBuffer (List.replicate (2 ^ 31) 0)) ∧
      NotRestored letters (fun _ => "") (.array (List.replicate (2 ^ 31) .undefined)) ∧
      NotRestored letters (fun _ => "") (.other (2 ^ 31 - 8)) := by
  obtain ⟨hbuffer, hvsBuffer⟩ := @buffer_not_restored letters (fun _ => "") _ (@List.length_replicate _ (2 ^ 31) (0 : UInt8))
  refine ⟨hbuffer, hvsBuffer, array_not_restored length_replicate (allEncodable_iff.mpr fun el hel => ?_),
    letters_not_restored (by decide)⟩
  rw [eq_of_mem_replicate hel]
  trivial

end TongjiCode.Ipc
