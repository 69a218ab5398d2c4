import TongjiCode.Base.JsString

/-!
# UTF-16 code units and code points

Surrogates, well-formed strings, and the UTF-16 decoder of `TextDecoder`, which replaces every unpaired surrogate by U+FFFD.

* `decode_eq_self_iff`: decoding gives the string back exactly when it is well formed.
* `decode_length`: a replaced code unit is still one code unit, so decoding keeps the length.
-/

open List

namespace TongjiCode.Utf16

/-- A lead (high) surrogate. -/
def isLead (u : UInt16) : Bool := 0xD800 ≤ u.toNat && u.toNat < 0xDC00

/-- A trail (low) surrogate. -/
def isTrail (u : UInt16) : Bool := 0xDC00 ≤ u.toNat && u.toNat < 0xE000

def codePoint (lead trail : UInt16) : Nat :=
  0x10000 + (lead.toNat - 0xD800) * 0x400 + (trail.toNat - 0xDC00)

def codeUnits (cp : Nat) : JsString :=
  if cp < 0x10000 then [cp.toUInt16]
  else [(0xD800 + (cp - 0x10000) / 0x400).toUInt16, (0xDC00 + (cp - 0x10000) % 0x400).toUInt16]

/-- The replacement character U+FFFD, which stands for a decoding error. -/
def replacement : Nat := 0xFFFD

/-- The shared UTF-16 decoder, fed code units: `lead` is its pending lead surrogate.  A code unit that does not complete the
pending surrogate is read again after the error. -/
def decodePoints : Option UInt16 → List UInt16 → List Nat
  | none, [] => []
  | some _, [] => [replacement]
  | none, u :: us =>
    if isLead u then decodePoints (some u) us
    else if isTrail u then replacement :: decodePoints none us
    else u.toNat :: decodePoints none us
  | some lead, u :: us =>
    if isTrail u then codePoint lead u :: decodePoints none us
    else if isLead u then replacement :: decodePoints (some u) us
    else replacement :: u.toNat :: decodePoints none us

def ofPoints (cps : List Nat) : JsString := cps.flatMap codeUnits

/-- What the decoder makes of a string whose code units it is fed. -/
def decode (s : JsString) : JsString := ofPoints (decodePoints none s)

def codeUnit (low high : UInt8) : UInt16 := (low.toNat ||| high.toNat <<< 8).toUInt16

/-- The code units of bytes in little-endian order.  The decoder is only given an even number of bytes. -/
def codeUnitsLE : List UInt8 → List UInt16
  | low :: high :: rest => codeUnit low high :: codeUnitsLE rest
  | _ => []

/-- `new TextDecoder('UTF-16LE').decode`: a leading byte order mark is dropped. -/
def textDecoderDecode (bytes : List UInt8) : JsString :=
  match decodePoints none (codeUnitsLE bytes) with
  | 0xFEFF :: rest => ofPoints rest
  | points => ofPoints points

/-- The bytes of a string in little-endian order. -/
def bytesLE (s : JsString) : List UInt8 := s.flatMap fun (u : UInt16) => [u.toUInt8, (u >>> 8).toUInt8]

/-- Every surrogate of the string belongs to a pair. -/
def isWellFormed : JsString → Bool
  | [] => true
  | [u] => !isLead u && !isTrail u
  | u :: v :: rest =>
    if isLead u then isTrail v && isWellFormed rest
    else !isTrail u && isWellFormed (v :: rest)

@[simp] theorem isWellFormed_nil : isWellFormed [] = true := by
  rw [isWellFormed]

/-! ## Code units of a code point -/

variable {u : UInt16}

theorem isLead_iff : isLead u = true ↔ 0xD800 ≤ u.toNat ∧ u.toNat < 0xDC00 := by
  simp [isLead]

theorem isTrail_iff : isTrail u = true ↔ 0xDC00 ≤ u.toNat ∧ u.toNat < 0xE000 := by
  simp [isTrail]

theorem isTrail_of_isLead (h : isLead u = true) : isTrail u = false := by
  rw [isLead_iff] at h
  rw [Bool.eq_false_iff, Ne, isTrail_iff]
  omega

theorem toUInt16_toNat (u : UInt16) : u.toNat.toUInt16 = u := by
  apply UInt16.toNat_inj.mp
  show u.toNat % 2 ^ 16 = u.toNat
  exact Nat.mod_eq_of_lt u.toNat_lt

theorem codeUnits_toNat (u : UInt16) : codeUnits u.toNat = [u] := by
  have hu := u.toNat_lt
  rw [codeUnits, if_pos (by omega), toUInt16_toNat]

theorem codeUnits_codePoint {lead trail : UInt16} (hlead : isLead lead = true) (htrail : isTrail trail = true) :
    codeUnits (codePoint lead trail) = [lead, trail] := by
  rw [isLead_iff] at hlead
  rw [isTrail_iff] at htrail
  have hhigh : 0xD800 + (codePoint lead trail - 0x10000) / 0x400 = lead.toNat := by
    unfold codePoint
    omega
  have hlow : 0xDC00 + (codePoint lead trail - 0x10000) % 0x400 = trail.toNat := by
    unfold codePoint
    omega
  have hbig : ¬ codePoint lead trail < 0x10000 := by
    unfold codePoint
    omega
  rw [codeUnits, if_neg hbig, hhigh, hlow, toUInt16_toNat, toUInt16_toNat]

theorem codeUnits_replacement : codeUnits replacement = [0xFFFD] := by decide

theorem ofPoints_cons (cp : Nat) (cps : List Nat) : ofPoints (cp :: cps) = codeUnits cp ++ ofPoints cps := rfl

/-! ## Decoding a string -/

/-- A pending lead surrogate, as the string it was read from. -/
def pending (lead : Option UInt16) : JsString := lead.toList

theorem ofPoints_length : ∀ (s : JsString) (lead : Option UInt16), (∀ u ∈ lead, isLead u = true) →
    (ofPoints (decodePoints lead s)).length = (pending lead).length + s.length := by
  intro s
  induction s with
  | nil =>
    intro lead hlead
    cases lead with
    | none => rfl
    | some u => rfl
  | cons u us ih =>
    intro lead hlead
    cases lead with
    | none =>
      rw [decodePoints]
      by_cases hu : isLead u = true
      · rw [if_pos hu, ih (some u) (by rintro _ ⟨⟩; exact hu)]
        simp [pending]
        omega
      · rw [if_neg hu]
        by_cases ht : isTrail u = true
        · rw [if_pos ht, ofPoints_cons, codeUnits_replacement, length_append, ih none (by simp)]
          simp [pending]
          omega
        · rw [if_neg ht, ofPoints_cons, codeUnits_toNat, length_append, ih none (by simp)]
          simp [pending]
          omega
    | some l =>
      rw [decodePoints]
      by_cases ht : isTrail u = true
      · rw [if_pos ht, ofPoints_cons, codeUnits_codePoint (hlead l rfl) ht, length_append, ih none (by simp)]
        simp [pending]
        omega
      · rw [if_neg ht]
        by_cases hu : isLead u = true
        · rw [if_pos hu, ofPoints_cons, codeUnits_replacement, length_append, ih (some u) (by rintro _ ⟨⟩; exact hu)]
          simp [pending]
          omega
        · rw [if_neg hu, ofPoints_cons, ofPoints_cons, codeUnits_replacement, codeUnits_toNat, length_append,
            length_append, ih none (by simp)]
          simp [pending]
          omega

variable (s : JsString)

theorem decode_length : (decode s).length = s.length := by
  rw [decode, ofPoints_length s none (by simp)]
  simp [pending]

/-! ## Bytes -/

theorem codeUnit_toNat (low high : UInt8) : (codeUnit low high).toNat = low.toNat + high.toNat * 2 ^ 8 := by
  have hlow := low.toNat_lt
  have hhigh := high.toNat_lt
  have hor : low.toNat ||| high.toNat <<< 8 = low.toNat + high.toNat * 2 ^ 8 := by
    rw [Nat.or_comm, ← Nat.shiftLeft_add_eq_or_of_lt (by omega), Nat.shiftLeft_eq, Nat.add_comm]
  rw [codeUnit, hor]
  show (low.toNat + high.toNat * 2 ^ 8) % 2 ^ 16 = _
  omega

theorem codeUnit_bytes (u : UInt16) : codeUnit u.toUInt8 (u >>> 8).toUInt8 = u := by
  have hu := u.toNat_lt
  have hshift : (u >>> 8).toNat = u.toNat / 2 ^ 8 := by
    rw [UInt16.toNat_shiftRight, Nat.shiftRight_eq_div_pow]
    rfl
  apply UInt16.toNat_inj.mp
  rw [codeUnit_toNat, UInt16.toNat_toUInt8, UInt16.toNat_toUInt8, hshift]
  omega

theorem codeUnit_inj {low high low' high' : UInt8} (h : codeUnit low high = codeUnit low' high') :
    low = low' ∧ high = high' := by
  have hnat := congrArg UInt16.toNat h
  rw [codeUnit_toNat, codeUnit_toNat] at hnat
  have := low.toNat_lt
  have := low'.toNat_lt
  exact ⟨UInt8.toNat_inj.mp (by omega), UInt8.toNat_inj.mp (by omega)⟩

theorem bytesLE_cons (u : UInt16) (s : JsString) :
    bytesLE (u :: s) = u.toUInt8 :: (u >>> 8).toUInt8 :: bytesLE s := rfl

theorem bytesLE_length : (bytesLE s).length = 2 * s.length := by
  induction s with
  | nil => rfl
  | cons u us ih =>
    rw [bytesLE_cons]
    simp only [length_cons, ih]
    omega

theorem codeUnitsLE_bytesLE : codeUnitsLE (bytesLE s) = s := by
  induction s with
  | nil => rfl
  | cons u us ih => rw [bytesLE_cons, codeUnitsLE, codeUnit_bytes, ih]

/-- A first code point that is the byte order mark comes from a first code unit that is. -/
theorem decodePoints_bom {s : JsString} {rest : List Nat} (h : decodePoints none s = 0xFEFF :: rest) : s.head? = some 0xFEFF := by
  cases s with
  | nil => cases h
  | cons u us =>
    rw [decodePoints] at h
    by_cases hu : isLead u = true
    · rw [if_pos hu] at h
      cases us with
      | nil => cases h
      | cons v vs =>
        rw [decodePoints] at h
        by_cases hv : isTrail v = true
        · rw [if_pos hv] at h
          have hbig : codePoint u v = 0xFEFF := head_eq_of_cons_eq h
          unfold codePoint at hbig
          omega
        · rw [if_neg hv] at h
          by_cases hv' : isLead v = true
          · rw [if_pos hv'] at h
            cases h
          · rw [if_neg hv'] at h
            cases h
    · rw [if_neg hu] at h
      by_cases ht : isTrail u = true
      · rw [if_pos ht] at h
        cases h
      · rw [if_neg ht] at h
        have hhead : u.toNat = 0xFEFF := head_eq_of_cons_eq h
        have : u = 0xFEFF := UInt16.toNat_inj.mp hhead
        rw [this]
        rfl

/-- Without a byte order mark in front, decoding a string's bytes is decoding its code units. -/
theorem textDecoderDecode_bytesLE {s : JsString} (h : s.head? ≠ some 0xFEFF) : textDecoderDecode (bytesLE s) = decode s := by
  unfold textDecoderDecode
  rw [codeUnitsLE_bytesLE]
  split
  · next rest heq => exact absurd (decodePoints_bom heq) h
  · rfl

/-! ## Well-formed strings -/

theorem isWellFormed_cons (hu : isLead u = false) (s : JsString) :
    isWellFormed (u :: s) = (!isTrail u && isWellFormed s) := by
  cases s with
  | nil => simp [isWellFormed, hu]
  | cons v rest => simp [isWellFormed, hu]

theorem isWellFormed_pair (hu : isLead u = true) (v : UInt16) (s : JsString) :
    isWellFormed (u :: v :: s) = (isTrail v && isWellFormed s) := by
  rw [isWellFormed, if_pos hu]

theorem isWellFormed_lead (hu : isLead u = true) : isWellFormed [u] = false := by
  simp [isWellFormed, hu]

theorem replacement_ne_lead (hu : isLead u = true) : (0xFFFD : UInt16) ≠ u := by
  rintro rfl
  exact absurd hu (by decide)

theorem replacement_ne_trail (hu : isTrail u = true) : (0xFFFD : UInt16) ≠ u := by
  rintro rfl
  exact absurd hu (by decide)

/-- With a pending surrogate too, the decoder gives back what it was fed exactly when that is well formed: an unpaired surrogate
comes out as U+FFFD, which is none. -/
theorem ofPoints_eq_iff : ∀ (s : JsString) (lead : Option UInt16), (∀ u ∈ lead, isLead u = true) →
    (ofPoints (decodePoints lead s) = pending lead ++ s ↔ isWellFormed (pending lead ++ s) = true) := by
  intro s
  induction s with
  | nil =>
    intro lead hlead
    cases lead with
    | none => exact iff_of_true rfl rfl
    | some l =>
      have hl := hlead l rfl
      have hcode : ofPoints (decodePoints (some l) []) = [0xFFFD] := rfl
      show ofPoints (decodePoints (some l) []) = [l] ↔ isWellFormed [l] = true
      rw [hcode, isWellFormed_lead hl]
      have := replacement_ne_lead hl
      constructor
      · intro h
        exact absurd (head_eq_of_cons_eq h) this
      · intro h
        cases h
  | cons u us ih =>
    intro lead hlead
    cases lead with
    | none =>
      show ofPoints (decodePoints none (u :: us)) = u :: us ↔ isWellFormed (u :: us) = true
      rw [decodePoints]
      by_cases hu : isLead u = true
      · rw [if_pos hu]
        exact ih (some u) (by rintro _ ⟨⟩; exact hu)
      · rw [if_neg hu]
        have hu' := Bool.eq_false_iff.mpr hu
        rw [isWellFormed_cons hu']
        have ih := ih none (by simp)
        by_cases ht : isTrail u = true
        · rw [if_pos ht, ofPoints_cons, codeUnits_replacement]
          have := replacement_ne_trail ht
          simp [ht, this]
        · rw [if_neg ht, ofPoints_cons, codeUnits_toNat]
          simp only [singleton_append, List.cons.injEq, true_and, Bool.eq_false_iff.mpr ht, Bool.not_false,
            Bool.true_and]
          exact ih
    | some l =>
      have hl := hlead l rfl
      show ofPoints (decodePoints (some l) (u :: us)) = l :: u :: us ↔ isWellFormed (l :: u :: us) = true
      rw [decodePoints, isWellFormed_pair hl]
      by_cases ht : isTrail u = true
      · rw [if_pos ht, ofPoints_cons, codeUnits_codePoint hl ht]
        simp only [cons_append, nil_append, List.cons.injEq, true_and, ht, Bool.true_and]
        exact ih none (by simp)
      · -- the pending surrogate is an error here, whatever follows
        have hne := replacement_ne_lead hl
        rw [if_neg ht, Bool.eq_false_iff.mpr ht]
        by_cases hu : isLead u = true
        · rw [if_pos hu, ofPoints_cons, codeUnits_replacement]
          simp [hne]
        · rw [if_neg hu, ofPoints_cons, codeUnits_replacement]
          simp [hne]

theorem decode_eq_self_iff : decode s = s ↔ isWellFormed s = true :=
  ofPoints_eq_iff s none (by simp)

end TongjiCode.Utf16
