import Mathlib.Algebra.Order.Ring.Int
import Mathlib.Data.List.Basic

/-!
# Folding regions

`FoldingRegions` of `foldingRanges.ts`: the line numbers of the regions in two arrays of 32-bit words, where the top
byte of each word holds a part of the parent's index once the parents are computed.  Numbers are integers; the bitwise
operators first take them to 32 bits, and an element of a `Uint32Array` is stored modulo `2^32`.
-/

namespace TongjiCode.Folding

/-! ## Bitwise operators -/

/-- `a & b`. -/
def bitAnd (a b : Int) : Int := (BitVec.ofInt 32 a &&& BitVec.ofInt 32 b).toInt

/-- `a | b`. -/
def bitOr (a b : Int) : Int := (BitVec.ofInt 32 a ||| BitVec.ofInt 32 b).toInt

/-- `~a`. -/
def bitNot (a : Int) : Int := (~~~ BitVec.ofInt 32 a).toInt

/-- `a << n`. -/
def shiftLeft (a : Int) (n : Nat) : Int := (BitVec.ofInt 32 a <<< n).toInt

/-- `a >>> n`. -/
def shiftRightUnsigned (a : Int) (n : Nat) : Int := (BitVec.ofInt 32 a >>> n).toNat

abbrev Uint32Array := List (BitVec 32)

/-- `array[i]`; the bitwise operators take `undefined` for 0. -/
def load (array : Uint32Array) (i : Nat) : Int := (array.getD i 0).toNat

/-- `array[i] = value`, which does nothing behind the end. -/
def store (array : Uint32Array) (i : Nat) (value : Int) : Uint32Array := array.set i (BitVec.ofInt 32 value)

/-! ## Regions -/

inductive FoldSource where
  | provider
  | userDefined
  | recovered
deriving DecidableEq, Repr

/-- `MAX_FOLDING_REGIONS`. -/
def maxFoldingRegions : Nat := 0xFFFF

/-- `MAX_LINE_NUMBER`. -/
def maxLineNumber : Nat := 0xFFFFFF

/-- `MASK_INDENT`. -/
def maskIndent : Int := 0xFF000000

structure BitField where
  states : Uint32Array
deriving DecidableEq, Repr

namespace BitField

def new (size : Nat) : BitField := ⟨List.replicate ((size + 31) / 32) 0⟩

def get (b : BitField) (index : Nat) : Bool :=
  let arrayIndex := index / 32
  let bit := index % 32
  bitAnd (load b.states arrayIndex) (shiftLeft 1 bit) ≠ 0

def set (b : BitField) (index : Nat) (newState : Bool) : BitField :=
  let arrayIndex := index / 32
  let bit := index % 32
  let value := load b.states arrayIndex
  if newState then ⟨store b.states arrayIndex (bitOr value (shiftLeft 1 bit))⟩
  else ⟨store b.states arrayIndex (bitAnd value (bitNot (shiftLeft 1 bit)))⟩

end BitField

structure FoldingRegions where
  startIndexes : Uint32Array
  endIndexes : Uint32Array
  collapseStates : BitField
  userDefinedStates : BitField
  recoveredStates : BitField
  parentsComputed : Bool
  types : Option (List (Option String))
deriving DecidableEq, Repr

namespace FoldingRegions

/-- The constructor; `none` where it throws. -/
def new (startIndexes endIndexes : Uint32Array) (types : Option (List (Option String))) : Option FoldingRegions :=
  if startIndexes.length ≠ endIndexes.length ∨ startIndexes.length > maxFoldingRegions then none
  else some {
    startIndexes := startIndexes
    endIndexes := endIndexes
    collapseStates := .new startIndexes.length
    userDefinedStates := .new startIndexes.length
    recoveredStates := .new startIndexes.length
    parentsComputed := false
    types := types }

def length (r : FoldingRegions) : Nat := r.startIndexes.length

def getStartLineNumber (r : FoldingRegions) (index : Nat) : Int := bitAnd (load r.startIndexes index) maxLineNumber

def getEndLineNumber (r : FoldingRegions) (index : Nat) : Int := bitAnd (load r.endIndexes index) maxLineNumber

def getType (r : FoldingRegions) (index : Nat) : Option String :=
  match r.types with
  | some types => (types[index]?).join
  | none => none

def isCollapsed (r : FoldingRegions) (index : Nat) : Bool := r.collapseStates.get index

def setCollapsed (r : FoldingRegions) (index : Nat) (newState : Bool) : FoldingRegions :=
  { r with collapseStates := r.collapseStates.set index newState }

def isUserDefined (r : FoldingRegions) (index : Nat) : Bool := r.userDefinedStates.get index

def setUserDefined (r : FoldingRegions) (index : Nat) (newState : Bool) : FoldingRegions :=
  { r with userDefinedStates := r.userDefinedStates.set index newState }

def isRecovered (r : FoldingRegions) (index : Nat) : Bool := r.recoveredStates.get index

def setRecovered (r : FoldingRegions) (index : Nat) (newState : Bool) : FoldingRegions :=
  { r with recoveredStates := r.recoveredStates.set index newState }

def getSource (r : FoldingRegions) (index : Nat) : FoldSource :=
  if r.isUserDefined index then .userDefined
  else if r.isRecovered index then .recovered
  else .provider

def setSource (r : FoldingRegions) (index : Nat) (source : FoldSource) : FoldingRegions :=
  match source with
  | .userDefined => (r.setUserDefined index true).setRecovered index false
  | .recovered => (r.setUserDefined index false).setRecovered index true
  | .provider => (r.setUserDefined index false).setRecovered index false

/-- `setCollapsedAllOfType`, without its answer whether there was such a region. -/
def setCollapsedAllOfType (r : FoldingRegions) (type : String) (newState : Bool) : FoldingRegions :=
  match r.types with
  | some types =>
    (List.range types.length).foldl
      (fun r i => if types[i]? = some (some type) then r.setCollapsed i newState else r) r
  | none => r

/-! ## Parents -/

def isInsideLast (r : FoldingRegions) (index : Nat) (startLineNumber endLineNumber : Int) : Bool :=
  r.getStartLineNumber index ≤ startLineNumber && r.getEndLineNumber index ≥ endLineNumber

/-- One turn of the loop of `ensureParentIndices`; the first of `parentIndexes` is the one pushed last. -/
def parentStep (state : FoldingRegions × List Nat) (i : Nat) : Option (FoldingRegions × List Nat) :=
  let (r, parentIndexes) := state
  let startLineNumber := load r.startIndexes i
  let endLineNumber := load r.endIndexes i
  if startLineNumber > maxLineNumber ∨ endLineNumber > maxLineNumber then none
  else
    let parentIndexes := parentIndexes.dropWhile fun index => !r.isInsideLast index startLineNumber endLineNumber
    let parentIndex : Int :=
      match parentIndexes.head? with
      | some parentIndex => parentIndex
      | none => -1
    some ({ r with
        startIndexes := store r.startIndexes i (startLineNumber + shiftLeft (bitAnd parentIndex 0xFF) 24)
        endIndexes := store r.endIndexes i (endLineNumber + shiftLeft (bitAnd parentIndex 0xFF00) 16) },
      i :: parentIndexes)

/-- `none` where a line number is too large and the loop throws. -/
def ensureParentIndices (r : FoldingRegions) : Option FoldingRegions :=
  if r.parentsComputed then some r
  else ((List.range r.length).foldlM parentStep ({ r with parentsComputed := true }, [])).map Prod.fst

def getParentIndex (r : FoldingRegions) (index : Nat) : Option (Int × FoldingRegions) :=
  r.ensureParentIndices.map fun r =>
    let parent := shiftRightUnsigned (bitAnd (load r.startIndexes index) maskIndent) 24 +
      shiftRightUnsigned (bitAnd (load r.endIndexes index) maskIndent) 16
    (if parent = maxFoldingRegions then -1 else parent, r)

def contains (r : FoldingRegions) (index : Nat) (line : Int) : Bool :=
  r.getStartLineNumber index ≤ line && r.getEndLineNumber index ≥ line

/-- The search of `findIndex` between `low` and `high`. -/
def findIndexLoop (r : FoldingRegions) (line : Int) (low high : Nat) : Nat :=
  if low < high then
    let mid := (low + high) / 2
    if line < r.getStartLineNumber mid then findIndexLoop r line low mid
    else findIndexLoop r line (mid + 1) high
  else low
termination_by high - low

def findIndex (r : FoldingRegions) (line : Int) : Int :=
  if r.startIndexes.length = 0 then -1 else findIndexLoop r line 0 r.startIndexes.length - 1

/-- The loop of `findRange` over the parents, at most `fuel` turns; `none` where it is not over by then. -/
def climb (line : Int) : Nat → FoldingRegions → Int → Option (Int × FoldingRegions)
  | 0, _, _ => none
  | fuel + 1, r, index =>
    if index = -1 then some (-1, r)
    else if r.contains index.toNat line then some (index, r)
    else
      match r.getParentIndex index.toNat with
      | none => none
      | some (index, r) => climb line fuel r index

def findRange (r : FoldingRegions) (line : Int) : Option (Int × FoldingRegions) :=
  let index := r.findIndex line
  if 0 ≤ index then
    if line ≤ r.getEndLineNumber index.toNat then some (index, r)
    else
      match r.getParentIndex index.toNat with
      | none => none
      | some (index, r) => climb line (r.length + 1) r index
  else some (-1, r)

end FoldingRegions

/-! ## Words -/

@[simp] theorem ofInt_bitAnd (a b : Int) : BitVec.ofInt 32 (bitAnd a b) = BitVec.ofInt 32 a &&& BitVec.ofInt 32 b :=
  BitVec.ofInt_toInt

@[simp] theorem ofInt_shiftLeft (a : Int) (n : Nat) : BitVec.ofInt 32 (shiftLeft a n) = BitVec.ofInt 32 a <<< n :=
  BitVec.ofInt_toInt

variable (array : Uint32Array)

theorem ofInt_load (i : Nat) : BitVec.ofInt 32 (load array i) = array.getD i 0 := by
  rw [load, BitVec.ofInt_natCast, BitVec.ofNat_toNat, BitVec.setWidth_eq]

@[simp] theorem length_store (i : Nat) (value : Int) :
    (store array i value).length = array.length :=
  List.length_set

theorem getD_store_self {array : Uint32Array} {i : Nat} (h : i < array.length) (value : Int) :
    (store array i value).getD i 0 = BitVec.ofInt 32 value := by
  rw [store, List.getD_eq_getElem?_getD, List.getElem?_set_self h, Option.getD_some]

theorem getD_store_ne {i j : Nat} (h : j ≠ i) (array : Uint32Array) (value : Int) :
    (store array i value).getD j 0 = array.getD j 0 := by
  rw [store, List.getD_eq_getElem?_getD, List.getElem?_set_ne (Ne.symm h), ← List.getD_eq_getElem?_getD]

theorem and_second_byte (n : Nat) : n &&& 0xFF00 = n / 256 % 256 * 256 := by
  have hmask : (0xFF00 : Nat) = 0xFF <<< 8 := by decide
  have hshift : n &&& 0xFF <<< 8 = (n >>> 8 &&& 0xFF) <<< 8 := by
    apply Nat.eq_of_testBit_eq
    intro i
    simp only [Nat.testBit_and, Nat.testBit_shiftLeft, Nat.testBit_shiftRight]
    by_cases hi : 8 ≤ i
    · have h8 : 8 + (i - 8) = i := by omega
      simp [hi, h8]
    · simp [hi]
  rw [hmask, hshift, Nat.shiftLeft_eq, Nat.shiftRight_eq_div_pow, Nat.and_two_pow_sub_one_eq_mod _ 8]

theorem and_top_byte (n : Nat) (hn : n < 2 ^ 32) : n &&& 0xFF000000 = n / 2 ^ 24 * 2 ^ 24 := by
  have hmask : (0xFF000000 : Nat) = 0xFF <<< 24 := by decide
  have hshift : n &&& 0xFF <<< 24 = (n >>> 24 &&& 0xFF) <<< 24 := by
    apply Nat.eq_of_testBit_eq
    intro i
    simp only [Nat.testBit_and, Nat.testBit_shiftLeft, Nat.testBit_shiftRight]
    by_cases hi : 24 ≤ i
    · have h24 : 24 + (i - 24) = i := by omega
      simp [hi, h24]
    · simp [hi]
  have hsmall : n / 2 ^ 24 % 2 ^ 8 = n / 2 ^ 24 := by omega
  rw [hmask, hshift, Nat.shiftLeft_eq, Nat.shiftRight_eq_div_pow, Nat.and_two_pow_sub_one_eq_mod _ 8, hsmall]

theorem bitAnd_maxLineNumber (i : Nat) :
    bitAnd (load array i) maxLineNumber = ((array.getD i 0).toNat % 2 ^ 24 : Nat) := by
  have hand : (array.getD i 0 &&& BitVec.ofInt 32 maxLineNumber).toNat = (array.getD i 0).toNat % 2 ^ 24 := by
    have hmask : (BitVec.ofInt 32 maxLineNumber).toNat = 2 ^ 24 - 1 := by decide
    rw [BitVec.toNat_and, hmask, Nat.and_two_pow_sub_one_eq_mod]
  rw [bitAnd, ofInt_load, BitVec.toInt_eq_toNat_of_lt (by rw [hand]; omega), hand]

/-- The top byte of a word, `24 - n` bits above its place at the bottom. -/
theorem shiftRight_maskIndent (i n : Nat) :
    shiftRightUnsigned (bitAnd (load array i) maskIndent) n =
      ((array.getD i 0).toNat / 2 ^ 24 * 2 ^ 24 / 2 ^ n : Nat) := by
  have hmask : (BitVec.ofInt 32 maskIndent).toNat = 0xFF000000 := by decide
  rw [shiftRightUnsigned, ofInt_bitAnd, ofInt_load, BitVec.toNat_ushiftRight, BitVec.toNat_and, hmask,
    and_top_byte _ (array.getD i 0).isLt, Nat.shiftRight_eq_div_pow]

/-- The index of a parent in 16 bits, where `-1` is 65535. -/
def codeOf (parentIndex : Int) : Nat := (parentIndex % 65536).toNat

theorem codeOf_lt (parentIndex : Int) : codeOf parentIndex < 65536 := by
  rw [codeOf]
  omega

theorem ofInt_toNat_mod (parentIndex : Int) : (BitVec.ofInt 32 parentIndex).toNat % 65536 = codeOf parentIndex := by
  rw [BitVec.toNat_ofInt, codeOf]
  omega

theorem pack_start {line : Nat} (hline : line < 2 ^ 24) (parentIndex : Int) :
    (BitVec.ofInt 32 (line + shiftLeft (bitAnd parentIndex 0xFF) 24)).toNat =
      line + codeOf parentIndex % 256 * 2 ^ 24 := by
  have hmask : (BitVec.ofInt 32 0xFF).toNat = 2 ^ 8 - 1 := by decide
  have hcode := ofInt_toNat_mod parentIndex
  rw [BitVec.ofInt_add, ofInt_shiftLeft, ofInt_bitAnd, BitVec.toNat_add, BitVec.toNat_shiftLeft, BitVec.toNat_and,
    hmask, Nat.and_two_pow_sub_one_eq_mod, Nat.shiftLeft_eq, BitVec.ofInt_natCast, BitVec.toNat_ofNat]
  omega

theorem pack_end {line : Nat} (hline : line < 2 ^ 24) (parentIndex : Int) :
    (BitVec.ofInt 32 (line + shiftLeft (bitAnd parentIndex 0xFF00) 16)).toNat =
      line + codeOf parentIndex / 256 * 2 ^ 24 := by
  have hmask : (BitVec.ofInt 32 0xFF00).toNat = 0xFF00 := by decide
  have hcode := ofInt_toNat_mod parentIndex
  rw [BitVec.ofInt_add, ofInt_shiftLeft, ofInt_bitAnd, BitVec.toNat_add, BitVec.toNat_shiftLeft, BitVec.toNat_and,
    hmask, and_second_byte, Nat.shiftLeft_eq, BitVec.ofInt_natCast, BitVec.toNat_ofNat]
  omega

end TongjiCode.Folding
