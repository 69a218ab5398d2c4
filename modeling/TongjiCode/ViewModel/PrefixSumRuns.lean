import Mathlib.Algebra.Order.BigOperators.Group.List
import Mathlib.Algebra.Order.Group.Nat
import TongjiCode.Base.Int32
import TongjiCode.ViewModel.PrefixSumComputer

/-!
# The two prefix sum computers

`PrefixSumComputer`, which keeps its sums in `Uint32Array`s, beside `ConstantTimePrefixSumComputer`.  Both answer from the
current values (`computers_faithful`), the first one as long as indices and counts are numbers that `toUint32` leaves as they
are.
-/

open List

namespace TongjiCode.ViewModel

/-- An entry of an array; `undefined` is `none`. -/
def entry (arr : List Nat) (i : Int) : Option Nat := if i < 0 then none else arr[i.toNat]?

/-- `arr[i] = value` for a `Uint32Array`. -/
def store (arr : List Nat) (i value : Int) : List Nat := if i < 0 then arr else arr.set i.toNat (toUint32 value)

structure PrefixSumComputer where
  values : List Nat
  prefixSum : List Nat
  prefixSumValidIndex : Int

namespace PrefixSumComputer

/-- `toUint32` of `uint.ts`, which ends in `v | 0`. -/
def uint (v : Nat) : Int := if v > 4294967295 then 4294967295 else toInt32 v

def new (values : List Nat) : PrefixSumComputer := ⟨values, replicate values.length 0, -1⟩

/-- `prefixSumValidIndex`, an entry of an `Int32Array`, after a change at `index`. -/
def validBefore (computer : PrefixSumComputer) (index : Int) : Int := toInt32 (min computer.prefixSumValidIndex (index - 1))

/-- The values are replaced, from `index` on, and what is valid of the sums is kept. -/
def replaceFrom (computer : PrefixSumComputer) (index : Int) (values : List Nat) : PrefixSumComputer :=
  ⟨values, (computer.prefixSum.take (computer.validBefore index + 1).toNat).rightpad values.length 0,
    computer.validBefore index⟩

/-- There is no result if `set` throws. -/
def insertValues (computer : PrefixSumComputer) (insertIndex : Nat) (insertValues : List Nat) : Option PrefixSumComputer :=
  let index := uint insertIndex
  if insertValues = [] then some computer
  else if 0 ≤ index ∧ index ≤ computer.values.length then
    some (computer.replaceFrom index
      (computer.values.take index.toNat ++ insertValues ++ computer.values.drop index.toNat))
  else none

def setValue (computer : PrefixSumComputer) (index value : Nat) : PrefixSumComputer :=
  if (entry computer.values (uint index)).map Int.ofNat = some (uint value) then computer
  else
    { computer with
      values := store computer.values (uint index) (uint value)
      prefixSumValidIndex := computer.validBefore (uint index) }

/-- `arr.subarray(start)` -/
def subarray (arr : List Nat) (start : Int) : List Nat :=
  arr.drop (if start < 0 then arr.length + start else start).toNat

/-- There is no result if `set` throws. -/
def removeValues (computer : PrefixSumComputer) (startIndex count : Nat) : Option PrefixSumComputer :=
  let start := uint startIndex
  let length := computer.values.length
  if start ≥ length then some computer
  else
    let count := if uint count ≥ length - start then length - start else uint count
    if count = 0 then some computer
    else if start < 0 then none
    else
      some (computer.replaceFrom start
        ((computer.values.take start.toNat ++ subarray computer.values (start + count)).rightpad (length - count).toNat 0))

/-- The loop of `_getPrefixSum`, `remaining` times from `i` on; `NaN` is stored as 0. -/
def addUp (values : List Nat) : Nat → Int → List Nat → List Nat
  | 0, _, prefixSum => prefixSum
  | remaining + 1, i, prefixSum =>
    addUp values remaining (i + 1)
      (store prefixSum i (((entry prefixSum (i - 1)).bind fun above => (entry values i).map (above + ·)).getD 0 : Nat))

def getPrefixSumAt (computer : PrefixSumComputer) (index : Int) : Option Nat × PrefixSumComputer :=
  if index ≤ computer.prefixSumValidIndex then (entry computer.prefixSum index, computer)
  else
    let startIndex := computer.prefixSumValidIndex + 1
    let started := if startIndex = 0 then (store computer.prefixSum 0 (computer.values.getD 0 0), 1)
      else (computer.prefixSum, startIndex)
    let index := if index ≥ computer.values.length then (computer.values.length : Int) - 1 else index
    let prefixSum := addUp computer.values (index + 1 - started.2).toNat started.2 started.1
    (entry prefixSum index,
      { computer with prefixSum, prefixSumValidIndex := toInt32 (max computer.prefixSumValidIndex index) })

def getTotalSum (computer : PrefixSumComputer) : Option Nat × PrefixSumComputer :=
  if computer.values.length = 0 then (some 0, computer) else computer.getPrefixSumAt (computer.values.length - 1)

def getPrefixSum (computer : PrefixSumComputer) (index : Int) : Option Nat × PrefixSumComputer :=
  if index < 0 then (some 0, computer) else computer.getPrefixSumAt (uint index.toNat)

/-- The loop of `getIndexOf`, with `mid` and `midStart` of the round before. -/
def search (values prefixSum : List Nat) (sum : Int) : Nat → Int → Int → Int × Int → Int × Int
  | 0, _, _, found => found
  | fuel + 1, low, high, found =>
    if low ≤ high then
      let mid := toInt32 (low + (high - low) / 2)
      let midStop : Int := (entry prefixSum mid).getD 0
      let midStart := midStop - (entry values mid).getD 0
      if sum < midStart then search values prefixSum sum fuel low (mid - 1) (mid, midStart)
      else if sum ≥ midStop then search values prefixSum sum fuel (mid + 1) high (mid, midStart)
      else (mid, midStart)
    else found

/-- The index and the remainder; the interval that is searched is halved each time. -/
def getIndexOf (computer : PrefixSumComputer) (sum : Int) : (Int × Int) × PrefixSumComputer :=
  let computer := computer.getTotalSum.2
  let found := search computer.values computer.prefixSum sum computer.values.length 0 (computer.values.length - 1) (0, 0)
  ((found.1, sum - found.2), computer)

end PrefixSumComputer

def ConstantTimePrefixSumComputer.getIndexOf (computer : ConstantTimePrefixSumComputer) (sum : Nat) :
    Option ((Nat × Int) × ConstantTimePrefixSumComputer) :=
  computer.ensureValid.bind fun computer => computer.indexBySum[sum]?.map fun idx =>
    ((idx, sum - (if 0 < idx then computer.prefixSum.getD (idx - 1) 0 else 0 : Nat)), computer)

/-! ## Where a sum falls -/

/-- The value at the index covers the sum, and the remainder is what the sum is past the values before. -/
def FallsOn (values : List Nat) (sum idx remainder : Nat) : Prop :=
  ∃ value, values[idx]? = some value ∧ remainder < value ∧ sum = (values.take idx).sum + remainder

variable {values : List Nat} {sum idx remainder : Nat}

theorem sum_take_succ {value : Nat} (h : values[idx]? = some value) :
    (values.take (idx + 1)).sum = (values.take idx).sum + value := by
  rw [take_add_one, h, sum_append]
  rfl

theorem exists_fallsOn (h : sum < values.sum) :
    ∃ idx remainder, FallsOn values sum idx remainder ∧ ∀ i, (indicesFrom i values)[sum]? = some (i + idx) := by
  induction values generalizing sum with
  | nil => cases h
  | cons value values ih =>
    by_cases hlt : sum < value
    · refine ⟨0, sum, ⟨value, rfl, hlt, by simp⟩, fun i => ?_⟩
      rw [indicesFrom, getElem?_append_left (by simpa using hlt), getElem?_replicate_of_lt hlt]
      rfl
    · rw [sum_cons] at h
      obtain ⟨idx, remainder, ⟨value', hvalue, hremainder, hsum⟩, htable⟩ := ih (show sum - value < values.sum by omega)
      refine ⟨idx + 1, remainder, ⟨value', hvalue, hremainder, ?_⟩, fun i => ?_⟩
      · rw [take_succ_cons, sum_cons]
        omega
      · rw [indicesFrom, getElem?_append_right (by simpa using hlt), length_replicate, htable]
        congr 1
        omega

theorem FallsOn.idx_le {idx' remainder' : Nat} (h : FallsOn values sum idx remainder)
    (h' : FallsOn values sum idx' remainder') : idx ≤ idx' := by
  obtain ⟨value, -, -, hsum⟩ := h
  obtain ⟨value', hvalue', hremainder', hsum'⟩ := h'
  refine Nat.le_of_not_lt fun hlt => ?_
  have hmono : (values.take (idx' + 1)).sum ≤ (values.take idx).sum := monotone_sum_take values hlt
  rw [sum_take_succ hvalue'] at hmono
  omega

theorem FallsOn.unique {idx' remainder' : Nat} (h : FallsOn values sum idx remainder)
    (h' : FallsOn values sum idx' remainder') : idx' = idx ∧ remainder' = remainder := by
  obtain rfl := Nat.le_antisymm (h.idx_le h') (h'.idx_le h)
  obtain ⟨-, -, -, hsum⟩ := h
  obtain ⟨-, -, -, hsum'⟩ := h'
  omega

/-! ## What is kept is right -/

namespace PrefixSumComputer

variable {computer : PrefixSumComputer} {prefixSum : List Nat} {index : Nat}

theorem uint_eq (h : index < 2 ^ 31) : uint index = index := by
  unfold uint
  rw [if_neg (by omega), toInt32_eq ⟨by omega, by omega⟩]

theorem uint_cases (h : index < 2 ^ 32) : uint index = index ∨ uint index = (index : Int) - 2 ^ 32 ∧ 2 ^ 31 ≤ index := by
  by_cases hlt : index < 2 ^ 31
  · exact Or.inl (uint_eq hlt)
  · right
    unfold uint toInt32 Int.bmod
    rw [if_neg (by omega)]
    dsimp only
    constructor
    · split <;> omega
    · omega

@[simp] theorem entry_natCast (arr : List Nat) (i : Nat) : entry arr i = arr[i]? := if_neg (by omega)

theorem store_natCast (arr : List Nat) (i : Nat) (value : Int) : store arr i value = arr.set i (toUint32 value) := by
  rw [store, if_neg (by omega), Int.toNat_natCast]

structure Good (computer : PrefixSumComputer) : Prop where
  low : -1 ≤ computer.prefixSumValidIndex
  high : computer.prefixSumValidIndex < computer.values.length
  small : computer.prefixSumValidIndex < 2 ^ 31
  length : computer.prefixSum.length = computer.values.length
  sums : ∀ i : Nat, i ≤ computer.prefixSumValidIndex → computer.prefixSum[i]? = some (computer.values.take (i + 1)).sum

theorem Good.new (values : List Nat) : (new values).Good where
  low := Int.le_refl _
  high := by simp only [PrefixSumComputer.new]; omega
  small := by simp only [PrefixSumComputer.new]; omega
  length := length_replicate
  sums i hi := absurd hi (by simp only [PrefixSumComputer.new]; omega)

theorem take_succ_eq {values' : List Nat} (heq : values'.take index = values.take index) (h : idx < index) :
    values'.take (idx + 1) = values.take (idx + 1) := by
  have := congrArg (List.take (idx + 1)) heq
  rwa [take_take, take_take, Nat.min_eq_left h] at this

theorem Good.validBefore_eq (h : computer.Good) (hindex : index < 2 ^ 31) :
    computer.validBefore index = min computer.prefixSumValidIndex ((index : Int) - 1) := by
  have hlow := h.low
  have hsmall := h.small
  exact toInt32_eq ⟨by omega, by omega⟩

theorem Good.replaceFrom (h : computer.Good) (hindex : index < 2 ^ 31) (hle : index ≤ values.length)
    (heq : values.take index = computer.values.take index) : (computer.replaceFrom index values).Good := by
  have hvalid := h.validBefore_eq hindex
  obtain ⟨hlow, hhigh, hsmall, hlength, hsums⟩ := h
  have hkept : (computer.prefixSum.take (computer.validBefore index + 1).toNat).length = (computer.validBefore index + 1).toNat := by
    rw [length_take]
    omega
  constructor <;> dsimp only [PrefixSumComputer.replaceFrom]
  · omega
  · omega
  · omega
  · rw [length_rightpad, hkept]
    omega
  · intro i hi
    rw [rightpad, getElem?_append_left (by omega), getElem?_take_of_lt (by omega), hsums i (by omega),
      take_succ_eq heq (by omega)]

theorem Good.setValue (h : computer.Good) (hlt : index < computer.values.length) (hindex : index < 2 ^ 31) {value : Nat}
    (hvalue : value < 2 ^ 32) :
    (computer.setValue index value).Good ∧ (computer.setValue index value).values = computer.values.set index value := by
  have hvalid := h.validBefore_eq hindex
  have hcases := uint_cases hvalue
  unfold PrefixSumComputer.setValue
  rw [uint_eq hindex, entry_natCast, store_natCast, getElem?_eq_getElem hlt]
  split
  · next hsame =>
    have hold : computer.values[index] = value := by
      have hint : (computer.values[index] : Int) = uint value := Option.some.inj hsame
      omega
    exact ⟨h, by rw [← hold, set_getElem_self]⟩
  · have hstored : toUint32 (uint value) = value := by
      unfold toUint32
      omega
    rw [hstored]
    obtain ⟨hlow, hhigh, hsmall, hlength, hsums⟩ := h
    refine ⟨?_, rfl⟩
    constructor <;> dsimp only
    · omega
    · rw [length_set]
      omega
    · omega
    · rw [length_set, hlength]
    · intro i hi
      rw [hsums i (by omega), take_succ_eq (take_set_of_le (Nat.le_refl index)) (by omega)]

theorem Good.insertValues (h : computer.Good) (hle : index ≤ computer.values.length) (hindex : index < 2 ^ 31)
    (insertValues : List Nat) :
    ∃ computer', computer.insertValues index insertValues = some computer' ∧ computer'.Good ∧
      computer'.values = computer.values.take index ++ insertValues ++ computer.values.drop index := by
  unfold PrefixSumComputer.insertValues
  rw [uint_eq hindex]
  by_cases hnil : insertValues = []
  · exact ⟨computer, if_pos hnil, h, by rw [hnil, append_nil, take_append_drop]⟩
  · dsimp only
    rw [if_neg hnil, if_pos (by omega), Int.toNat_natCast]
    refine ⟨_, rfl, h.replaceFrom hindex ?_ ?_, rfl⟩
    · simp only [length_append, length_take, length_drop]
      omega
    · rw [append_assoc, take_left' (length_take_of_le hle)]

theorem Good.removeValues (h : computer.Good) {count : Nat} (hle : index + count ≤ computer.values.length)
    (hindex : index < 2 ^ 31) (hcount : count < 2 ^ 31) :
    ∃ computer', computer.removeValues index count = some computer' ∧ computer'.Good ∧
      computer'.values = computer.values.take index ++ computer.values.drop (index + count) := by
  unfold PrefixSumComputer.removeValues
  rw [uint_eq hindex, uint_eq hcount]
  have hmin : (if (count : Int) ≥ computer.values.length - index then (computer.values.length : Int) - index else count) =
      count := by omega
  dsimp only
  rw [hmin]
  by_cases hzero : count = 0
  · subst hzero
    exact ⟨computer, by split <;> rfl, h, by rw [Nat.add_zero, take_append_drop]⟩
  · have hkept : (computer.values.take index ++ computer.values.drop (index + count)).length =
        computer.values.length - count := by
      rw [length_append, length_take, length_drop]
      omega
    have htail : subarray computer.values (index + count) = computer.values.drop (index + count) := by
      rw [subarray, if_neg (by omega)]
      rfl
    rw [if_neg (by omega), if_neg (by omega), if_neg (by omega), Int.toNat_natCast, htail, rightpad, hkept,
      show ((computer.values.length : Int) - count).toNat - (computer.values.length - count) = 0 by omega, replicate_zero,
      append_nil]
    exact ⟨_, rfl, h.replaceFrom hindex (by rw [hkept]; omega) (take_left' (length_take_of_le (by omega))), rfl⟩

/-! ## The sums are added up -/

theorem store_sum (hsmall : values.sum < 2 ^ 32) (hlength : prefixSum.length = values.length) (hlt : index < values.length)
    (h : ∀ i < index, prefixSum[i]? = some (values.take (i + 1)).sum) :
    ∀ i < index + 1, (store prefixSum index (values.take (index + 1)).sum)[i]? = some (values.take (i + 1)).sum := by
  have hmono : (values.take (index + 1)).sum ≤ (values.take values.length).sum := monotone_sum_take values hlt
  rw [take_length] at hmono
  intro i hi
  rw [store_natCast, toUint32_eq (by omega)]
  rcases Nat.lt_or_eq_of_le (Nat.le_of_lt_succ hi) with hless | rfl
  · rw [getElem?_set_ne (by omega), h i hless]
  · rw [getElem?_set_self (by omega)]

theorem addUp_right (hsmall : values.sum < 2 ^ 32) : ∀ {remaining k : Nat} {prefixSum : List Nat},
    prefixSum.length = values.length → 0 < k → k + remaining ≤ values.length →
    (∀ i < k, prefixSum[i]? = some (values.take (i + 1)).sum) →
    (addUp values remaining k prefixSum).length = values.length ∧
      ∀ i < k + remaining, (addUp values remaining k prefixSum)[i]? = some (values.take (i + 1)).sum := by
  intro remaining
  induction remaining with
  | zero => exact fun hlength _ _ h => ⟨hlength, h⟩
  | succ remaining ih =>
    intro k prefixSum hlength hpos hle h
    have hvalue := getElem?_eq_getElem (show k < values.length by omega)
    have habove := h (k - 1) (by omega)
    rw [Nat.sub_add_cancel hpos] at habove
    have hadded : ((entry prefixSum ((k : Int) - 1)).bind fun above => (entry values k).map (above + ·)).getD 0 =
        (values.take (k + 1)).sum := by
      rw [show (k : Int) - 1 = (k - 1 : Nat) by omega, entry_natCast, entry_natCast, habove, hvalue, sum_take_succ hvalue]
      rfl
    rw [addUp, hadded, show (k : Int) + 1 = (k + 1 : Nat) by omega, show k + (remaining + 1) = k + 1 + remaining by omega]
    exact ih (by rw [store_natCast, length_set, hlength]) (Nat.succ_pos k) (by omega) (store_sum hsmall hlength (by omega) h)

theorem Good.getPrefixSumAt (h : computer.Good) (hsum : computer.values.sum < 2 ^ 32) (hlt : index < computer.values.length)
    (hindex : index < 2 ^ 31) :
    ∃ computer', computer.getPrefixSumAt index = (some (computer.values.take (index + 1)).sum, computer') ∧ computer'.Good ∧
      computer'.values = computer.values ∧ (index : Int) ≤ computer'.prefixSumValidIndex := by
  have hgood := h
  obtain ⟨hlow, hhigh, hsmall, hlength, hsums⟩ := h
  unfold PrefixSumComputer.getPrefixSumAt
  by_cases hvalid : (index : Int) ≤ computer.prefixSumValidIndex
  · exact ⟨computer, by rw [if_pos hvalid, entry_natCast, hsums index hvalid], hgood, rfl, hvalid⟩
  · -- the first sum is stored before the loop
    obtain ⟨k, prefixSum', hstarted, hpos, hle, hlength', hsums'⟩ : ∃ (k : Nat) (prefixSum' : List Nat),
        (if computer.prefixSumValidIndex + 1 = 0 then (store computer.prefixSum 0 (computer.values.getD 0 0), (1 : Int))
          else (computer.prefixSum, computer.prefixSumValidIndex + 1)) = (prefixSum', (k : Int)) ∧ 0 < k ∧ k ≤ index + 1 ∧
        prefixSum'.length = computer.values.length ∧
        ∀ i < k, prefixSum'[i]? = some (computer.values.take (i + 1)).sum := by
      by_cases hzero : computer.prefixSumValidIndex + 1 = 0
      · have hfirst : (computer.values.take 1).sum = computer.values.getD 0 0 := by
          have hvalue := getElem?_eq_getElem (show 0 < computer.values.length by omega)
          rw [sum_take_succ hvalue, getD_eq_getElem?_getD, hvalue, take_zero, sum_nil, Nat.zero_add, Option.getD_some]
        have hstore := store_sum hsum hlength (by omega) fun i hi => absurd hi (Nat.not_lt_zero i)
        rw [Nat.zero_add, hfirst] at hstore
        exact ⟨1, _, if_pos hzero, Nat.one_pos, by omega, length_set.trans hlength, hstore⟩
      · exact ⟨(computer.prefixSumValidIndex + 1).toNat, _, by rw [if_neg hzero, Int.toNat_of_nonneg (by omega)], by omega,
          by omega, hlength, fun i hi => hsums i (by omega)⟩
    obtain ⟨hlength'', hsums''⟩ := addUp_right hsum hlength' hpos (show k + (index + 1 - k) ≤ _ by omega) hsums'
    rw [Nat.add_sub_cancel' hle] at hsums''
    have hlast : toInt32 (max computer.prefixSumValidIndex index) = index := by
      rw [Int.max_eq_right (by omega), toInt32_eq ⟨by omega, by omega⟩]
    rw [if_neg hvalid]
    dsimp only
    rw [hstarted, if_neg (by omega)]
    dsimp only
    rw [show ((index : Int) + 1 - (k : Int)).toNat = index + 1 - k by omega, entry_natCast, hsums'' index (by omega),
      hlast]
    refine ⟨_, rfl, ⟨by dsimp only; omega, by dsimp only; omega, by dsimp only; omega, hlength'', fun i hi => ?_⟩, rfl,
      Int.le_refl _⟩
    exact hsums'' i (by dsimp only at hi; omega)

theorem Good.getTotalSum (h : computer.Good) (hsum : computer.values.sum < 2 ^ 32) (hlength : computer.values.length ≤ 2 ^ 31) :
    ∃ computer', computer.getTotalSum = (some computer.values.sum, computer') ∧ computer'.Good ∧
      computer'.values = computer.values ∧
      ∀ i < computer.values.length, computer'.prefixSum[i]? = some (computer.values.take (i + 1)).sum := by
  unfold PrefixSumComputer.getTotalSum
  by_cases hzero : computer.values.length = 0
  · have hnil := length_eq_zero_iff.mp hzero
    exact ⟨computer, by rw [if_pos hzero, hnil]; rfl, h, rfl, fun i hi => by omega⟩
  · obtain ⟨computer', heq, hgood, hvalues, hvalid⟩ := h.getPrefixSumAt hsum
      (show computer.values.length - 1 < computer.values.length by omega) (by omega)
    rw [Nat.sub_add_cancel (by omega), take_length] at heq
    refine ⟨computer', ?_, hgood, hvalues, fun i hi => hvalues ▸ hgood.sums i (by omega)⟩
    rw [if_neg hzero, ← heq]
    congr 1
    omega

theorem search_finds {remainder : Nat} (h : FallsOn values sum idx remainder) (hlength : values.length ≤ 2 ^ 31)
    (hsums : ∀ i < values.length, prefixSum[i]? = some (values.take (i + 1)).sum) :
    ∀ {fuel low high : Nat} (found : Int × Int), low ≤ idx → idx ≤ high → high < values.length → high - low < fuel →
    search values prefixSum sum fuel low high found = ((idx : Int), ((values.take idx).sum : Int)) := by
  intro fuel
  induction fuel with
  | zero => exact fun _ _ _ _ hfuel => absurd hfuel (Nat.not_lt_zero _)
  | succ fuel ih =>
    intro low high found hlow hhigh hlt hfuel
    obtain ⟨mid, hmid, hlow', hhigh'⟩ : ∃ mid : Nat, toInt32 ((low : Int) + ((high : Int) - low) / 2) = mid ∧ low ≤ mid ∧
        mid ≤ high := ⟨low + (high - low) / 2, by rw [toInt32_eq ⟨by omega, by omega⟩]; omega, by omega, by omega⟩
    have hvalue := getElem?_eq_getElem (show mid < values.length by omega)
    have hstep := sum_take_succ hvalue
    have hon := h
    obtain ⟨value, hvalue', hremainder, hsum⟩ := h
    have hstep' := sum_take_succ hvalue'
    rw [search, if_pos (by omega)]
    dsimp only
    rw [hmid, entry_natCast, entry_natCast, hvalue, hsums mid (by omega), Option.getD_some, Option.getD_some,
      show (((values.take (mid + 1)).sum : Nat) : Int) - (values[mid] : Nat) = ((values.take mid).sum : Nat) by omega]
    by_cases hbefore : sum < (values.take mid).sum
    · have hless : idx < mid := Nat.lt_of_not_le fun hle => by
        have : (values.take mid).sum ≤ (values.take idx).sum := monotone_sum_take values hle
        omega
      rw [if_pos (by omega), show (mid : Int) - 1 = (mid - 1 : Nat) by omega]
      exact ih _ hlow (by omega) (by omega) (by omega)
    · rw [if_neg (by omega)]
      by_cases hbehind : (values.take (mid + 1)).sum ≤ sum
      · have hmore : mid < idx := Nat.lt_of_not_le fun hle => by
          have : (values.take (idx + 1)).sum ≤ (values.take (mid + 1)).sum := monotone_sum_take values (by omega)
          omega
        rw [if_pos (by omega), show (mid : Int) + 1 = (mid + 1 : Nat) by omega]
        exact ih _ hmore hhigh hlt (by omega)
      · obtain ⟨rfl, -⟩ := hon.unique (show FallsOn values sum mid (sum - (values.take mid).sum) from
          ⟨_, hvalue, by omega, by omega⟩)
        rw [if_neg (by omega)]

theorem Good.getIndexOf (h : computer.Good) (hsum : computer.values.sum < 2 ^ 32) (hlength : computer.values.length ≤ 2 ^ 31)
    (hon : FallsOn computer.values sum idx remainder) :
    ∃ computer', computer.getIndexOf sum = (((idx : Int), (remainder : Int)), computer') ∧ computer'.Good ∧
      computer'.values = computer.values := by
  obtain ⟨computer', htotal, hgood, hvalues, hsums⟩ := h.getTotalSum hsum hlength
  obtain ⟨value, hvalue, -, hsplit⟩ := id hon
  have hlt := (List.getElem?_eq_some_iff.mp hvalue).1
  have hfound := search_finds hon hlength hsums (0, 0) (Nat.zero_le _) (Nat.le_sub_one_of_lt hlt)
    (Nat.sub_one_lt_of_lt hlt) (Nat.sub_one_lt_of_lt hlt)
  rw [Int.natCast_sub (by omega)] at hfound
  have hremainder : (sum : Int) - ((computer.values.take idx).sum : Nat) = remainder := by omega
  refine ⟨computer', ?_, hgood, hvalues⟩
  unfold PrefixSumComputer.getIndexOf
  rw [htotal]
  dsimp only
  rw [hvalues]
  refine (congrArg (fun found : Int × Int => ((found.1, (sum : Int) - found.2), computer')) hfound).trans ?_
  dsimp only
  rw [hremainder]

end PrefixSumComputer

/-! ## Calls and their answers -/

/-- A call of either class; `getPrefixSum` is of the first `count` values. -/
inductive Call
  | insertValues (insertIndex : Nat) (values : List Nat)
  | setValue (index value : Nat)
  | removeValues (start count : Nat)
  | getPrefixSum (count : Nat)
  | getTotalSum
  | getIndexOf (sum : Nat)

inductive Answer
  | done
  | sum (sum : Option Nat)
  | indexOf (index remainder : Int)

def PrefixSumComputer.call (computer : PrefixSumComputer) : Call → Option (Answer × PrefixSumComputer)
  | .insertValues insertIndex values => (computer.insertValues insertIndex values).map (.done, ·)
  | .setValue index value => some (.done, computer.setValue index value)
  | .removeValues start count => (computer.removeValues start count).map (.done, ·)
  | .getPrefixSum count => some ((computer.getPrefixSum (count - 1)).map .sum id)
  | .getTotalSum => some (computer.getTotalSum.map .sum id)
  | .getIndexOf sum => some ((computer.getIndexOf sum).map (fun found => .indexOf found.1 found.2) id)

def ConstantTimePrefixSumComputer.call (computer : ConstantTimePrefixSumComputer) :
    Call → Option (Answer × ConstantTimePrefixSumComputer)
  | .insertValues insertIndex values => some (.done, computer.insertValues insertIndex values)
  | .setValue index value => some (.done, computer.setValue index value)
  | .removeValues start count => some (.done, computer.removeValues start count)
  | .getPrefixSum count => (computer.getPrefixSum count).map (Prod.map (.sum ∘ some) id)
  | .getTotalSum => computer.getTotalSum.map (Prod.map (.sum ∘ some) id)
  | .getIndexOf sum => (computer.getIndexOf sum).map (Prod.map (fun found => .indexOf found.1 found.2) id)

namespace Call

def after : Call → List Nat → List Nat
  | insertValues insertIndex inserted, values => values.take insertIndex ++ inserted ++ values.drop insertIndex
  | setValue index value, values => values.set index value
  | removeValues start count, values => values.take start ++ values.drop (start + count)
  | _, values => values

def InRange : Call → List Nat → Prop
  | insertValues insertIndex _, values => insertIndex ≤ values.length
  | setValue index _, values => index < values.length
  | removeValues start count, values => start + count ≤ values.length
  | getPrefixSum count, values => count ≤ values.length
  | getTotalSum, _ => True
  | getIndexOf sum, values => sum < values.sum

/-- `toUint32` and `prefixSumValidIndex` keep the numbers of the call. -/
def Small : Call → List Nat → Prop
  | insertValues insertIndex _, _ => insertIndex < 2 ^ 31
  | setValue index _, _ => index < 2 ^ 31
  | removeValues start count, _ => start < 2 ^ 31 ∧ count < 2 ^ 31
  | getPrefixSum count, _ => count ≤ 2 ^ 31
  | getTotalSum, values | getIndexOf _, values => values.length ≤ 2 ^ 31

def NonEmpty : Call → List Nat → Prop
  | getPrefixSum _, values | getTotalSum, values | getIndexOf _, values => values ≠ []
  | _, _ => True

def Right : Call → List Nat → Answer → Prop
  | getPrefixSum count, values, answer => answer = .sum (some (values.take count).sum)
  | getTotalSum, values, answer => answer = .sum (some values.sum)
  | getIndexOf sum, values, answer => ∃ idx remainder : Nat, answer = .indexOf idx remainder ∧
      FallsOn values sum idx remainder ∧
      ∀ idx' remainder', FallsOn values sum idx' remainder' → idx' = idx ∧ remainder' = remainder
  | _, _, answer => answer = .done

end Call

theorem Call.Right.unique {c : Call} {answer answer' : Answer} (h : c.Right values answer) (h' : c.Right values answer') :
    answer' = answer := by
  cases c with
  | getIndexOf sum =>
    obtain ⟨idx, remainder, rfl, -, hunique⟩ := h
    obtain ⟨idx', remainder', rfl, hon, -⟩ := h'
    obtain ⟨rfl, rfl⟩ := hunique idx' remainder' hon
    rfl
  | _ => exact h'.trans h.symm

/-! ## Runs -/

def answers {σ : Type} (call : σ → Call → Option (Answer × σ)) : σ → List Call → Option (List Answer)
  | _, [] => some []
  | s, c :: calls => (call s c).bind fun next => (answers call next.2 calls).map (next.1 :: ·)

/-- Each call is as said where it is made. -/
def Along (P : Call → List Nat → Prop) : List Nat → List Call → Prop
  | _, [] => True
  | values, c :: calls => P c values ∧ Along P (c.after values) calls

def AllRight : List Nat → List Call → List Answer → Prop
  | _, [], answers => answers = []
  | values, c :: calls, answers => ∃ answer rest, answers = answer :: rest ∧ c.Right values answer ∧
      AllRight (c.after values) calls rest

variable {calls : List Call}

theorem AllRight.unique {as as' : List Answer} (h : AllRight values calls as) (h' : AllRight values calls as') : as' = as := by
  induction calls generalizing values as as' with
  | nil => exact h'.trans h.symm
  | cons c calls ih =>
    obtain ⟨answer, rest, rfl, hright, hrest⟩ := h
    obtain ⟨answer', rest', rfl, hright', hrest'⟩ := h'
    rw [hright.unique hright', ih hrest hrest']

theorem Along.answers {σ : Type} {P : Call → List Nat → Prop} (call : σ → Call → Option (Answer × σ))
    (Keeps : σ → List Nat → Prop)
    (hcall : ∀ {s values c}, Keeps s values → P c values →
      ∃ answer s', call s c = some (answer, s') ∧ c.Right values answer ∧ Keeps s' (c.after values))
    {s : σ} (hs : Keeps s values) (h : Along P values calls) :
    ∃ as, answers call s calls = some as ∧ AllRight values calls as := by
  induction calls generalizing values s with
  | nil => exact ⟨[], rfl, rfl⟩
  | cons c calls ih =>
    obtain ⟨answer, s', heq, hright, hs'⟩ := hcall hs h.1
    obtain ⟨as, has, hall⟩ := ih hs' h.2
    exact ⟨answer :: as, by rw [ViewModel.answers, heq, Option.bind_some, has, Option.map_some], answer, as, rfl, hright, hall⟩

theorem Along.and {P Q : Call → List Nat → Prop} (h : Along P values calls) (h' : Along Q values calls) :
    Along (fun c values => P c values ∧ Q c values) values calls := by
  induction calls generalizing values with
  | nil => trivial
  | cons c calls ih => exact ⟨⟨h.1, h'.1⟩, ih h.2 h'.2⟩

theorem PrefixSumComputer.Good.call {computer : PrefixSumComputer} {c : Call} (h : computer.Good)
    (hsum : computer.values.sum < 2 ^ 32) (hrange : c.InRange computer.values)
    (hafter : (c.after computer.values).sum < 2 ^ 32) (hsmall : c.Small computer.values) :
    ∃ answer computer', computer.call c = some (answer, computer') ∧ c.Right computer.values answer ∧ computer'.Good ∧
      computer'.values = c.after computer.values := by
  cases c with
  | insertValues insertIndex inserted =>
    obtain ⟨computer', heq, hgood⟩ := h.insertValues hrange hsmall inserted
    exact ⟨.done, computer', congrArg (Option.map (Answer.done, ·)) heq, rfl, hgood⟩
  | setValue index value =>
    have hle : value ≤ (computer.values.set index value).sum := single_le_sum (fun _ _ => Nat.zero_le _) _ (mem_set hrange value)
    exact ⟨.done, _, rfl, rfl, h.setValue hrange hsmall (Nat.lt_of_le_of_lt hle hafter)⟩
  | removeValues start count =>
    obtain ⟨computer', heq, hgood⟩ := h.removeValues hrange hsmall.1 hsmall.2
    exact ⟨.done, computer', congrArg (Option.map (Answer.done, ·)) heq, rfl, hgood⟩
  | getPrefixSum count =>
    cases count with
    | zero => exact ⟨_, computer, rfl, rfl, h, rfl⟩
    | succ index =>
      have hlt : index < 2 ^ 31 := hsmall
      obtain ⟨computer', heq, hgood, hvalues, -⟩ := h.getPrefixSumAt hsum hrange hlt
      refine ⟨_, computer', ?_, rfl, hgood, hvalues⟩
      rw [PrefixSumComputer.call, PrefixSumComputer.getPrefixSum, if_neg (by omega),
        show ((index + 1 : Nat) : Int) - 1 = index by omega, Int.toNat_natCast, uint_eq hlt, heq]
      rfl
  | getTotalSum =>
    obtain ⟨computer', heq, hgood, hvalues, -⟩ := h.getTotalSum hsum hsmall
    refine ⟨_, computer', ?_, rfl, hgood, hvalues⟩
    rw [PrefixSumComputer.call, heq]
    rfl
  | getIndexOf sum =>
    obtain ⟨idx, remainder, hon, -⟩ := exists_fallsOn hrange
    obtain ⟨computer', heq, hgood⟩ := h.getIndexOf hsum hsmall hon
    refine ⟨_, computer', ?_, ⟨idx, remainder, rfl, hon, fun _ _ => hon.unique⟩, hgood⟩
    rw [PrefixSumComputer.call, heq]
    rfl

theorem ConstantTimePrefixSumComputer.Good.getIndexOf {computer : ConstantTimePrefixSumComputer} (h : computer.Good)
    (hlt : sum < computer.values.sum) :
    ∃ (idx remainder : Nat) (computer' : ConstantTimePrefixSumComputer),
      computer.getIndexOf sum = some ((idx, (remainder : Int)), computer') ∧ computer'.Good ∧
      computer'.values = computer.values ∧ FallsOn computer.values sum idx remainder := by
  obtain ⟨idx, remainder, hon, htable⟩ := exists_fallsOn hlt
  have hne : computer.values ≠ [] := fun hnil => by
    rw [hnil] at hlt
    cases hlt
  obtain ⟨computer', hensure, hgood, hvalues, hvalid⟩ := h.ensureValid hne
  obtain ⟨hsums, hindices⟩ := hgood.full hvalid
  obtain ⟨value, hvalue, -, hsplit⟩ := id hon
  have hlength := (List.getElem?_eq_some_iff.mp hvalue).1
  refine ⟨idx, remainder, computer', ?_, hgood, hvalues, hon⟩
  rw [ConstantTimePrefixSumComputer.getIndexOf, hensure, Option.bind_some, hindices, hsums, hvalues, htable 0, Option.map_some,
    Nat.zero_add]
  have habove : (if 0 < idx then (sumsFrom 0 computer.values).getD (idx - 1) 0 else 0) = (computer.values.take idx).sum := by
    cases idx with
    | zero => rfl
    | succ above =>
      rw [if_pos (by omega), getD_eq_getElem?_getD, Nat.add_sub_cancel, getElem?_sumsFrom 0 (by omega),
        Option.getD_some, Nat.zero_add]
  rw [habove, show (sum : Int) - ((computer.values.take idx).sum : Nat) = remainder by omega]

theorem ConstantTimePrefixSumComputer.Good.call {computer : ConstantTimePrefixSumComputer} {c : Call} (h : computer.Good)
    (hrange : c.InRange computer.values) (hne : c.NonEmpty computer.values) :
    ∃ answer computer', computer.call c = some (answer, computer') ∧ c.Right computer.values answer ∧ computer'.Good ∧
      computer'.values = c.after computer.values := by
  cases c with
  | insertValues insertIndex inserted => exact ⟨_, _, rfl, rfl, h.insertValues inserted hrange, rfl⟩
  | setValue index value => exact ⟨_, _, rfl, rfl, h.setValue index value, values_setValue computer index value⟩
  | removeValues start count =>
    exact ⟨_, _, rfl, rfl, h.removeValues count (Nat.le_trans (Nat.le_add_right _ _) hrange), rfl⟩
  | getPrefixSum count =>
    obtain ⟨computer', heq, hgood⟩ := h.getPrefixSum hne hrange
    exact ⟨_, computer', congrArg (Option.map _) heq, rfl, hgood⟩
  | getTotalSum =>
    obtain ⟨computer', heq, hgood⟩ := h.getTotalSum hne
    exact ⟨_, computer', congrArg (Option.map _) heq, rfl, hgood⟩
  | getIndexOf sum =>
    obtain ⟨idx, remainder, computer', heq, hgood, hvalues, hon⟩ := h.getIndexOf hrange
    exact ⟨_, computer', congrArg (Option.map _) heq, ⟨idx, remainder, rfl, hon, fun _ _ => hon.unique⟩, hgood, hvalues⟩

/-- Both answer from the values, and alike. -/
theorem computers_faithful (h : values.sum < 2 ^ 32) (hrange : Along Call.InRange values calls)
    (hafter : Along (fun c values => (c.after values).sum < 2 ^ 32) values calls) (hsmall : Along Call.Small values calls) :
    ∃ as, answers PrefixSumComputer.call (.new values) calls = some as ∧ AllRight values calls as ∧
      (Along Call.NonEmpty values calls → answers ConstantTimePrefixSumComputer.call (.new values) calls = some as) := by
  have hlinear := (hrange.and (hafter.and hsmall)).answers PrefixSumComputer.call
    (fun computer values => computer.Good ∧ computer.values = values ∧ values.sum < 2 ^ 32) ?_
    ⟨PrefixSumComputer.Good.new values, rfl, h⟩
  · obtain ⟨as, has, hall⟩ := hlinear
    refine ⟨as, has, hall, fun hne => ?_⟩
    have hconstant := (hrange.and hne).answers ConstantTimePrefixSumComputer.call
      (fun computer values => computer.Good ∧ computer.values = values) ?_
      ⟨ConstantTimePrefixSumComputer.Good.new values, rfl⟩
    · obtain ⟨as', has', hall'⟩ := hconstant
      rw [has', hall.unique hall']
    · rintro computer values c ⟨hgood, rfl⟩ ⟨hrange, hne⟩
      exact hgood.call hrange hne
  · rintro computer values c ⟨hgood, rfl, hsum⟩ ⟨hrange, hafter, hsmall⟩
    obtain ⟨answer, computer', heq, hright, hgood', hvalues⟩ := hgood.call hsum hrange hafter hsmall
    exact ⟨answer, computer', heq, hright, hgood', hvalues, hafter⟩

theorem computers_faithful_changes :
    ∃ as, answers PrefixSumComputer.call (.new [2, 0, 3]) [.getIndexOf 2, .removeValues 1 1, .setValue 0 0, .getPrefixSum 2] =
        some as ∧
      answers ConstantTimePrefixSumComputer.call (.new [2, 0, 3])
        [.getIndexOf 2, .removeValues 1 1, .setValue 0 0, .getPrefixSum 2] = some as := by
  obtain ⟨as, hlinear, -, hconstant⟩ := @computers_faithful [2, 0, 3]
    [.getIndexOf 2, .removeValues 1 1, .setValue 0 0, .getPrefixSum 2] (by decide)
    (by simp [Along, Call.InRange, Call.after]) (by simp [Along, Call.after]) (by simp [Along, Call.Small])
  exact ⟨as, hlinear, hconstant (by simp [Along, Call.NonEmpty, Call.after])⟩

/-- The sum of the first `2 ^ 31 + 1` values is read from a negative index. -/
theorem getPrefixSum_undefined :
    (replicate (2 ^ 31 + 1) 1).sum < 2 ^ 32 ∧ Call.InRange (.getPrefixSum (2 ^ 31 + 1)) (replicate (2 ^ 31 + 1) 1) ∧
    answers PrefixSumComputer.call (.new (replicate (2 ^ 31 + 1) 1)) [.getPrefixSum (2 ^ 31 + 1)] = some [.sum none] ∧
    ¬Call.Right (.getPrefixSum (2 ^ 31 + 1)) (replicate (2 ^ 31 + 1) 1) (.sum none) := by
  refine ⟨?_, ?_, ?_, nofun⟩
  · rw [sum_replicate]
    decide
  · rw [Call.InRange, length_replicate]
  · have hnegative : PrefixSumComputer.uint (2 ^ 31) = -2 ^ 31 := by decide
    have hundefined : (PrefixSumComputer.new (replicate (2 ^ 31 + 1) 1)).getPrefixSum (((2 ^ 31 + 1 : Nat) : Int) - 1) =
        (none, .new (replicate (2 ^ 31 + 1) 1)) := by
      rw [PrefixSumComputer.getPrefixSum, if_neg (by omega), show (((2 ^ 31 + 1 : Nat) : Int) - 1).toNat = 2 ^ 31 by omega,
        hnegative, PrefixSumComputer.getPrefixSumAt, PrefixSumComputer.new, if_pos (by decide), entry, if_pos (by decide)]
    rw [answers, PrefixSumComputer.call, hundefined]
    rfl

end TongjiCode.ViewModel
