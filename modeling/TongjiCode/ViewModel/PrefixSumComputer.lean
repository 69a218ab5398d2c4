import Mathlib.Algebra.Order.Ring.Int
import Mathlib.Algebra.BigOperators.Group.List.Basic

/-!
# `ConstantTimePrefixSumComputer`

Sums of a list of values and the index that a sum falls on, both kept until a value changes.  What is kept up to the last
valid index is still right.
-/

open List

namespace TongjiCode.ViewModel

/-! ## Sums and indices -/

/-- The sums of the values up to each of them, from a sum above. -/
def sumsFrom (sumAbove : Nat) : List Nat → List Nat
  | [] => []
  | value :: values => (sumAbove + value) :: sumsFrom (sumAbove + value) values

/-- Each index as often as its value says. -/
def indicesFrom (i : Nat) : List Nat → List Nat
  | [] => []
  | value :: values => List.replicate value i ++ indicesFrom (i + 1) values

theorem length_sumsFrom (sumAbove : Nat) (values : List Nat) : (sumsFrom sumAbove values).length = values.length := by
  induction values generalizing sumAbove with
  | nil => rfl
  | cons value values ih => rw [sumsFrom, length_cons, ih, length_cons]

theorem length_indicesFrom (i : Nat) (values : List Nat) : (indicesFrom i values).length = values.sum := by
  induction values generalizing i with
  | nil => rfl
  | cons value values ih => rw [indicesFrom, length_append, length_replicate, ih, sum_cons]

theorem sumsFrom_append (sumAbove : Nat) (values values' : List Nat) :
    sumsFrom sumAbove (values ++ values') = sumsFrom sumAbove values ++ sumsFrom (sumAbove + values.sum) values' := by
  induction values generalizing sumAbove with
  | nil => rfl
  | cons value values ih => rw [cons_append, sumsFrom, sumsFrom, ih, sum_cons, Nat.add_assoc, cons_append]

theorem indicesFrom_append (i : Nat) (values values' : List Nat) :
    indicesFrom i (values ++ values') = indicesFrom i values ++ indicesFrom (i + values.length) values' := by
  induction values generalizing i with
  | nil => rfl
  | cons value values ih =>
    rw [cons_append, indicesFrom, indicesFrom, ih, length_cons, append_assoc, Nat.add_right_comm, Nat.add_assoc]

variable {values : List Nat} {i : Nat}

theorem getElem?_sumsFrom (sumAbove : Nat) (h : i < values.length) :
    (sumsFrom sumAbove values)[i]? = some (sumAbove + (values.take (i + 1)).sum) := by
  induction values generalizing sumAbove i with
  | nil => cases h
  | cons value values ih =>
    cases i with
    | zero => simp [sumsFrom]
    | succ i =>
      rw [sumsFrom, getElem?_cons_succ, ih _ (Nat.lt_of_succ_lt_succ h), take_succ_cons, sum_cons]
      congr 1
      omega

/-! ## The computer -/

/-- `arr[i] = value`, where `i` is at most the length. -/
def assign (arr : List Nat) (i value : Nat) : List Nat :=
  if i < arr.length then arr.set i value else arr ++ [value]

theorem take_assign {arr : List Nat} (h : i ≤ arr.length) (value : Nat) :
    (assign arr i value).take (i + 1) = arr.take i ++ [value] := by
  unfold assign
  split
  · next hless =>
    rw [take_add_one, take_set_of_le (Nat.le_refl i), getElem?_set_self hless, Option.toList_some]
  · next hless =>
    obtain rfl : i = arr.length := by omega
    simp

structure ConstantTimePrefixSumComputer where
  values : List Nat
  isValid : Bool
  validEndIndex : Int
  prefixSum : List Nat
  indexBySum : List Nat

namespace ConstantTimePrefixSumComputer

def new (values : List Nat) : ConstantTimePrefixSumComputer where
  values := values
  isValid := false
  validEndIndex := -1
  prefixSum := []
  indexBySum := []

def invalidate (computer : ConstantTimePrefixSumComputer) (index : Nat) : ConstantTimePrefixSumComputer :=
  { computer with isValid := false, validEndIndex := min computer.validEndIndex (index - 1) }

/-- The inner loop of `_ensureValid`: `remaining` indices from `sum` on. -/
def assignAll (indexBySum : List Nat) (i sum : Nat) : Nat → List Nat
  | 0 => indexBySum
  | remaining + 1 => assignAll (assign indexBySum sum i) i (sum + 1) remaining

/-- The outer loop of `_ensureValid`, over the values from the index `i` on. -/
def fill : List Nat → Nat → List Nat → List Nat → List Nat × List Nat
  | [], _, prefixSum, indexBySum => (prefixSum, indexBySum)
  | value :: values, i, prefixSum, indexBySum =>
    let sumAbove := if 0 < i then prefixSum.getD (i - 1) 0 else 0
    fill values (i + 1) (assign prefixSum i (sumAbove + value)) (assignAll indexBySum i sumAbove value)

/-- `_ensureValid`, which throws if there are no values. -/
def ensureValid (computer : ConstantTimePrefixSumComputer) : Option ConstantTimePrefixSumComputer :=
  if computer.isValid then some computer
  else
    let start := (computer.validEndIndex + 1).toNat
    let filled := fill (computer.values.drop start) start computer.prefixSum computer.indexBySum
    let prefixSum := filled.1.take computer.values.length
    prefixSum.getLast?.map fun total =>
      { computer with
        isValid := true
        validEndIndex := computer.values.length - 1
        prefixSum := prefixSum
        indexBySum := filled.2.take total }

def getTotalSum (computer : ConstantTimePrefixSumComputer) : Option (Nat × ConstantTimePrefixSumComputer) :=
  computer.ensureValid.map fun computer => (computer.indexBySum.length, computer)

def getPrefixSum (computer : ConstantTimePrefixSumComputer) (count : Nat) : Option (Nat × ConstantTimePrefixSumComputer) :=
  computer.ensureValid.bind fun computer =>
    if count = 0 then some (0, computer) else computer.prefixSum[count - 1]?.map fun sum => (sum, computer)

def removeValues (computer : ConstantTimePrefixSumComputer) (start deleteCount : Nat) : ConstantTimePrefixSumComputer :=
  { computer with values := computer.values.take start ++ computer.values.drop (start + deleteCount) }.invalidate start

def insertValues (computer : ConstantTimePrefixSumComputer) (insertIndex : Nat) (insertArr : List Nat) :
    ConstantTimePrefixSumComputer :=
  { computer with values := computer.values.take insertIndex ++ insertArr ++ computer.values.drop insertIndex }.invalidate
    insertIndex

def setValue (computer : ConstantTimePrefixSumComputer) (index value : Nat) : ConstantTimePrefixSumComputer :=
  if computer.values[index]? = some value then computer
  else { computer with values := computer.values.set index value }.invalidate index

/-! ## What is kept is right -/

/-- What is kept for the first `k` values is right. -/
structure RightUpTo (k : Nat) (values prefixSum indexBySum : List Nat) : Prop where
  bound : k ≤ values.length
  sums : prefixSum.take k = sumsFrom 0 (values.take k)
  indices : indexBySum.take (values.take k).sum = indicesFrom 0 (values.take k)

structure Good (computer : ConstantTimePrefixSumComputer) : Prop where
  endIndex : -1 ≤ computer.validEndIndex
  right : RightUpTo (computer.validEndIndex + 1).toNat computer.values computer.prefixSum computer.indexBySum
  full : computer.isValid = true → computer.prefixSum = sumsFrom 0 computer.values ∧
    computer.indexBySum = indicesFrom 0 computer.values

theorem Good.new (values : List Nat) : (new values).Good where
  endIndex := Int.le_refl _
  right := ⟨Nat.zero_le _, rfl, by simp [ConstantTimePrefixSumComputer.new, indicesFrom]⟩
  full h := nomatch h

variable {prefixSum indexBySum : List Nat}

theorem RightUpTo.mono {k k' : Nat} (h : RightUpTo k values prefixSum indexBySum) (hle : k' ≤ k) :
    RightUpTo k' values prefixSum indexBySum := by
  have htake : values.take k = values.take k' ++ (values.take k).drop k' := by
    conv_lhs => rw [← take_append_drop k' (values.take k)]
    rw [take_take, Nat.min_eq_left hle]
  have hlength : (values.take k').length = k' := by
    rw [length_take]
    have := h.bound
    omega
  refine ⟨Nat.le_trans hle h.bound, ?_, ?_⟩
  · have hsums := congrArg (List.take k') h.sums
    rw [take_take, Nat.min_eq_left hle, htake, sumsFrom_append, take_left' (by rw [length_sumsFrom, hlength])] at hsums
    exact hsums
  · have hindices := congrArg (List.take (values.take k').sum) h.indices
    rw [htake, sum_append, take_take, Nat.min_eq_left (by omega), indicesFrom_append,
      take_left' (length_indicesFrom _ _)] at hindices
    exact hindices

/-- Values from `k` on may change. -/
theorem RightUpTo.congr {k : Nat} {values values' prefixSum indexBySum : List Nat}
    (h : RightUpTo k values prefixSum indexBySum) (hbound : k ≤ values'.length) (heq : values'.take k = values.take k) :
    RightUpTo k values' prefixSum indexBySum :=
  ⟨hbound, by rw [heq]; exact h.sums, by rw [heq]; exact h.indices⟩

/-! ## `_ensureValid` makes all of it right -/

theorem length_assign {arr : List Nat} (h : i ≤ arr.length) (value : Nat) : i + 1 ≤ (assign arr i value).length := by
  unfold assign
  split <;> simp <;> omega

theorem take_assignAll {sum : Nat} (h : sum ≤ indexBySum.length) (i remaining : Nat) :
    (assignAll indexBySum i sum remaining).take (sum + remaining) = indexBySum.take sum ++ List.replicate remaining i := by
  induction remaining generalizing indexBySum sum with
  | zero => simp [assignAll]
  | succ remaining ih =>
    have htake := ih (length_assign h i)
    rw [take_assign h, append_assoc, singleton_append, ← replicate_succ] at htake
    rw [assignAll, ← htake]
    congr 1
    omega

theorem getD_sumAbove (h : prefixSum.take values.length = sumsFrom 0 values) :
    (if 0 < values.length then prefixSum.getD (values.length - 1) 0 else 0) = values.sum := by
  by_cases hlength : 0 < values.length
  · have hlast := getElem?_sumsFrom 0 (Nat.sub_one_lt_of_lt hlength)
    rw [← h, getElem?_take_of_lt (by omega), Nat.sub_add_cancel hlength, take_length, Nat.zero_add] at hlast
    rw [if_pos hlength, getD_eq_getElem?_getD, hlast, Option.getD_some]
  · obtain rfl : values = [] := length_eq_zero_iff.mp (by omega)
    rfl

theorem fill_right (rest : List Nat) (hsums : prefixSum.take values.length = sumsFrom 0 values)
    (hindices : indexBySum.take values.sum = indicesFrom 0 values) :
    (fill rest values.length prefixSum indexBySum).1.take (values ++ rest).length = sumsFrom 0 (values ++ rest) ∧
      (fill rest values.length prefixSum indexBySum).2.take (values ++ rest).sum = indicesFrom 0 (values ++ rest) := by
  induction rest generalizing values prefixSum indexBySum with
  | nil =>
    rw [append_nil]
    exact ⟨hsums, hindices⟩
  | cons value rest ih =>
    rw [fill, getD_sumAbove hsums]
    have hbound : values.length ≤ prefixSum.length := by
      have := congrArg List.length hsums
      rw [length_take, length_sumsFrom] at this
      omega
    have hbound' : values.sum ≤ indexBySum.length := by
      have := congrArg List.length hindices
      rw [length_take, length_indicesFrom] at this
      omega
    have hsums' : (assign prefixSum values.length (values.sum + value)).take (values ++ [value]).length =
        sumsFrom 0 (values ++ [value]) := by
      rw [length_append, length_singleton, take_assign hbound, hsums, sumsFrom_append, Nat.zero_add]
      rfl
    have hindices' : (assignAll indexBySum values.length values.sum value).take (values ++ [value]).sum =
        indicesFrom 0 (values ++ [value]) := by
      rw [sum_append, sum_singleton, take_assignAll hbound', hindices, indicesFrom_append, Nat.zero_add, indicesFrom,
        indicesFrom, append_nil]
    have hrest := ih hsums' hindices'
    have hlength : (values ++ [value]).length = values.length + 1 := by simp
    rw [append_assoc, singleton_append, hlength] at hrest
    exact hrest

theorem getLast?_sumsFrom (hne : values ≠ []) : (sumsFrom 0 values).getLast? = some values.sum := by
  have hlength := length_pos_of_ne_nil hne
  rw [getLast?_eq_getElem?, length_sumsFrom, getElem?_sumsFrom 0 (by omega), Nat.sub_add_cancel hlength, take_length,
    Nat.zero_add]

variable {computer : ConstantTimePrefixSumComputer}

section

variable (h : computer.Good)
include h

theorem Good.ensureValid (hne : computer.values ≠ []) :
    ∃ computer', computer.ensureValid = some computer' ∧ computer'.Good ∧ computer'.values = computer.values ∧
      computer'.isValid = true := by
  unfold ConstantTimePrefixSumComputer.ensureValid
  by_cases hvalid : computer.isValid = true
  · exact ⟨computer, if_pos hvalid, h, rfl, hvalid⟩
  · rw [if_neg hvalid]
    generalize hk : (computer.validEndIndex + 1).toNat = k
    have hright := h.right
    rw [hk] at hright
    have hlength : (computer.values.take k).length = k := by
      rw [length_take]
      exact Nat.min_eq_left hright.bound
    have hfill := fill_right (computer.values.drop k) (by rw [hlength]; exact hright.sums) hright.indices
    rw [take_append_drop, hlength] at hfill
    obtain ⟨hsums, hindices⟩ := hfill
    dsimp only
    rw [hsums, getLast?_sumsFrom hne, Option.map_some, hindices]
    have hlength' : ((computer.values.length : Int) - 1 + 1).toNat = computer.values.length := by omega
    refine ⟨_, rfl, ⟨by dsimp only; omega, ?_, fun _ => ⟨rfl, rfl⟩⟩, rfl, rfl⟩
    rw [hlength']
    refine ⟨Nat.le_refl _, ?_, ?_⟩
    · rw [take_length, take_of_length_le (Nat.le_of_eq (length_sumsFrom _ _))]
    · rw [take_length, take_of_length_le (Nat.le_of_eq (length_indicesFrom _ _))]

/-! ## The operations -/

theorem Good.getPrefixSum (hne : computer.values ≠ []) {count : Nat} (hcount : count ≤ computer.values.length) :
    ∃ computer', computer.getPrefixSum count = some ((computer.values.take count).sum, computer') ∧ computer'.Good ∧
      computer'.values = computer.values := by
  obtain ⟨computer', hensure, hgood, hvalues, hvalid⟩ := h.ensureValid hne
  refine ⟨computer', ?_, hgood, hvalues⟩
  rw [ConstantTimePrefixSumComputer.getPrefixSum, hensure, Option.bind_some]
  by_cases hzero : count = 0
  · simp [hzero]
  · have hless : count - 1 < computer.values.length := by omega
    have hsum := getElem?_sumsFrom 0 hless
    rw [Nat.sub_add_cancel (by omega), Nat.zero_add, ← hvalues, ← (hgood.full hvalid).1] at hsum
    simp [hzero, hsum, hvalues]

theorem Good.getTotalSum (hne : computer.values ≠ []) :
    ∃ computer', computer.getTotalSum = some (computer.values.sum, computer') ∧ computer'.Good ∧
      computer'.values = computer.values := by
  obtain ⟨computer', hensure, hgood, hvalues, hvalid⟩ := h.ensureValid hne
  refine ⟨computer', ?_, hgood, hvalues⟩
  rw [ConstantTimePrefixSumComputer.getTotalSum, hensure, Option.map_some, (hgood.full hvalid).2, length_indicesFrom, hvalues]

theorem Good.invalidate {index : Nat} (heq : values.take index = computer.values.take index) :
    ({ computer with values := values }.invalidate index).Good := by
  have hend := h.endIndex
  have hmin : (min computer.validEndIndex (index - 1) + 1).toNat = min (computer.validEndIndex + 1).toNat index := by omega
  refine ⟨by simp only [ConstantTimePrefixSumComputer.invalidate]; omega, ?_, fun hvalid => nomatch hvalid⟩
  simp only [ConstantTimePrefixSumComputer.invalidate]
  rw [hmin]
  have htake : values.take (min (computer.validEndIndex + 1).toNat index) =
      computer.values.take (min (computer.validEndIndex + 1).toNat index) := by
    have := congrArg (List.take (computer.validEndIndex + 1).toNat) heq
    rwa [take_take, take_take] at this
  refine (h.right.mono (by omega)).congr ?_ htake
  have hbound := h.right.bound
  have := congrArg List.length htake
  rw [length_take, length_take] at this
  omega

theorem Good.removeValues {start : Nat} (deleteCount : Nat) (hstart : start ≤ computer.values.length) :
    (computer.removeValues start deleteCount).Good :=
  h.invalidate (take_left' (length_take_of_le hstart))

theorem Good.insertValues {insertIndex : Nat} (insertArr : List Nat) (hindex : insertIndex ≤ computer.values.length) :
    (computer.insertValues insertIndex insertArr).Good := by
  refine h.invalidate ?_
  rw [append_assoc]
  exact take_left' (length_take_of_le hindex)

theorem Good.setValue (index value : Nat) :
    (computer.setValue index value).Good := by
  unfold ConstantTimePrefixSumComputer.setValue
  split
  · exact h
  · exact h.invalidate (take_set_of_le (Nat.le_refl index))

end

theorem values_setValue (computer : ConstantTimePrefixSumComputer) (index value : Nat) :
    (computer.setValue index value).values = computer.values.set index value := by
  unfold setValue
  split
  · next hsame =>
    obtain ⟨hlength, hget⟩ := List.getElem?_eq_some_iff.mp hsame
    rw [← hget, List.set_getElem_self]
  · rfl

end ConstantTimePrefixSumComputer

end TongjiCode.ViewModel
