import Mathlib.Algebra.Order.Ring.Int
import Mathlib.Data.List.Basic

/-!
# Binary searches

`findLastIdxMonotonous` and `findFirstIdxMonotonousOrArrLen` of `arraysFind.ts`, over a whole array.  On an array whose entries
first fail and then meet the predicate (or the other way round) each finds the border.
-/

open List

namespace TongjiCode

variable {α : Type}

def holdsAt (array : List α) (predicate : α → Bool) (k : Nat) : Bool := (array[k]?).any predicate

/-- The loop of `findLastIdxMonotonous` between `i` and `j`; the fuel bounds their distance. -/
def findLastIdxLoop (array : List α) (predicate : α → Bool) : Nat → Nat → Nat → Int
  | 0, i, _ => i - 1
  | fuel + 1, i, j =>
    if i < j then
      let k := (i + j) / 2
      if holdsAt array predicate k then findLastIdxLoop array predicate fuel (k + 1) j
      else findLastIdxLoop array predicate fuel i k
    else i - 1

def findLastIdxMonotonous (array : List α) (predicate : α → Bool) : Int :=
  findLastIdxLoop array predicate array.length 0 array.length

def findLastMonotonous (array : List α) (predicate : α → Bool) : Option α :=
  let idx := findLastIdxMonotonous array predicate
  if idx = -1 then none else array[idx.toNat]?

/-- The loop of `findFirstIdxMonotonousOrArrLen` between `i` and `j`; the fuel bounds their distance. -/
def findFirstIdxLoop (array : List α) (predicate : α → Bool) : Nat → Nat → Nat → Nat
  | 0, i, _ => i
  | fuel + 1, i, j =>
    if i < j then
      let k := (i + j) / 2
      if holdsAt array predicate k then findFirstIdxLoop array predicate fuel i k
      else findFirstIdxLoop array predicate fuel (k + 1) j
    else i

def findFirstIdxMonotonousOrArrLen (array : List α) (predicate : α → Bool) : Nat :=
  findFirstIdxLoop array predicate array.length 0 array.length

/-! ## The border -/

variable {front back : List α} {predicate : α → Bool}

theorem holdsAt_front {b : Bool} (h : ∀ a ∈ front, predicate a = b) {k : Nat} (hk : k < front.length) :
    holdsAt (front ++ back) predicate k = b := by
  rw [holdsAt, getElem?_append_left hk, getElem?_eq_getElem hk]
  exact h _ (getElem_mem hk)

theorem holdsAt_back {b : Bool} (h : ∀ a ∈ back, predicate a = b) {k : Nat} (hk : front.length ≤ k)
    (hk' : k < front.length + back.length) : holdsAt (front ++ back) predicate k = b := by
  have hlt : k - front.length < back.length := by omega
  rw [holdsAt, getElem?_append_right hk, getElem?_eq_getElem hlt]
  exact h _ (getElem_mem hlt)

section

variable (hfront : ∀ a ∈ front, predicate a = true) (hback : ∀ a ∈ back, predicate a = false)
include hfront hback

/-- The search keeps the border between its two indices. -/
theorem findLastIdxLoop_append :
    ∀ fuel i j, j - i ≤ fuel → i ≤ front.length → front.length ≤ j → j ≤ front.length + back.length →
      findLastIdxLoop (front ++ back) predicate fuel i j = (front.length : Int) - 1 := by
  intro fuel
  induction fuel with
  | zero =>
    intro i j hfuel hi hj _
    rw [findLastIdxLoop, show i = front.length by omega]
  | succ fuel ih =>
    intro i j hfuel hi hj hlength
    rw [findLastIdxLoop]
    by_cases hij : i < j
    · rw [if_pos hij]
      dsimp only
      by_cases hk : (i + j) / 2 < front.length
      · rw [holdsAt_front hfront hk, if_pos rfl]
        exact ih _ _ (by omega) (by omega) hj hlength
      · rw [holdsAt_back hback (by omega) (by omega), if_neg (by decide)]
        exact ih _ _ (by omega) hi (by omega) (by omega)
    · rw [if_neg hij, show i = front.length by omega]

theorem findLastIdxMonotonous_append :
    findLastIdxMonotonous (front ++ back) predicate = (front.length : Int) - 1 := by
  have hlength : (front ++ back).length = front.length + back.length := length_append
  exact findLastIdxLoop_append hfront hback _ _ _ (by omega) (by omega) (by omega) (by omega)

end

section

variable (hfront : ∀ a ∈ front, predicate a = false) (hback : ∀ a ∈ back, predicate a = true)
include hfront hback

theorem findFirstIdxLoop_append :
    ∀ fuel i j, j - i ≤ fuel → i ≤ front.length → front.length ≤ j → j ≤ front.length + back.length →
      findFirstIdxLoop (front ++ back) predicate fuel i j = front.length := by
  intro fuel
  induction fuel with
  | zero =>
    intro i j hfuel hi hj _
    rw [findFirstIdxLoop]
    omega
  | succ fuel ih =>
    intro i j hfuel hi hj hlength
    rw [findFirstIdxLoop]
    by_cases hij : i < j
    · rw [if_pos hij]
      dsimp only
      by_cases hk : (i + j) / 2 < front.length
      · rw [holdsAt_front hfront hk, if_neg (by decide)]
        exact ih _ _ (by omega) (by omega) hj hlength
      · rw [holdsAt_back hback (by omega) (by omega), if_pos rfl]
        exact ih _ _ (by omega) hi (by omega) (by omega)
    · rw [if_neg hij]
      omega

theorem findFirstIdxMonotonousOrArrLen_append :
    findFirstIdxMonotonousOrArrLen (front ++ back) predicate = front.length := by
  have hlength : (front ++ back).length = front.length + back.length := length_append
  exact findFirstIdxLoop_append hfront hback _ _ _ (by omega) (by omega) (by omega) (by omega)

end

/-! ## Linear scans -/

theorem takeWhile_border (predicate : α → Bool) (hfront : ∀ a ∈ front, predicate a = true) (hback : ∀ a ∈ back, predicate a = false) :
    (front ++ back).takeWhile predicate = front := by
  rw [takeWhile_append_of_pos hfront]
  cases back with
  | nil => simp
  | cons b rest => simp [hback b (mem_cons_self ..)]

theorem dropWhile_border (predicate : α → Bool) (hfront : ∀ a ∈ front, predicate a = true) (hback : ∀ a ∈ back, predicate a = false) :
    (front ++ back).dropWhile predicate = back := by
  rw [dropWhile_append_of_pos hfront]
  cases back with
  | nil => rfl
  | cons b rest => simp [hback b (mem_cons_self ..)]

end TongjiCode
