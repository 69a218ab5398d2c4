import Mathlib.Algebra.Order.Ring.Int
import Mathlib.Algebra.BigOperators.Group.List.Basic
import Mathlib.Algebra.Order.Ring.Unbundled.Rat

/-!
# Ranged groups

The groups of `rangeMap.ts`: a group stands for as many items of one size as its range is long.  Sizes are rational
numbers, indices integers.  A list of groups that follow each other without a gap is read as the list of the sizes it
stands for (`sizesOf`); `groupIntersect` then takes a part of that list and `consolidate` changes nothing of it.
-/

namespace TongjiCode.ListView

/-! ## Ranges and groups -/

/-- `IRange`; `stop` is the source's `end`. -/
structure Range where
  start : Int
  stop : Int
deriving DecidableEq, Repr

/-- A range to look for, whose end may be `Number.POSITIVE_INFINITY` (`none`). -/
structure QueryRange where
  start : Int
  stop : Option Int

/-- `IRangedGroup`. -/
structure RangedGroup where
  range : Range
  size : Rat
deriving DecidableEq, Repr

/-- `start >= end`, where nothing is as large as infinity. -/
def reaches (start : Int) : Option Int → Bool
  | none => false
  | some stop => decide (stop ≤ start)

/-- `Math.min(one.end, end)`. -/
def minStop (stop : Int) : Option Int → Int
  | none => stop
  | some oneStop => min oneStop stop

def Range.intersect (one : QueryRange) (other : Range) : Range :=
  if one.start ≥ other.stop || reaches other.start one.stop then ⟨0, 0⟩
  else
    let start := max one.start other.start
    let stop := minStop other.stop one.stop
    if stop - start ≤ 0 then ⟨0, 0⟩ else ⟨start, stop⟩

def Range.isEmpty (range : Range) : Bool :=
  range.stop - range.start ≤ 0

/-- `range.end < start`. -/
def endsBefore (start : Int) : Option Int → Bool
  | none => false
  | some stop => decide (stop < start)

def groupIntersect (range : QueryRange) : List RangedGroup → List RangedGroup
  | [] => []
  | r :: groups =>
    if range.start ≥ r.range.stop then groupIntersect range groups
    else if endsBefore r.range.start range.stop then []
    else
      let intersection := Range.intersect range r.range
      if intersection.isEmpty then groupIntersect range groups
      else ⟨intersection, r.size⟩ :: groupIntersect range groups

def shift (range : Range) (much : Int) : Range :=
  ⟨range.start + much, range.stop + much⟩

/-- The loop of `consolidate`: `previousGroup` is the last group of the result and may still grow. -/
def consolidateFrom (previousGroup : RangedGroup) : List RangedGroup → List RangedGroup
  | [] => [previousGroup]
  | group :: groups =>
    if group.size = previousGroup.size then
      consolidateFrom { previousGroup with range := { previousGroup.range with stop := group.range.stop } } groups
    else previousGroup :: consolidateFrom group groups

def consolidate : List RangedGroup → List RangedGroup
  | [] => []
  | group :: groups => consolidateFrom group groups

def concat (before middle after : List RangedGroup) : List RangedGroup :=
  consolidate (before ++ middle ++ after)

/-! ## What groups stand for -/

def RangedGroup.count (g : RangedGroup) : Nat := (g.range.stop - g.range.start).toNat

def sizesOf (groups : List RangedGroup) : List Rat :=
  groups.flatMap fun g => List.replicate g.count g.size

@[simp] theorem sizesOf_nil : sizesOf [] = [] := rfl

@[simp] theorem sizesOf_cons (g : RangedGroup) (groups : List RangedGroup) :
    sizesOf (g :: groups) = List.replicate g.count g.size ++ sizesOf groups := rfl

@[simp] theorem sizesOf_append (xs ys : List RangedGroup) : sizesOf (xs ++ ys) = sizesOf xs ++ sizesOf ys := by
  simp [sizesOf]

/-- Groups that follow each other from `a` to `b`, none of them empty. -/
def Contiguous : Int → List RangedGroup → Int → Prop
  | a, [], b => a = b
  | a, g :: groups, b => g.range.start = a ∧ a < g.range.stop ∧ Contiguous g.range.stop groups b

@[simp] theorem contiguous_nil (a b : Int) : Contiguous a [] b ↔ a = b := by rw [Contiguous]

theorem Contiguous.append {a b c : Int} {xs ys : List RangedGroup} (hx : Contiguous a xs b)
    (hy : Contiguous b ys c) : Contiguous a (xs ++ ys) c := by
  induction xs generalizing a with
  | nil =>
    have hab : a = b := hx
    subst hab
    exact hy
  | cons g groups ih =>
    obtain ⟨h1, h2, h3⟩ := hx
    exact ⟨h1, h2, ih h3⟩

/-! ## Intersecting -/

theorem intersect_eq {range : QueryRange} {r : Range} (h1 : ¬ range.start ≥ r.stop)
    (h2 : reaches r.start range.stop = false) (h3 : max range.start r.start < minStop r.stop range.stop) :
    Range.intersect range r = ⟨max range.start r.start, minStop r.stop range.stop⟩ := by
  rw [Range.intersect, if_neg (by simp [h1, h2]), if_neg (by omega)]

variable {groups : List RangedGroup}

theorem groupIntersect_behind {s e a b : Int} (h : Contiguous a groups b) (ha : e ≤ a) :
    groupIntersect ⟨s, some e⟩ groups = [] := by
  induction groups generalizing a with
  | nil => rfl
  | cons g groups ih =>
    obtain ⟨h1, h2, h3⟩ := h
    have hrest := ih h3 (by omega)
    have hempty : (Range.intersect ⟨s, some e⟩ g.range).isEmpty = true := by
      rw [Range.intersect, if_pos]
      · rfl
      · simp [reaches]
        omega
    rw [groupIntersect]
    split_ifs with hs he
    · exact hrest
    · rfl
    · simp [hempty, hrest]

/-- The groups before index `e`: the first `e - a` sizes. -/
theorem groupIntersect_before {e a b : Int} (h : Contiguous a groups b) (h0 : 0 ≤ a) (ha : a ≤ e) (hb : e ≤ b) :
    Contiguous a (groupIntersect ⟨0, some e⟩ groups) e ∧
      sizesOf (groupIntersect ⟨0, some e⟩ groups) = (sizesOf groups).take (e - a).toNat := by
  induction groups generalizing a with
  | nil =>
    have hab : a = b := h
    have hae : a = e := by omega
    simp [groupIntersect, hae]
  | cons g groups ih =>
    have hall := h
    obtain ⟨h1, h2, h3⟩ := h
    by_cases hae : e = a
    · rw [groupIntersect_behind hall (by omega), hae]
      simp
    · have hstop : minStop g.range.stop (some e) = min e g.range.stop := rfl
      have hi := @intersect_eq ⟨0, some e⟩ g.range (by simp; omega) (by simp [reaches]; omega)
        (by rw [hstop]; simp; omega)
      have hmax : max 0 g.range.start = a := by omega
      rw [hstop, hmax] at hi
      have hne : (⟨a, min e g.range.stop⟩ : Range).isEmpty = false := by
        simp [Range.isEmpty]
        omega
      rw [groupIntersect, if_neg (by show ¬ 0 ≥ g.range.stop; omega), if_neg (by simp [endsBefore]; omega)]
      simp only [hi, hne, Bool.false_eq_true, if_false]
      by_cases hg : g.range.stop ≤ e
      · obtain ⟨ih1, ih2⟩ := ih h3 (by omega) hg
        have hm : min e g.range.stop = g.range.stop := by omega
        have hk : (e - a).toNat = g.count + (e - g.range.stop).toNat := by
          show _ = (g.range.stop - g.range.start).toNat + _
          omega
        refine ⟨⟨rfl, by simp only [hm]; omega, ?_⟩, ?_⟩
        · simpa only [hm] using ih1
        · have hcount : RangedGroup.count ⟨⟨a, min e g.range.stop⟩, g.size⟩ = g.count := by
            show (min e g.range.stop - a).toNat = (g.range.stop - g.range.start).toNat
            omega
          rw [sizesOf_cons, sizesOf_cons, ih2, hcount, hk, List.take_append]
          simp
      · have hm : min e g.range.stop = e := by omega
        have hcount : RangedGroup.count ⟨⟨a, min e g.range.stop⟩, g.size⟩ = (e - a).toNat := by
          rw [hm]
          rfl
        have hle : (e - a).toNat ≤ g.count := by
          show _ ≤ (g.range.stop - g.range.start).toNat
          omega
        rw [groupIntersect_behind h3 (by omega)]
        refine ⟨⟨rfl, by simp only [hm]; omega, hm⟩, ?_⟩
        rw [sizesOf_cons, sizesOf_cons, hcount, List.take_append_of_le_length (by simpa using hle)]
        simp [Nat.min_eq_left hle]

/-- The groups from index `s` on: all sizes but the first `s - a`. -/
theorem groupIntersect_after {s a b : Int} (h : Contiguous a groups b) (hs : s ≤ b) :
    Contiguous (max s a) (groupIntersect ⟨s, none⟩ groups) b ∧
      sizesOf (groupIntersect ⟨s, none⟩ groups) = (sizesOf groups).drop (s - a).toNat := by
  induction groups generalizing a with
  | nil =>
    have hab : a = b := h
    simp [groupIntersect]
    omega
  | cons g groups ih =>
    obtain ⟨h1, h2, h3⟩ := h
    obtain ⟨ih1, ih2⟩ := ih h3
    by_cases hg : g.range.stop ≤ s
    · have hk : (s - a).toNat = g.count + (s - g.range.stop).toNat := by
        show _ = (g.range.stop - g.range.start).toNat + _
        omega
      have hm : max s g.range.stop = max s a := by omega
      rw [groupIntersect, if_pos (by show s ≥ g.range.stop; omega)]
      refine ⟨hm ▸ ih1, ?_⟩
      rw [ih2, hk, sizesOf_cons, List.drop_append]
      simp
    · have hi := @intersect_eq ⟨s, none⟩ g.range (by show ¬ s ≥ g.range.stop; omega) rfl
        (by show max s g.range.start < g.range.stop; omega)
      have hi' : Range.intersect ⟨s, none⟩ g.range = ⟨max s a, g.range.stop⟩ := by
        rw [hi, h1]
        rfl
      have hne : (⟨max s a, g.range.stop⟩ : Range).isEmpty = false := by
        simp [Range.isEmpty]
        omega
      have hk : (s - g.range.stop).toNat = 0 := by omega
      have hcount : RangedGroup.count ⟨⟨max s a, g.range.stop⟩, g.size⟩ = g.count - (s - a).toNat := by
        show (g.range.stop - max s a).toNat = (g.range.stop - g.range.start).toNat - _
        omega
      have hle : (s - a).toNat ≤ g.count := by
        show _ ≤ (g.range.stop - g.range.start).toNat
        omega
      rw [groupIntersect, if_neg hg, if_neg (by simp [endsBefore])]
      simp only [hi', hne, Bool.false_eq_true, if_false]
      refine ⟨⟨rfl, by show max s a < g.range.stop; omega, ?_⟩, ?_⟩
      · have hm : max s g.range.stop = g.range.stop := by omega
        rw [hm] at ih1
        exact ih1
      · rw [sizesOf_cons, sizesOf_cons, hcount, ih2, hk,
          List.drop_append_of_le_length (by simpa using hle)]
        simp

/-! ## Shifting and consolidating -/

variable {a b : Int}

theorem shift_groups (h : Contiguous a groups b) (much : Int) :
    Contiguous (a + much) (groups.map fun g => ⟨shift g.range much, g.size⟩) (b + much) ∧
      sizesOf (groups.map fun g => ⟨shift g.range much, g.size⟩) = sizesOf groups := by
  induction groups generalizing a with
  | nil =>
    have hab : a = b := h
    simp [hab]
  | cons g groups ih =>
    obtain ⟨h1, h2, h3⟩ := h
    obtain ⟨ih1, ih2⟩ := ih h3
    have hcount : RangedGroup.count ⟨shift g.range much, g.size⟩ = g.count := by
      show (g.range.stop + much - (g.range.start + much)).toNat = (g.range.stop - g.range.start).toNat
      omega
    refine ⟨⟨?_, ?_, ih1⟩, ?_⟩
    · show g.range.start + much = a + much
      omega
    · show a + much < g.range.stop + much
      omega
    · rw [List.map_cons, sizesOf_cons, sizesOf_cons, ih2, hcount]

theorem consolidateFrom_spec {g : RangedGroup} (h : Contiguous a (g :: groups) b) :
    Contiguous a (consolidateFrom g groups) b ∧ sizesOf (consolidateFrom g groups) = sizesOf (g :: groups) := by
  induction groups generalizing a g with
  | nil => exact ⟨h, rfl⟩
  | cons g' groups ih =>
    obtain ⟨h1, h2, h3, h4, h5⟩ := h
    rw [consolidateFrom]
    split_ifs with hsize
    · -- the two groups become one of the same size
      have hjoined : Contiguous a (⟨⟨g.range.start, g'.range.stop⟩, g.size⟩ :: groups) b :=
        ⟨h1, by show a < g'.range.stop; omega, h5⟩
      obtain ⟨ih1, ih2⟩ := ih hjoined
      have hcount : RangedGroup.count ⟨⟨g.range.start, g'.range.stop⟩, g.size⟩ = g.count + g'.count := by
        show (g'.range.stop - g.range.start).toNat =
          (g.range.stop - g.range.start).toNat + (g'.range.stop - g'.range.start).toNat
        omega
      refine ⟨ih1, ?_⟩
      rw [ih2, sizesOf_cons, sizesOf_cons, sizesOf_cons, hcount, hsize, List.replicate_add, List.append_assoc]
    · obtain ⟨ih1, ih2⟩ := ih ⟨h3, h4, h5⟩
      exact ⟨⟨h1, h2, ih1⟩, by rw [sizesOf_cons, ih2]; rfl⟩

/-- Merging neighbours of one size changes none of the sizes. -/
theorem consolidate_spec (h : Contiguous a groups b) :
    Contiguous a (consolidate groups) b ∧ sizesOf (consolidate groups) = sizesOf groups := by
  cases groups with
  | nil => exact ⟨h, rfl⟩
  | cons g groups => exact consolidateFrom_spec h

end TongjiCode.ListView
