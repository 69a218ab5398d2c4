import Mathlib.Tactic.Linarith
import Mathlib.Tactic.Positivity
import Mathlib.Tactic.Ring
import TongjiCode.ListView.RangeGroups

/-!
# The range map of a list

`RangeMap` of `rangeMap.ts`, the layout of a list whose items have heights.  It is compared with the plain list of the
sizes, on which a splice replaces `deleteCount` sizes from `index` on.

After any sequence of splices inside the list, and of changes of the padding, every answer is what the plain list says
(`layout_of_sizes`); a padding above the top is the exception, where `indexAt` gives `-1` for a negative position
(`not_layout_above_top`).
-/

open List

namespace TongjiCode.ListView

structure RangeMap where
  groups : List RangedGroup
  _size : Rat
  _paddingTop : Rat
deriving DecidableEq, Repr

namespace RangeMap

def new (topPadding : Option Rat) : RangeMap :=
  { groups := [], _size := topPadding.getD 0, _paddingTop := topPadding.getD 0 }

def setPaddingTop (m : RangeMap) (paddingTop : Rat) : RangeMap :=
  { m with _size := m._size + paddingTop - m._paddingTop, _paddingTop := paddingTop }

/-- The sum that `splice` makes of the groups. -/
def sumOfGroups (groups : List RangedGroup) : Rat :=
  groups.foldl (fun t g => t + g.size * ((g.range.stop - g.range.start : Int) : Rat)) 0

def itemGroups (index : Int) (items : List Rat) : List RangedGroup :=
  items.mapIdx fun i size => ⟨⟨index + i, index + i + 1⟩, size⟩

def splice (m : RangeMap) (index deleteCount : Int) (items : List Rat) : RangeMap :=
  let diff := items.length - deleteCount
  let before := groupIntersect ⟨0, some index⟩ m.groups
  let after := (groupIntersect ⟨index + deleteCount, none⟩ m.groups).map fun g => ⟨shift g.range diff, g.size⟩
  let groups := concat before (itemGroups index items) after
  { m with groups := groups, _size := m._paddingTop + sumOfGroups groups }

def count (m : RangeMap) : Int :=
  match m.groups.getLast? with
  | none => 0
  | some group => group.range.stop

def size (m : RangeMap) : Rat := m._size

def indexAtLoop (position : Rat) (index : Int) (size : Rat) : List RangedGroup → Int
  | [] => index
  | group :: groups =>
    let count := group.range.stop - group.range.start
    let newSize := size + count * group.size
    if position < newSize then index + ((position - size) / group.size).floor
    else indexAtLoop position (index + count) newSize groups

def indexAt (m : RangeMap) (position : Rat) : Int :=
  if position < 0 then -1
  else if position < m._paddingTop then 0
  else indexAtLoop position 0 m._paddingTop m.groups

def positionAtLoop (paddingTop : Rat) (index : Int) (position : Rat) (count : Int) : List RangedGroup → Rat
  | [] => -1
  | group :: groups =>
    let groupCount := group.range.stop - group.range.start
    let newCount := count + groupCount
    if index < newCount then paddingTop + position + (index - count : Int) * group.size
    else positionAtLoop paddingTop index (position + groupCount * group.size) newCount groups

def positionAt (m : RangeMap) (index : Int) : Rat :=
  if index < 0 then -1 else positionAtLoop m._paddingTop index 0 0 m.groups

end RangeMap

/-! ## Calls -/

/-- What a list does with its range map. -/
inductive Call where
  | splice (index deleteCount : Nat) (items : List Rat)
  | paddingTop (paddingTop : Rat)
deriving DecidableEq, Repr

def RangeMap.call (m : RangeMap) : Call → RangeMap
  | .splice index deleteCount items => m.splice index deleteCount items
  | .paddingTop paddingTop => m.setPaddingTop paddingTop

/-- A splice stays inside the map and brings no negative size. -/
def Call.Legal (m : RangeMap) : Call → Prop
  | .splice index deleteCount items => (index + deleteCount : Int) ≤ m.count ∧ ∀ size ∈ items, 0 ≤ size
  | .paddingTop _ => True

instance (m : RangeMap) (c : Call) : Decidable (c.Legal m) := by
  cases c <;> rw [Call.Legal] <;> infer_instance

def RangeMap.calls (m : RangeMap) (cs : List Call) : RangeMap := cs.foldl RangeMap.call m

/-- Every call is legal when it is made. -/
def LegalCalls : RangeMap → List Call → Prop
  | _, [] => True
  | m, c :: cs => c.Legal m ∧ LegalCalls (m.call c) cs

instance decidableLegalCalls : (m : RangeMap) → (cs : List Call) → Decidable (LegalCalls m cs)
  | _, [] => .isTrue trivial
  | m, c :: cs =>
    have := decidableLegalCalls (m.call c) cs
    inferInstanceAs (Decidable (_ ∧ _))

/-! ## The plain list -/

/-- A padding and the sizes of the items. -/
structure Layout where
  paddingTop : Rat
  sizes : List Rat
deriving DecidableEq, Repr

def Layout.call (l : Layout) : Call → Layout
  | .splice index deleteCount items =>
    { l with sizes := l.sizes.take index ++ items ++ l.sizes.drop (index + deleteCount) }
  | .paddingTop paddingTop => { l with paddingTop := paddingTop }

def Layout.calls (l : Layout) (cs : List Call) : Layout := cs.foldl Layout.call l

/-- The padding and the sizes of the items before the `i`-th. -/
def Layout.top (l : Layout) (i : Nat) : Rat := l.paddingTop + (l.sizes.take i).sum

/-- Position `p` lies in the `i`-th item. -/
def Layout.Within (l : Layout) (p : Rat) (i : Nat) : Prop :=
  ∃ h : i < l.sizes.length, l.top i ≤ p ∧ p < l.top i + l.sizes[i]

structure Holds (m : RangeMap) (l : Layout) : Prop where
  contiguous : Contiguous 0 m.groups l.sizes.length
  sizes : sizesOf m.groups = l.sizes
  size : m._size = l.paddingTop + l.sizes.sum
  padding : m._paddingTop = l.paddingTop
  nonneg : ∀ size ∈ l.sizes, 0 ≤ size

/-! ## Splicing -/

theorem sum_replicate (n : Nat) (size : Rat) : (List.replicate n size).sum = n * size := by
  rw [List.sum_replicate, nsmul_eq_mul]

variable {a b : Int} {groups : List RangedGroup}

theorem sumOfGroups_eq (h : Contiguous a groups b) :
    RangeMap.sumOfGroups groups = (sizesOf groups).sum := by
  have hfold : ∀ t : Rat, groups.foldl (fun t g => t + g.size * ((g.range.stop - g.range.start : Int) : Rat)) t =
      t + (sizesOf groups).sum := by
    induction groups generalizing a with
    | nil => simp
    | cons g groups ih =>
      obtain ⟨h1, h2, h3⟩ := h
      intro t
      have hc : (g.range.stop - g.range.start : Int) = (g.count : Int) := by
        show _ = ((g.range.stop - g.range.start).toNat : Int)
        omega
      rw [foldl_cons, ih h3, hc, sizesOf_cons, sum_append, sum_replicate]
      push_cast
      ring
  have := hfold 0
  rwa [zero_add] at this

theorem itemGroups_cons (index : Int) (size : Rat) (items : List Rat) :
    RangeMap.itemGroups index (size :: items) =
      ⟨⟨index, index + 1⟩, size⟩ :: RangeMap.itemGroups (index + 1) items := by
  rw [RangeMap.itemGroups, RangeMap.itemGroups, mapIdx_cons]
  congr 1
  · simp
  · apply ext_getElem
    · simp
    · intro i h1 h2
      simp
      omega

theorem itemGroups_spec (index : Int) (items : List Rat) :
    Contiguous index (RangeMap.itemGroups index items) (index + items.length) ∧
      sizesOf (RangeMap.itemGroups index items) = items := by
  induction items generalizing index with
  | nil => simp [RangeMap.itemGroups]
  | cons size items ih =>
    obtain ⟨ih1, ih2⟩ := ih (index + 1)
    have hcount : RangedGroup.count ⟨⟨index, index + 1⟩, size⟩ = 1 := by
      show (index + 1 - index).toNat = 1
      omega
    have hstop : index + ((size :: items).length : Int) = index + 1 + items.length := by
      simp
      omega
    rw [itemGroups_cons, hstop]
    exact ⟨⟨rfl, by show index < index + 1; omega, ih1⟩, by rw [sizesOf_cons, hcount, ih2]; rfl⟩

theorem Contiguous.last (h : Contiguous a groups b) :
    (match groups.getLast? with
      | none => a
      | some group => group.range.stop) = b := by
  induction groups generalizing a with
  | nil => exact h
  | cons g groups ih =>
    obtain ⟨-, -, h3⟩ := h
    have := ih h3
    cases groups with
    | nil => exact this
    | cons g' groups =>
      exact this

variable {m : RangeMap} {l : Layout}

theorem Holds.count_eq (h : Holds m l) : m.count = l.sizes.length := by
  have := h.contiguous.last
  exact this

theorem Holds.splice (h : Holds m l) {index deleteCount : Nat} {items : List Rat}
    (hlegal : (Call.splice index deleteCount items).Legal m) :
    Holds (m.call (.splice index deleteCount items)) (l.call (.splice index deleteCount items)) := by
  obtain ⟨hin, hitems⟩ := hlegal
  rw [h.count_eq] at hin
  obtain ⟨hb1, hb2⟩ := groupIntersect_before h.contiguous (e := index) (by omega) (by omega) (by omega)
  obtain ⟨ha1, ha2⟩ := groupIntersect_after h.contiguous (s := index + deleteCount) (by omega)
  obtain ⟨hs1, hs2⟩ := shift_groups ha1 (items.length - deleteCount)
  obtain ⟨hm1, hm2⟩ := itemGroups_spec index items
  have hs : max (index + deleteCount : Int) 0 + (items.length - deleteCount) = index + items.length := by omega
  rw [hs] at hs1
  obtain ⟨hc1, hc2⟩ := consolidate_spec ((hb1.append hm1).append hs1)
  have htake : ((index : Int) - 0).toNat = index := by omega
  have hdrop : ((index + deleteCount : Int) - 0).toNat = index + deleteCount := by omega
  have hsizes : sizesOf (m.call (.splice index deleteCount items)).groups =
      l.sizes.take index ++ items ++ l.sizes.drop (index + deleteCount) := by
    show sizesOf (consolidate _) = _
    rw [hc2, sizesOf_append, sizesOf_append, hb2, hm2, hs2, ha2, h.sizes, htake, hdrop]
  constructor
  · have hstop : ((l.call (.splice index deleteCount items)).sizes.length : Int) =
        (l.sizes.length : Int) + (items.length - deleteCount) := by
      simp only [Layout.call, length_append, length_take, length_drop]
      omega
    rw [hstop]
    exact hc1
  · exact hsizes
  · show m._paddingTop + RangeMap.sumOfGroups (consolidate _) = _
    rw [sumOfGroups_eq hc1, h.padding]
    exact congrArg (l.paddingTop + ·) (congrArg List.sum hsizes)
  · exact h.padding
  · intro size hsize
    simp only [Layout.call, mem_append] at hsize
    obtain (hsize | hsize) | hsize := hsize
    · exact h.nonneg size (mem_of_mem_take hsize)
    · exact hitems size hsize
    · exact h.nonneg size (mem_of_mem_drop hsize)

theorem Holds.call (h : Holds m l) {c : Call} (hlegal : c.Legal m) :
    Holds (m.call c) (l.call c) := by
  cases c with
  | splice index deleteCount items => exact h.splice hlegal
  | paddingTop paddingTop =>
    refine ⟨h.contiguous, h.sizes, ?_, rfl, h.nonneg⟩
    show m._size + paddingTop - m._paddingTop = paddingTop + l.sizes.sum
    rw [h.size, h.padding]
    ring

theorem Holds.calls (h : Holds m l) {cs : List Call} (hlegal : LegalCalls m cs) :
    Holds (m.calls cs) (l.calls cs) := by
  induction cs generalizing m l with
  | nil => exact h
  | cons c cs ih => exact ih (h.call hlegal.1) hlegal.2

theorem holds_new (topPadding : Option Rat) : Holds (RangeMap.new topPadding) ⟨topPadding.getD 0, []⟩ := by
  constructor
  · rfl
  · rfl
  · show topPadding.getD 0 = topPadding.getD 0 + List.sum []
    simp
  · rfl
  · simp

/-! ## Positions -/

/-- The sizes of the items before the `i`-th, where a group of equal sizes stands in front. -/
theorem sum_take_group (n : Nat) (size : Rat) (sizes : List Rat) (i : Nat) :
    ((List.replicate n size ++ sizes).take i).sum =
      if i ≤ n then i * size else n * size + (sizes.take (i - n)).sum := by
  rw [take_append, sum_append, take_replicate, sum_replicate, length_replicate]
  split_ifs with h
  · have hsub : i - n = 0 := by omega
    rw [hsub, Nat.min_eq_left h]
    simp
  · rw [Nat.min_eq_right (by omega)]

theorem positionAtLoop_eq (h : Contiguous a groups b) (paddingTop position : Rat) (count : Int) {i : Nat}
    (hi : i < (sizesOf groups).length) :
    RangeMap.positionAtLoop paddingTop (count + i) position count groups =
      paddingTop + position + ((sizesOf groups).take i).sum := by
  induction groups generalizing a position count i with
  | nil => simp at hi
  | cons g groups ih =>
    obtain ⟨h1, h2, h3⟩ := h
    have hc : g.range.stop - g.range.start = (g.count : Int) := by
      show _ = ((g.range.stop - g.range.start).toNat : Int)
      omega
    rw [RangeMap.positionAtLoop, sizesOf_cons, sum_take_group]
    simp only [hc]
    by_cases hin : i < g.count
    · rw [if_pos (by omega), if_pos (by omega)]
      push_cast
      ring
    · rw [sizesOf_cons, length_append, length_replicate] at hi
      have hnext := ih h3 (position + ((g.count : Int) : Rat) * g.size) (count + g.count) (i := i - g.count) (by omega)
      have hidx : count + (g.count : Int) + ((i - g.count : Nat) : Int) = count + i := by omega
      rw [hidx] at hnext
      rw [if_neg (by omega), hnext]
      split_ifs with hle
      · have heq : i = g.count := by omega
        subst heq
        simp
        ring
      · push_cast
        ring

theorem Holds.positionAt_eq (h : Holds m l) {i : Nat} (hi : i < l.sizes.length) :
    m.positionAt i = l.top i := by
  rw [RangeMap.positionAt, if_neg (by omega), Layout.top]
  have := positionAtLoop_eq h.contiguous m._paddingTop 0 0 (i := i) (by rw [h.sizes]; exact hi)
  rw [h.sizes, h.padding] at this
  rw [h.padding]
  simpa using this

/-- The item of a group of `n` equal sizes at a distance below `n * size`. -/
theorem floor_in_group {n : Nat} {size d : Rat} (h0 : 0 ≤ size) (hd : 0 ≤ d) (hn : d < n * size) :
    ∃ i : Nat, i < n ∧ (d / size).floor = i ∧ i * size ≤ d ∧ d < i * size + size := by
  have hsize : 0 < size := by
    rcases lt_or_eq_of_le h0 with hpos | hzero
    · exact hpos
    · rw [← hzero, mul_zero] at hn
      exact absurd hd (not_le.mpr hn)
  have hnonneg : 0 ≤ (d / size).floor := by
    rw [Rat.le_floor_iff]
    have : 0 ≤ d / size := by positivity
    exact_mod_cast this
  have hlow : ((d / size).floor : Rat) * size ≤ d := by
    rw [← le_div_iff₀ hsize]
    exact Rat.floor_le _
  have hhigh : d < (((d / size).floor + 1 : Int) : Rat) * size := by
    rw [← div_lt_iff₀ hsize]
    exact Rat.lt_floor_add_one _
  have hlt : (d / size).floor < (n : Int) := by
    rw [Rat.floor_lt_iff, div_lt_iff₀ hsize]
    exact_mod_cast hn
  obtain ⟨i, hi⟩ := Int.eq_ofNat_of_zero_le hnonneg
  rw [hi] at hlow hhigh hlt
  refine ⟨i, by omega, hi, by exact_mod_cast hlow, ?_⟩
  push_cast at hhigh
  linarith

theorem indexAtLoop_spec (h : Contiguous a groups b) (hnonneg : ∀ size ∈ sizesOf groups, 0 ≤ size) {position : Rat}
    (index : Int) {size : Rat} (hlow : size ≤ position) (hhigh : position < size + (sizesOf groups).sum) :
    ∃ (i : Nat) (hi : i < (sizesOf groups).length), RangeMap.indexAtLoop position index size groups = index + i ∧
      size + ((sizesOf groups).take i).sum ≤ position ∧
      position < size + ((sizesOf groups).take i).sum + (sizesOf groups)[i] := by
  induction groups generalizing a index size with
  | nil =>
    simp at hhigh
    linarith
  | cons g groups ih =>
    obtain ⟨h1, h2, h3⟩ := h
    have hc : g.range.stop - g.range.start = (g.count : Int) := by
      show _ = ((g.range.stop - g.range.start).toNat : Int)
      omega
    simp only [sizesOf_cons, mem_append] at hnonneg
    rw [RangeMap.indexAtLoop]
    simp only [hc, Int.cast_natCast]
    split_ifs with hin
    · -- the position lies in the group
      have hg : 0 ≤ g.size := hnonneg g.size (.inl (mem_replicate.mpr ⟨by omega, rfl⟩))
      obtain ⟨i, hi, hfloor, hi1, hi2⟩ := floor_in_group hg (d := position - size) (by linarith) (n := g.count)
        (by linarith)
      refine ⟨i, ?_, by rw [hfloor], ?_⟩
      · rw [sizesOf_cons, length_append, length_replicate]
        omega
      · have htake := sum_take_group g.count g.size (sizesOf groups) i
        rw [if_pos (by omega)] at htake
        simp only [sizesOf_cons, htake]
        rw [getElem_append_left (by simpa using hi), getElem_replicate]
        constructor
        · linarith
        · linarith
    · have hbehind : size + g.count * g.size ≤ position := by linarith
      obtain ⟨i, hi, hloop, hi1, hi2⟩ := ih h3 (fun s hs => hnonneg s (.inr hs)) (index + g.count) hbehind
        (by rw [sizesOf_cons, sum_append, sum_replicate] at hhigh; linarith)
      refine ⟨g.count + i, ?_, ?_, ?_⟩
      · rw [sizesOf_cons, length_append, length_replicate]
        omega
      · rw [hloop]
        omega
      · have htake : ((sizesOf (g :: groups)).take (g.count + i)).sum =
            g.count * g.size + ((sizesOf groups).take i).sum := by
          rw [sizesOf_cons, take_append, sum_append, take_replicate, sum_replicate,
            length_replicate, Nat.min_eq_right (by omega), Nat.add_sub_cancel_left]
        have hlt : g.count + i < (sizesOf (g :: groups)).length := by
          rw [sizesOf_cons, length_append, length_replicate]
          omega
        have hget : (sizesOf (g :: groups))[g.count + i] = (sizesOf groups)[i] := by
          simp
        constructor
        · linarith
        · linarith

theorem Layout.top_add_le (h : ∀ size ∈ l.sizes, 0 ≤ size) {i j : Nat} (hij : i < j) (hi : i < l.sizes.length) :
    l.top i + l.sizes[i] ≤ l.top j := by
  have hsplit : l.sizes.take j = l.sizes.take (i + 1) ++ (l.sizes.take j).drop (i + 1) := by
    have := take_append_drop (i + 1) (l.sizes.take j)
    rw [take_take, Nat.min_eq_left hij] at this
    exact this.symm
  have hsucc : (l.sizes.take (i + 1)).sum = (l.sizes.take i).sum + l.sizes[i] := by
    rw [take_succ_eq_append_getElem hi, sum_append]
    simp
  have hrest : 0 ≤ ((l.sizes.take j).drop (i + 1)).sum := by
    apply sum_nonneg
    intro size hsize
    exact h size (mem_of_mem_take (mem_of_mem_drop hsize))
  rw [Layout.top, Layout.top, hsplit, sum_append, hsucc]
  linarith

theorem Layout.Within.unique (h : ∀ size ∈ l.sizes, 0 ≤ size) {p : Rat} {i j : Nat} (hi : l.Within p i)
    (hj : l.Within p j) : i = j := by
  obtain ⟨hi, hi1, hi2⟩ := hi
  obtain ⟨hj, hj1, hj2⟩ := hj
  rcases Nat.lt_trichotomy i j with hlt | heq | hgt
  · have := Layout.top_add_le h hlt hi
    linarith
  · exact heq
  · have := Layout.top_add_le h hgt hj
    linarith

theorem Holds.indexAt_spec (h : Holds m l) {p : Rat} (h0 : 0 ≤ p) (hlow : l.paddingTop ≤ p) (hhigh : p < m.size) :
    ∃ i : Nat, m.indexAt p = i ∧ l.Within p i := by
  have hsize : p < l.paddingTop + l.sizes.sum := by
    rw [← h.size]
    exact hhigh
  obtain ⟨i, hi, hloop, hi1, hi2⟩ := indexAtLoop_spec h.contiguous (by rw [h.sizes]; exact h.nonneg) 0 hlow
    (by rw [h.sizes]; exact hsize)
  refine ⟨i, ?_, ?_⟩
  · rw [RangeMap.indexAt, if_neg (by linarith), h.padding, if_neg (by linarith), hloop]
    omega
  · simp only [h.sizes] at hi hi1 hi2
    exact ⟨hi, hi1, hi2⟩

/-! ## The layout -/

/-- What the map answers is what the plain list says. -/
structure Answers (m : RangeMap) (l : Layout) : Prop where
  count : m.count = l.sizes.length
  size : m.size = l.paddingTop + l.sizes.sum
  positionAt : ∀ i < l.sizes.length, m.positionAt i = l.top i
  indexAt : ∀ p, 0 ≤ p → l.paddingTop ≤ p → p < m.size →
    ∃ i : Nat, m.indexAt p = i ∧ l.Within p i ∧ ∀ j, l.Within p j → j = i

/-- The range map is the plain list of sizes, after any calls. -/
theorem layout_of_sizes (topPadding : Option Rat) (cs : List Call)
    (hlegal : LegalCalls (RangeMap.new topPadding) cs) :
    Answers ((RangeMap.new topPadding).calls cs) (Layout.calls ⟨topPadding.getD 0, []⟩ cs) := by
  have h := (holds_new topPadding).calls hlegal
  constructor
  · exact h.count_eq
  · exact h.size
  · intro i hi
    exact h.positionAt_eq hi
  · intro p h0 hlow hhigh
    obtain ⟨i, hindex, hwithin⟩ := h.indexAt_spec h0 hlow hhigh
    exact ⟨i, hindex, hwithin, fun j hj => hj.unique h.nonneg hwithin⟩

/-- Three rows, the middle one replaced by two of the height of the first. -/
theorem layout_of_four_rows :
    Answers ((RangeMap.new (some 2)).calls [.splice 0 0 [3, 5, 7], .splice 1 1 [3, 3], .paddingTop 1])
      (Layout.calls ⟨2, []⟩ [.splice 0 0 [3, 5, 7], .splice 1 1 [3, 3], .paddingTop 1]) :=
  layout_of_sizes (some 2) _ (by decide +kernel)

/-- With a padding of `-1` the item of height 2 reaches from `-1` to `1`, but `indexAt` gives `-1` before 0. -/
theorem not_layout_above_top :
    LegalCalls (RangeMap.new none) [.paddingTop (-1), .splice 0 0 [2]] ∧
      ¬ ∀ p, (Layout.calls ⟨0, []⟩ [.paddingTop (-1), .splice 0 0 [2]]).paddingTop ≤ p →
        p < ((RangeMap.new none).calls [.paddingTop (-1), .splice 0 0 [2]]).size →
        ∃ i : Nat, ((RangeMap.new none).calls [.paddingTop (-1), .splice 0 0 [2]]).indexAt p = i ∧
          (Layout.calls ⟨0, []⟩ [.paddingTop (-1), .splice 0 0 [2]]).Within p i := by
  refine ⟨by decide +kernel, fun h => ?_⟩
  obtain ⟨i, hi, -⟩ := h (-1 / 2) (by decide +kernel) (by decide +kernel)
  have hindex : ((RangeMap.new none).calls [.paddingTop (-1), .splice 0 0 [2]]).indexAt (-1 / 2) = -1 := by
    decide +kernel
  omega

end TongjiCode.ListView
