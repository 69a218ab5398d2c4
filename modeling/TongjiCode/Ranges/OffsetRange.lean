import TongjiCode.Base.ArraysFind
import TongjiCode.Lib.Intervals

/-!
# Offset ranges and sets of them

`OffsetRange` and `OffsetRangeSet` of `offsetRange.ts`.  Unlike a `LineRangeSet`, an `OffsetRangeSet` also stores empty ranges that
touch no other.

* `intersectsStrict_eq`, `intersectWithRangeLength_eq`: what the two queries answer.
* `clipCyclic_ok_iff`: when the clipped value lies in the range.
-/

open List

namespace TongjiCode.Ranges

/-- A range of offsets.  The constructor throws when the start is after the end. -/
structure OffsetRange where
  start : Int
  endExclusive : Int
  start_le_end : start ≤ endExclusive
  deriving Repr

instance : DecidableEq OffsetRange := fun r other =>
  decidable_of_iff (r.start = other.start ∧ r.endExclusive = other.endExclusive) (by
    cases r
    cases other
    simp only [OffsetRange.mk.injEq])

namespace OffsetRange

/-- `tryCreate`; where the constructor is called directly, none is its error. -/
def tryCreate (start endExclusive : Int) : Option OffsetRange :=
  if h : start ≤ endExclusive then some ⟨start, endExclusive, h⟩ else none

def isEmpty (r : OffsetRange) : Bool := r.start = r.endExclusive

def length (r : OffsetRange) : Int := r.endExclusive - r.start

def contains (r : OffsetRange) (offset : Int) : Bool := r.start ≤ offset && offset < r.endExclusive

def intersect (r other : OffsetRange) : Option OffsetRange :=
  tryCreate (max r.start other.start) (min r.endExclusive other.endExclusive)

/-- `clipCyclic`; none is the error on an empty range.  `%` is the remainder of the truncating division. -/
def clipCyclic (r : OffsetRange) (value : Int) : Option Int :=
  if r.isEmpty then none
  else if value < r.start then some (r.endExclusive - (r.start - value).tmod r.length)
  else if value ≥ r.endExclusive then some (r.start + (value - r.start).tmod r.length)
  else some value

end OffsetRange

structure OffsetRangeSet where
  sortedRanges : List OffsetRange
  deriving Repr, DecidableEq

namespace OffsetRangeSet

def empty : OffsetRangeSet := ⟨[]⟩

/-- `addRange`: the two loops split the stored ranges into those before the range, those it touches and those after. -/
def addRange (s : OffsetRangeSet) (range : OffsetRange) : OffsetRangeSet :=
  let before := s.sortedRanges.takeWhile fun r => r.endExclusive < range.start
  let rest := s.sortedRanges.dropWhile fun r => r.endExclusive < range.start
  let touching := rest.takeWhile fun r => r.start ≤ range.endExclusive
  let after := rest.dropWhile fun r => r.start ≤ range.endExclusive
  match touching.head?, touching.getLast? with
  | some first, some last =>
    ⟨before ++ ⟨min range.start first.start, max range.endExclusive last.endExclusive,
      (min_le_left _ _).trans (range.start_le_end.trans (le_max_left _ _))⟩ :: after⟩
  | _, _ => ⟨before ++ range :: after⟩

def intersectsStrict (s : OffsetRangeSet) (other : OffsetRange) : Bool :=
  match s.sortedRanges.dropWhile fun r => r.endExclusive ≤ other.start with
  | [] => false
  | r :: _ => r.start < other.endExclusive

def intersectWithRange (s : OffsetRangeSet) (other : OffsetRange) : OffsetRangeSet :=
  s.sortedRanges.foldl (fun result range =>
    match range.intersect other with
    | some intersection => result.addRange intersection
    | none => result) empty

def length (s : OffsetRangeSet) : Int := s.sortedRanges.foldl (fun prev cur => prev + cur.length) 0

def intersectWithRangeLength (s : OffsetRangeSet) (other : OffsetRange) : Int := (s.intersectWithRange other).length

/-- The set after adding ranges one after another. -/
def addRanges (s : OffsetRangeSet) (added : List OffsetRange) : OffsetRangeSet := added.foldl addRange s

end OffsetRangeSet

/-! ## Clipping -/

namespace OffsetRange

/-- The clipped value is the value up to a multiple of the length; it lies in the range unless the value is a positive multiple of the
length before the start. -/
theorem clipCyclic_ok_iff {r : OffsetRange} (hr : r.start < r.endExclusive) (value : Int) :
    (∃ clipped, r.clipCyclic value = some clipped ∧ r.contains clipped = true ∧ r.length ∣ clipped - value) ↔
      r.start ≤ value ∨ ¬ r.length ∣ r.start - value := by
  have hlength : 0 < r.length := by
    rw [length]
    omega
  have hcontains : ∀ v, r.contains v = true ↔ r.start ≤ v ∧ v < r.endExclusive := by
    intro v
    simp [contains]
  have hnonempty : ¬ r.isEmpty = true := by
    rw [isEmpty, decide_eq_true_iff]
    omega
  have hend : r.endExclusive = r.start + r.length := by
    rw [length]
    omega
  rw [clipCyclic, if_neg hnonempty]
  by_cases hbefore : value < r.start
  · rw [if_pos hbefore]
    have hmod : (r.start - value).tmod r.length = (r.start - value) % r.length := Int.tmod_eq_emod_of_nonneg (by omega)
    have hlt := Int.emod_lt_of_pos (r.start - value) hlength
    have hdvd : r.length ∣ r.endExclusive - (r.start - value) % r.length - value := by
      have hdiv := Int.mul_ediv_add_emod (r.start - value) r.length
      refine ⟨1 + (r.start - value) / r.length, ?_⟩
      rw [Int.mul_add, Int.mul_one]
      omega
    rw [hmod]
    constructor
    · rintro ⟨clipped, hclipped, hin, -⟩
      rw [Option.some.injEq] at hclipped
      subst hclipped
      right
      intro hzero
      rw [Int.emod_eq_zero_of_dvd hzero, hcontains] at hin
      omega
    · rintro (h | h)
      · omega
      · have hne : (r.start - value) % r.length ≠ 0 := fun hzero => h (Int.dvd_of_emod_eq_zero hzero)
        refine ⟨_, rfl, ?_, hdvd⟩
        rw [hcontains]
        omega
  · rw [if_neg hbefore]
    refine iff_of_true ?_ (.inl (Int.not_lt.mp hbefore))
    by_cases hafter : value ≥ r.endExclusive
    · rw [if_pos hafter]
      have hmod : (value - r.start).tmod r.length = (value - r.start) % r.length := Int.tmod_eq_emod_of_nonneg (by omega)
      have hnonneg := Int.emod_nonneg (value - r.start) hlength.ne'
      have hlt := Int.emod_lt_of_pos (value - r.start) hlength
      have hdiv := Int.mul_ediv_add_emod (value - r.start) r.length
      refine ⟨_, rfl, ?_, ⟨-((value - r.start) / r.length), ?_⟩⟩
      · rw [hcontains]
        omega
      · rw [Int.mul_neg]
        omega
    · rw [if_neg hafter]
      refine ⟨value, rfl, ?_, by simp⟩
      rw [hcontains]
      omega

end OffsetRange

namespace OffsetRangeSet

open Intervals (Covered Separated Proper)

/-! ## What a set stores -/

abbrev Holds (rs : List OffsetRange) (n : Int) : Prop := Covered OffsetRange.start OffsetRange.endExclusive rs n

/-- Each stored range ends before the next one starts. -/
abbrev Apart (rs : List OffsetRange) : Prop := Separated OffsetRange.start OffsetRange.endExclusive rs

theorem proper (rs : List OffsetRange) : Proper OffsetRange.start OffsetRange.endExclusive rs := fun r _ => r.start_le_end

theorem holds_concat {rs : List OffsetRange} {r : OffsetRange} {n : Int} :
    Holds (rs ++ [r]) n ↔ Holds rs n ∨ (r.start ≤ n ∧ n < r.endExclusive) := by
  simp only [Holds, Intervals.covered_append, Intervals.covered_cons, Intervals.covered_nil, or_false]

/-- What the set stores once the ranges `added` were added to an empty one. -/
structure Stores (added : List OffsetRange) (s : OffsetRangeSet) : Prop where
  apart : Apart s.sortedRanges
  covered : ∀ n, Holds s.sortedRanges n ↔ Holds added n
  /-- Each added range lies within a stored one. -/
  within : ∀ r ∈ added, ∃ r' ∈ s.sortedRanges, r'.start ≤ r.start ∧ r.endExclusive ≤ r'.endExclusive
  /-- A stored range that is empty was added. -/
  empties : ∀ r ∈ s.sortedRanges, r.start = r.endExclusive → r ∈ added

theorem Stores.nil : Stores [] empty :=
  ⟨List.Pairwise.nil, fun _ => Iff.rfl, by simp, by simp [empty]⟩

/-- The added range, joined with the stored ranges it touches, takes their place. -/
theorem addRange_splice {s : OffsetRangeSet} {range : OffsetRange} {front touching back : List OffsetRange}
    (hsplit : s.sortedRanges = front ++ touching ++ back) (hfront : ∀ r ∈ front, r.endExclusive < range.start)
    (htouching : ∀ r ∈ touching, range.start ≤ r.endExclusive ∧ r.start ≤ range.endExclusive)
    (hback : ∀ r ∈ back, range.endExclusive < r.start) :
    ∃ x : OffsetRange, (s.addRange range).sortedRanges = front ++ x :: back ∧
      x.start = Intervals.joinLo OffsetRange.start touching range.start ∧
      x.endExclusive = Intervals.joinHi OffsetRange.endExclusive touching range.endExclusive ∧ (touching = [] → x = range) := by
  have hrange := range.start_le_end
  have hborder : ∀ r ∈ touching ++ back, decide (r.endExclusive < range.start) = false := by
    intro r hr
    rw [decide_eq_false_iff_not]
    rcases mem_append.mp hr with hr | hr
    · have := (htouching r hr).1
      omega
    · have := hback r hr
      have := r.start_le_end
      omega
  have htake := takeWhile_border (fun r : OffsetRange => r.endExclusive < range.start)
    (fun r hr => decide_eq_true (hfront r hr)) hborder
  have hdrop := dropWhile_border (fun r : OffsetRange => r.endExclusive < range.start)
    (fun r hr => decide_eq_true (hfront r hr)) hborder
  have hafter : ∀ r ∈ back, decide (r.start ≤ range.endExclusive) = false := by
    intro r hr
    have := hback r hr
    rw [decide_eq_false_iff_not]
    omega
  have htake' := takeWhile_border (fun r : OffsetRange => r.start ≤ range.endExclusive)
    (fun r hr => decide_eq_true (htouching r hr).2) hafter
  have hdrop' := dropWhile_border (fun r : OffsetRange => r.start ≤ range.endExclusive)
    (fun r hr => decide_eq_true (htouching r hr).2) hafter
  rw [addRange, hsplit, append_assoc, htake, hdrop, htake', hdrop']
  match touching with
  | [] => exact ⟨range, rfl, rfl, rfl, fun _ => rfl⟩
  | m :: rest =>
    obtain ⟨last, hlast⟩ : ∃ last, (m :: rest).getLast? = some last := ⟨_, getLast?_eq_some_getLast (by simp)⟩
    rw [head?_cons, hlast]
    refine ⟨_, rfl, rfl, ?_, fun h => by cases h⟩
    rw [Intervals.joinHi, hlast]
    rfl

theorem Stores.addRange {added : List OffsetRange} {s : OffsetRangeSet} (h : Stores added s) (range : OffsetRange) :
    Stores (added ++ [range]) (s.addRange range) := by
  obtain ⟨front, touching, back, hsplit, hfront, htouching, hback⟩ :=
    Intervals.exists_touching (a := range.start) (b := range.endExclusive) h.apart (proper _)
  obtain ⟨x, hadd, hlo, hhi, hnone⟩ := addRange_splice hsplit hfront htouching hback
  have hsep := h.apart
  rw [hsplit] at hsep
  have htouchingSep : Apart touching := (pairwise_append.mp (pairwise_append.mp hsep).1).2.1
  have hrange : x.start ≤ range.start ∧ range.endExclusive ≤ x.endExclusive := by
    rw [hlo, hhi]
    exact ⟨Intervals.joinLo_le _ _ _, Intervals.le_joinHi _ _ _⟩
  -- the joined range contains all that it replaces
  have hjoined : ∀ m ∈ touching, x.start ≤ m.start ∧ m.endExclusive ≤ x.endExclusive := by
    intro m hm
    rw [hlo, hhi]
    exact ⟨Intervals.joinLo_le_of_mem htouchingSep (proper _) m hm, Intervals.le_joinHi_of_mem htouchingSep (proper _) m hm⟩
  constructor
  · rw [hadd]
    exact Intervals.separated_splice hsep hfront hback hlo hhi
  · intro n
    have hold := h.covered n
    rw [hsplit] at hold
    have hsplice : Holds (front ++ x :: back) n ↔
        Holds (front ++ touching ++ back) n ∨ (range.start ≤ n ∧ n < range.endExclusive) :=
      Intervals.covered_splice hsep (proper _) htouching hlo hhi
    rw [hadd, hsplice, hold, holds_concat]
  · intro r hr
    rw [hadd]
    rcases mem_append.mp hr with hr | hr
    · obtain ⟨r', hr', hle⟩ := h.within r hr
      rw [hsplit] at hr'
      rcases mem_append.mp hr' with hr' | hr'
      · rcases mem_append.mp hr' with hr' | hr'
        · exact ⟨r', mem_append_left _ hr', hle⟩
        · have := hjoined r' hr'
          exact ⟨x, by simp, by omega, by omega⟩
      · exact ⟨r', mem_append_right _ (mem_cons_of_mem _ hr'), hle⟩
    · rw [mem_singleton] at hr
      subst hr
      exact ⟨x, by simp, hrange⟩
  · intro r hr hempty
    have hkept : r ∈ s.sortedRanges → r ∈ added ++ [range] := fun hmem => mem_append_left _ (h.empties r hmem hempty)
    rw [hadd] at hr
    rcases mem_append.mp hr with hr | hr
    · exact hkept (by rw [hsplit]; simp [hr])
    · rcases mem_cons.mp hr with rfl | hr
      · -- an empty joined range is the added one, or an empty one that was stored
        match touching, hjoined, hnone, hsplit with
        | [], _, hnone, _ =>
          rw [hnone rfl]
          simp
        | m :: rest, hjoined, _, hsplit =>
          have hm := hjoined m (mem_cons_self ..)
          have hm' := m.start_le_end
          have heq : r = m := by
            cases r
            cases m
            simp only [OffsetRange.mk.injEq]
            dsimp only at hm hm' hempty
            omega
          rw [heq] at hkept ⊢
          exact hkept (by rw [hsplit]; simp)
      · exact hkept (by rw [hsplit]; simp [hr])

theorem Stores.addRanges {before : List OffsetRange} {s : OffsetRangeSet} (h : Stores before s) :
    ∀ added : List OffsetRange, Stores (before ++ added) (s.addRanges added) := by
  intro added
  induction added generalizing before s with
  | nil =>
    rw [append_nil]
    exact h
  | cons r rest ih =>
    have := ih (h.addRange r)
    rw [append_assoc] at this
    exact this

theorem stores (added : List OffsetRange) : Stores added (empty.addRanges added) := Stores.nil.addRanges added

/-! ## Queries -/

theorem intersectsStrict_iff {s : OffsetRangeSet} (hs : Apart s.sortedRanges) (other : OffsetRange) :
    s.intersectsStrict other = true ↔
      ∃ r ∈ s.sortedRanges, other.start < r.endExclusive ∧ r.start < other.endExclusive := by
  obtain ⟨rs⟩ := s
  rw [intersectsStrict]
  induction rs with
  | nil =>
    simp
  | cons r rest ih =>
    by_cases hbefore : r.endExclusive ≤ other.start
    · rw [dropWhile_cons, if_pos (decide_eq_true hbefore), ih hs.tail]
      constructor
      · rintro ⟨r', hr', h⟩
        exact ⟨r', mem_cons_of_mem _ hr', h⟩
      · rintro ⟨r', hr', h⟩
        rcases mem_cons.mp hr' with rfl | hr'
        · omega
        · exact ⟨r', hr', h⟩
    · rw [dropWhile_cons, if_neg (by rw [decide_eq_true_iff]; exact hbefore)]
      rw [decide_eq_true_iff]
      constructor
      · intro h
        exact ⟨r, mem_cons_self .., by omega, h⟩
      · rintro ⟨r', hr', h, h'⟩
        rcases mem_cons.mp hr' with rfl | hr'
        · exact h'
        · have : r.endExclusive < r'.start := hs.head_lt r' hr'
          have := r.start_le_end
          omega

variable {added : List OffsetRange} {s : OffsetRangeSet}

/-- Against a range that is not empty, the query also finds the empty ranges strictly inside it. -/
theorem Stores.intersectsStrict_of_nonempty (h : Stores added s) {other : OffsetRange} (hother : other.start < other.endExclusive) :
    s.intersectsStrict other = true ↔ (∃ n, (other.start ≤ n ∧ n < other.endExclusive) ∧ Holds added n) ∨
      ∃ r ∈ added, r.start = r.endExclusive ∧ other.start < r.start ∧ r.start < other.endExclusive := by
  rw [intersectsStrict_iff h.apart]
  constructor
  · rintro ⟨r, hr, hlo, hhi⟩
    have hle := r.start_le_end
    by_cases hempty : r.start = r.endExclusive
    · exact .inr ⟨r, h.empties r hr hempty, hempty, by omega, hhi⟩
    · exact .inl ⟨max other.start r.start, by omega, (h.covered _).mp ⟨r, hr, by omega, by omega⟩⟩
  · rintro (⟨n, hn, hholds⟩ | ⟨r, hr, hempty, hlo, hhi⟩)
    · obtain ⟨r, hr, hlo, hhi⟩ := (h.covered n).mpr hholds
      exact ⟨r, hr, by omega, by omega⟩
    · obtain ⟨r', hr', hlo', hhi'⟩ := h.within r hr
      exact ⟨r', hr', by omega, by omega⟩

/-- An empty range is found inside a stored one: between two offsets of the union. -/
theorem Stores.intersectsStrict_of_empty (h : Stores added s) {other : OffsetRange} (hother : other.start = other.endExclusive) :
    s.intersectsStrict other = true ↔ Holds added (other.start - 1) ∧ Holds added other.start := by
  rw [intersectsStrict_iff h.apart, ← h.covered, ← h.covered]
  constructor
  · rintro ⟨r, hr, hlo, hhi⟩
    exact ⟨⟨r, hr, by omega, by omega⟩, ⟨r, hr, by omega, by omega⟩⟩
  · rintro ⟨⟨r, hr, hlo, hhi⟩, ⟨r', hr', hlo', hhi'⟩⟩
    have heq : r = r' := h.apart.eq_of_not_lt hr hr' (by omega) (by omega)
    subst heq
    exact ⟨r, hr, by omega, by omega⟩

/-- The inputs on which `intersectsStrict` tells whether the range and the union of the added ranges have an offset in common: the
range is not empty with an offset of the union on both sides, and no empty range was added strictly inside it when it has no offset
in common with the union. -/
structure StrictCondition (added : List OffsetRange) (other : OffsetRange) : Prop where
  notInside : other.start = other.endExclusive → ¬ (Holds added (other.start - 1) ∧ Holds added other.start)
  noEmpties : (∀ n, other.contains n = true → ¬ Holds added n) →
    ∀ r ∈ added, r.start = r.endExclusive → ¬ (other.start < r.start ∧ r.start < other.endExclusive)

theorem Stores.intersectsStrict_ok_iff (h : Stores added s) (other : OffsetRange) :
    (s.intersectsStrict other = true ↔ ∃ n, other.contains n = true ∧ Holds added n) ↔ StrictCondition added other := by
  have hcontains : ∀ n, other.contains n = true ↔ other.start ≤ n ∧ n < other.endExclusive := by
    intro n
    simp [OffsetRange.contains]
  have hle := other.start_le_end
  by_cases hempty : other.start = other.endExclusive
  · have hnone : ¬ ∃ n, other.contains n = true ∧ Holds added n := by
      rintro ⟨n, hn, -⟩
      rw [hcontains] at hn
      omega
    rw [iff_false_intro hnone, h.intersectsStrict_of_empty hempty]
    constructor
    · intro hinside
      exact ⟨fun _ => hinside.mp, fun _ r _ _ hr => by omega⟩
    · rintro ⟨hinside, -⟩
      exact iff_false_intro (hinside hempty)
  · rw [h.intersectsStrict_of_nonempty (by omega)]
    simp only [hcontains]
    constructor
    · intro hok
      refine ⟨fun h' => absurd h' hempty, ?_⟩
      intro hnone r hr hrempty hinside
      obtain ⟨n, hn, hholds⟩ := hok.mp (.inr ⟨r, hr, hrempty, hinside⟩)
      exact hnone n ((hcontains n).mpr hn) hholds
    · rintro ⟨-, hnoEmpties⟩
      constructor
      · rintro (hcommon | ⟨r, hr, hrempty, hinside⟩)
        · exact hcommon
        · by_contra hnone
          refine hnoEmpties ?_ r hr hrempty hinside
          intro n hn hholds
          exact hnone ⟨n, (hcontains n).mp hn, hholds⟩
      · exact .inl

theorem length_eq (s : OffsetRangeSet) : s.length = (s.sortedRanges.map fun r => r.endExclusive - r.start).sum := by
  have hfold : ∀ (rs : List OffsetRange) (prev : Int), rs.foldl (fun prev cur => prev + cur.length) prev =
      prev + (rs.map fun r => r.endExclusive - r.start).sum := by
    intro rs
    induction rs with
    | nil =>
      intro prev
      simp
    | cons r rest ih =>
      intro prev
      rw [foldl_cons, ih, map_cons, sum_cons, OffsetRange.length, Int.add_assoc]
  rw [length, hfold, Int.zero_add]

theorem intersectWithRange_eq (s : OffsetRangeSet) (other : OffsetRange) :
    s.intersectWithRange other = empty.addRanges (s.sortedRanges.filterMap fun r => r.intersect other) := by
  rw [intersectWithRange, addRanges, foldl_filterMap]
  congr 1
  funext result range
  cases range.intersect other <;> rfl

theorem mem_intersect {r other x : OffsetRange} : r.intersect other = some x →
    x.start = max r.start other.start ∧ x.endExclusive = min r.endExclusive other.endExclusive := by
  intro h
  rw [OffsetRange.intersect, OffsetRange.tryCreate] at h
  by_cases hle : max r.start other.start ≤ min r.endExclusive other.endExclusive
  · rw [dif_pos hle, Option.some.injEq] at h
    subst h
    exact ⟨rfl, rfl⟩
  · rw [dif_neg hle] at h
    cases h

/-- The common offsets of a range and the union of the added ranges. -/
noncomputable def commonOffsets (added : List OffsetRange) (other : OffsetRange) : Finset Int :=
  (Finset.Ico other.start other.endExclusive).filter fun n => Holds added n

theorem Stores.intersectWithRangeLength_eq (h : Stores added s) (other : OffsetRange) :
    s.intersectWithRangeLength other = (commonOffsets added other).card := by
  rw [intersectWithRangeLength, intersectWithRange_eq, length_eq]
  have hstores := stores (s.sortedRanges.filterMap fun r => r.intersect other)
  refine Intervals.sum_length_eq_card hstores.apart (proper _) ?_
  intro n
  refine Iff.trans ?_ (hstores.covered n).symm
  rw [commonOffsets, Finset.mem_filter, Finset.mem_Ico, ← h.covered n]
  constructor
  · rintro ⟨hn, r, hr, hlo, hhi⟩
    refine ⟨⟨max r.start other.start, min r.endExclusive other.endExclusive, by omega⟩, ?_, by dsimp only; omega, by dsimp only; omega⟩
    rw [mem_filterMap]
    exact ⟨r, hr, by rw [OffsetRange.intersect, OffsetRange.tryCreate, dif_pos (by omega)]⟩
  · rintro ⟨x, hx, hlo, hhi⟩
    obtain ⟨r, hr, hx⟩ := mem_filterMap.mp hx
    obtain ⟨hstart, hend⟩ := mem_intersect hx
    exact ⟨by omega, r, hr, by omega, by omega⟩

end OffsetRangeSet

end TongjiCode.Ranges
