import TongjiCode.Base.ArraysFind
import TongjiCode.Lib.Intervals

/-!
# Sets of line ranges

`LineRange` and `LineRangeSet` of `lineRange.ts`.  A set is stored as a list of line ranges; all operations rely on the list being
normalised: no range is empty, and each ends before the next one starts.

`Built` says which sets the operations build and which set of line numbers each stands for; `Built.normalized` and
`Built.contains_iff` say that the stored list is normalised and holds exactly these numbers.
-/

open List

namespace TongjiCode.Ranges

/-- A range of lines.  The constructor throws when the start is after the end. -/
structure LineRange where
  startLineNumber : Int
  endLineNumberExclusive : Int
  start_le_end : startLineNumber ≤ endLineNumberExclusive
  deriving Repr, DecidableEq

namespace LineRange

def isEmpty (r : LineRange) : Bool := r.startLineNumber = r.endLineNumberExclusive

def length (r : LineRange) : Int := r.endLineNumberExclusive - r.startLineNumber

def delta (r : LineRange) (offset : Int) : LineRange :=
  ⟨r.startLineNumber + offset, r.endLineNumberExclusive + offset, Int.add_le_add_right r.start_le_end offset⟩

def join (r other : LineRange) : LineRange :=
  ⟨min r.startLineNumber other.startLineNumber, max r.endLineNumberExclusive other.endLineNumberExclusive,
    (min_le_left _ _).trans (r.start_le_end.trans (le_max_left _ _))⟩

def intersect (r other : LineRange) : Option LineRange :=
  if h : max r.startLineNumber other.startLineNumber ≤ min r.endLineNumberExclusive other.endLineNumberExclusive then
    some ⟨_, _, h⟩
  else none

end LineRange

structure LineRangeSet where
  normalizedRanges : List LineRange
  deriving Repr, DecidableEq

namespace LineRangeSet

/-- The index of the first range that touches the given one or is after it. -/
def joinRangeStartIdx (s : LineRangeSet) (range : LineRange) : Nat :=
  findFirstIdxMonotonousOrArrLen s.normalizedRanges fun r => r.endLineNumberExclusive ≥ range.startLineNumber

/-- The index after the last range that touches the given one or is before it. -/
def joinRangeEndIdxExclusive (s : LineRangeSet) (range : LineRange) : Nat :=
  (findLastIdxMonotonous s.normalizedRanges (fun r => r.startLineNumber ≤ range.endLineNumberExclusive) + 1).toNat

def addRange (s : LineRangeSet) (range : LineRange) : LineRangeSet :=
  if range.length = 0 then s
  else
    let startIdx := s.joinRangeStartIdx range
    let endIdx := s.joinRangeEndIdxExclusive range
    if startIdx = endIdx then
      ⟨s.normalizedRanges.take startIdx ++ range :: s.normalizedRanges.drop startIdx⟩
    else
      match s.normalizedRanges[startIdx]?, s.normalizedRanges[endIdx - 1]? with
      | some first, some last =>
        if startIdx = endIdx - 1 then ⟨s.normalizedRanges.set startIdx (first.join range)⟩
        else
          ⟨s.normalizedRanges.take startIdx ++ (first.join last).join range :: s.normalizedRanges.drop endIdx⟩
      -- the indices are those of stored ranges
      | _, _ => s

def contains (s : LineRangeSet) (lineNumber : Int) : Bool :=
  (findLastMonotonous s.normalizedRanges fun r => r.startLineNumber ≤ lineNumber).any fun r =>
    r.endLineNumberExclusive > lineNumber

/-- One turn of the loop of `getUnion`: the state is the range being built and the ranges already pushed. -/
def unionStep (state : Option LineRange × List LineRange) (next : LineRange) : Option LineRange × List LineRange :=
  match state with
  | (none, result) => (some next, result)
  | (some current, result) =>
    if current.endLineNumberExclusive ≥ next.startLineNumber then
      (some ⟨current.startLineNumber, max current.endLineNumberExclusive next.endLineNumberExclusive,
        current.start_le_end.trans (le_max_left _ _)⟩, result)
    else (some next, result ++ [current])

/-- The loop of `getUnion` over what is left of the two lists. -/
def unionLoop (state : Option LineRange × List LineRange) : List LineRange → List LineRange → Option LineRange × List LineRange
  | [], [] => state
  | r1 :: rest1, [] => unionLoop (unionStep state r1) rest1 []
  | [], r2 :: rest2 => unionLoop (unionStep state r2) [] rest2
  | r1 :: rest1, r2 :: rest2 =>
    if r1.startLineNumber < r2.startLineNumber then unionLoop (unionStep state r1) rest1 (r2 :: rest2)
    else unionLoop (unionStep state r2) (r1 :: rest1) rest2
  termination_by l1 l2 => l1.length + l2.length

def getUnion (s other : LineRangeSet) : LineRangeSet :=
  if s.normalizedRanges.length = 0 then other
  else if other.normalizedRanges.length = 0 then s
  else
    let (current, result) := unionLoop (none, []) s.normalizedRanges other.normalizedRanges
    ⟨result ++ current.toList⟩

/-- The loop of `subtractFrom` over the touching ranges, and the push after it. -/
def subtractLoop (range : LineRange) (startLineNumber : Int) : List LineRange → List LineRange
  | [] =>
    if h : startLineNumber < range.endLineNumberExclusive then [⟨startLineNumber, range.endLineNumberExclusive, h.le⟩] else []
  | r :: rest =>
    if h : r.startLineNumber > startLineNumber then
      ⟨startLineNumber, r.startLineNumber, h.le⟩ :: subtractLoop range r.endLineNumberExclusive rest
    else subtractLoop range r.endLineNumberExclusive rest

def subtractFrom (s : LineRangeSet) (range : LineRange) : LineRangeSet :=
  let startIdx := s.joinRangeStartIdx range
  let endIdx := s.joinRangeEndIdxExclusive range
  if startIdx = endIdx then ⟨[range]⟩
  else ⟨subtractLoop range range.startLineNumber ((s.normalizedRanges.drop startIdx).take (endIdx - startIdx))⟩

/-- The loop of `getIntersection` over what is left of the two lists. -/
def intersectionLoop : List LineRange → List LineRange → List LineRange
  | r1 :: rest1, r2 :: rest2 =>
    (r1.intersect r2).toList.filter (fun i => !i.isEmpty) ++
      if r1.endLineNumberExclusive < r2.endLineNumberExclusive then intersectionLoop rest1 (r2 :: rest2)
      else intersectionLoop (r1 :: rest1) rest2
  | _, _ => []
  termination_by l1 l2 => l1.length + l2.length

def getIntersection (s other : LineRangeSet) : LineRangeSet :=
  ⟨intersectionLoop s.normalizedRanges other.normalizedRanges⟩

def getWithDelta (s : LineRangeSet) (value : Int) : LineRangeSet :=
  ⟨s.normalizedRanges.map fun r => r.delta value⟩

/-! ## The normal form -/

open Intervals (Covered Separated Proper)

/-- The line number lies in a stored range. -/
abbrev Holds (rs : List LineRange) (n : Int) : Prop :=
  Covered LineRange.startLineNumber LineRange.endLineNumberExclusive rs n

/-- Each stored range ends before the next one starts. -/
abbrev Apart (rs : List LineRange) : Prop :=
  Separated LineRange.startLineNumber LineRange.endLineNumberExclusive rs

/-- Sorted non-empty ranges that neither overlap nor touch. -/
structure Normalized (s : LineRangeSet) : Prop where
  apart : Apart s.normalizedRanges
  nonempty : ∀ r ∈ s.normalizedRanges, r.startLineNumber < r.endLineNumberExclusive

theorem proper (rs : List LineRange) : Proper LineRange.startLineNumber LineRange.endLineNumberExclusive rs :=
  fun r _ => r.start_le_end

variable {s : LineRangeSet}

/-- What a range finds in a normalised list: the ranges before it, those it touches and those after it, and their indices. -/
theorem exists_touching (hs : Apart s.normalizedRanges) (range : LineRange) :
    ∃ front touching back, s.normalizedRanges = front ++ touching ++ back ∧
      (∀ r ∈ front, r.endLineNumberExclusive < range.startLineNumber) ∧
      (∀ r ∈ touching, range.startLineNumber ≤ r.endLineNumberExclusive ∧ r.startLineNumber ≤ range.endLineNumberExclusive) ∧
      (∀ r ∈ back, range.endLineNumberExclusive < r.startLineNumber) ∧
      s.joinRangeStartIdx range = front.length ∧ s.joinRangeEndIdxExclusive range = front.length + touching.length := by
  obtain ⟨front, touching, back, hsplit, hfront, htouching, hback⟩ :=
    Intervals.exists_touching (a := range.startLineNumber) (b := range.endLineNumberExclusive) hs (proper _)
  have hle := range.start_le_end
  refine ⟨front, touching, back, hsplit, hfront, htouching, hback, ?_, ?_⟩
  · rw [joinRangeStartIdx, hsplit, append_assoc]
    apply findFirstIdxMonotonousOrArrLen_append
    · intro r hr
      have := hfront r hr
      rw [decide_eq_false_iff_not]
      omega
    · intro r hr
      rw [decide_eq_true_iff]
      rcases mem_append.mp hr with hr | hr
      · exact (htouching r hr).1
      · have := hback r hr
        have := r.start_le_end
        omega
  · have hlast : findLastIdxMonotonous (front ++ touching ++ back) (fun r => r.startLineNumber ≤ range.endLineNumberExclusive) =
        ((front ++ touching).length : Int) - 1 := by
      apply findLastIdxMonotonous_append
      · intro r hr
        rw [decide_eq_true_iff]
        rcases mem_append.mp hr with hr | hr
        · have := hfront r hr
          have := r.start_le_end
          omega
        · exact (htouching r hr).2
      · intro r hr
        have := hback r hr
        rw [decide_eq_false_iff_not]
        omega
    rw [joinRangeEndIdxExclusive, hsplit, hlast, length_append]
    omega

/-! ## Adding a range -/

variable {range : LineRange}

/-- The added range, joined with the stored ranges it touches, takes their place. -/
theorem addRange_splice (hs : Apart s.normalizedRanges) {front touching back : List LineRange}
    (hsplit : s.normalizedRanges = front ++ touching ++ back) (hstart : s.joinRangeStartIdx range = front.length)
    (hend : s.joinRangeEndIdxExclusive range = front.length + touching.length) (hrange : range.length ≠ 0) :
    ∃ x : LineRange, (s.addRange range).normalizedRanges = front ++ x :: back ∧
      x.startLineNumber = Intervals.joinLo LineRange.startLineNumber touching range.startLineNumber ∧
      x.endLineNumberExclusive = Intervals.joinHi LineRange.endLineNumberExclusive touching range.endLineNumberExclusive := by
  rw [addRange, if_neg hrange, hstart, hend]
  rw [hsplit] at hs ⊢
  match touching with
  | [] =>
    refine ⟨range, ?_, rfl, rfl⟩
    rw [if_pos (by simp), append_nil, take_left, drop_left]
  | [m] =>
    refine ⟨m.join range, ?_, min_comm _ _, max_comm _ _⟩
    simp
  | m :: m' :: rest =>
    obtain ⟨last, hlast⟩ : ∃ last, (m :: m' :: rest).getLast? = some last :=
      ⟨_, getLast?_eq_some_getLast (by simp)⟩
    have hfirst : (front ++ m :: m' :: rest ++ back)[front.length]? = some m := by simp
    have hget : (front ++ m :: m' :: rest ++ back)[front.length + (m :: m' :: rest).length - 1]? = some last := by
      have hindex : front.length + (m :: m' :: rest).length - 1 = front.length + ((m :: m' :: rest).length - 1) := by
        simp only [length_cons]
        omega
      rw [hindex, append_assoc, getElem?_append_right (by omega), Nat.add_sub_cancel_left,
        getElem?_append_left (by simp), ← getLast?_eq_getElem?, hlast]
    have horder : m.startLineNumber ≤ last.startLineNumber ∧ m.endLineNumberExclusive ≤ last.endLineNumberExclusive := by
      have htail : last ∈ m' :: rest := by
        exact mem_of_getLast? hlast
      have hsep : Apart (m :: m' :: rest) := (pairwise_append.mp (pairwise_append.mp hs).1).2.1
      have := hsep.head_lt last htail
      have := m.start_le_end
      have := last.start_le_end
      omega
    refine ⟨(m.join last).join range, ?_, ?_, ?_⟩
    · rw [if_neg (by simp), hfirst, hget]
      dsimp only
      rw [if_neg (by simp only [length_cons]; omega), append_assoc, take_left, ← append_assoc,
        ← length_append, drop_left]
    · show min (min m.startLineNumber last.startLineNumber) range.startLineNumber = min range.startLineNumber m.startLineNumber
      omega
    · have hjoin : Intervals.joinHi LineRange.endLineNumberExclusive (m :: m' :: rest) range.endLineNumberExclusive =
          max range.endLineNumberExclusive last.endLineNumberExclusive := by
        rw [Intervals.joinHi, hlast]
        rfl
      show max (max m.endLineNumberExclusive last.endLineNumberExclusive) range.endLineNumberExclusive = _
      omega

theorem addRange_spec (hs : s.Normalized) (range : LineRange) :
    (s.addRange range).Normalized ∧
      ∀ n, Holds (s.addRange range).normalizedRanges n ↔
        Holds s.normalizedRanges n ∨ (range.startLineNumber ≤ n ∧ n < range.endLineNumberExclusive) := by
  have hle := range.start_le_end
  by_cases hlength : range.length = 0
  · -- an empty range is ignored
    have hempty : range.endLineNumberExclusive - range.startLineNumber = 0 := hlength
    rw [addRange, if_pos hlength]
    refine ⟨hs, fun n => ?_⟩
    have hnone : ¬ (range.startLineNumber ≤ n ∧ n < range.endLineNumberExclusive) := by omega
    rw [or_iff_left hnone]
  have hrange : range.endLineNumberExclusive - range.startLineNumber ≠ 0 := hlength
  obtain ⟨front, touching, back, hsplit, hfront, htouching, hback, hstart, hend⟩ := exists_touching hs.apart range
  obtain ⟨x, hadd, hlo, hhi⟩ := addRange_splice hs.apart hsplit hstart hend hlength
  have hsep := hs.apart
  have hnonempty := hs.nonempty
  rw [hsplit] at hsep hnonempty
  have hbounds : x.startLineNumber ≤ range.startLineNumber ∧ range.endLineNumberExclusive ≤ x.endLineNumberExclusive := by
    rw [hlo, hhi]
    exact ⟨Intervals.joinLo_le _ _ _, Intervals.le_joinHi _ _ _⟩
  constructor
  · constructor
    · rw [hadd]
      exact Intervals.separated_splice hsep hfront hback hlo hhi
    · rw [hadd]
      intro r hr
      rcases mem_append.mp hr with hr | hr
      · exact hnonempty r (mem_append_left _ (mem_append_left _ hr))
      · rcases mem_cons.mp hr with rfl | hr
        · omega
        · exact hnonempty r (mem_append_right _ hr)
  · intro n
    rw [hadd, hsplit]
    exact Intervals.covered_splice hsep (proper _) htouching hlo hhi

/-! ## Membership -/

theorem contains_iff (hs : Apart s.normalizedRanges) (n : Int) :
    s.contains n = true ↔ Holds s.normalizedRanges n := by
  -- the ranges that start at or before `n` are the front of the list
  obtain ⟨front, touching, back, hsplit, hfront, htouching, hback⟩ :=
    Intervals.exists_touching (a := n) (b := n) hs (proper _)
  have hbefore : ∀ r ∈ front ++ touching, r.startLineNumber ≤ n := by
    intro r hr
    rcases mem_append.mp hr with hr | hr
    · have := hfront r hr
      have := r.start_le_end
      omega
    · exact (htouching r hr).2
  have hidx : findLastIdxMonotonous (front ++ touching ++ back) (fun r => r.startLineNumber ≤ n) =
      ((front ++ touching).length : Int) - 1 := by
    apply findLastIdxMonotonous_append
    · intro r hr
      rw [decide_eq_true_iff]
      exact hbefore r hr
    · intro r hr
      have := hback r hr
      rw [decide_eq_false_iff_not]
      omega
  rw [contains, findLastMonotonous, hsplit, hidx]
  rw [hsplit] at hs
  rcases eq_nil_or_concat' (front ++ touching) with hnil | ⟨init, last, hconcat⟩
  · rw [hnil, if_pos (by simp)]
    constructor
    · intro h
      cases h
    · rintro ⟨r, hr, hlo, -⟩
      have := hback r hr
      omega
  · have hget : (init ++ [last] ++ back)[(((init ++ [last]).length : Int) - 1).toNat]? = some last := by
      simp
    have hlastLe : last.startLineNumber ≤ n := hbefore last (by rw [hconcat]; simp)
    rw [hconcat, if_neg (by simp only [length_append, length_singleton]; omega), hget, Option.any_some,
      decide_eq_true_iff]
    rw [hconcat] at hs
    constructor
    · intro h
      exact ⟨last, by simp, hlastLe, h⟩
    · rintro ⟨r, hr, hlo, hhi⟩
      rcases mem_append.mp hr with hr | hr
      · rcases mem_append.mp hr with hr | hr
        · have hcross := (pairwise_append.mp (pairwise_append.mp hs).1).2.2 r hr last (mem_singleton_self _)
          omega
        · rw [mem_singleton] at hr
          subst hr
          exact hhi
      · have := hback r hr
        omega

/-! ## Union -/

variable {n : Int}

theorem holds_append {front back : List LineRange} : Holds (front ++ back) n ↔ Holds front n ∨ Holds back n :=
  Intervals.covered_append

variable {r : LineRange} {rest : List LineRange}

theorem holds_cons :
    Holds (r :: rest) n ↔ (r.startLineNumber ≤ n ∧ n < r.endLineNumberExclusive) ∨ Holds rest n :=
  Intervals.covered_cons

theorem Normalized.tail (h : Normalized ⟨r :: rest⟩) : Normalized ⟨rest⟩ :=
  ⟨h.apart.tail, fun r' hr' => h.nonempty r' (mem_cons_of_mem _ hr')⟩

theorem Normalized.head (h : Normalized ⟨r :: rest⟩) :
    r.startLineNumber < r.endLineNumberExclusive :=
  h.nonempty r (mem_cons_self ..)

def NotAfter (current : LineRange) (rs : List LineRange) : Prop := ∀ r ∈ rs, current.startLineNumber ≤ r.startLineNumber

theorem Normalized.notAfter (h : Normalized ⟨r :: rest⟩) : NotAfter r rest := by
  intro r' hr'
  have := h.apart.head_lt r' hr'
  have := r.start_le_end
  omega

variable {current : LineRange}

theorem Normalized.notAfter_of_le (h : Normalized ⟨r :: rest⟩) (hle : current.startLineNumber ≤ r.startLineNumber) :
    NotAfter current (r :: rest) := by
  intro r' hr'
  rcases mem_cons.mp hr' with rfl | hr'
  · exact hle
  · exact hle.trans (h.notAfter r' hr')

theorem NotAfter.trans {rs : List LineRange} (hle : current.startLineNumber ≤ r.startLineNumber) (h : NotAfter r rs) :
    NotAfter current rs :=
  fun r' hr' => hle.trans (h r' hr')

/-- Taking the next range, in the order of the starts, keeps what is built normalised and adds the range to it. -/
theorem unionStep_spec {result : List LineRange} (hstate : Normalized ⟨result ++ [current]⟩) {next : LineRange}
    (hnext : next.startLineNumber < next.endLineNumberExclusive) (hle : current.startLineNumber ≤ next.startLineNumber) :
    ∃ current' result', unionStep (some current, result) next = (some current', result') ∧
      Normalized ⟨result' ++ [current']⟩ ∧ current'.startLineNumber ≤ next.startLineNumber ∧
      ∀ n, Holds (result' ++ [current']) n ↔
        Holds (result ++ [current]) n ∨ (next.startLineNumber ≤ n ∧ n < next.endLineNumberExclusive) := by
  obtain ⟨hapart, hnonempty⟩ := hstate
  have hcurrent := hnonempty current (by simp)
  obtain ⟨hresult, -, hbefore⟩ := pairwise_append.mp hapart
  unfold unionStep
  dsimp only
  by_cases htouch : current.endLineNumberExclusive ≥ next.startLineNumber
  · rw [if_pos htouch]
    refine ⟨_, result, rfl, ⟨?_, ?_⟩, hle, ?_⟩
    · refine pairwise_append.mpr ⟨hresult, pairwise_singleton _ _, ?_⟩
      intro r hr r' hr'
      rw [mem_singleton] at hr'
      subst hr'
      exact hbefore r hr current (mem_singleton_self _)
    · intro r hr
      rcases mem_append.mp hr with hr | hr
      · exact hnonempty r (mem_append_left _ hr)
      · rw [mem_singleton] at hr
        subst hr
        exact lt_of_lt_of_le hcurrent (le_max_left _ _)
    · intro n
      simp only [holds_append, holds_cons, Intervals.covered_nil, or_false]
      have : (current.startLineNumber ≤ n ∧ n < max current.endLineNumberExclusive next.endLineNumberExclusive) ↔
          (current.startLineNumber ≤ n ∧ n < current.endLineNumberExclusive) ∨
            (next.startLineNumber ≤ n ∧ n < next.endLineNumberExclusive) := by
        omega
      rw [this, or_assoc]
  · rw [if_neg htouch]
    refine ⟨next, result ++ [current], rfl, ⟨?_, ?_⟩, le_refl _, ?_⟩
    · refine pairwise_append.mpr ⟨hapart, pairwise_singleton _ _, ?_⟩
      intro r hr r' hr'
      rw [mem_singleton] at hr'
      subst hr'
      rcases mem_append.mp hr with hr | hr
      · have := hbefore r hr current (mem_singleton_self _)
        omega
      · rw [mem_singleton] at hr
        subst hr
        omega
    · intro r hr
      rcases mem_append.mp hr with hr | hr
      · exact hnonempty r hr
      · rw [mem_singleton] at hr
        subst hr
        exact hnext
    · intro n
      simp only [holds_append, holds_cons, Intervals.covered_nil, or_false]

theorem unionLoop_spec {state : Option LineRange × List LineRange} {l1 l2 : List LineRange} :
    ∀ {current : LineRange} {result : List LineRange}, state = (some current, result) → Normalized ⟨result ++ [current]⟩ →
      Normalized ⟨l1⟩ → Normalized ⟨l2⟩ → NotAfter current l1 → NotAfter current l2 →
      ∃ current' result', unionLoop state l1 l2 = (some current', result') ∧ Normalized ⟨result' ++ [current']⟩ ∧
        ∀ n, Holds (result' ++ [current']) n ↔ Holds (result ++ [current]) n ∨ Holds l1 n ∨ Holds l2 n := by
  induction state, l1, l2 using unionLoop.induct with
  | case1 state =>
    intro current result hstate hnorm _ _ _ _
    refine ⟨current, result, by rw [unionLoop, hstate], hnorm, ?_⟩
    intro n
    simp [Intervals.covered_nil]
  | case2 state r1 rest1 ih =>
    intro current result hstate hnorm h1 h2 hafter1 _
    subst hstate
    obtain ⟨current', result', hstep, hnorm', hle, hholds⟩ := unionStep_spec hnorm h1.head (hafter1 r1 (mem_cons_self ..))
    obtain ⟨current'', result'', hloop, hnorm'', hholds'⟩ :=
      ih hstep hnorm' h1.tail h2 (NotAfter.trans hle h1.notAfter) (fun r hr => by cases hr)
    refine ⟨current'', result'', by rw [unionLoop, hloop], hnorm'', ?_⟩
    intro n
    rw [hholds', hholds, holds_cons]
    tauto
  | case3 state r2 rest2 ih =>
    intro current result hstate hnorm h1 h2 _ hafter2
    subst hstate
    obtain ⟨current', result', hstep, hnorm', hle, hholds⟩ := unionStep_spec hnorm h2.head (hafter2 r2 (mem_cons_self ..))
    obtain ⟨current'', result'', hloop, hnorm'', hholds'⟩ :=
      ih hstep hnorm' h1 h2.tail (fun r hr => by cases hr) (NotAfter.trans hle h2.notAfter)
    refine ⟨current'', result'', by rw [unionLoop, hloop], hnorm'', ?_⟩
    intro n
    rw [hholds', hholds, holds_cons]
    tauto
  | case4 state r1 rest1 r2 rest2 hlt ih =>
    intro current result hstate hnorm h1 h2 hafter1 _
    subst hstate
    obtain ⟨current', result', hstep, hnorm', hle, hholds⟩ := unionStep_spec hnorm h1.head (hafter1 r1 (mem_cons_self ..))
    have hafter2 := h2.notAfter_of_le hlt.le
    obtain ⟨current'', result'', hloop, hnorm'', hholds'⟩ :=
      ih hstep hnorm' h1.tail h2 (NotAfter.trans hle h1.notAfter) (NotAfter.trans hle hafter2)
    refine ⟨current'', result'', by rw [unionLoop, if_pos hlt, hloop], hnorm'', ?_⟩
    intro n
    rw [hholds', hholds, holds_cons (r := r1)]
    tauto
  | case5 state r1 rest1 r2 rest2 hge ih =>
    intro current result hstate hnorm h1 h2 _ hafter2
    subst hstate
    obtain ⟨current', result', hstep, hnorm', hle, hholds⟩ := unionStep_spec hnorm h2.head (hafter2 r2 (mem_cons_self ..))
    have hafter1 := h1.notAfter_of_le (Int.not_lt.mp hge)
    obtain ⟨current'', result'', hloop, hnorm'', hholds'⟩ :=
      ih hstep hnorm' h1 h2.tail (NotAfter.trans hle hafter1) (NotAfter.trans hle h2.notAfter)
    refine ⟨current'', result'', by rw [unionLoop, if_neg hge, hloop], hnorm'', ?_⟩
    intro n
    rw [hholds', hholds, holds_cons (r := r2)]
    tauto

/-- Starting the loop on two lists that are not both empty: the first range is taken as it is. -/
theorem unionLoop_none {l1 l2 : List LineRange} (h1 : Normalized ⟨l1⟩) (h2 : Normalized ⟨l2⟩) (hne : l1 ≠ []) (hne2 : l2 ≠ []) :
    ∃ current result, unionLoop (none, []) l1 l2 = (some current, result) ∧ Normalized ⟨result ++ [current]⟩ ∧
      ∀ n, Holds (result ++ [current]) n ↔ Holds l1 n ∨ Holds l2 n := by
  match l1, l2 with
  | [], _ => exact absurd rfl hne
  | _ :: _, [] => exact absurd rfl hne2
  | r1 :: rest1, r2 :: rest2 =>
    have hsingle : ∀ r : LineRange, r.startLineNumber < r.endLineNumberExclusive → Normalized ⟨[] ++ [r]⟩ := by
      intro r hr
      refine ⟨pairwise_singleton _ _, ?_⟩
      intro r' hr'
      rw [mem_singleton.mp hr']
      exact hr
    rw [unionLoop]
    by_cases hlt : r1.startLineNumber < r2.startLineNumber
    · rw [if_pos hlt]
      have hafter2 := h2.notAfter_of_le hlt.le
      obtain ⟨current, result, hloop, hnorm, hholds⟩ :=
        unionLoop_spec (rfl : unionStep (none, []) r1 = (some r1, []))  (hsingle r1 h1.head) h1.tail h2 h1.notAfter hafter2
      refine ⟨current, result, hloop, hnorm, ?_⟩
      intro n
      rw [hholds, nil_append, holds_cons, holds_cons (r := r1)]
      have hnil : ¬ Holds [] n := Intervals.covered_nil
      tauto
    · rw [if_neg hlt]
      have hafter1 := h1.notAfter_of_le (Int.not_lt.mp hlt)
      obtain ⟨current, result, hloop, hnorm, hholds⟩ :=
        unionLoop_spec (rfl : unionStep (none, []) r2 = (some r2, []))  (hsingle r2 h2.head) h1 h2.tail hafter1 h2.notAfter
      refine ⟨current, result, hloop, hnorm, ?_⟩
      intro n
      rw [hholds, nil_append, holds_cons, holds_cons (r := r2)]
      have hnil : ¬ Holds [] n := Intervals.covered_nil
      tauto

theorem getUnion_spec {s other : LineRangeSet} (hs : s.Normalized) (hother : other.Normalized) :
    (s.getUnion other).Normalized ∧
      ∀ n, Holds (s.getUnion other).normalizedRanges n ↔ Holds s.normalizedRanges n ∨ Holds other.normalizedRanges n := by
  rw [getUnion]
  by_cases hempty : s.normalizedRanges.length = 0
  · rw [if_pos hempty, length_eq_zero_iff.mp hempty]
    refine ⟨hother, ?_⟩
    intro n
    simp [Intervals.covered_nil]
  · rw [if_neg hempty]
    by_cases hempty' : other.normalizedRanges.length = 0
    · rw [if_pos hempty', length_eq_zero_iff.mp hempty']
      refine ⟨hs, ?_⟩
      intro n
      simp [Intervals.covered_nil]
    · rw [if_neg hempty']
      obtain ⟨current, result, hloop, hnorm, hholds⟩ := unionLoop_none hs hother
        (fun h => hempty (length_eq_zero_iff.mpr h)) (fun h => hempty' (length_eq_zero_iff.mpr h))
      rw [hloop]
      exact ⟨hnorm, hholds⟩

/-! ## Difference -/

/-- What is subtracted leaves gaps, each after the end of the range before it. -/
theorem subtractLoop_spec : ∀ {rs : List LineRange} {start : Int}, Normalized ⟨rs⟩ →
    (∀ r ∈ rs, r.startLineNumber ≤ range.endLineNumberExclusive) → (∀ r ∈ rs, start ≤ r.endLineNumberExclusive) →
    Normalized ⟨subtractLoop range start rs⟩ ∧ (∀ x ∈ subtractLoop range start rs, start ≤ x.startLineNumber) ∧
      ∀ n, Holds (subtractLoop range start rs) n ↔ (start ≤ n ∧ n < range.endLineNumberExclusive) ∧ ¬ Holds rs n := by
  intro rs
  induction rs with
  | nil =>
    intro start _ _ _
    rw [subtractLoop]
    by_cases hlt : start < range.endLineNumberExclusive
    · rw [dif_pos hlt]
      refine ⟨⟨pairwise_singleton _ _, ?_⟩, ?_, ?_⟩
      · intro r hr
        rw [mem_singleton.mp hr]
        exact hlt
      · intro x hx
        rw [mem_singleton.mp hx]
      · intro n
        simp [Covered]
    · rw [dif_neg hlt]
      refine ⟨⟨List.Pairwise.nil, by simp⟩, by simp, ?_⟩
      intro n
      simp only [Intervals.covered_nil, not_false_eq_true, and_true, false_iff]
      omega
  | cons r rest ih =>
    intro start hnorm hend hstart
    have hrange := hend r (mem_cons_self ..)
    have hle := hstart r (mem_cons_self ..)
    have hr := hnorm.head
    have hlater : ∀ r' ∈ rest, r.endLineNumberExclusive < r'.startLineNumber := hnorm.apart.head_lt
    obtain ⟨hnorm', hfrom, hholds⟩ := @ih r.endLineNumberExclusive hnorm.tail
      (fun r' hr' => hend r' (mem_cons_of_mem _ hr'))
      (fun r' hr' => (hlater r' hr').le.trans r'.start_le_end)
    -- an integer before the end of `r` lies in no later range
    have hbefore : ∀ {n}, n < r.endLineNumberExclusive → ¬ Holds rest n := by
      rintro n hn ⟨r', hr', hlo, -⟩
      have := hlater r' hr'
      omega
    rw [subtractLoop]
    by_cases hgap : r.startLineNumber > start
    · rw [dif_pos hgap]
      refine ⟨⟨pairwise_cons.mpr ⟨?_, hnorm'.apart⟩, ?_⟩, ?_, ?_⟩
      · intro x hx
        exact lt_of_lt_of_le hr (hfrom x hx)
      · intro x hx
        rcases mem_cons.mp hx with rfl | hx
        · exact hgap
        · exact hnorm'.nonempty x hx
      · intro x hx
        rcases mem_cons.mp hx with rfl | hx
        · exact le_refl _
        · exact hle.trans (hfrom x hx)
      · intro n
        rw [holds_cons, hholds, holds_cons]
        dsimp only
        by_cases hn : n < r.endLineNumberExclusive
        · have := hbefore hn
          constructor
          · rintro (h | h)
            · exact ⟨by omega, by rintro (h' | h') <;> [omega; exact this h']⟩
            · omega
          · rintro ⟨h, h'⟩
            left
            omega
        · constructor
          · rintro (h | ⟨h, h'⟩)
            · omega
            · exact ⟨by omega, by rintro (h'' | h'') <;> [omega; exact h' h'']⟩
          · rintro ⟨h, h'⟩
            exact .inr ⟨by omega, fun h'' => h' (.inr h'')⟩
    · rw [dif_neg hgap]
      refine ⟨hnorm', ?_, ?_⟩
      · intro x hx
        exact hle.trans (hfrom x hx)
      · intro n
        rw [hholds, holds_cons]
        constructor
        · rintro ⟨h, h'⟩
          exact ⟨by omega, by rintro (h'' | h'') <;> [omega; exact h' h'']⟩
        · rintro ⟨h, h'⟩
          refine ⟨?_, fun h'' => h' (.inr h'')⟩
          omega

theorem subtractFrom_spec (hs : s.Normalized) (hrange : range.startLineNumber < range.endLineNumberExclusive) :
    (s.subtractFrom range).Normalized ∧
      ∀ n, Holds (s.subtractFrom range).normalizedRanges n ↔
        (range.startLineNumber ≤ n ∧ n < range.endLineNumberExclusive) ∧ ¬ Holds s.normalizedRanges n := by
  obtain ⟨front, touching, back, hsplit, hfront, htouching, hback, hstart, hend⟩ := exists_touching hs.apart range
  -- what does not touch the range shares no line with it
  have houtside : ∀ n, range.startLineNumber ≤ n ∧ n < range.endLineNumberExclusive →
      (Holds s.normalizedRanges n ↔ Holds touching n) := by
    intro n hn
    rw [hsplit, holds_append, holds_append]
    constructor
    · rintro ((⟨r, hr, hlo, hhi⟩ | h) | ⟨r, hr, hlo, hhi⟩)
      · have := hfront r hr
        omega
      · exact h
      · have := hback r hr
        omega
    · intro h
      exact .inl (.inr h)
  have htouchingNorm : Normalized ⟨touching⟩ := by
    have hsep := hs.apart
    have hnonempty := hs.nonempty
    rw [hsplit] at hsep hnonempty
    exact ⟨(pairwise_append.mp (pairwise_append.mp hsep).1).2.1,
      fun r hr => hnonempty r (mem_append_left _ (mem_append_right _ hr))⟩
  rw [subtractFrom, hstart, hend]
  by_cases hnone : front.length = front.length + touching.length
  · rw [if_pos hnone]
    obtain rfl : touching = [] := length_eq_zero_iff.mp (by omega)
    refine ⟨⟨pairwise_singleton _ _, ?_⟩, ?_⟩
    · intro r hr
      rw [mem_singleton.mp hr]
      exact hrange
    · intro n
      rw [holds_cons]
      constructor
      · rintro (h | h)
        · exact ⟨h, fun h' => Intervals.covered_nil ((houtside n h).mp h')⟩
        · exact absurd h Intervals.covered_nil
      · rintro ⟨h, -⟩
        exact .inl h
  · rw [if_neg hnone]
    have hslice : (s.normalizedRanges.drop front.length).take (front.length + touching.length - front.length) = touching := by
      rw [hsplit, append_assoc, drop_left, Nat.add_sub_cancel_left, take_left]
    rw [hslice]
    obtain ⟨hnorm, -, hholds⟩ := subtractLoop_spec htouchingNorm (fun r hr => (htouching r hr).2) (fun r hr => (htouching r hr).1)
    refine ⟨hnorm, ?_⟩
    intro n
    rw [hholds]
    constructor
    · rintro ⟨h, h'⟩
      exact ⟨h, fun h'' => h' ((houtside n h).mp h'')⟩
    · rintro ⟨h, h'⟩
      exact ⟨h, fun h'' => h' ((houtside n h).mpr h'')⟩

/-! ## Intersection -/

def commonPart (r1 r2 : LineRange) : List LineRange := (r1.intersect r2).toList.filter fun i => !i.isEmpty

theorem mem_commonPart {r1 r2 x : LineRange} (hx : x ∈ commonPart r1 r2) :
    x.startLineNumber = max r1.startLineNumber r2.startLineNumber ∧
      x.endLineNumberExclusive = min r1.endLineNumberExclusive r2.endLineNumberExclusive ∧
      x.startLineNumber < x.endLineNumberExclusive := by
  obtain ⟨hmem, hnonempty⟩ := mem_filter.mp hx
  rw [LineRange.intersect] at hmem
  by_cases h : max r1.startLineNumber r2.startLineNumber ≤ min r1.endLineNumberExclusive r2.endLineNumberExclusive
  · rw [dif_pos h, Option.toList_some, mem_singleton] at hmem
    subst hmem
    simp only [LineRange.isEmpty, Bool.not_eq_true', decide_eq_false_iff_not] at hnonempty
    exact ⟨rfl, rfl, lt_of_le_of_ne h hnonempty⟩
  · rw [dif_neg h] at hmem
    cases hmem

theorem commonPart_normalized (r1 r2 : LineRange) : Normalized ⟨commonPart r1 r2⟩ := by
  constructor
  · have hlength : (commonPart r1 r2).length ≤ 1 := by
      refine (length_filter_le _ _).trans ?_
      cases r1.intersect r2 <;> simp
    match commonPart r1 r2, hlength with
    | [], _ => exact List.Pairwise.nil
    | [x], _ => exact pairwise_singleton _ _
  · intro x hx
    exact (mem_commonPart hx).2.2

theorem holds_commonPart {r1 r2 : LineRange} : Holds (commonPart r1 r2) n ↔
    (r1.startLineNumber ≤ n ∧ n < r1.endLineNumberExclusive) ∧ (r2.startLineNumber ≤ n ∧ n < r2.endLineNumberExclusive) := by
  constructor
  · rintro ⟨x, hx, hlo, hhi⟩
    obtain ⟨hstart, hend, -⟩ := mem_commonPart hx
    omega
  · rintro ⟨⟨h1, h1'⟩, h2, h2'⟩
    have hle : max r1.startLineNumber r2.startLineNumber ≤ min r1.endLineNumberExclusive r2.endLineNumberExclusive := by omega
    refine ⟨⟨_, _, hle⟩, ?_, ?_⟩
    · rw [commonPart, LineRange.intersect, dif_pos hle]
      simp only [Option.toList_some, mem_filter, mem_singleton, true_and, LineRange.isEmpty, Bool.not_eq_true',
        decide_eq_false_iff_not]
      omega
    · dsimp only
      omega

theorem intersectionLoop_start (l1 l2 : List LineRange) : ∀ x ∈ intersectionLoop l1 l2,
    (∃ r ∈ l1, r.startLineNumber ≤ x.startLineNumber) ∧ ∃ r ∈ l2, r.startLineNumber ≤ x.startLineNumber := by
  induction l1, l2 using intersectionLoop.induct with
  | case1 r1 rest1 r2 rest2 ih1 ih2 =>
    intro x hx
    rw [intersectionLoop] at hx
    rcases mem_append.mp hx with hx | hx
    · obtain ⟨hstart, -⟩ := mem_commonPart hx
      exact ⟨⟨r1, by simp, by omega⟩, ⟨r2, by simp, by omega⟩⟩
    · by_cases hlt : r1.endLineNumberExclusive < r2.endLineNumberExclusive
      · rw [if_pos hlt] at hx
        obtain ⟨⟨r, hr, hle⟩, hsecond⟩ := ih1 x hx
        exact ⟨⟨r, mem_cons_of_mem _ hr, hle⟩, hsecond⟩
      · rw [if_neg hlt] at hx
        obtain ⟨hfirst, ⟨r, hr, hle⟩⟩ := ih2 x hx
        exact ⟨hfirst, ⟨r, mem_cons_of_mem _ hr, hle⟩⟩
  | case2 l1 l2 hne =>
    intro x hx
    rw [intersectionLoop] at hx
    · cases hx
    · exact hne

theorem Normalized.append {front back : List LineRange} (hfront : Normalized ⟨front⟩) (hback : Normalized ⟨back⟩)
    (hcross : ∀ x ∈ front, ∀ y ∈ back, x.endLineNumberExclusive < y.startLineNumber) : Normalized ⟨front ++ back⟩ := by
  refine ⟨pairwise_append.mpr ⟨hfront.apart, hback.apart, hcross⟩, ?_⟩
  intro r hr
  rcases mem_append.mp hr with hr | hr
  · exact hfront.nonempty r hr
  · exact hback.nonempty r hr

/-- Dropping the first range of the first list loses nothing when it meets only the first one of the second list. -/
theorem or_and_or_of_disjoint {first first' rest rest' : Prop} (h : first → ¬ rest') :
    (first ∧ first') ∨ (rest ∧ (first' ∨ rest')) ↔ (first ∨ rest) ∧ (first' ∨ rest') := by
  tauto

theorem intersectionLoop_spec (l1 l2 : List LineRange) (h1 : Normalized ⟨l1⟩) (h2 : Normalized ⟨l2⟩) :
    Normalized ⟨intersectionLoop l1 l2⟩ ∧ ∀ n, Holds (intersectionLoop l1 l2) n ↔ Holds l1 n ∧ Holds l2 n := by
  induction l1, l2 using intersectionLoop.induct with
  | case1 r1 rest1 r2 rest2 ih1 ih2 =>
    have hlater1 : ∀ r ∈ rest1, r1.endLineNumberExclusive < r.startLineNumber := h1.apart.head_lt
    have hlater2 : ∀ r ∈ rest2, r2.endLineNumberExclusive < r.startLineNumber := h2.apart.head_lt
    rw [intersectionLoop]
    show Normalized ⟨commonPart r1 r2 ++ _⟩ ∧ ∀ n, Holds (commonPart r1 r2 ++ _) n ↔ _
    by_cases hlt : r1.endLineNumberExclusive < r2.endLineNumberExclusive
    · rw [if_pos hlt]
      obtain ⟨hnorm, hholds⟩ := ih1 h1.tail h2
      constructor
      · refine (commonPart_normalized r1 r2).append hnorm ?_
        intro x hx y hy
        obtain ⟨-, hend, -⟩ := mem_commonPart hx
        obtain ⟨⟨r, hr, hle⟩, -⟩ := intersectionLoop_start rest1 (r2 :: rest2) y hy
        have := hlater1 r hr
        omega
      · intro n
        -- the dropped range meets none of the later ranges of the other list
        have hcross : (r1.startLineNumber ≤ n ∧ n < r1.endLineNumberExclusive) → ¬ Holds rest2 n := by
          rintro h ⟨r, hr, hlo, -⟩
          have := hlater2 r hr
          omega
        rw [holds_append, hholds, holds_commonPart, holds_cons, holds_cons]
        exact or_and_or_of_disjoint hcross
    · rw [if_neg hlt]
      obtain ⟨hnorm, hholds⟩ := ih2 h1 h2.tail
      constructor
      · refine (commonPart_normalized r1 r2).append hnorm ?_
        intro x hx y hy
        obtain ⟨-, hend, -⟩ := mem_commonPart hx
        obtain ⟨-, ⟨r, hr, hle⟩⟩ := intersectionLoop_start (r1 :: rest1) rest2 y hy
        have := hlater2 r hr
        omega
      · intro n
        have hcross : (r2.startLineNumber ≤ n ∧ n < r2.endLineNumberExclusive) → ¬ Holds rest1 n := by
          rintro h ⟨r, hr, hlo, -⟩
          have := hlater1 r hr
          omega
        rw [holds_append, hholds, holds_commonPart, holds_cons, holds_cons, and_comm, @and_comm _ (Holds rest2 n),
          and_comm (b := _ ∨ Holds rest2 n)]
        exact or_and_or_of_disjoint hcross
  | case2 l1 l2 hne =>
    rw [intersectionLoop]
    · refine ⟨⟨List.Pairwise.nil, by simp⟩, ?_⟩
      intro n
      simp only [Intervals.covered_nil, false_iff, not_and]
      match l1, l2 with
      | [], _ => exact fun h => absurd h Intervals.covered_nil
      | _ :: _, [] => exact fun _ => Intervals.covered_nil
      | r1 :: rest1, r2 :: rest2 => exact (hne r1 rest1 r2 rest2 rfl rfl).elim
    · exact hne

theorem getIntersection_spec {s other : LineRangeSet} (hs : s.Normalized) (hother : other.Normalized) :
    (s.getIntersection other).Normalized ∧
      ∀ n, Holds (s.getIntersection other).normalizedRanges n ↔ Holds s.normalizedRanges n ∧ Holds other.normalizedRanges n :=
  intersectionLoop_spec s.normalizedRanges other.normalizedRanges hs hother

/-! ## Translation -/

theorem getWithDelta_spec (hs : s.Normalized) (value : Int) :
    (s.getWithDelta value).Normalized ∧
      ∀ n, Holds (s.getWithDelta value).normalizedRanges n ↔ Holds s.normalizedRanges (n - value) := by
  refine ⟨⟨?_, ?_⟩, ?_⟩
  · refine pairwise_map.mpr (hs.apart.imp ?_)
    intro r r' h
    show r.endLineNumberExclusive + value < r'.startLineNumber + value
    omega
  · intro r hr
    obtain ⟨r', hr', rfl⟩ := mem_map.mp hr
    have := hs.nonempty r' hr'
    show r'.startLineNumber + value < r'.endLineNumberExclusive + value
    omega
  · intro n
    constructor
    · rintro ⟨r, hr, hlo, hhi⟩
      obtain ⟨r', hr', rfl⟩ := mem_map.mp hr
      change r'.startLineNumber + value ≤ n at hlo
      change n < r'.endLineNumberExclusive + value at hhi
      exact ⟨r', hr', by omega, by omega⟩
    · rintro ⟨r, hr, hlo, hhi⟩
      refine ⟨r.delta value, mem_map_of_mem hr, ?_, ?_⟩
      · show r.startLineNumber + value ≤ n
        omega
      · show n < r.endLineNumberExclusive + value
        omega

/-! ## Sets built by the operations -/

/-- The sets built from the empty one, each with the set of line numbers it stands for. -/
inductive Built : LineRangeSet → Set Int → Prop
  | empty : Built ⟨[]⟩ ∅
  | addRange {s : LineRangeSet} {lines : Set Int} (h : Built s lines) (range : LineRange) :
      Built (s.addRange range) (lines ∪ Set.Ico range.startLineNumber range.endLineNumberExclusive)
  | getUnion {s other : LineRangeSet} {lines lines' : Set Int} (h : Built s lines) (h' : Built other lines') :
      Built (s.getUnion other) (lines ∪ lines')
  | getIntersection {s other : LineRangeSet} {lines lines' : Set Int} (h : Built s lines) (h' : Built other lines') :
      Built (s.getIntersection other) (lines ∩ lines')
  | subtractFrom {s : LineRangeSet} {lines : Set Int} (h : Built s lines) (range : LineRange)
      (hrange : range.startLineNumber < range.endLineNumberExclusive) :
      Built (s.subtractFrom range) (Set.Ico range.startLineNumber range.endLineNumberExclusive \ lines)
  | getWithDelta {s : LineRangeSet} {lines : Set Int} (h : Built s lines) (value : Int) :
      Built (s.getWithDelta value) {n | n - value ∈ lines}

variable {lines : Set Int}

theorem Built.spec (h : Built s lines) :
    s.Normalized ∧ ∀ n, Holds s.normalizedRanges n ↔ n ∈ lines := by
  induction h with
  | empty =>
    refine ⟨⟨List.Pairwise.nil, by simp⟩, ?_⟩
    intro n
    simp [Intervals.covered_nil]
  | addRange _ range ih =>
    obtain ⟨hnorm, hholds⟩ := addRange_spec ih.1 range
    refine ⟨hnorm, ?_⟩
    intro n
    rw [hholds, ih.2]
    rfl
  | getUnion _ _ ih ih' =>
    obtain ⟨hnorm, hholds⟩ := getUnion_spec ih.1 ih'.1
    refine ⟨hnorm, ?_⟩
    intro n
    rw [hholds, ih.2, ih'.2]
    rfl
  | getIntersection _ _ ih ih' =>
    obtain ⟨hnorm, hholds⟩ := getIntersection_spec ih.1 ih'.1
    refine ⟨hnorm, ?_⟩
    intro n
    rw [hholds, ih.2, ih'.2]
    rfl
  | subtractFrom _ range hrange ih =>
    obtain ⟨hnorm, hholds⟩ := subtractFrom_spec ih.1 hrange
    refine ⟨hnorm, ?_⟩
    intro n
    rw [hholds, ih.2]
    rfl
  | getWithDelta _ value ih =>
    obtain ⟨hnorm, hholds⟩ := getWithDelta_spec ih.1 value
    refine ⟨hnorm, ?_⟩
    intro n
    rw [hholds, ih.2]
    rfl

theorem Built.normalized (h : Built s lines) : s.Normalized := h.spec.1

theorem Built.contains_iff (h : Built s lines) (n : Int) :
    s.contains n = true ↔ n ∈ lines := by
  rw [LineRangeSet.contains_iff h.normalized.apart, h.spec.2]

theorem Normalized.eq_of_holds {other : LineRangeSet} (hs : s.Normalized) (hother : other.Normalized)
    (hsame : ∀ n, Holds s.normalizedRanges n ↔ Holds other.normalizedRanges n) : s = other := by
  cases s
  cases other
  refine congrArg _ (Separated.eq_of_covered ?_ hs.apart hother.apart hs.nonempty hother.nonempty hsame)
  rintro ⟨_, _, _⟩ ⟨_, _, _⟩ rfl rfl
  rfl

/-- Sets that were built in any two ways are the same list of ranges just if they hold the same lines. -/
theorem built_eq_iff {other : LineRangeSet} {lines' : Set Int} (h : Built s lines) (h' : Built other lines') : s = other ↔ lines = lines' := by
  constructor
  · rintro rfl
    ext n
    rw [← h.spec.2, h'.spec.2]
  · rintro rfl
    refine h.normalized.eq_of_holds h'.normalized fun n => ?_
    rw [h.spec.2, h'.spec.2]

/-- Ranges added in two orders, where the last one to come in joins the others, and a union. -/
theorem built_eq_iff_orders :
    (((⟨[]⟩ : LineRangeSet).addRange ⟨1, 3, by decide⟩).addRange ⟨5, 7, by decide⟩).addRange ⟨3, 5, by decide⟩ =
        ((⟨[]⟩ : LineRangeSet).addRange ⟨4, 7, by decide⟩).getUnion ((⟨[]⟩ : LineRangeSet).addRange ⟨1, 4, by decide⟩) ↔
      ∅ ∪ Set.Ico 1 3 ∪ Set.Ico 5 7 ∪ Set.Ico 3 5 = ∅ ∪ Set.Ico 4 7 ∪ (∅ ∪ Set.Ico (1 : Int) 4) :=
  built_eq_iff (((Built.empty.addRange _).addRange _).addRange _) ((Built.empty.addRange _).getUnion (Built.empty.addRange _))

end LineRangeSet

/-! ## Joining many lists -/

def LineRange.joinMany : List (List LineRange) → List LineRange
  | [] => []
  | lineRanges :: rest =>
    (rest.foldl (fun result ranges => result.getUnion ⟨ranges⟩) (⟨lineRanges⟩ : LineRangeSet)).normalizedRanges

namespace LineRangeSet

theorem foldl_getUnion {s : LineRangeSet} {rest : List (List LineRange)} (hs : s.Normalized) (hrest : ∀ ranges ∈ rest, Normalized ⟨ranges⟩) :
    (rest.foldl (fun result ranges => result.getUnion ⟨ranges⟩) s).Normalized ∧
      ∀ n, Holds (rest.foldl (fun result ranges => result.getUnion ⟨ranges⟩) s).normalizedRanges n ↔
        Holds s.normalizedRanges n ∨ ∃ ranges ∈ rest, Holds ranges n := by
  induction rest generalizing s with
  | nil => exact ⟨hs, fun n => by simp⟩
  | cons ranges rest ih =>
    obtain ⟨hunion, hholds⟩ := getUnion_spec hs (hrest ranges mem_cons_self)
    obtain ⟨hnorm, hall⟩ := ih hunion fun x hx => hrest x (mem_cons_of_mem _ hx)
    refine ⟨hnorm, fun n => ?_⟩
    rw [foldl_cons, hall, hholds, exists_mem_cons_iff, or_assoc]

theorem joinMany_spec {lists : List (List LineRange)} (h : ∀ ranges ∈ lists, Normalized ⟨ranges⟩) :
    Normalized ⟨LineRange.joinMany lists⟩ ∧ ∀ n, Holds (LineRange.joinMany lists) n ↔ ∃ ranges ∈ lists, Holds ranges n := by
  cases lists with
  | nil => exact ⟨⟨.nil, by simp [LineRange.joinMany]⟩, fun n => by simp [LineRange.joinMany, Intervals.covered_nil]⟩
  | cons first rest =>
    obtain ⟨hnorm, hall⟩ := foldl_getUnion (h first mem_cons_self) fun x hx => h x (mem_cons_of_mem _ hx)
    exact ⟨hnorm, fun n => by rw [exists_mem_cons_iff]; exact hall n⟩

/-- Neither the order nor the grouping of the lists matters, only which lines they hold. -/
theorem joinMany_eq_iff {lists lists' : List (List LineRange)} (h : ∀ ranges ∈ lists, Normalized ⟨ranges⟩)
    (h' : ∀ ranges ∈ lists', Normalized ⟨ranges⟩) : LineRange.joinMany lists = LineRange.joinMany lists' ↔
      ∀ n, (∃ ranges ∈ lists, Holds ranges n) ↔ ∃ ranges ∈ lists', Holds ranges n := by
  obtain ⟨hnorm, hholds⟩ := joinMany_spec h
  obtain ⟨hnorm', hholds'⟩ := joinMany_spec h'
  simp only [← hholds, ← hholds']
  constructor
  · intro heq n
    rw [heq]
  · exact fun hsame => congrArg normalizedRanges (hnorm.eq_of_holds hnorm' hsame)

theorem joinMany_eq_iff_touching :
    LineRange.joinMany [[⟨3, 5, by decide⟩], [⟨1, 3, by decide⟩]] = LineRange.joinMany [[⟨1, 5, by decide⟩]] ↔
      ∀ n, (∃ ranges ∈ [[(⟨3, 5, by decide⟩ : LineRange)], [⟨1, 3, by decide⟩]], Holds ranges n) ↔
        ∃ ranges ∈ [[(⟨1, 5, by decide⟩ : LineRange)]], Holds ranges n :=
  joinMany_eq_iff (by simp; exact ⟨⟨pairwise_singleton .., by simp⟩, ⟨pairwise_singleton .., by simp⟩⟩)
    (by simp; exact ⟨pairwise_singleton .., by simp⟩)

end LineRangeSet

end TongjiCode.Ranges
