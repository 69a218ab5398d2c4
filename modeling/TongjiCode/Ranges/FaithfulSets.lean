import TongjiCode.Ranges.LineRangeSet
import TongjiCode.Ranges.OffsetRange

/-!
# Range sets as sets of integers

`FaithfulSets` says that line range sets and offset range sets behave as the sets of integers they stand for, and that a clipped
value lies in its range.  `faithfulSets_iff` says on which inputs that is so: of a `LineRangeSet` always, of `intersectsStrict`
and `clipCyclic` up to two kinds of inputs.
-/

namespace TongjiCode.Ranges

open OffsetRangeSet (StrictCondition commonOffsets stores)

/-- A line range set `s` that stands for `lines`, the offset range set to which `added` were added, a range `other` to compare it
with, and a value to clip into `range`, all behave as the sets of integers they stand for. -/
structure FaithfulSets (s : LineRangeSet) (lines : Set Int) (added : List OffsetRange) (other range : OffsetRange) (value : Int) :
    Prop where
  normalized : s.Normalized
  contains : ∀ n, s.contains n = true ↔ n ∈ lines
  sorted : OffsetRangeSet.Apart (OffsetRangeSet.empty.addRanges added).sortedRanges
  intersectsStrict : (OffsetRangeSet.empty.addRanges added).intersectsStrict other = true ↔
    ∃ n, other.contains n = true ∧ OffsetRangeSet.Holds added n
  intersectWithRangeLength : (OffsetRangeSet.empty.addRanges added).intersectWithRangeLength other = (commonOffsets added other).card
  clipCyclic : ∃ clipped, range.clipCyclic value = some clipped ∧ range.contains clipped = true ∧ range.length ∣ clipped - value

theorem faithfulSets_iff (s : LineRangeSet) (lines : Set Int) (hs : LineRangeSet.Built s lines) (added : List OffsetRange)
    (other range : OffsetRange) (hrange : range.start < range.endExclusive) (value : Int) :
    FaithfulSets s lines added other range value ↔
      StrictCondition added other ∧ (range.start ≤ value ∨ ¬ range.length ∣ range.start - value) := by
  have hstores := stores added
  rw [← hstores.intersectsStrict_ok_iff other, ← OffsetRange.clipCyclic_ok_iff hrange value]
  constructor
  · intro h
    exact ⟨h.intersectsStrict, h.clipCyclic⟩
  · rintro ⟨hstrict, hclip⟩
    exact ⟨hs.normalized, hs.contains_iff, hstores.apart, hstrict, hstores.intersectWithRangeLength_eq other, hclip⟩

/-- Lines 3 to 7 with lines 5 and 6 taken out, two touching offset ranges met by a third, and a value before the range that is not a
multiple of its length away. -/
theorem faithfulSets_lines :
    FaithfulSets ((LineRangeSet.addRange ⟨[]⟩ ⟨5, 7, by decide⟩).subtractFrom ⟨3, 8, by decide⟩)
        (Set.Ico 3 8 \ (∅ ∪ Set.Ico 5 7)) [⟨5, 10, by decide⟩, ⟨1, 5, by decide⟩] ⟨4, 6, by decide⟩ ⟨5, 10, by decide⟩ 4 ↔
      StrictCondition [⟨5, 10, by decide⟩, ⟨1, 5, by decide⟩] ⟨4, 6, by decide⟩ ∧ ((5 : Int) ≤ 4 ∨ ¬ (5 : Int) ∣ 5 - 4) :=
  faithfulSets_iff _ _ ((LineRangeSet.Built.empty.addRange ⟨5, 7, by decide⟩).subtractFrom ⟨3, 8, by decide⟩ (by decide))
    _ _ ⟨5, 10, by decide⟩ (by decide) 4

/-- Five before the start of a range of length five is clipped to the end of the range, and an empty range that was added counts as
an offset in common. -/
theorem not_faithfulSets :
    (OffsetRange.mk 5 10 (by decide)).clipCyclic 0 = some 10 ∧ (OffsetRange.mk 5 10 (by decide)).contains 10 = false ∧
      (OffsetRangeSet.empty.addRanges [⟨5, 5, by decide⟩]).intersectsStrict ⟨3, 7, by decide⟩ = true ∧
      (commonOffsets [⟨5, 5, by decide⟩] ⟨3, 7, by decide⟩).card = 0 := by
  decide

end TongjiCode.Ranges
