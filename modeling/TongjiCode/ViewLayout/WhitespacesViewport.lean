import TongjiCode.ViewLayout.Viewport
import TongjiCode.ViewLayout.VerticalOffsets

/-!
# The whitespaces of a viewport

The search for a whitespace finds the first one whose bottom lies below an offset (`whitespaceIndexLoop_spec`), so the
whitespaces of a viewport are those that meet it, in their order (`getWhitespaceViewportData_spec`).
-/

open List

namespace TongjiCode.ViewLayout

open LinesLayout

/-! ## Where the whitespaces are -/

/-- The top of a zone, whose index in the order of the zones is given. -/
def zoneTop (p : Picture) (zones : List Zone) (index : Nat) (zone : Zone) : Int :=
  p.paddingTop + p.lineHeight * max 0 zone.afterLineNumber + totalHeight (zones.take index)

def zoneBottom (p : Picture) (zones : List Zone) (index : Nat) (zone : Zone) : Int :=
  zoneTop p zones index zone + zone.height

def placed (p : Picture) (zones : List Zone) : List ViewWhitespaceViewportData :=
  zones.mapIdx fun index zone =>
    { id := zone.id, afterLineNumber := zone.afterLineNumber, verticalOffset := zoneTop p zones index zone,
      height := zone.height }

theorem of_placed {p : Picture} {zones : List Zone} {index : Nat} {whitespace : ViewWhitespaceViewportData}
    (h : (placed p zones)[index]? = some whitespace) :
    ∃ zone, zones[index]? = some zone ∧ whitespace.verticalOffset = zoneTop p zones index zone ∧
      whitespace.verticalOffset + whitespace.height = zoneBottom p zones index zone := by
  unfold placed at h
  rw [getElem?_mapIdx] at h
  obtain ⟨zone, hzone, rfl⟩ := Option.map_eq_some_iff.mp h
  exact ⟨zone, hzone, rfl, rfl⟩

theorem zoneBottom_le_top {p : Picture} (hupright : p.Upright) {zones : List Zone}
    (hheights : ∀ zone ∈ zones, 0 ≤ zone.height)
    (hsorted : zones.Pairwise fun a b => a.afterLineNumber ≤ b.afterLineNumber) {i j : Nat} {a b : Zone} (hij : i < j)
    (ha : zones[i]? = some a) (hb : zones[j]? = some b) : zoneBottom p zones i a ≤ zoneTop p zones j b := by
  obtain ⟨hi, rfl⟩ := List.getElem?_eq_some_iff.mp ha
  obtain ⟨hj, rfl⟩ := List.getElem?_eq_some_iff.mp hb
  have hafter : zones[i].afterLineNumber ≤ zones[j].afterLineNumber :=
    pairwise_iff_getElem.mp hsorted i j hi hj hij
  have hlines := Int.mul_le_mul_of_nonneg_left (by omega : max 0 zones[i].afterLineNumber ≤ max 0 zones[j].afterLineNumber)
    (Int.le_of_lt hupright.lineHeight)
  have hsum : totalHeight (zones.take j) =
      totalHeight (zones.take i) + zones[i].height + totalHeight ((zones.take j).drop (i + 1)) := by
    have hsplit : zones.take j = zones.take i ++ zones[i] :: (zones.take j).drop (i + 1) := by
      have hlength : i < (zones.take j).length := by
        rw [length_take]
        omega
      have hget : (zones.take j)[i] = zones[i] := getElem_take
      have htake : (zones.take j).take i = zones.take i := by
        rw [take_take]
        congr 1
        omega
      rw [← hget, ← drop_eq_getElem_cons, ← htake, take_append_drop]
    calc totalHeight (zones.take j) = totalHeight (zones.take i ++ zones[i] :: (zones.take j).drop (i + 1)) :=
          congrArg totalHeight hsplit
      _ = _ := by rw [totalHeight_append, totalHeight_cons, Int.add_assoc]
  have hrest : 0 ≤ totalHeight ((zones.take j).drop (i + 1)) := by
    apply totalHeight_nonneg
    intro zone hzone
    exact hheights zone (mem_of_mem_take (mem_of_mem_drop hzone))
  unfold zoneBottom zoneTop
  omega

/-! ## The queries -/

theorem sumLoop_zones (count : Nat) : ∀ (arr : List EditorWhitespace) (i : Nat),
    zonesOf (sumLoop arr i count) = zonesOf arr := by
  induction count with
  | zero => exact fun arr i => rfl
  | succ count ih =>
    intro arr i
    unfold sumLoop
    rw [ih, zonesOf_modify fun whitespace => prefixSumAt arr (i - 1) + whitespace.height]

section WhitespacesViewport

variable {s : LinesLayout} {p : Picture} {zones : List Zone}

/-- The layout shows a picture and has its whitespaces in an order; nothing is pending. -/
structure Ordered (s : LinesLayout) (p : Picture) (zones : List Zone) : Prop where
  shows : Shows s p
  committed : s.pendingChanges = {}
  zones : zonesOf s.arr = zones

theorem Ordered.of_shows (h : Shows s p) : Ordered s.commit p.commit (zonesOf s.commit.arr) :=
  ⟨h.commit.1, h.commit.2, rfl⟩

theorem Ordered.commit (h : Ordered s p zones) : s.commit = s := by
  unfold LinesLayout.commit
  rw [h.committed]
  rfl

theorem Ordered.get (h : Ordered s p zones) (index : Nat) : zones[index]? = s.arr[index]?.map EditorWhitespace.zone := by
  rw [← h.zones]
  unfold zonesOf
  rw [getElem?_map]

theorem Ordered.accessors (h : Ordered s p zones) {index : Nat} {zone : Zone} (hzone : zones[index]? = some zone) :
    s.getIdForWhitespaceIndex index = zone.id ∧ s.getAfterLineNumberForWhitespaceIndex index = zone.afterLineNumber ∧
      s.getHeightForWhitespaceIndex index = zone.height := by
  rw [h.get] at hzone
  obtain ⟨whitespace, hget, rfl⟩ := Option.map_eq_some_iff.mp hzone
  unfold getIdForWhitespaceIndex getAfterLineNumberForWhitespaceIndex getHeightForWhitespaceIndex
  rw [hget]
  exact ⟨rfl, rfl, rfl⟩

theorem getWhitespacesAccumulatedHeight_ordered (h : Ordered s p.commit zones) {index : Nat}
    (hindex : index < zones.length) :
    (s.getWhitespacesAccumulatedHeight index).1 = totalHeight (zones.take (index + 1)) ∧
      Ordered (s.getWhitespacesAccumulatedHeight index).2 p.commit zones := by
  have hlt : index < s.commit.arr.length := by
    rw [h.commit, ← zonesOf_length, h.zones]
    exact hindex
  obtain ⟨hsum, hshows⟩ := getWhitespacesAccumulatedHeight_spec h.shows hlt
  rw [h.commit, h.zones] at hsum
  rw [Picture.commit_commit] at hshows
  refine ⟨hsum, hshows, ?_, ?_⟩
  · unfold getWhitespacesAccumulatedHeight
    rw [checkPendingChanges_eq, h.commit]
    exact h.committed
  · unfold getWhitespacesAccumulatedHeight
    rw [checkPendingChanges_eq, h.commit, ← h.zones]
    dsimp only
    split
    · rw [sumLoop_zones, zonesOf_modify fun whitespace => whitespace.height]
    · exact sumLoop_zones _ _ _

theorem getVerticalOffsetForWhitespaceIndex_spec (h : Ordered s p.commit zones) {index : Nat} {zone : Zone}
    (hzone : zones[index]? = some zone) :
    (s.getVerticalOffsetForWhitespaceIndex index).1 = zoneTop p.commit zones index zone ∧
      Ordered (s.getVerticalOffsetForWhitespaceIndex index).2 p.commit zones := by
  obtain ⟨hlt, -⟩ := List.getElem?_eq_some_iff.mp hzone
  have hafter := (h.accessors hzone).2.1
  have hlines : (if zone.afterLineNumber ≥ 1 then s.lineHeight * zone.afterLineNumber else 0) =
      p.commit.lineHeight * max 0 zone.afterLineNumber := by
    rw [h.shows.lineHeight]
    split
    · congr 1
      omega
    · have hzero : max 0 zone.afterLineNumber = 0 := by omega
      rw [hzero, Int.mul_zero]
  unfold getVerticalOffsetForWhitespaceIndex
  rw [checkPendingChanges_eq, h.commit]
  dsimp only
  rw [hafter, hlines]
  cases index with
  | zero =>
    refine ⟨?_, h⟩
    show _ + 0 + s.paddingTop = _
    unfold zoneTop
    rw [h.shows.paddingTop, take_zero]
    show _ = _ + 0
    omega
  | succ index =>
    obtain ⟨hsum, hordered⟩ := getWhitespacesAccumulatedHeight_ordered h (by omega : index < zones.length)
    refine ⟨?_, hordered⟩
    show _ + (s.getWhitespacesAccumulatedHeight index).1 + (s.getWhitespacesAccumulatedHeight index).2.paddingTop = _
    rw [hsum, hordered.shows.paddingTop]
    unfold zoneTop
    omega

/-- The first whitespace whose bottom lies below an offset. -/
def IsWhitespaceAt (p : Picture) (zones : List Zone) (verticalOffset : Int) (index : Nat) : Prop :=
  (∀ j zone, j < index → zones[j]? = some zone → zoneBottom p zones j zone ≤ verticalOffset) ∧
    ∀ j zone, index ≤ j → zones[j]? = some zone → verticalOffset < zoneBottom p zones j zone

/-- The zones are in the order of their places, and none has a negative height. -/
structure InOrder (p : Picture) (zones : List Zone) : Prop where
  upright : p.Upright
  heights : ∀ zone ∈ zones, 0 ≤ zone.height
  sorted : zones.Pairwise fun a b => a.afterLineNumber ≤ b.afterLineNumber

theorem InOrder.bottom_mono (h : InOrder p zones) {i j : Nat} {a b : Zone} (hij : i ≤ j) (ha : zones[i]? = some a)
    (hb : zones[j]? = some b) : zoneBottom p zones i a ≤ zoneBottom p zones j b := by
  rcases Nat.lt_or_eq_of_le hij with hlt | rfl
  · have hle := zoneBottom_le_top h.upright h.heights h.sorted hlt ha hb
    have hheight := h.heights b (mem_of_getElem? hb)
    unfold zoneBottom at *
    omega
  · rw [ha] at hb
    cases hb
    exact Int.le_refl _

/-- The search keeps the first whitespace below the offset in its range. -/
theorem whitespaceIndexLoop_spec {verticalOffset : Int} (horder : InOrder p.commit zones) (fuel : Nat) :
    ∀ (s : LinesLayout) (low high : Nat), Ordered s p.commit zones → low ≤ high → high - low ≤ fuel →
      (∀ j zone, j < low → zones[j]? = some zone → zoneBottom p.commit zones j zone ≤ verticalOffset) →
      (∃ zone, zones[high]? = some zone ∧ verticalOffset < zoneBottom p.commit zones high zone) →
      IsWhitespaceAt p.commit zones verticalOffset (whitespaceIndexLoop s verticalOffset low high fuel).1 ∧
        (whitespaceIndexLoop s verticalOffset low high fuel).1 < zones.length ∧
        Ordered (whitespaceIndexLoop s verticalOffset low high fuel).2 p.commit zones := by
  have hfound : ∀ low zone, zones[low]? = some zone → verticalOffset < zoneBottom p.commit zones low zone →
      ∀ j zone', low ≤ j → zones[j]? = some zone' → verticalOffset < zoneBottom p.commit zones j zone' := by
    intro low zone hzone hlt j zone' hle hzone'
    exact Int.lt_of_lt_of_le hlt (horder.bottom_mono hle hzone hzone')
  induction fuel with
  | zero =>
    intro s low high h hle hfuel hbelow habove
    obtain ⟨zone, hzone, hlt⟩ := habove
    have heq : high = low := by omega
    subst heq
    obtain ⟨hlen, -⟩ := List.getElem?_eq_some_iff.mp hzone
    exact ⟨⟨hbelow, hfound high zone hzone hlt⟩, hlen, h⟩
  | succ fuel ih =>
    intro s low high h hle hfuel hbelow habove
    obtain ⟨zone, hzone, hlt⟩ := habove
    obtain ⟨hlen, -⟩ := List.getElem?_eq_some_iff.mp hzone
    unfold whitespaceIndexLoop
    by_cases hmore : low < high
    · rw [if_pos hmore]
      obtain ⟨mid, hmid⟩ : ∃ mid, (low + high) / 2 = mid := ⟨_, rfl⟩
      obtain ⟨at', hat⟩ : ∃ at', zones[mid]? = some at' := ⟨_, getElem?_eq_getElem (by omega)⟩
      obtain ⟨htop, hordered⟩ := getVerticalOffsetForWhitespaceIndex_spec h hat
      have hheight := (hordered.accessors hat).2.2
      dsimp only
      rw [hmid, htop, hheight]
      by_cases hafter : verticalOffset ≥ zoneTop p.commit zones mid at' + at'.height
      · rw [if_pos hafter]
        refine ih _ _ _ hordered (by omega) (by omega) (fun j zone' hj hzone' => ?_) ⟨zone, hzone, hlt⟩
        exact Int.le_trans (horder.bottom_mono (by omega) hzone' hat) hafter
      · rw [if_neg hafter]
        have hbottom : verticalOffset < zoneBottom p.commit zones mid at' := by
          unfold zoneBottom
          omega
        by_cases hhit : verticalOffset ≥ zoneTop p.commit zones mid at'
        · rw [if_pos hhit]
          refine ⟨⟨fun j zone' hj hzone' => ?_, hfound mid at' hat hbottom⟩, by show mid < _; omega, hordered⟩
          exact Int.le_trans (zoneBottom_le_top horder.upright horder.heights horder.sorted hj hzone' hat) hhit
        · rw [if_neg hhit]
          exact ih _ _ _ hordered (by omega) (by omega) hbelow ⟨at', hat, hbottom⟩
    · rw [if_neg hmore]
      have heq : high = low := by omega
      subst heq
      exact ⟨⟨hbelow, hfound high zone hzone hlt⟩, hlen, h⟩

section

variable (h : Ordered s p.commit zones) (horder : InOrder p.commit zones)
include h horder

/-- The search answers the first whitespace below the offset, and nothing when there is none. -/
theorem getWhitespaceIndexAtOrAfterVerticallOffset_spec (verticalOffset : Int) :
    (∃ index, index ≤ zones.length ∧ IsWhitespaceAt p.commit zones (toInt32 verticalOffset) index ∧
        (s.getWhitespaceIndexAtOrAfterVerticallOffset verticalOffset).1 =
          if index < zones.length then some index else none) ∧
      Ordered (s.getWhitespaceIndexAtOrAfterVerticallOffset verticalOffset).2 p.commit zones := by
  have hlength : s.arr.length = zones.length := by rw [← h.zones, zonesOf_length]
  unfold getWhitespaceIndexAtOrAfterVerticallOffset
  rw [checkPendingChanges_eq, h.commit]
  dsimp only
  generalize toInt32 verticalOffset = verticalOffset
  rw [hlength]
  -- when no bottom lies below the offset, the search answers nothing
  have hnone : (∀ j zone, j < zones.length → zones[j]? = some zone → zoneBottom p.commit zones j zone ≤ verticalOffset) →
      ∃ index, index ≤ zones.length ∧ IsWhitespaceAt p.commit zones verticalOffset index ∧
        (none : Option Nat) = if index < zones.length then some index else none := by
    intro hall
    refine ⟨zones.length, Nat.le_refl _, ⟨hall, fun j zone hj hzone => ?_⟩, by rw [if_neg (Nat.lt_irrefl _)]⟩
    obtain ⟨hlt, -⟩ := List.getElem?_eq_some_iff.mp hzone
    omega
  by_cases hempty : zones.length = 0
  · rw [if_pos hempty]
    exact ⟨hnone fun j zone hj => by omega, h⟩
  · rw [if_neg hempty]
    obtain ⟨last, hlast⟩ : ∃ last, zones[zones.length - 1]? = some last := ⟨_, getElem?_eq_getElem (by omega)⟩
    obtain ⟨htop, hordered⟩ := getVerticalOffsetForWhitespaceIndex_spec h hlast
    rw [htop, (hordered.accessors hlast).2.2]
    by_cases hpast : verticalOffset ≥ zoneTop p.commit zones (zones.length - 1) last + last.height
    · rw [if_pos hpast]
      refine ⟨hnone fun j zone hj hzone => ?_, hordered⟩
      exact Int.le_trans (horder.bottom_mono (by omega) hzone hlast) hpast
    · rw [if_neg hpast]
      have hbottom : verticalOffset < zoneBottom p.commit zones (zones.length - 1) last := by
        unfold zoneBottom
        omega
      obtain ⟨hat, hlt, hordered'⟩ := whitespaceIndexLoop_spec horder _ _ 0 (zones.length - 1) hordered (Nat.zero_le _)
        (Nat.le_refl _) (fun j zone hj => by omega) ⟨last, hlast, hbottom⟩
      refine ⟨⟨_, Nat.le_of_lt hlt, hat, ?_⟩, hordered'⟩
      exact (if_pos hlt).symm

omit h horder in
/-- The loop over the whitespaces collects those whose top lies above the end of the viewport. -/
theorem whitespacesLoop_spec (verticalOffset2 : Int) (horder : InOrder p.commit zones) (fuel : Nat) :
    ∀ (s : LinesLayout) (i : Nat), Ordered s p.commit zones → i + fuel = zones.length →
      (whitespacesLoop s verticalOffset2 i fuel).1 =
          ((placed p.commit zones).drop i).filter (fun whitespace => whitespace.verticalOffset < verticalOffset2) ∧
        Ordered (whitespacesLoop s verticalOffset2 i fuel).2 p.commit zones := by
  have hlen : (placed p.commit zones).length = zones.length := length_mapIdx
  induction fuel with
  | zero =>
    intro s i h hfuel
    refine ⟨?_, h⟩
    rw [drop_of_length_le (by omega)]
    rfl
  | succ fuel ih =>
    intro s i h hfuel
    obtain ⟨zone, hzone⟩ : ∃ zone, zones[i]? = some zone := ⟨_, getElem?_eq_getElem (by omega)⟩
    obtain ⟨htop, hordered⟩ := getVerticalOffsetForWhitespaceIndex_spec h hzone
    obtain ⟨hid, hafter, hheight⟩ := hordered.accessors hzone
    obtain ⟨hlt, hget⟩ := List.getElem?_eq_some_iff.mp hzone
    unfold whitespacesLoop
    dsimp only
    rw [htop]
    by_cases hpast : zoneTop p.commit zones i zone ≥ verticalOffset2
    · rw [if_pos hpast]
      refine ⟨?_, hordered⟩
      symm
      rw [filter_eq_nil_iff]
      intro whitespace hmem
      obtain ⟨j, hj⟩ := mem_iff_getElem?.mp hmem
      rw [getElem?_drop] at hj
      obtain ⟨zone', hzone', htop', -⟩ := of_placed hj
      rw [decide_eq_true_iff, htop']
      have hmono : zoneTop p.commit zones i zone ≤ zoneTop p.commit zones (i + j) zone' := by
        rcases Nat.eq_zero_or_pos j with rfl | hj
        · rw [Nat.add_zero, hzone] at hzone'
          cases hzone'
          exact Int.le_refl _
        · have hle := zoneBottom_le_top horder.upright horder.heights horder.sorted (by omega : i < i + j) hzone hzone'
          have hpos := horder.heights zone (mem_of_getElem? hzone)
          unfold zoneBottom at hle
          omega
      omega
    · rw [if_neg hpast]
      obtain ⟨hrest, hordered'⟩ := ih _ (i + 1) hordered (by omega)
      refine ⟨?_, hordered'⟩
      have hlength : i < (placed p.commit zones).length := by omega
      rw [hrest, drop_eq_getElem_cons hlength]
      have hplaced : (placed p.commit zones)[i] =
          { id := zone.id, afterLineNumber := zone.afterLineNumber, verticalOffset := zoneTop p.commit zones i zone,
            height := zone.height } := by
        simp only [placed, getElem_mapIdx, hget]
      rw [hplaced, filter_cons_of_pos (by rw [decide_eq_true_iff]; exact Int.lt_of_not_ge hpast), hid, hafter, hheight]

theorem getWhitespaceViewportData_spec {verticalOffset1 verticalOffset2 : Int} (hint1 : IsInt32 verticalOffset1)
    (hint2 : IsInt32 verticalOffset2) :
    (s.getWhitespaceViewportData verticalOffset1 verticalOffset2).1 =
      (placed p.commit zones).filter fun whitespace =>
        whitespace.verticalOffset + whitespace.height > verticalOffset1 ∧ whitespace.verticalOffset < verticalOffset2 := by
  obtain ⟨⟨index, hindex, ⟨hbelow, habove⟩, hsearch⟩, hordered⟩ :=
    getWhitespaceIndexAtOrAfterVerticallOffset_spec h horder verticalOffset1
  rw [toInt32_eq hint1] at hbelow habove
  have hlen : (placed p.commit zones).length = zones.length := length_mapIdx
  -- what is before the index ends above the viewport, what is from it on ends below its beginning
  have hsplit : ((placed p.commit zones).filter fun whitespace =>
      whitespace.verticalOffset + whitespace.height > verticalOffset1 ∧ whitespace.verticalOffset < verticalOffset2) =
      ((placed p.commit zones).drop index).filter fun whitespace => whitespace.verticalOffset < verticalOffset2 := by
    conv =>
      lhs
      rw [← take_append_drop index (placed p.commit zones)]
    rw [filter_append, filter_eq_nil_iff.mpr, nil_append]
    · apply filter_congr
      intro whitespace hmem
      obtain ⟨j, hj⟩ := mem_iff_getElem?.mp hmem
      rw [getElem?_drop] at hj
      obtain ⟨zone, hzone, -, hbottom⟩ := of_placed hj
      have hlt := habove (index + j) zone (by omega) hzone
      rw [hbottom, decide_eq_decide]
      omega
    · intro whitespace hmem
      obtain ⟨j, hj⟩ := mem_iff_getElem?.mp hmem
      rw [getElem?_take] at hj
      split at hj
      · next hlt =>
        obtain ⟨zone, hzone, -, hbottom⟩ := of_placed hj
        have hle := hbelow j zone hlt hzone
        rw [decide_eq_true_iff, hbottom]
        omega
      · cases hj
  rw [hsplit]
  unfold getWhitespaceViewportData
  rw [checkPendingChanges_eq, h.commit, toInt32_eq hint1, toInt32_eq hint2]
  dsimp only
  rw [hsearch]
  by_cases hlt : index < zones.length
  · rw [if_pos hlt]
    have hlength : (s.getWhitespaceIndexAtOrAfterVerticallOffset verticalOffset1).2.arr.length = zones.length := by
      rw [← hordered.zones, zonesOf_length]
    exact (whitespacesLoop_spec verticalOffset2 horder _ _ index hordered (by omega)).1
  · rw [if_neg hlt, drop_of_length_le (by omega)]
    rfl

theorem getWhitespaceViewportData_ordered (verticalOffset1 verticalOffset2 : Int) :
    Ordered (s.getWhitespaceViewportData verticalOffset1 verticalOffset2).2 p.commit zones := by
  obtain ⟨⟨index, hindex, -, hsearch⟩, hordered⟩ :=
    getWhitespaceIndexAtOrAfterVerticallOffset_spec h horder (toInt32 verticalOffset1)
  unfold getWhitespaceViewportData
  rw [checkPendingChanges_eq, h.commit]
  dsimp only
  rw [hsearch]
  by_cases hlt : index < zones.length
  · rw [if_pos hlt]
    have hlength : (s.getWhitespaceIndexAtOrAfterVerticallOffset (toInt32 verticalOffset1)).2.arr.length = zones.length := by
      rw [← hordered.zones, zonesOf_length]
    exact (whitespacesLoop_spec (toInt32 verticalOffset2) horder _ _ index hordered (by omega)).2
  · rw [if_neg hlt]
    exact hordered

end

end WhitespacesViewport

end TongjiCode.ViewLayout
