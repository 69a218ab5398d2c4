import TongjiCode.ViewLayout.Shows

/-!
# Vertical offsets

What the queries of a layout answer is what its picture says: the offset of a line is the sum of what is above it
(`getVerticalOffsetForLineNumber_spec`), and the search for the line at an offset inverts it
(`getLineNumberAtOrAfterVerticalOffset_spec`).
-/

open List

namespace TongjiCode.ViewLayout

open LinesLayout

section Queries

variable {s : LinesLayout} {p : Picture}

theorem sorted_iff (arr : List EditorWhitespace) :
    Sorted arr ↔ (zonesOf arr).Pairwise fun a b => a.afterLineNumber ≤ b.afterLineNumber := by
  unfold zonesOf
  rw [pairwise_map]
  rfl

section

variable (h : Shows s p)
include h

/-- A layout whose cached sums change still shows its picture. -/
theorem Shows.resum {arr : List EditorWhitespace} {validIndex : Int} (hzones : zonesOf arr = zonesOf s.arr)
    (hsums : SumsOk arr validIndex) : Shows { s with arr, prefixSumValidIndex := validIndex } p := by
  refine ⟨?_, hsums, ?_, ?_, ?_, h.inserts, h.changes, h.removes, h.pending, h.lastId, h.lineCount, h.lineHeight,
    h.paddingTop, h.paddingBottom⟩
  · dsimp only
    rw [sorted_iff, hzones, ← sorted_iff]
    exact h.sorted
  · dsimp only
    rw [hzones]
    exact h.nodup
  · dsimp only
    rw [hzones]
    exact h.known
  · dsimp only
    rw [hzones]
    exact h.zones

/-- The sum up to an index is the one of the heights, and only cached sums change. -/
theorem getWhitespacesAccumulatedHeight_spec {index : Nat} (hindex : index < s.commit.arr.length) :
    (s.getWhitespacesAccumulatedHeight index).1 = totalHeight ((zonesOf s.commit.arr).take (index + 1)) ∧
      Shows (s.getWhitespacesAccumulatedHeight index).2 p.commit := by
  obtain ⟨hcommit, -⟩ := h.commit
  unfold getWhitespacesAccumulatedHeight
  rw [checkPendingChanges_eq]
  generalize s.commit = s at *
  dsimp only
  have hloop : ∀ arr, zonesOf arr = zonesOf s.arr → SumsOk arr (max s.prefixSumValidIndex index) →
      prefixSumAt arr index = totalHeight ((zonesOf s.arr).take (index + 1)) ∧
        Shows { s with arr, prefixSumValidIndex := max s.prefixSumValidIndex index } p.commit := by
    intro arr hzones hsums
    refine ⟨?_, hcommit.resum hzones hsums⟩
    rw [← hzones]
    apply hsums index (by omega)
    rw [← zonesOf_length, hzones, zonesOf_length]
    exact hindex
  by_cases hstart : (max 0 (s.prefixSumValidIndex + 1)).toNat = 0
  · rw [if_pos hstart]
    have hget : s.arr[0]? = some s.arr[0] := getElem?_eq_getElem (by omega)
    have hfirst : SumsOk (s.arr.modify 0 fun a => { a with prefixSum := a.height }) 0 := by
      intro i hi hlt
      have hzero : i = 0 := by omega
      subst hzero
      rw [prefixSumAt_modify_self (fun a => a.height) hget, zonesOf_modify fun a => a.height,
        totalHeight_take_succ hget]
      show _ = 0 + _
      omega
    obtain ⟨hsums, hzones⟩ := sumLoop_spec index _ 1 (by omega) hfirst (by rw [length_modify]; omega)
    rw [zonesOf_modify fun a => a.height] at hzones
    exact hloop _ hzones (hsums.mono (by omega))
  · rw [if_neg hstart]
    by_cases hvalid : (index : Int) ≤ s.prefixSumValidIndex
    · have hcount : index + 1 - (max 0 (s.prefixSumValidIndex + 1)).toNat = 0 := by omega
      rw [hcount]
      exact hloop _ rfl (hcommit.sums.mono (by omega))
    · obtain ⟨hsums, hzones⟩ := sumLoop_spec (index + 1 - (max 0 (s.prefixSumValidIndex + 1)).toNat) s.arr
        (max 0 (s.prefixSumValidIndex + 1)).toNat (by omega) (hcommit.sums.mono (by omega)) (by omega)
      exact hloop _ hzones (hsums.mono (by omega))

theorem getWhitespacesTotalHeight_spec :
    s.getWhitespacesTotalHeight.1 = totalHeight p.commit.zones ∧ Shows s.getWhitespacesTotalHeight.2 p.commit := by
  have hcommit := h.commit.1
  unfold getWhitespacesTotalHeight
  rw [checkPendingChanges_eq]
  by_cases hempty : s.commit.arr.length = 0
  · rw [if_pos hempty]
    refine ⟨?_, hcommit⟩
    rw [← totalHeight_perm hcommit.zones, length_eq_zero_iff.mp hempty]
    rfl
  · rw [if_neg hempty]
    have hlast : s.commit.arr.length - 1 < s.commit.commit.arr.length := by
      rw [h.commit_commit]
      omega
    obtain ⟨hsum, hshows⟩ := getWhitespacesAccumulatedHeight_spec hcommit hlast
    rw [Picture.commit_commit] at hshows
    refine ⟨?_, hshows⟩
    rw [hsum, h.commit_commit, take_of_length_le (by rw [zonesOf_length]; omega), totalHeight_perm hcommit.zones]

theorem getLinesTotalHeight_spec :
    s.getLinesTotalHeight.1 = p.commit.height ∧ Shows s.getLinesTotalHeight.2 p.commit := by
  have hcommit := h.commit.1
  obtain ⟨hsum, hshows⟩ := getWhitespacesTotalHeight_spec hcommit
  rw [Picture.commit_commit] at hsum hshows
  unfold getLinesTotalHeight
  rw [checkPendingChanges_eq]
  dsimp only
  refine ⟨?_, hshows⟩
  unfold Picture.height
  rw [hsum, hcommit.lineHeight, hcommit.lineCount, hshows.paddingTop, hshows.paddingBottom]

variable (lineNumber : Int)

theorem getWhitespaceAccumulatedHeightBeforeLineNumber_spec :
    (s.getWhitespaceAccumulatedHeightBeforeLineNumber lineNumber).1 =
        heightAbove p.commit.zones (toInt32 (toInt32 lineNumber)) ∧
      Shows (s.getWhitespaceAccumulatedHeightBeforeLineNumber lineNumber).2 p.commit := by
  have hcommit := h.commit.1
  have hlast := findLast_spec hcommit.sorted (toInt32 (toInt32 lineNumber))
  have habove := heightAbove_eq hlast
  rw [heightAbove_perm hcommit.zones] at habove
  unfold getWhitespaceAccumulatedHeightBeforeLineNumber findLastWhitespaceBeforeLineNumber
  rw [checkPendingChanges_eq]
  dsimp only
  rw [habove]
  cases hfind : findLastLoop s.commit.arr (toInt32 (toInt32 lineNumber)) 0 s.commit.arr.length with
  | none => exact ⟨rfl, hcommit⟩
  | some index =>
    rw [hfind] at hlast
    obtain ⟨hlt, -, -⟩ := hlast
    have hlt' : index < s.commit.commit.arr.length := by
      rw [h.commit_commit]
      exact hlt
    obtain ⟨hsum, hshows⟩ := getWhitespacesAccumulatedHeight_spec hcommit hlt'
    rw [Picture.commit_commit] at hshows
    rw [h.commit_commit] at hsum
    exact ⟨hsum, hshows⟩

variable (includeViewZones : Bool)

theorem getVerticalOffsetForLineNumber_shows :
    Shows (s.getVerticalOffsetForLineNumber lineNumber includeViewZones).2 p.commit := by
  have hcommit := h.commit.1
  unfold getVerticalOffsetForLineNumber
  rw [checkPendingChanges_eq]
  have hshows := (getWhitespaceAccumulatedHeightBeforeLineNumber_spec hcommit
    (toInt32 lineNumber - (if includeViewZones then 1 else 0))).2
  rw [Picture.commit_commit] at hshows
  exact hshows

theorem getVerticalOffsetAfterLineNumber_shows :
    Shows (s.getVerticalOffsetAfterLineNumber lineNumber includeViewZones).2 p.commit := by
  have hcommit := h.commit.1
  unfold getVerticalOffsetAfterLineNumber
  rw [checkPendingChanges_eq]
  have hshows := (getWhitespaceAccumulatedHeightBeforeLineNumber_spec hcommit
    (toInt32 lineNumber + (if includeViewZones then 1 else 0))).2
  rw [Picture.commit_commit] at hshows
  exact hshows

theorem getVerticalOffsetForLineNumber_spec {lineNumber : Int} (hone : 1 ≤ lineNumber) (hint : IsInt32 lineNumber) :
    (s.getVerticalOffsetForLineNumber lineNumber).1 = p.commit.top lineNumber := by
  have hcommit := h.commit.1
  obtain ⟨hsum, hshows⟩ := getWhitespaceAccumulatedHeightBeforeLineNumber_spec hcommit lineNumber
  rw [Picture.commit_commit] at hsum hshows
  rw [toInt32_eq hint, toInt32_eq hint] at hsum
  unfold getVerticalOffsetForLineNumber
  rw [checkPendingChanges_eq]
  dsimp only
  have hzero : toInt32 lineNumber - (if false then 1 else 0) = lineNumber := by
    rw [toInt32_eq hint]
    simp
  rw [hzero, toInt32_eq hint, hsum, hshows.paddingTop, hcommit.lineHeight]
  have hlines : (if lineNumber > 1 then p.commit.lineHeight * (lineNumber - 1) else 0) =
      (lineNumber - 1) * p.commit.lineHeight := by
    split
    · exact Int.mul_comm _ _
    · have hfirst : lineNumber - 1 = 0 := by omega
      rw [hfirst, Int.zero_mul]
  unfold Picture.top
  omega

end

theorem lineNumberLoop_shows (verticalOffset lineHeight : Int) (fuel : Nat) :
    ∀ (s : LinesLayout) (minLineNumber maxLineNumber : Int), Shows s p → p.commit = p →
      Shows (lineNumberLoop s verticalOffset lineHeight minLineNumber maxLineNumber fuel).2 p := by
  induction fuel with
  | zero => exact fun s _ _ h _ => h
  | succ fuel ih =>
    intro s minLineNumber maxLineNumber h hcommitted
    unfold lineNumberLoop
    have hshows := getVerticalOffsetForLineNumber_shows h (toInt32 ((minLineNumber + maxLineNumber).tdiv 2)) false
    rw [hcommitted] at hshows
    dsimp only
    split_ifs
    · exact ih _ _ _ hshows hcommitted
    · exact hshows
    · exact ih _ _ _ hshows hcommitted
    · exact h

theorem lineNumberLoop_spec (verticalOffset : Int) (hcommitted : p.commit = p) (hheight : 0 < p.lineHeight)
    (hzones : ∀ zone ∈ p.zones, 0 ≤ zone.height) (hcount : IsInt32 p.lineCount)
    (htops : ∀ n, 1 ≤ n → n ≤ p.lineCount → IsInt32 (p.top n)) (fuel : Nat) :
    ∀ (s : LinesLayout) (minLineNumber maxLineNumber : Int), Shows s p → 1 ≤ minLineNumber →
      minLineNumber ≤ maxLineNumber → maxLineNumber ≤ p.lineCount →
      (∀ m, 1 ≤ m → m < minLineNumber → p.bottom m ≤ verticalOffset) →
      (verticalOffset < p.bottom maxLineNumber ∨ maxLineNumber = p.lineCount) →
      (maxLineNumber - minLineNumber).toNat ≤ fuel →
      p.IsLineAt verticalOffset (lineNumberLoop s verticalOffset p.lineHeight minLineNumber maxLineNumber fuel).1 := by
  -- the line is always between `minLineNumber` and `maxLineNumber`
  have hfound : ∀ minLineNumber maxLineNumber, 1 ≤ minLineNumber → minLineNumber ≤ maxLineNumber →
      maxLineNumber ≤ p.lineCount → (∀ m, 1 ≤ m → m < minLineNumber → p.bottom m ≤ verticalOffset) →
      (verticalOffset < p.bottom maxLineNumber ∨ maxLineNumber = p.lineCount) → ¬minLineNumber < maxLineNumber →
      p.IsLineAt verticalOffset minLineNumber := by
    intro minLineNumber maxLineNumber hmin hle hmax hbelow habove hend
    have heq : minLineNumber = maxLineNumber := by omega
    subst heq
    exact ⟨hmin, hmax, hbelow, habove⟩
  induction fuel with
  | zero =>
    intro s minLineNumber maxLineNumber _ hmin hle hmax hbelow habove hfuel
    exact hfound minLineNumber maxLineNumber hmin hle hmax hbelow habove (by omega)
  | succ fuel ih =>
    intro s minLineNumber maxLineNumber h hmin hle hmax hbelow habove hfuel
    unfold lineNumberLoop
    by_cases hlt : minLineNumber < maxLineNumber
    · rw [if_pos hlt]
      unfold IsInt32 at hcount
      have hdiv : (minLineNumber + maxLineNumber).tdiv 2 = (minLineNumber + maxLineNumber) / 2 :=
        Int.tdiv_eq_ediv_of_nonneg (by omega)
      rw [hdiv]
      obtain ⟨mid, hmid⟩ : ∃ mid, mid = (minLineNumber + maxLineNumber) / 2 := ⟨_, rfl⟩
      rw [← hmid]
      have hint : IsInt32 mid := by
        unfold IsInt32
        omega
      have hoffset := getVerticalOffsetForLineNumber_spec h (by omega) hint
      have hshows := getVerticalOffsetForLineNumber_shows h mid false
      rw [hcommitted] at hoffset hshows
      rw [toInt32_eq hint]
      dsimp only
      rw [hoffset, toInt32_eq (htops mid (by omega) (by omega))]
      by_cases hafter : verticalOffset ≥ p.top mid + p.lineHeight
      · rw [if_pos hafter]
        refine ih _ _ _ hshows (by omega) (by omega) hmax (fun m hm hlt' => ?_) habove (by omega)
        have hmono := Picture.bottom_mono hzones (by omega) (by omega : m ≤ mid)
        unfold Picture.bottom at hmono ⊢
        omega
      · rw [if_neg hafter]
        by_cases hhit : verticalOffset ≥ p.top mid
        · rw [if_pos hhit]
          dsimp only
          refine ⟨by omega, by omega, fun m hm hlt' => ?_, .inl ?_⟩
          · have := Picture.bottom_le_top hzones (by omega) hlt'
            omega
          · unfold Picture.bottom
            omega
        · rw [if_neg hhit]
          refine ih _ _ _ hshows hmin (by omega) (by omega) hbelow (.inl ?_) (by omega)
          unfold Picture.bottom
          omega
    · rw [if_neg hlt]
      exact hfound minLineNumber maxLineNumber hmin hle hmax hbelow habove hlt

theorem getLineNumberAtOrAfterVerticalOffset_shows (h : Shows s p) (verticalOffset : Int) :
    Shows (s.getLineNumberAtOrAfterVerticalOffset verticalOffset).2 p.commit := by
  have hcommit := h.commit.1
  unfold getLineNumberAtOrAfterVerticalOffset
  rw [checkPendingChanges_eq]
  dsimp only
  have hloop := lineNumberLoop_shows (toInt32 verticalOffset) s.commit.lineHeight (toInt32 s.commit.lineCount).toNat
    s.commit 1 (toInt32 s.commit.lineCount) hcommit (Picture.commit_commit p)
  split_ifs
  · exact hcommit
  · exact hloop
  · exact hloop

theorem getLineNumberAtOrAfterVerticalOffset_spec (h : Shows s p) (verticalOffset : Int) (hint : IsInt32 verticalOffset)
    (hheight : 0 < p.commit.lineHeight) (hpadding : 0 ≤ p.commit.paddingTop)
    (hzones : ∀ zone ∈ p.commit.zones, 0 ≤ zone.height) (hone : 1 ≤ p.commit.lineCount)
    (hcount : IsInt32 p.commit.lineCount)
    (htops : ∀ n, 1 ≤ n → n ≤ p.commit.lineCount → IsInt32 (p.commit.top n)) :
    p.commit.IsLineAt verticalOffset (s.getLineNumberAtOrAfterVerticalOffset verticalOffset).1 := by
  have hcommit := h.commit.1
  unfold getLineNumberAtOrAfterVerticalOffset
  rw [checkPendingChanges_eq, toInt32_eq hint]
  dsimp only
  by_cases hneg : verticalOffset < 0
  · rw [if_pos hneg]
    dsimp only
    refine ⟨Int.le_refl _, hone, fun m hm hlt => by omega, .inl ?_⟩
    have habove := heightAbove_nonneg hzones 1
    unfold Picture.bottom Picture.top
    omega
  · rw [if_neg hneg, hcommit.lineCount, hcommit.lineHeight, toInt32_eq hcount]
    have hloop := lineNumberLoop_spec verticalOffset (Picture.commit_commit p) hheight hzones hcount htops
      p.commit.lineCount.toNat s.commit 1 p.commit.lineCount hcommit (Int.le_refl _) hone (Int.le_refl _)
      (fun m hm hlt => by omega) (.inr rfl) (by omega)
    have hle := hloop.2.1
    rw [if_neg (by omega)]
    exact hloop

end Queries

/-! ## Runs -/

inductive Query where
  | whitespacesAccumulatedHeight (index : Nat)
  | whitespacesTotalHeight
  | linesTotalHeight
  | heightBefore (lineNumber : Int)
  | offsetFor (lineNumber : Int) (includeViewZones : Bool)
  | offsetAfter (lineNumber : Int) (includeViewZones : Bool)
  | lineNumberAt (verticalOffset : Int)

/-- The calls of a layout.  A batch of `changeWhitespace` is made of the calls of its accessor, between which there can
be other calls, and of the commit at its end. -/
inductive Op where
  | insertWhitespace (afterLineNumber ordinal heightInPx : Int)
  | changeOneWhitespace (id : Nat) (newAfterLineNumber newHeight : Int)
  | removeWhitespace (id : Nat)
  | commit
  | linesDeleted (fromLineNumber toLineNumber : Int)
  | linesInserted (fromLineNumber toLineNumber : Int)
  | setLineHeight (lineHeight : Int)
  | setPadding (paddingTop paddingBottom : Int)
  | flushed (lineCount : Int)
  | query (query : Query)

def LinesLayout.answer (s : LinesLayout) : Query → LinesLayout
  -- an index without a whitespace throws
  | .whitespacesAccumulatedHeight index =>
    if index < s.commit.arr.length then (s.getWhitespacesAccumulatedHeight index).2 else s.commit
  | .whitespacesTotalHeight => s.getWhitespacesTotalHeight.2
  | .linesTotalHeight => s.getLinesTotalHeight.2
  | .heightBefore lineNumber => (s.getWhitespaceAccumulatedHeightBeforeLineNumber lineNumber).2
  | .offsetFor lineNumber includeViewZones => (s.getVerticalOffsetForLineNumber lineNumber includeViewZones).2
  | .offsetAfter lineNumber includeViewZones => (s.getVerticalOffsetAfterLineNumber lineNumber includeViewZones).2
  | .lineNumberAt verticalOffset => (s.getLineNumberAtOrAfterVerticalOffset verticalOffset).2

def LinesLayout.step (s : LinesLayout) : Op → LinesLayout
  | .insertWhitespace afterLineNumber ordinal heightInPx =>
    s.accessorInsertWhitespace afterLineNumber ordinal heightInPx
  | .changeOneWhitespace id newAfterLineNumber newHeight =>
    s.accessorChangeOneWhitespace id newAfterLineNumber newHeight
  | .removeWhitespace id => s.accessorRemoveWhitespace id
  | .commit => s.commit
  | .linesDeleted fromLineNumber toLineNumber => s.onLinesDeleted fromLineNumber toLineNumber
  | .linesInserted fromLineNumber toLineNumber => s.onLinesInserted fromLineNumber toLineNumber
  | .setLineHeight lineHeight => s.setLineHeight lineHeight
  | .setPadding paddingTop paddingBottom => s.setPadding paddingTop paddingBottom
  | .flushed lineCount => s.onFlushed lineCount
  | .query query => s.answer query

def Picture.step (p : Picture) : Op → Picture
  | .insertWhitespace afterLineNumber _ heightInPx => p.insertWhitespace afterLineNumber heightInPx
  | .changeOneWhitespace id newAfterLineNumber newHeight => p.changeOneWhitespace id newAfterLineNumber newHeight
  | .removeWhitespace id => p.removeWhitespace id
  | .commit => p.commit
  | .linesDeleted fromLineNumber toLineNumber => p.linesDeleted fromLineNumber toLineNumber
  | .linesInserted fromLineNumber toLineNumber => p.linesInserted fromLineNumber toLineNumber
  | .setLineHeight lineHeight => { p.commit with lineHeight }
  | .setPadding paddingTop paddingBottom => { p with paddingTop, paddingBottom }
  | .flushed lineCount => { p.commit with lineCount }
  | .query _ => p.commit

/-- A call with sensible arguments: line numbers and heights are signed 32-bit integers, heights and paddings are not
negative, the line height is positive, and the lines that are inserted or deleted are in order. -/
def Op.Sensible : Op → Prop
  | .insertWhitespace afterLineNumber _ heightInPx => IsInt32 afterLineNumber ∧ IsInt32 heightInPx ∧ 0 ≤ heightInPx
  | .changeOneWhitespace _ newAfterLineNumber newHeight =>
    IsInt32 newAfterLineNumber ∧ IsInt32 newHeight ∧ 0 ≤ newHeight
  | .linesDeleted fromLineNumber toLineNumber =>
    IsInt32 fromLineNumber ∧ IsInt32 toLineNumber ∧ fromLineNumber ≤ toLineNumber
  | .linesInserted fromLineNumber toLineNumber =>
    IsInt32 fromLineNumber ∧ IsInt32 toLineNumber ∧ fromLineNumber ≤ toLineNumber
  | .setLineHeight lineHeight => 0 < lineHeight
  | .setPadding paddingTop paddingBottom => 0 ≤ paddingTop ∧ 0 ≤ paddingBottom
  | _ => True

section Runs

variable {s : LinesLayout} {p : Picture}

theorem answer_shows (h : Shows s p) (query : Query) : Shows (s.answer query) p.commit := by
  cases query with
  | whitespacesAccumulatedHeight index =>
    unfold LinesLayout.answer
    dsimp only
    split
    · next hlt => exact (getWhitespacesAccumulatedHeight_spec h hlt).2
    · exact h.commit.1
  | whitespacesTotalHeight => exact (getWhitespacesTotalHeight_spec h).2
  | linesTotalHeight => exact (getLinesTotalHeight_spec h).2
  | heightBefore lineNumber => exact (getWhitespaceAccumulatedHeightBeforeLineNumber_spec h lineNumber).2
  | offsetFor lineNumber includeViewZones => exact getVerticalOffsetForLineNumber_shows h lineNumber includeViewZones
  | offsetAfter lineNumber includeViewZones =>
    exact getVerticalOffsetAfterLineNumber_shows h lineNumber includeViewZones
  | lineNumberAt verticalOffset => exact getLineNumberAtOrAfterVerticalOffset_shows h verticalOffset

/-- Moving the places of all whitespaces in one direction keeps the order and the sums. -/
theorem Shows.move (h : Shows s p) (place : Int → Int) (hmono : ∀ a b, a ≤ b → place a ≤ place b)
    (hpending : s.pendingChanges = {}) (lineCount : Int) :
    Shows { s with lineCount, arr := s.arr.map fun a => { a with afterLineNumber := place a.afterLineNumber } }
      { p with lineCount, zones := p.zones.map fun zone => { zone with afterLineNumber := place zone.afterLineNumber } } := by
  have hzones : zonesOf (s.arr.map fun a => { a with afterLineNumber := place a.afterLineNumber }) =
      (zonesOf s.arr).map fun zone => { zone with afterLineNumber := place zone.afterLineNumber } := by
    unfold zonesOf
    rw [map_map, map_map]
    rfl
  have hinserts : zonesOf s.pendingChanges.inserts = [] := by
    rw [hpending]
    rfl
  refine ⟨?_, ?_, ?_, ?_, ?_, h.inserts, h.changes, h.removes, h.pending, h.lastId, rfl, h.lineHeight,
    h.paddingTop, h.paddingBottom⟩
  · unfold Sorted
    rw [pairwise_map]
    exact h.sorted.imp fun hle => hmono _ _ hle
  · intro i hi hlt
    rw [length_map] at hlt
    have hold := h.sums i hi hlt
    have hat : prefixSumAt (s.arr.map fun a => { a with afterLineNumber := place a.afterLineNumber }) i =
        prefixSumAt s.arr i := by
      unfold prefixSumAt
      rw [getElem?_map]
      cases s.arr[i]? <;> rfl
    rw [hat, hold, hzones, ← map_take]
    unfold totalHeight
    rw [map_map]
    rfl
  · have hnodup := h.nodup
    rw [hinserts, append_nil] at hnodup
    rw [hinserts, hzones, append_nil, map_map]
    exact hnodup
  · have hknown := h.known
    rw [hinserts, append_nil] at hknown
    rw [hinserts, hzones, append_nil]
    intro zone hzone
    obtain ⟨zone', hzone', rfl⟩ := mem_map.mp hzone
    exact hknown zone' hzone'
  · dsimp only
    rw [hzones]
    exact h.zones.map _

theorem afterDeletion_mono {fromLineNumber toLineNumber : Int} (h : fromLineNumber ≤ toLineNumber) (a b : Int)
    (hab : a ≤ b) : afterDeletion fromLineNumber toLineNumber a ≤ afterDeletion fromLineNumber toLineNumber b := by
  unfold afterDeletion
  split_ifs <;> omega

theorem afterInsertion_mono {fromLineNumber toLineNumber : Int} (h : fromLineNumber ≤ toLineNumber) (a b : Int)
    (hab : a ≤ b) : afterInsertion fromLineNumber toLineNumber a ≤ afterInsertion fromLineNumber toLineNumber b := by
  unfold afterInsertion
  split_ifs <;> omega

theorem step_shows (h : Shows s p) {op : Op} (hop : op.Sensible) : Shows (s.step op) (p.step op) := by
  have hcommit := h.commit
  cases op with
  | insertWhitespace afterLineNumber ordinal heightInPx =>
    obtain ⟨hline, hheight, -⟩ := hop
    have hzones : zonesOf (s.accessorInsertWhitespace afterLineNumber ordinal heightInPx).pendingChanges.inserts =
        zonesOf s.pendingChanges.inserts ++ [{ id := s.lastWhitespaceId + 1, afterLineNumber, height := heightInPx }] := by
      unfold accessorInsertWhitespace
      rw [zonesOf_append, toInt32_eq hline, toInt32_eq hheight]
      rfl
    refine ⟨h.sorted, h.sums, ?_, ?_, h.zones, ?_, h.changes, h.removes, fun hfalse => ?_, ?_, h.lineCount,
      h.lineHeight, h.paddingTop, h.paddingBottom⟩
    · show ((zonesOf s.arr ++ zonesOf _).map Zone.id).Nodup
      rw [LinesLayout.step, hzones, ← append_assoc, map_append]
      refine nodup_append.mpr ⟨h.nodup, by simp, fun id hid id' hid' => ?_⟩
      obtain ⟨zone, hzone, rfl⟩ := mem_map.mp hid
      have hle := h.known zone hzone
      have heq : id' = s.lastWhitespaceId + 1 := by simpa using hid'
      omega
    · show ∀ zone ∈ zonesOf s.arr ++ zonesOf _, zone.id ≤ s.lastWhitespaceId + 1
      rw [LinesLayout.step, hzones, ← append_assoc]
      intro zone hzone
      rcases mem_append.mp hzone with hold | hnew
      · have := h.known zone hold
        omega
      · have heq := mem_singleton.mp hnew
        rw [heq]
    · rw [LinesLayout.step, hzones, h.inserts, h.lastId]
      rfl
    · cases hfalse
    · show s.lastWhitespaceId + 1 = p.lastId + 1
      rw [h.lastId]
  | changeOneWhitespace id newAfterLineNumber newHeight =>
    obtain ⟨hline, hheight, -⟩ := hop
    refine ⟨h.sorted, h.sums, h.nodup, h.known, h.zones, h.inserts, ?_, h.removes, fun hfalse => ?_, h.lastId,
      h.lineCount, h.lineHeight, h.paddingTop, h.paddingBottom⟩
    · show s.pendingChanges.changes ++ [_] = p.changes ++ [_]
      rw [h.changes, toInt32_eq hline, toInt32_eq hheight]
    · cases hfalse
  | removeWhitespace id =>
    refine ⟨h.sorted, h.sums, h.nodup, h.known, h.zones, h.inserts, h.changes, ?_, fun hfalse => ?_, h.lastId,
      h.lineCount, h.lineHeight, h.paddingTop, h.paddingBottom⟩
    · show s.pendingChanges.removes ++ [id] = p.removes ++ [id]
      rw [h.removes]
    · cases hfalse
  | commit => exact hcommit.1
  | linesDeleted fromLineNumber toLineNumber =>
    obtain ⟨hfrom, hto, hle⟩ := hop
    have hmove := hcommit.1.move (afterDeletion fromLineNumber toLineNumber) (afterDeletion_mono hle) hcommit.2
      (p.commit.lineCount - (toLineNumber - fromLineNumber + 1))
    show Shows (s.onLinesDeleted fromLineNumber toLineNumber) _
    unfold onLinesDeleted
    rw [checkPendingChanges_eq, toInt32_eq hfrom, toInt32_eq hto]
    dsimp only
    rw [hcommit.1.lineCount]
    exact hmove
  | linesInserted fromLineNumber toLineNumber =>
    obtain ⟨hfrom, hto, hle⟩ := hop
    have hmove := hcommit.1.move (afterInsertion fromLineNumber toLineNumber) (afterInsertion_mono hle) hcommit.2
      (p.commit.lineCount + (toLineNumber - fromLineNumber + 1))
    show Shows (s.onLinesInserted fromLineNumber toLineNumber) _
    unfold onLinesInserted
    rw [checkPendingChanges_eq, toInt32_eq hfrom, toInt32_eq hto]
    dsimp only
    rw [hcommit.1.lineCount]
    exact hmove
  | setLineHeight lineHeight =>
    unfold LinesLayout.step LinesLayout.setLineHeight
    rw [checkPendingChanges_eq]
    have h := hcommit.1
    exact ⟨h.sorted, h.sums, h.nodup, h.known, h.zones, h.inserts, h.changes, h.removes, h.pending, h.lastId,
      h.lineCount, rfl, h.paddingTop, h.paddingBottom⟩
  | setPadding paddingTop paddingBottom =>
    exact ⟨h.sorted, h.sums, h.nodup, h.known, h.zones, h.inserts, h.changes, h.removes, h.pending, h.lastId,
      h.lineCount, h.lineHeight, rfl, rfl⟩
  | flushed lineCount =>
    unfold LinesLayout.step LinesLayout.onFlushed
    rw [checkPendingChanges_eq]
    have h := hcommit.1
    exact ⟨h.sorted, h.sums, h.nodup, h.known, h.zones, h.inserts, h.changes, h.removes, h.pending, h.lastId,
      rfl, h.lineHeight, h.paddingTop, h.paddingBottom⟩
  | query query => exact answer_shows h query

theorem run_shows (ops : List Op) : ∀ {s : LinesLayout} {p : Picture}, Shows s p → (∀ op ∈ ops, op.Sensible) →
    Shows (ops.foldl LinesLayout.step s) (ops.foldl Picture.step p) := by
  induction ops with
  | nil => exact fun h _ => h
  | cons op ops ih =>
    intro s p h hops
    exact ih (step_shows h (hops op mem_cons_self)) fun op' hop' => hops op' (mem_cons_of_mem _ hop')

end Runs

/-! ## What holds in every run -/

/-- No height is negative, and lines have one. -/
structure Picture.Upright (p : Picture) : Prop where
  lineHeight : 0 < p.lineHeight
  paddingTop : 0 ≤ p.paddingTop
  zones : ∀ zone ∈ p.zones, 0 ≤ zone.height
  inserts : ∀ zone ∈ p.inserts, 0 ≤ zone.height
  changes : ∀ change ∈ p.changes, 0 ≤ change.newHeight

namespace Picture

variable {p : Picture}

theorem changed_height_nonneg {changes : List PendingChange} (hchanges : ∀ change ∈ changes, 0 ≤ change.newHeight)
    {zone : Zone} (hzone : 0 ≤ zone.height) : 0 ≤ (changed changes zone).height := by
  unfold changed
  cases hchange : changeOf changes zone.id with
  | none => exact hzone
  | some change =>
    have hmem := mem_of_find?_eq_some hchange
    exact hchanges change (mem_reverse.mp hmem)

theorem Upright.commit (h : p.Upright) : p.commit.Upright := by
  refine ⟨h.lineHeight, h.paddingTop, fun zone hzone => ?_, fun zone hzone => ?_, fun change hchange => ?_⟩
  · obtain ⟨zone', hzone', rfl⟩ := mem_map.mp hzone
    have hheight : 0 ≤ zone'.height := by
      rcases mem_append.mp (mem_of_mem_filter hzone') with hold | hnew
      · exact h.zones zone' hold
      · exact h.inserts zone' hnew
    exact changed_height_nonneg h.changes hheight
  · cases hzone
  · cases hchange

theorem Upright.move (h : p.Upright) (place : Int → Int) (lineCount : Int) :
    Upright { p with
      lineCount, zones := p.zones.map fun zone => { zone with afterLineNumber := place zone.afterLineNumber } } := by
  refine ⟨h.lineHeight, h.paddingTop, fun zone hzone => ?_, h.inserts, h.changes⟩
  obtain ⟨zone', hzone', rfl⟩ := mem_map.mp hzone
  exact h.zones zone' hzone'

theorem step_upright (h : p.Upright) {op : Op} (hop : op.Sensible) : (p.step op).Upright := by
  have hcommit := h.commit
  cases op with
  | insertWhitespace afterLineNumber ordinal heightInPx =>
    obtain ⟨-, -, hheight⟩ := hop
    refine ⟨h.lineHeight, h.paddingTop, h.zones, fun zone hzone => ?_, h.changes⟩
    rcases mem_append.mp hzone with hold | hnew
    · exact h.inserts zone hold
    · rw [mem_singleton.mp hnew]
      exact hheight
  | changeOneWhitespace id newAfterLineNumber newHeight =>
    obtain ⟨-, -, hheight⟩ := hop
    refine ⟨h.lineHeight, h.paddingTop, h.zones, h.inserts, fun change hchange => ?_⟩
    rcases mem_append.mp hchange with hold | hnew
    · exact h.changes change hold
    · rw [mem_singleton.mp hnew]
      exact hheight
  | removeWhitespace id => exact ⟨h.lineHeight, h.paddingTop, h.zones, h.inserts, h.changes⟩
  | commit => exact hcommit
  | linesDeleted fromLineNumber toLineNumber => exact hcommit.move _ _
  | linesInserted fromLineNumber toLineNumber => exact hcommit.move _ _
  | setLineHeight lineHeight => exact ⟨hop, hcommit.paddingTop, hcommit.zones, hcommit.inserts, hcommit.changes⟩
  | setPadding paddingTop paddingBottom => exact ⟨h.lineHeight, hop.1, h.zones, h.inserts, h.changes⟩
  | flushed lineCount =>
    exact ⟨hcommit.lineHeight, hcommit.paddingTop, hcommit.zones, hcommit.inserts, hcommit.changes⟩
  | query query => exact hcommit

theorem run_upright (ops : List Op) : ∀ {p : Picture}, p.Upright → (∀ op ∈ ops, op.Sensible) →
    (ops.foldl Picture.step p).Upright := by
  induction ops with
  | nil => exact fun h _ => h
  | cons op ops ih =>
    intro p h hops
    exact ih (step_upright h (hops op mem_cons_self)) fun op' hop' => hops op' (mem_cons_of_mem _ hop')

theorem Upright.isLineAt_top (h : p.Upright) {m n : Int} (hone : 1 ≤ n) (hle : n ≤ p.lineCount)
    (hat : p.IsLineAt (p.top n) m) : m = n := by
  obtain ⟨-, -, hbefore, hafter⟩ := hat
  have hheight := h.lineHeight
  rcases Int.lt_trichotomy m n with hlt | heq | hgt
  · have hbottom := bottom_le_top h.zones (by omega) hlt
    omega
  · exact heq
  · have hbottom := hbefore n hone hgt
    unfold bottom at hbottom
    omega

end Picture

/-- After any calls, the layout answers what its picture says.  The numbers that the class puts through `| 0` are signed
32-bit integers. -/
theorem vertical_layout_is_what_is_above (lineCount lineHeight paddingTop paddingBottom : Int) (ops : List Op)
    (hheight : 0 < lineHeight) (hpadding : 0 ≤ paddingTop) (hops : ∀ op ∈ ops, op.Sensible) :
    let s : LinesLayout := ops.foldl LinesLayout.step { lineCount, lineHeight, paddingTop, paddingBottom }
    let p : Picture := (ops.foldl Picture.step { lineCount, lineHeight, paddingTop, paddingBottom }).commit
    (∀ n, 1 ≤ n → IsInt32 n → (s.getVerticalOffsetForLineNumber n).1 = p.top n) ∧
      s.getLinesTotalHeight.1 = p.height ∧
      (1 ≤ p.lineCount → IsInt32 p.lineCount → (∀ n, 1 ≤ n → n ≤ p.lineCount → IsInt32 (p.top n)) →
        (∀ v, IsInt32 v → p.IsLineAt v (s.getLineNumberAtOrAfterVerticalOffset v).1) ∧
        ∀ n, 1 ≤ n → n ≤ p.lineCount →
          (s.getLineNumberAtOrAfterVerticalOffset (s.getVerticalOffsetForLineNumber n).1).1 = n) := by
  intro s p
  have hshows : Shows s (ops.foldl Picture.step { lineCount, lineHeight, paddingTop, paddingBottom }) :=
    run_shows ops (shows_new lineCount lineHeight paddingTop paddingBottom) hops
  have hnew : Picture.Upright { lineCount, lineHeight, paddingTop, paddingBottom } := by
    refine ⟨hheight, hpadding, ?_, ?_, ?_⟩ <;> exact fun _ hmem => by cases hmem
  have hupright : p.Upright := (Picture.run_upright ops hnew hops).commit
  have htop : ∀ n, 1 ≤ n → IsInt32 n → (s.getVerticalOffsetForLineNumber n).1 = p.top n :=
    fun n hone hint => getVerticalOffsetForLineNumber_spec hshows hone hint
  refine ⟨htop, (getLinesTotalHeight_spec hshows).1, fun hone hcount htops => ?_⟩
  have hat : ∀ v, IsInt32 v → p.IsLineAt v (s.getLineNumberAtOrAfterVerticalOffset v).1 := fun v hint =>
    getLineNumberAtOrAfterVerticalOffset_spec hshows v hint hupright.lineHeight hupright.paddingTop hupright.zones hone
      hcount htops
  refine ⟨hat, fun n hn hle => ?_⟩
  have hint : IsInt32 n := by
    unfold IsInt32 at *
    omega
  rw [htop n hn hint]
  exact hupright.isLineAt_top hn hle (hat _ (htops n hn hle))

/-- Two lines of ten pixels with a whitespace of five after the first one, which then goes. -/
theorem vertical_layout_of_two_lines :
    let ops : List Op := [.insertWhitespace 1 0 5, .commit, .query .linesTotalHeight, .removeWhitespace 1]
    let s : LinesLayout := ops.foldl LinesLayout.step { lineCount := 2, lineHeight := 10, paddingTop := 0, paddingBottom := 0 }
    (s.getLineNumberAtOrAfterVerticalOffset (s.getVerticalOffsetForLineNumber 2).1).1 = 2 := by
  intro ops s
  have hops : ∀ op ∈ ops, op.Sensible := by
    intro op hop
    simp only [ops, mem_cons, not_mem_nil, or_false] at hop
    rcases hop with rfl | rfl | rfl | rfl
    · unfold Op.Sensible IsInt32
      decide
    · trivial
    · trivial
    · trivial
  obtain ⟨-, -, hlines⟩ := vertical_layout_is_what_is_above 2 10 0 0 ops (by decide) (by decide) hops
  refine (hlines (by decide) (by unfold IsInt32; decide) (fun n hone hle => ?_)).2 2 (by decide) (by decide)
  have hn : n = 1 ∨ n = 2 := by
    change n ≤ 2 at hle
    omega
  rcases hn with rfl | rfl
  · unfold IsInt32
    decide
  · unfold IsInt32
    decide

/-- The offset `2^31` is taken for a negative one, so the first line is found instead of the last one. -/
theorem large_offset_finds_first_line :
    let s : LinesLayout := { lineCount := 2, lineHeight := 10, paddingTop := 0, paddingBottom := 0 }
    let p : Picture := { lineCount := 2, lineHeight := 10, paddingTop := 0, paddingBottom := 0 }
    (s.getLineNumberAtOrAfterVerticalOffset (2 ^ 31)).1 = 1 ∧ p.IsLineAt (2 ^ 31) 2 ∧ ¬p.IsLineAt (2 ^ 31) 1 := by
  intro s p
  have hbottom : p.bottom 1 = 10 := by decide
  refine ⟨by decide, ⟨by decide, by decide, fun m hm hlt => ?_, .inr rfl⟩, fun hat => ?_⟩
  · have hone : m = 1 := by omega
    subst hone
    decide
  · rcases hat.2.2.2 with hlt | heq
    · rw [hbottom] at hlt
      exact absurd hlt (by decide)
    · exact absurd heq (by decide)

end TongjiCode.ViewLayout
