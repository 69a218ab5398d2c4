import TongjiCode.ViewLayout.Viewport
import TongjiCode.ViewLayout.VerticalOffsets

/-!
# The lines of a viewport

The loop of `getLinesViewportData` goes from line to line by adding heights, and stays at the tops of the picture
(`linesLoop_spec`).  It starts at the line that the search finds and stops past the viewport, so no line that meets the
viewport is left out (`getLinesViewportData_spec`).
-/

open List

namespace TongjiCode.ViewLayout

open LinesLayout

/-! ## The loop -/

section Lines

variable {p : Picture} {arr done rest : List EditorWhitespace}

/-- Where the array is cut at a line, the first part is what is above the line. -/
theorem heightAbove_cut {n : Int} (hdone : ∀ whitespace ∈ done, whitespace.afterLineNumber < n)
    (hrest : ∀ whitespace ∈ rest, n ≤ whitespace.afterLineNumber) :
    heightAbove (zonesOf (done ++ rest)) n = totalHeight (zonesOf done) := by
  unfold heightAbove
  rw [zonesOf_append, filter_append, filter_eq_self.mpr, filter_eq_nil_iff.mpr, append_nil]
  · intro zone hzone
    obtain ⟨whitespace, hmem, rfl⟩ := mem_map.mp hzone
    have hle := hrest whitespace hmem
    rw [decide_eq_true_iff]
    show ¬whitespace.afterLineNumber < n
    omega
  · intro zone hzone
    obtain ⟨whitespace, hmem, rfl⟩ := mem_map.mp hzone
    rw [decide_eq_true_iff]
    exact hdone whitespace hmem

/-- The fields that are put through `| 0` are signed 32-bit integers. -/
def EditorWhitespace.Fits (whitespace : EditorWhitespace) : Prop :=
  IsInt32 whitespace.afterLineNumber ∧ IsInt32 whitespace.height

theorem pushDown_spec {n : Int} : ∀ (rest : List EditorWhitespace) (offset relative : Int), Sorted rest →
    (∀ whitespace ∈ rest, n ≤ whitespace.afterLineNumber) → (∀ whitespace ∈ rest, whitespace.Fits) →
    ∃ taken left, rest = taken ++ left ∧
      pushDown n offset relative rest =
        (offset + totalHeight (zonesOf taken), relative + totalHeight (zonesOf taken), left) ∧
      (∀ whitespace ∈ taken, whitespace.afterLineNumber = n) ∧
      ∀ whitespace ∈ left, n + 1 ≤ whitespace.afterLineNumber
  | [], offset, relative, _, _, _ => by
    refine ⟨[], [], rfl, ?_, by simp, by simp⟩
    unfold pushDown zonesOf totalHeight
    simp
  | whitespace :: rest, offset, relative, hsorted, hle, hfits => by
    obtain ⟨hfirst, hsorted'⟩ := pairwise_cons.mp hsorted
    obtain ⟨hafter, hheight⟩ := hfits whitespace mem_cons_self
    unfold pushDown
    rw [toInt32_eq hafter, toInt32_eq hheight]
    by_cases heq : whitespace.afterLineNumber = n
    · rw [if_pos heq]
      obtain ⟨taken, left, rfl, hpush, htaken, hleft⟩ := pushDown_spec rest (offset + whitespace.height)
        (relative + whitespace.height) hsorted' (fun a ha => hle a (mem_cons_of_mem _ ha))
        fun a ha => hfits a (mem_cons_of_mem _ ha)
      refine ⟨whitespace :: taken, left, rfl, ?_, ?_, hleft⟩
      · rw [hpush, zonesOf_cons, totalHeight_cons, Int.add_assoc, Int.add_assoc]
        rfl
      · intro a ha
        rcases mem_cons.mp ha with rfl | ha
        · exact heq
        · exact htaken a ha
    · rw [if_neg heq]
      have hlt := hle whitespace mem_cons_self
      refine ⟨[], whitespace :: rest, rfl, ?_, by simp, ?_⟩
      · show _ = (offset + 0, relative + 0, whitespace :: rest)
        rw [Int.add_zero, Int.add_zero]
      · intro a ha
        rcases mem_cons.mp ha with rfl | ha
        · omega
        · have hnext := hfirst a ha
          omega

theorem top_next {taken : List EditorWhitespace} {n : Int} (hzones : (zonesOf (done ++ (taken ++ rest))).Perm p.zones)
    (hdone : ∀ whitespace ∈ done, whitespace.afterLineNumber < n)
    (htaken : ∀ whitespace ∈ taken, whitespace.afterLineNumber = n)
    (hrest : ∀ whitespace ∈ rest, n + 1 ≤ whitespace.afterLineNumber) :
    p.top (n + 1) = p.top n + p.lineHeight + totalHeight (zonesOf taken) := by
  have hat : heightAbove p.zones n = totalHeight (zonesOf done) := by
    rw [← heightAbove_perm hzones]
    refine heightAbove_cut hdone fun a ha => ?_
    rcases mem_append.mp ha with ha | ha
    · exact Int.le_of_eq (htaken a ha).symm
    · have := hrest a ha
      omega
  have hnext : heightAbove p.zones (n + 1) = totalHeight (zonesOf done) + totalHeight (zonesOf taken) := by
    rw [← heightAbove_perm hzones, ← append_assoc, heightAbove_cut _ hrest, zonesOf_append, totalHeight_append]
    intro a ha
    rcases mem_append.mp ha with ha | ha
    · have := hdone a ha
      omega
    · have := htaken a ha
      omega
  have hlines : (n + 1 - 1) * p.lineHeight = (n - 1) * p.lineHeight + p.lineHeight := by
    rw [Int.sub_mul n, Int.one_mul, Int.sub_add_cancel, Int.add_sub_cancel]
  unfold Picture.top
  omega

/-- The loop over the lines from line `n` on: it stops at the last line or past the viewport, and its offsets are the
tops, less the delta. -/
structure Covers (p : Picture) (verticalOffset2 delta n centered : Int) (view : LinesInView) : Prop where
  first : n ≤ view.endLineNumber
  last : view.endLineNumber ≤ p.lineCount
  length : (view.linesOffsets.length : Int) = view.endLineNumber - n + 1
  offsets : ∀ (i : Nat) (offset : Int), view.linesOffsets[i]? = some offset → offset + delta = p.top (n + i)
  stops : view.endLineNumber = p.lineCount ∨ verticalOffset2 ≤ p.top (view.endLineNumber + 1)
  centered : view.centeredLineNumber = centered ∨
    n ≤ view.centeredLineNumber ∧ view.centeredLineNumber ≤ view.endLineNumber

theorem Covers.single {verticalOffset2 delta n centered centered' : Int} (hn : n ≤ p.lineCount)
    (hstops : n = p.lineCount ∨ verticalOffset2 ≤ p.top (n + 1)) (hcentered : centered' = centered ∨ centered' = n) :
    Covers p verticalOffset2 delta n centered
      { endLineNumber := n, linesOffsets := [p.top n - delta], centeredLineNumber := centered' } := by
  refine ⟨Int.le_refl _, hn, ?_, ?_, hstops, ?_⟩
  · show (1 : Int) = n - n + 1
    omega
  · intro i offset hi
    cases i with
    | zero =>
      have heq : offset = p.top n - delta := by simpa using hi.symm
      rw [heq, Int.sub_add_cancel]
      show p.top n = p.top (n + 0)
      rw [Int.add_zero]
    | succ i => cases hi
  · rcases hcentered with hc | hc
    · exact .inl hc
    · right
      show n ≤ centered' ∧ centered' ≤ n
      omega

theorem Covers.before {verticalOffset2 delta n centered centered' : Int} {view : LinesInView}
    (h : Covers p verticalOffset2 delta (n + 1) centered' view) (hcentered : centered' = centered ∨ centered' = n) :
    Covers p verticalOffset2 delta n centered { view with linesOffsets := (p.top n - delta) :: view.linesOffsets } := by
  have hfirst := h.first
  refine ⟨by show n ≤ view.endLineNumber; omega, h.last, ?_, ?_, h.stops, ?_⟩
  · have hlength := h.length
    rw [length_cons]
    show _ = view.endLineNumber - n + 1
    omega
  · intro i offset hi
    cases i with
    | zero =>
      have heq : offset = p.top n - delta := by simpa using hi.symm
      rw [heq, Int.sub_add_cancel]
      show p.top n = p.top (n + 0)
      rw [Int.add_zero]
    | succ i =>
      have hoffset := h.offsets i offset hi
      rw [hoffset]
      congr 1
      omega
  · show view.centeredLineNumber = centered ∨ n ≤ view.centeredLineNumber ∧ view.centeredLineNumber ≤ view.endLineNumber
    rcases h.centered with heq | hin
    · rcases hcentered with hc | hc
      · omega
      · right
        omega
    · right
      omega

theorem centeredUpTo_cases (lineHeight verticalOffset1 verticalOffset2 n offset centered : Int) :
    centeredUpTo lineHeight verticalOffset1 verticalOffset2 n offset centered = centered ∨
      centeredUpTo lineHeight verticalOffset1 verticalOffset2 n offset centered = n := by
  unfold centeredUpTo
  dsimp only
  split_ifs <;> simp

theorem linesLoop_spec {verticalOffset1 verticalOffset2 delta : Int} (hsorted : Sorted arr)
    (hfits : ∀ whitespace ∈ arr, whitespace.Fits) (hzones : (zonesOf arr).Perm p.zones) (fuel : Nat) :
    ∀ (n centered : Int) (done rest : List EditorWhitespace), n ≤ p.lineCount → (p.lineCount + 1 - n).toNat ≤ fuel →
      arr = done ++ rest → (∀ whitespace ∈ done, whitespace.afterLineNumber < n) →
      (∀ whitespace ∈ rest, n ≤ whitespace.afterLineNumber) →
      Covers p verticalOffset2 delta n centered (linesLoop p.lineHeight verticalOffset1 verticalOffset2 p.lineCount fuel n
        (p.top n) (p.top n - delta) rest centered) := by
  induction fuel with
  | zero =>
    intro n centered done rest hn hfuel
    omega
  | succ fuel ih =>
    intro n centered done rest hn hfuel harr hdone hrest
    subst harr
    have hrestSorted := (pairwise_append.mp hsorted).2.1
    obtain ⟨taken, left, rfl, hpush, htaken, hleft⟩ := pushDown_spec rest (p.top n + p.lineHeight)
      (p.top n - delta + p.lineHeight) hrestSorted hrest fun a ha => hfits a (mem_append_right _ ha)
    have hnext := top_next hzones hdone htaken hleft
    unfold linesLoop
    rw [if_pos hn, hpush]
    dsimp only
    have hrelative : p.top n - delta + p.lineHeight + totalHeight (zonesOf taken) = p.top (n + 1) - delta := by omega
    rw [← hnext, hrelative]
    have hcase := centeredUpTo_cases p.lineHeight verticalOffset1 verticalOffset2 n (p.top n) centered
    generalize centeredUpTo p.lineHeight verticalOffset1 verticalOffset2 n (p.top n) centered = centered' at *
    by_cases hpast : p.top (n + 1) ≥ verticalOffset2
    · rw [if_pos hpast]
      exact Covers.single hn (.inr hpast) hcase
    · rw [if_neg hpast]
      by_cases hmore : n + 1 ≤ p.lineCount
      · refine Covers.before (ih (n + 1) centered' (done ++ taken) left hmore (by omega) (by simp) ?_ hleft) hcase
        intro a ha
        rcases mem_append.mp ha with ha | ha
        · have := hdone a ha
          omega
        · have := htaken a ha
          omega
      · -- the last line, after which the loop ends
        have heq : n = p.lineCount := by omega
        have hend : linesLoop p.lineHeight verticalOffset1 verticalOffset2 p.lineCount fuel (n + 1) (p.top (n + 1))
            (p.top (n + 1) - delta) left centered' =
            { endLineNumber := p.lineCount, linesOffsets := [], centeredLineNumber := centered' } := by
          cases fuel with
          | zero => rfl
          | succ fuel =>
            unfold linesLoop
            rw [if_neg hmore]
        rw [hend, ← heq]
        exact Covers.single hn (.inl heq) hcase

end Lines

/-! ## The query -/

section LinesViewport

variable {s : LinesLayout} {p : Picture}

theorem whitespacesFrom_cut (h : Shows s p) {n : Int} (hn : IsInt32 n) :
    ∃ done, s.arr = done ++ s.whitespacesFrom n ∧ (∀ whitespace ∈ done, whitespace.afterLineNumber < n) ∧
      ∀ whitespace ∈ s.whitespacesFrom n, n ≤ whitespace.afterLineNumber := by
  have hlast := findLast_spec h.sorted n
  -- all that is before an index is above the line, and all from it on is not
  have hcut : ∀ index : Nat, (∀ i a, i < index → s.arr[i]? = some a → a.afterLineNumber < n) →
      (∀ i a, index ≤ i → s.arr[i]? = some a → n ≤ a.afterLineNumber) →
      (∀ a ∈ s.arr.take index, a.afterLineNumber < n) ∧ ∀ a ∈ s.arr.drop index, n ≤ a.afterLineNumber := by
    intro index hbefore hafter
    refine ⟨fun a ha => ?_, fun a ha => ?_⟩
    · obtain ⟨i, hi⟩ := mem_iff_getElem?.mp ha
      rw [getElem?_take] at hi
      split at hi
      · exact hbefore i a (by omega) hi
      · cases hi
    · obtain ⟨i, hi⟩ := mem_iff_getElem?.mp ha
      rw [getElem?_drop] at hi
      exact hafter _ a (by omega) hi
  unfold whitespacesFrom getFirstWhitespaceIndexAfterLineNumber findLastWhitespaceBeforeLineNumber
  rw [toInt32_eq hn, toInt32_eq hn]
  generalize hindex : nextWhitespaceIndex (findLastLoop s.arr n 0 s.arr.length) = index
  have hends : (∀ i a, i < index → s.arr[i]? = some a → a.afterLineNumber < n) ∧
      ∀ i a, index ≤ i → s.arr[i]? = some a → n ≤ a.afterLineNumber := by
    rw [← hindex]
    cases hfind : findLastLoop s.arr n 0 s.arr.length with
    | none =>
      rw [hfind] at hlast
      exact ⟨fun i a hi => absurd hi (Nat.not_lt_zero _), fun i a _ ha => hlast i a ha⟩
    | some last =>
      rw [hfind] at hlast
      obtain ⟨-, hbefore, hafter⟩ := hlast
      exact ⟨fun i a hi ha => hbefore i a (Nat.lt_succ_iff.mp hi) ha, fun i a hi ha => hafter i a hi ha⟩
  obtain ⟨htake, hdrop⟩ := hcut index hends.1 hends.2
  by_cases hlt : index < s.arr.length
  · rw [if_pos hlt]
    exact ⟨s.arr.take index, (take_append_drop _ _).symm, htake, hdrop⟩
  · rw [if_neg hlt]
    refine ⟨s.arr, (append_nil _).symm, fun a ha => htake a ?_, by simp⟩
    rw [take_of_length_le (by omega)]
    exact ha

theorem getVerticalOffsetForLineNumber_low (h : Shows s p) {lineNumber : Int} (hone : lineNumber ≤ 1)
    (hint : IsInt32 lineNumber) :
    (s.getVerticalOffsetForLineNumber lineNumber).1 =
      heightAbove p.commit.zones lineNumber + p.commit.paddingTop := by
  have hcommit := h.commit.1
  obtain ⟨hsum, hshows⟩ := getWhitespaceAccumulatedHeightBeforeLineNumber_spec hcommit lineNumber
  rw [Picture.commit_commit] at hsum hshows
  rw [toInt32_eq hint, toInt32_eq hint] at hsum
  unfold getVerticalOffsetForLineNumber
  rw [checkPendingChanges_eq]
  dsimp only
  have hzero : lineNumber - (if false then 1 else 0) = lineNumber := by simp
  rw [toInt32_eq hint, hzero, hsum, hshows.paddingTop, if_neg (by omega), Int.zero_add]

/-- A layout without lines has its last line at every offset from 0 on. -/
theorem getLineNumberAtOrAfterVerticalOffset_empty (h : Shows s p) {verticalOffset : Int} (hint : IsInt32 verticalOffset)
    (hpos : 0 ≤ verticalOffset) (hcount : IsInt32 p.commit.lineCount) (hempty : p.commit.lineCount ≤ 0) :
    (s.getLineNumberAtOrAfterVerticalOffset verticalOffset).1 = p.commit.lineCount := by
  unfold getLineNumberAtOrAfterVerticalOffset
  rw [checkPendingChanges_eq, toInt32_eq hint]
  dsimp only
  rw [if_neg (by omega), h.commit.1.lineCount, toInt32_eq hcount]
  have hfuel : p.commit.lineCount.toNat = 0 := by omega
  rw [hfuel]
  unfold lineNumberLoop
  rw [if_pos (by omega)]

/-- The search answers the line at the offset, or the last line of a layout without lines. -/
theorem getLineNumberAtOrAfterVerticalOffset_cases (h : Shows s p) {verticalOffset : Int}
    (hpos : 0 ≤ verticalOffset) (hint : IsInt32 verticalOffset) (hupright : p.commit.Upright) (hcount : IsInt32 p.commit.lineCount)
    (htops : ∀ n, 1 ≤ n → n ≤ p.commit.lineCount → IsInt32 (p.commit.top n)) :
    (s.getLineNumberAtOrAfterVerticalOffset verticalOffset).1 ≤ p.commit.lineCount ∧
      (p.commit.IsLineAt verticalOffset (s.getLineNumberAtOrAfterVerticalOffset verticalOffset).1 ∨
        p.commit.lineCount ≤ 0 ∧ (s.getLineNumberAtOrAfterVerticalOffset verticalOffset).1 = p.commit.lineCount) := by
  rcases Int.lt_or_le 0 p.commit.lineCount with hone | hempty
  · have hat := getLineNumberAtOrAfterVerticalOffset_spec h verticalOffset hint hupright.lineHeight hupright.paddingTop
      hupright.zones hone hcount htops
    exact ⟨hat.2.1, .inl hat⟩
  · have heq := getLineNumberAtOrAfterVerticalOffset_empty h hint hpos hcount hempty
    exact ⟨Int.le_of_eq heq, .inr ⟨hempty, heq⟩⟩

theorem linesLoop_single {lineHeight verticalOffset1 verticalOffset2 n offset relative centered : Int}
    (whitespaces : List EditorWhitespace) :
    ∃ centered', linesLoop lineHeight verticalOffset1 verticalOffset2 n 1 n offset relative whitespaces centered =
        { endLineNumber := n, linesOffsets := [relative], centeredLineNumber := centered' } ∧
      (centered' = centered ∨ centered' = n) := by
  refine ⟨_, ?_, centeredUpTo_cases lineHeight verticalOffset1 verticalOffset2 n offset centered⟩
  unfold linesLoop
  rw [if_pos (Int.le_refl _)]
  dsimp only
  split_ifs
  · rfl
  · unfold linesLoop
    rfl

/-- What the viewport data of lines says: it has all lines that meet the viewport, with their offsets, and the other
lines of it lie between the first and the last one. -/
structure LinesViewport (p : Picture) (offsetFor : Int → Int) (verticalOffset1 verticalOffset2 : Int)
    (data : PartialViewLinesViewportData) : Prop where
  complete : ∀ n, 1 ≤ n → n ≤ p.lineCount → verticalOffset1 < p.bottom n → p.top n < verticalOffset2 →
    data.startLineNumber ≤ n ∧ n ≤ data.endLineNumber
  length : (data.relativeVerticalOffset.length : Int) = data.endLineNumber - data.startLineNumber + 1
  offsets : ∀ (i : Nat) (offset : Int), data.relativeVerticalOffset[i]? = some offset →
    offset + data.bigNumbersDelta = offsetFor (data.startLineNumber + i)
  completelyVisible : data.startLineNumber ≤ data.completelyVisibleStartLineNumber ∧
    data.completelyVisibleStartLineNumber ≤ data.completelyVisibleEndLineNumber ∧
    data.completelyVisibleEndLineNumber ≤ data.endLineNumber
  centered : data.startLineNumber ≤ data.centeredLineNumber ∧ data.centeredLineNumber ≤ data.endLineNumber

theorem steps_inside {start stop : Int} (h : start ≤ stop) (below above : Prop) [Decidable below] [Decidable above] :
    let first := if start < stop ∧ below then start + 1 else start
    let last := if first < stop ∧ above then stop - 1 else stop
    start ≤ first ∧ first ≤ last ∧ last ≤ stop := by
  intro first last
  have hfirst : start ≤ first ∧ first ≤ stop := by
    show start ≤ (if start < stop ∧ below then start + 1 else start) ∧ _ ≤ stop
    split <;> omega
  have hlast : first ≤ last ∧ last ≤ stop := by
    show first ≤ (if first < stop ∧ above then stop - 1 else stop) ∧ _ ≤ stop
    split <;> omega
  exact ⟨hfirst.1, hlast.1, hlast.2⟩

theorem centered_inside {start stop centered : Int} (h : start ≤ stop)
    (hcentered : centered = -1 ∨ start ≤ centered ∧ centered ≤ stop) :
    start ≤ (if centered = -1 then stop else centered) ∧ (if centered = -1 then stop else centered) ≤ stop := by
  split <;> omega

theorem getLinesViewportData_shows (h : Shows s p) (verticalOffset1 verticalOffset2 : Int) :
    Shows (s.getLinesViewportData verticalOffset1 verticalOffset2).2 p.commit := by
  have hcommit := h.commit.1
  have hcommitted := Picture.commit_commit p
  unfold getLinesViewportData
  rw [checkPendingChanges_eq]
  have hline := getLineNumberAtOrAfterVerticalOffset_shows hcommit (toInt32 verticalOffset1)
  rw [hcommitted] at hline
  have hoffset := fun n => getVerticalOffsetForLineNumber_shows hline n false
  rw [hcommitted] at hoffset
  rw [← hcommitted]
  exact getVerticalOffsetForLineNumber_shows (hoffset _) _ _

/-- What the loop over the lines comes to in `getLinesViewportData`. -/
structure ViewFrom (p : Picture) (offsetFor : Int → Int) (verticalOffset1 verticalOffset2 start delta : Int)
    (view : LinesInView) : Prop where
  first : start ≤ view.endLineNumber
  complete : ∀ n, 1 ≤ n → n ≤ p.lineCount → verticalOffset1 < p.bottom n → p.top n < verticalOffset2 →
    start ≤ n ∧ n ≤ view.endLineNumber
  length : (view.linesOffsets.length : Int) = view.endLineNumber - start + 1
  offsets : ∀ (i : Nat) (offset : Int), view.linesOffsets[i]? = some offset → offset + delta = offsetFor (start + i)
  centered : view.centeredLineNumber = -1 ∨
    start ≤ view.centeredLineNumber ∧ view.centeredLineNumber ≤ view.endLineNumber

/-- From the line at the offset on, the loop covers all lines that meet the viewport. -/
theorem Covers.viewFrom {offsetFor : Int → Int} {verticalOffset1 verticalOffset2 delta start : Int} {view : LinesInView}
    (hupright : p.Upright) (hat : p.IsLineAt verticalOffset1 start)
    (hcovers : Covers p verticalOffset2 delta start (-1) view)
    (hoffsets : ∀ n, 1 ≤ n → n ≤ p.lineCount → offsetFor n = p.top n) :
    ViewFrom p offsetFor verticalOffset1 verticalOffset2 start delta view := by
  obtain ⟨hone, -, hbefore, -⟩ := hat
  have hlast := hcovers.last
  have hlength := hcovers.length
  refine ⟨hcovers.first, fun n hn hle hbottom htop => ⟨?_, ?_⟩, hlength, fun i offset hi => ?_, hcovers.centered⟩
  · by_contra hlt
    have := hbefore n hn (by omega)
    omega
  · by_contra hgt
    rcases hcovers.stops with hend | hpast
    · omega
    · have hmono := heightAbove_mono hupright.zones (by omega : view.endLineNumber + 1 ≤ n)
      have hlines := Int.mul_le_mul_of_nonneg_right (by omega : view.endLineNumber + 1 - 1 ≤ n - 1)
        (Int.le_of_lt hupright.lineHeight)
      unfold Picture.top at hpast htop
      omega
  · obtain ⟨hlt, -⟩ := List.getElem?_eq_some_iff.mp hi
    rw [hcovers.offsets i offset hi, hoffsets _ (by omega) (by omega)]

theorem getLinesViewportData_spec (h : Shows s p) {verticalOffset1 verticalOffset2 : Int} (hpos : 0 ≤ verticalOffset1)
    (hint1 : IsInt32 verticalOffset1) (hint2 : IsInt32 verticalOffset2) (hupright : p.commit.Upright)
    (hcount : IsInt32 p.commit.lineCount)
    (hzones : ∀ zone ∈ p.commit.zones, IsInt32 zone.afterLineNumber ∧ IsInt32 zone.height)
    (hoffsets : ∀ n ≤ p.commit.lineCount, 1 ≤ n ∨ n = p.commit.lineCount →
      IsInt32 (s.getVerticalOffsetForLineNumber n).1) :
    LinesViewport p.commit (fun n => (s.getVerticalOffsetForLineNumber n).1) verticalOffset1 verticalOffset2
      (s.getLinesViewportData verticalOffset1 verticalOffset2).1 := by
  have hcommit := h.commit.1
  have hcommitted := Picture.commit_commit p
  have hshows := getLineNumberAtOrAfterVerticalOffset_shows hcommit verticalOffset1
  rw [hcommitted] at hshows
  have hsame : ∀ n, IsInt32 n →
      ((s.commit.getLineNumberAtOrAfterVerticalOffset verticalOffset1).2.getVerticalOffsetForLineNumber n).1 =
        (s.getVerticalOffsetForLineNumber n).1 := by
    intro n hn
    rcases Int.lt_or_le n 1 with hzero | hone
    · rw [getVerticalOffsetForLineNumber_low h (by omega) hn, getVerticalOffsetForLineNumber_low hshows (by omega) hn,
        hcommitted]
    · rw [getVerticalOffsetForLineNumber_spec h hone hn, getVerticalOffsetForLineNumber_spec hshows hone hn, hcommitted]
  have htop : ∀ n, 1 ≤ n → n ≤ p.commit.lineCount → (s.getVerticalOffsetForLineNumber n).1 = p.commit.top n := by
    intro n hone hle
    refine getVerticalOffsetForLineNumber_spec h hone ?_
    unfold IsInt32 at *
    omega
  have hstart := getLineNumberAtOrAfterVerticalOffset_cases hcommit hpos hint1
  rw [hcommitted] at hstart
  have hstart := hstart hupright hcount fun n hone hle => by
    rw [← htop n hone hle]
    exact hoffsets n hle (.inl hone)
  unfold getLinesViewportData
  rw [checkPendingChanges_eq, toInt32_eq hint1, toInt32_eq hint2]
  dsimp only
  generalize hline : s.commit.getLineNumberAtOrAfterVerticalOffset verticalOffset1 = line at *
  obtain ⟨start, s2⟩ := line
  dsimp only at *
  obtain ⟨hle, hcase⟩ := hstart
  have hlow : 1 ≤ start ∨ start = p.commit.lineCount := by
    rcases hcase with hat | ⟨-, heq⟩
    · exact .inl hat.1
    · exact .inr heq
  have hstartInt : IsInt32 start := by
    unfold IsInt32 at *
    omega
  have hshows3 := getVerticalOffsetForLineNumber_shows hshows start false
  rw [hcommitted] at hshows3
  rw [toInt32_eq hstartInt, hsame start hstartInt, toInt32_eq (hoffsets start hle hlow)]
  generalize (s2.getVerticalOffsetForLineNumber start).2 = s3 at *
  rw [hshows3.lineCount, hshows3.lineHeight, toInt32_eq hcount]
  generalize bigNumbersDelta (s.getVerticalOffsetForLineNumber start).1 p.commit.lineHeight = delta
  have hview : ViewFrom p.commit (fun n => (s.getVerticalOffsetForLineNumber n).1) verticalOffset1 verticalOffset2 start
      delta (linesLoop p.commit.lineHeight verticalOffset1 verticalOffset2 p.commit.lineCount
        (p.commit.lineCount + 1 - start).toNat start (s.getVerticalOffsetForLineNumber start).1
        ((s.getVerticalOffsetForLineNumber start).1 - delta)
        (s3.whitespacesFrom start) (-1)) := by
    rcases hcase with hat | ⟨hempty, heq⟩
    · obtain ⟨done, harr, hdone, hrest⟩ := whitespacesFrom_cut hshows3 hstartInt
      have hfits : ∀ whitespace ∈ s3.arr, whitespace.Fits := by
        intro whitespace hmem
        exact hzones whitespace.zone (hshows3.zones.mem_iff.mp (mem_map_of_mem hmem))
      rw [htop start hat.1 hle]
      exact (linesLoop_spec hshows3.sorted hfits hshows3.zones _ start (-1) done _ hle (Nat.le_refl _) harr hdone
        hrest).viewFrom hupright hat htop
    · have hfuel : (p.commit.lineCount + 1 - p.commit.lineCount).toNat = 1 := by omega
      rw [heq, hfuel]
      obtain ⟨centered, hloop, hcentered⟩ := linesLoop_single _
      rw [hloop]
      refine ⟨Int.le_refl _, fun n hone hle => by omega, ?_, fun i offset hi => ?_, ?_⟩
      · show (1 : Int) = p.commit.lineCount - p.commit.lineCount + 1
        omega
      · cases i with
        | zero =>
          have hoffset : offset = (s.getVerticalOffsetForLineNumber p.commit.lineCount).1 - delta := by
            simpa using hi.symm
          rw [hoffset, Int.sub_add_cancel]
          show _ = (s.getVerticalOffsetForLineNumber (p.commit.lineCount + 0)).1
          rw [Int.add_zero]
        | succ i => cases hi
      · rcases hcentered with hc | hc
        · exact .inl hc
        · right
          show p.commit.lineCount ≤ centered ∧ centered ≤ p.commit.lineCount
          omega
  exact ⟨hview.complete, hview.length, hview.offsets, steps_inside hview.first _ _,
    centered_inside hview.first hview.centered⟩

end LinesViewport

end TongjiCode.ViewLayout
