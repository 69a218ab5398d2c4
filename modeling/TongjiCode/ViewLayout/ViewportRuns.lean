import TongjiCode.ViewLayout.LinesViewport
import TongjiCode.ViewLayout.WhitespacesViewport

/-!
# The viewport in every run

The calls of a layout, those for its viewport among them, keep it in step with its picture (`viewportRun_shows`), so
what is said of the viewport holds whenever it is asked for (`viewport_shows_what_meets_it`).
-/

namespace TongjiCode.ViewLayout

open LinesLayout

/-- The calls of a layout, those for the viewport included. -/
inductive ViewportOp where
  | layout (op : Op)
  | linesViewportData (verticalOffset1 verticalOffset2 : Int)
  | verticalOffsetForWhitespaceIndex (whitespaceIndex : Nat)
  | whitespaceIndexAt (verticalOffset : Int)
  | whitespaceViewportData (verticalOffset1 verticalOffset2 : Int)

def LinesLayout.viewportStep (s : LinesLayout) : ViewportOp → LinesLayout
  | .layout op => s.step op
  | .linesViewportData verticalOffset1 verticalOffset2 => (s.getLinesViewportData verticalOffset1 verticalOffset2).2
  -- an index without a whitespace throws
  | .verticalOffsetForWhitespaceIndex whitespaceIndex =>
    if whitespaceIndex < s.commit.arr.length then (s.getVerticalOffsetForWhitespaceIndex whitespaceIndex).2
    else s.commit
  | .whitespaceIndexAt verticalOffset => (s.getWhitespaceIndexAtOrAfterVerticallOffset verticalOffset).2
  | .whitespaceViewportData verticalOffset1 verticalOffset2 =>
    (s.getWhitespaceViewportData verticalOffset1 verticalOffset2).2

def Picture.viewportStep (p : Picture) : ViewportOp → Picture
  | .layout op => p.step op
  | _ => p.commit

def ViewportOp.Sensible : ViewportOp → Prop
  | .layout op => op.Sensible
  | _ => True

section ViewportRuns

variable {s : LinesLayout} {p : Picture}

theorem Shows.inOrder (h : Shows s p) (hupright : p.Upright) : InOrder p.commit (zonesOf s.commit.arr) := by
  have hcommit := h.commit.1
  refine ⟨hupright.commit, fun zone hzone => ?_, (sorted_iff _).mp hcommit.sorted⟩
  exact hupright.commit.zones zone (hcommit.zones.mem_iff.mp hzone)

theorem viewportStep_shows (h : Shows s p) (hupright : p.Upright) {op : ViewportOp} (hop : op.Sensible) :
    Shows (s.viewportStep op) (p.viewportStep op) ∧ (p.viewportStep op).Upright := by
  have horder := h.inOrder hupright
  have hordered := Ordered.of_shows h
  have hcommit : s.checkPendingChanges = s.commit.checkPendingChanges := by
    rw [checkPendingChanges_eq, checkPendingChanges_eq, h.commit_commit]
  cases op with
  | layout op => exact ⟨step_shows h hop, Picture.step_upright hupright hop⟩
  | linesViewportData verticalOffset1 verticalOffset2 =>
    exact ⟨getLinesViewportData_shows h verticalOffset1 verticalOffset2, hupright.commit⟩
  | verticalOffsetForWhitespaceIndex whitespaceIndex =>
    refine ⟨?_, hupright.commit⟩
    unfold LinesLayout.viewportStep
    dsimp only
    split
    · next hlt =>
      have hlt' : whitespaceIndex < (zonesOf s.commit.arr).length := by rwa [zonesOf_length]
      have hsame : s.getVerticalOffsetForWhitespaceIndex whitespaceIndex =
          s.commit.getVerticalOffsetForWhitespaceIndex whitespaceIndex := by
        unfold getVerticalOffsetForWhitespaceIndex
        rw [hcommit]
      rw [hsame]
      exact (getVerticalOffsetForWhitespaceIndex_spec hordered (List.getElem?_eq_getElem hlt')).2.shows
    · exact h.commit.1
  | whitespaceIndexAt verticalOffset =>
    have hsame : s.getWhitespaceIndexAtOrAfterVerticallOffset verticalOffset =
        s.commit.getWhitespaceIndexAtOrAfterVerticallOffset verticalOffset := by
      unfold getWhitespaceIndexAtOrAfterVerticallOffset
      rw [hcommit]
    refine ⟨?_, hupright.commit⟩
    show Shows (s.getWhitespaceIndexAtOrAfterVerticallOffset verticalOffset).2 p.commit
    rw [hsame]
    exact (getWhitespaceIndexAtOrAfterVerticallOffset_spec hordered horder verticalOffset).2.shows
  | whitespaceViewportData verticalOffset1 verticalOffset2 =>
    have hsame : s.getWhitespaceViewportData verticalOffset1 verticalOffset2 =
        s.commit.getWhitespaceViewportData verticalOffset1 verticalOffset2 := by
      unfold getWhitespaceViewportData
      rw [hcommit]
    refine ⟨?_, hupright.commit⟩
    show Shows (s.getWhitespaceViewportData verticalOffset1 verticalOffset2).2 p.commit
    rw [hsame]
    exact (getWhitespaceViewportData_ordered hordered horder verticalOffset1 verticalOffset2).shows

theorem viewportRun_shows (ops : List ViewportOp) : ∀ {s : LinesLayout} {p : Picture}, Shows s p → p.Upright →
    (∀ op ∈ ops, op.Sensible) →
    Shows (ops.foldl LinesLayout.viewportStep s) (ops.foldl Picture.viewportStep p) ∧
      (ops.foldl Picture.viewportStep p).Upright := by
  induction ops with
  | nil => exact fun h hupright _ => ⟨h, hupright⟩
  | cons op ops ih =>
    intro s p h hupright hops
    obtain ⟨h', hupright'⟩ := viewportStep_shows h hupright (hops op List.mem_cons_self)
    exact ih h' hupright' fun op' hop' => hops op' (List.mem_cons_of_mem _ hop')

end ViewportRuns

/-- After any calls, the viewport data of lines is complete and agrees with the offsets of the lines, and the viewport
data of whitespaces has those that meet the viewport, in the order of the layout.  The numbers that the class puts
through `| 0` are signed 32-bit integers. -/
theorem viewport_shows_what_meets_it (lineCount lineHeight paddingTop paddingBottom : Int) (ops : List ViewportOp)
    (verticalOffset1 verticalOffset2 : Int) (hheight : 0 < lineHeight) (hpadding : 0 ≤ paddingTop)
    (hops : ∀ op ∈ ops, op.Sensible) (hpos : 0 ≤ verticalOffset1) (hlt : verticalOffset1 < verticalOffset2)
    (hint : IsInt32 verticalOffset2) :
    let s : LinesLayout := ops.foldl LinesLayout.viewportStep { lineCount, lineHeight, paddingTop, paddingBottom }
    let p : Picture := (ops.foldl Picture.viewportStep { lineCount, lineHeight, paddingTop, paddingBottom }).commit
    let zones := zonesOf s.commit.arr
    (IsInt32 p.lineCount → (∀ zone ∈ p.zones, IsInt32 zone.afterLineNumber ∧ IsInt32 zone.height) →
        (∀ n ≤ p.lineCount, 1 ≤ n ∨ n = p.lineCount → IsInt32 (s.getVerticalOffsetForLineNumber n).1) →
        LinesViewport p (fun n => (s.getVerticalOffsetForLineNumber n).1) verticalOffset1 verticalOffset2
          (s.getLinesViewportData verticalOffset1 verticalOffset2).1) ∧
      zones.Perm p.zones ∧ (zones.Pairwise fun a b => a.afterLineNumber ≤ b.afterLineNumber) ∧
      (s.getWhitespaceViewportData verticalOffset1 verticalOffset2).1 =
        (placed p zones).filter fun whitespace =>
          whitespace.verticalOffset + whitespace.height > verticalOffset1 ∧
            whitespace.verticalOffset < verticalOffset2 := by
  intro s p zones
  have hint1 : IsInt32 verticalOffset1 := by
    unfold IsInt32 at *
    omega
  have hnew : Picture.Upright { lineCount, lineHeight, paddingTop, paddingBottom } := by
    refine ⟨hheight, hpadding, ?_, ?_, ?_⟩ <;> exact fun _ hmem => by cases hmem
  obtain ⟨hshows, hupright⟩ := viewportRun_shows ops (shows_new lineCount lineHeight paddingTop paddingBottom) hnew hops
  have horder := hshows.inOrder hupright
  refine ⟨fun hcount hzones hoffsets => ?_, hshows.commit.1.zones, horder.sorted, ?_⟩
  · exact getLinesViewportData_spec hshows hpos hint1 hint hupright.commit hcount hzones hoffsets
  · have hsame : s.getWhitespaceViewportData verticalOffset1 verticalOffset2 =
        s.commit.getWhitespaceViewportData verticalOffset1 verticalOffset2 := by
      unfold getWhitespaceViewportData
      rw [checkPendingChanges_eq, checkPendingChanges_eq, hshows.commit_commit]
    rw [hsame]
    exact getWhitespaceViewportData_spec (Ordered.of_shows hshows) horder hint1 hint

/-- Three lines of ten pixels with a whitespace of five after the first one, seen from 12 to 22. -/
theorem viewport_of_three_lines :
    let ops : List ViewportOp := [.layout (.insertWhitespace 1 0 5), .linesViewportData 0 10]
    let s : LinesLayout := ops.foldl LinesLayout.viewportStep
      { lineCount := 3, lineHeight := 10, paddingTop := 0, paddingBottom := 0 }
    let p : Picture := { lineCount := 3, lineHeight := 10, paddingTop := 0, paddingBottom := 0,
                         zones := [{ id := 1, afterLineNumber := 1, height := 5 }], lastId := 1 }
    LinesViewport p (fun n => (s.getVerticalOffsetForLineNumber n).1) 12 22 (s.getLinesViewportData 12 22).1 ∧
      (s.getWhitespaceViewportData 12 22).1 =
        [{ id := 1, afterLineNumber := 1, verticalOffset := 10, height := 5 }] := by
  intro ops s p
  have hops : ∀ op ∈ ops, op.Sensible := by
    intro op hop
    simp only [ops, List.mem_cons, List.not_mem_nil, or_false] at hop
    rcases hop with rfl | rfl
    · unfold ViewportOp.Sensible Op.Sensible IsInt32
      decide
    · trivial
  obtain ⟨hlines, -, -, hdata⟩ := viewport_shows_what_meets_it 3 10 0 0 ops 12 22 (by decide) (by decide) hops (by decide)
    (by decide) (by decide)
  refine ⟨hlines (by decide) (by decide) fun n hle hone => ?_, ?_⟩
  · have hn : n = 1 ∨ n = 2 ∨ n = 3 := by
      change n ≤ 3 at hle
      change 1 ≤ n ∨ n = 3 at hone
      omega
    rcases hn with rfl | rfl | rfl
    · decide +kernel
    · decide +kernel
    · decide +kernel
  · rw [hdata]
    decide +kernel

/-- The end `2^31` is taken for a negative one, so the viewport ends with the first line, above the second one that
meets it. -/
theorem large_viewport_leaves_out_second_line :
    let s : LinesLayout := { lineCount := 2, lineHeight := 10, paddingTop := 0, paddingBottom := 0 }
    let p : Picture := { lineCount := 2, lineHeight := 10, paddingTop := 0, paddingBottom := 0 }
    ¬LinesViewport p (fun n => (s.getVerticalOffsetForLineNumber n).1) 0 (2 ^ 31)
      (s.getLinesViewportData 0 (2 ^ 31)).1 := by
  intro s p h
  have hinside := h.complete 2 (by decide) (by decide) (by decide) (by decide)
  exact absurd hinside.2 (by decide +kernel)

end TongjiCode.ViewLayout
