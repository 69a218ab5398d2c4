import TongjiCode.Base.LineBreaks
import TongjiCode.PieceTree.RbTree

/-!
# Piece tree: buffers and cursors

A cursor names an offset of a buffer by a line of the buffer and a column.  `cursorAt text o` is the one
cursor the operations of the tree use for the offset `o`: its line is the last one that starts at or
before `o`.  It depends on the text in front of `o` and on the next unit only, so it stays when a buffer
grows (`cursorAt_append`).
-/

open List

namespace TongjiCode.PieceTree

open JsString

/-! ## Algorithm -/

structure StringBuffer where
  buffer : JsString
  lineStarts : List Nat
  deriving Repr, DecidableEq

def offsetInBuffer (b : StringBuffer) (cursor : BufferCursor) : Nat :=
  b.lineStarts.getD cursor.line 0 + cursor.column

/-- The line feeds between two cursors.  The start does not matter, but where the end is between `\r` and
`\n`, one is added. -/
def getLineFeedCnt (b : StringBuffer) (start stop : BufferCursor) : Nat :=
  if stop.column = 0 then stop.line - start.line
  else if stop.line = b.lineStarts.length - 1 then stop.line - start.line
  else
    let nextLineStartOffset := b.lineStarts.getD (stop.line + 1) 0
    let endOffset := b.lineStarts.getD stop.line 0 + stop.column
    if nextLineStartOffset > endOffset + 1 then stop.line - start.line
    else
      let previousCharOffset := endOffset - 1
      if b.buffer[previousCharOffset]? = some carriageReturn then stop.line - start.line + 1
      else stop.line - start.line

/-- The binary search of `positionInBuffer`; `mid` is the line of the turn before. -/
def searchLine (lineStarts : List Nat) (offset : Nat) (low high mid : Nat) : Nat :=
  if h : low ≤ high then
    let mid := low + (high - low) / 2
    if mid = high then mid
    else if offset < lineStarts.getD mid 0 then
      if mid = 0 then mid else searchLine lineStarts offset low (mid - 1) mid
    else if offset ≥ lineStarts.getD (mid + 1) 0 then searchLine lineStarts offset (mid + 1) high mid
    else mid
  else mid
termination_by high + 1 - low

def positionInBuffer (b : StringBuffer) (piece : Piece) (remainder : Nat) : BufferCursor :=
  let startOffset := b.lineStarts.getD piece.start.line 0 + piece.start.column
  let offset := startOffset + remainder
  let line := searchLine b.lineStarts offset piece.start.line piece.stop.line 0
  ⟨line, offset - b.lineStarts.getD line 0⟩

/-! ## Cursors -/

def startsUpTo (text : JsString) (o : Nat) : List Nat := 0 :: lineEnds 0 (text.drop o).head? (text.take o)

def cursorAt (text : JsString) (o : Nat) : BufferCursor :=
  ⟨breaks (text.drop o).head? (text.take o), o - (startsUpTo text o).getLastD 0⟩

def StringBuffer.Ok (b : StringBuffer) : Prop := b.lineStarts = createLineStartsFast b.buffer

instance (b : StringBuffer) : Decidable b.Ok := inferInstanceAs (Decidable (_ = _))

theorem startsUpTo_length (text : JsString) (o : Nat) : (startsUpTo text o).length = (cursorAt text o).line + 1 := by
  rw [startsUpTo, length_cons, lineEnds_length]
  rfl

theorem createLineStartsFast_eq (text : JsString) (o : Nat) :
    createLineStartsFast text = startsUpTo text o ++ lineEnds (text.take o).length none (text.drop o) := by
  have h := lineEnds_append (text.take o) (text.drop o) none 0
  rw [take_append_drop, Option.or_none, Nat.zero_add] at h
  rw [createLineStartsFast, createLineStartsLoop_eq, startsUpTo, h, cons_append]

theorem startsUpTo_le {text : JsString} {o : Nat} : ∀ x ∈ startsUpTo text o, x ≤ o := by
  intro x hx
  rcases mem_cons.mp hx with rfl | hx
  · exact Nat.zero_le o
  · have := (lineEnds_bounds _ _ 0 x hx).2
    rw [length_take] at this
    omega

section Cursor

variable {text : JsString} {o : Nat}

theorem getLastD_le : (startsUpTo text o).getLastD 0 ≤ o := by
  have hne : startsUpTo text o ≠ [] := by simp [startsUpTo]
  exact startsUpTo_le _ (getLast_mem hne)

/-- Lines up to the one of `o` start at or before `o`, later ones behind it. -/
theorem lineStart_le_iff (ho : o ≤ text.length) {k : Nat} (hk : k < (createLineStartsFast text).length) :
    (createLineStartsFast text).getD k 0 ≤ o ↔ k ≤ (cursorAt text o).line := by
  have hlen := startsUpTo_length text o
  have heq := createLineStartsFast_eq text o
  rw [heq, getD_eq_getElem?_getD]
  by_cases h : k < (startsUpTo text o).length
  · rw [getElem?_append_left h, getElem?_eq_getElem h, Option.getD_some]
    have := startsUpTo_le _ (getElem_mem h)
    omega
  · rw [getElem?_append_right (by omega)]
    rw [heq, length_append] at hk
    have hlt : k - (startsUpTo text o).length < (lineEnds (text.take o).length none (text.drop o)).length := by omega
    rw [getElem?_eq_getElem hlt, Option.getD_some]
    have := (lineEnds_bounds _ _ _ _ (getElem_mem hlt)).1
    have htake : (text.take o).length = o := by simp [ho]
    omega

theorem cursorAt_line_lt (text : JsString) (o : Nat) : (cursorAt text o).line < (createLineStartsFast text).length := by
  have hlen := startsUpTo_length text o
  rw [createLineStartsFast_eq text o, length_append]
  omega

theorem lineStart_cursorAt : (createLineStartsFast text).getD (cursorAt text o).line 0 =
    (startsUpTo text o).getLastD 0 := by
  have hlen := startsUpTo_length text o
  have hlt : (cursorAt text o).line < (startsUpTo text o).length := by omega
  rw [createLineStartsFast_eq text o, getD_eq_getElem?_getD, getElem?_append_left hlt,
    getLastD_eq_getLast?, getLast?_eq_getElem?, hlen]
  rfl

theorem offset_cursorAt {b : StringBuffer} (hb : b.Ok) (o : Nat) : offsetInBuffer b (cursorAt b.buffer o) = o := by
  have hle : (startsUpTo b.buffer o).getLastD 0 ≤ o := getLastD_le
  rw [offsetInBuffer, hb, lineStart_cursorAt]
  exact Nat.add_sub_cancel' hle

theorem cursorAt_line_mono {o o' : Nat} (h : o ≤ o') (ho' : o' ≤ text.length) :
    (cursorAt text o).line ≤ (cursorAt text o').line := by
  have hlt := cursorAt_line_lt text o
  rw [← lineStart_le_iff ho' hlt, lineStart_cursorAt]
  have hle : (startsUpTo text o).getLastD 0 ≤ o := getLastD_le
  omega

theorem searchLine_eq (ho : o ≤ text.length) (low high mid : Nat) : low ≤ (cursorAt text o).line →
    (cursorAt text o).line ≤ high → high < (createLineStartsFast text).length →
    searchLine (createLineStartsFast text) o low high mid = (cursorAt text o).line := by
  induction low, high, mid using searchLine.induct (createLineStartsFast text) o with
  | case1 low high mid hle mid' hmid =>
    intro h1 h2 h3
    rw [searchLine]
    simp only [hle, dif_pos]
    have : low + (high - low) / 2 = high := hmid
    rw [if_pos this]
    omega
  | case2 low high mid hle mid' hmid hlt hzero =>
    intro h1 h2 h3
    rw [createLineStartsFast] at hlt
    have : mid' = 0 := hzero
    rw [this] at hlt
    simp at hlt
  | case3 low high mid hle mid' hmid hlt hne ih =>
    intro h1 h2 h3
    have hmid' : low + (high - low) / 2 ≠ high := hmid
    have hline : ¬ low + (high - low) / 2 ≤ (cursorAt text o).line := by
      rw [← lineStart_le_iff ho (by omega)]
      have : o < (createLineStartsFast text).getD (low + (high - low) / 2) 0 := hlt
      omega
    rw [searchLine]
    simp only [hle, dif_pos]
    rw [if_neg hmid', if_pos hlt, if_neg hne]
    exact ih h1 (by omega) (by omega)
  | case4 low high mid hle mid' hmid hnlt hge ih =>
    intro h1 h2 h3
    have hmid' : low + (high - low) / 2 ≠ high := hmid
    have hline : low + (high - low) / 2 + 1 ≤ (cursorAt text o).line := by
      rw [← lineStart_le_iff ho (by omega)]
      exact hge
    rw [searchLine]
    simp only [hle, dif_pos]
    rw [if_neg hmid', if_neg hnlt, if_pos hge]
    exact ih hline h2 h3
  | case5 low high mid hle mid' hmid hnlt hnge =>
    intro h1 h2 h3
    have hmid' : low + (high - low) / 2 ≠ high := hmid
    have h4 : low + (high - low) / 2 ≤ (cursorAt text o).line := by
      rw [← lineStart_le_iff ho (by omega)]
      have : ¬ o < (createLineStartsFast text).getD (low + (high - low) / 2) 0 := hnlt
      omega
    have h5 : ¬ low + (high - low) / 2 + 1 ≤ (cursorAt text o).line := by
      rw [← lineStart_le_iff ho (by omega)]
      exact hnge
    rw [searchLine]
    simp only [hle, dif_pos]
    rw [if_neg hmid', if_neg hnlt, if_neg hnge]
    omega
  | case6 low high mid hgt =>
    intro h1 h2 h3
    omega

end Cursor

/-! ## Pieces -/

/-- The piece covers the offsets from `s` to `e` of a buffer. -/
structure PieceAt (b : StringBuffer) (p : Piece) (s e : Nat) : Prop where
  start : p.start = cursorAt b.buffer s
  stop : p.stop = cursorAt b.buffer e
  le : s ≤ e
  bound : e ≤ b.buffer.length
  length : p.length = e - s

/-- The unit before an offset and the unit behind it are a `\r` and a `\n`. -/
def splitsCrLf (text : JsString) (o : Nat) : Prop :=
  (text.take o).getLast? = some carriageReturn ∧ (text.drop o).head? = some lineFeed

instance (text : JsString) (o : Nat) : Decidable (splitsCrLf text o) := inferInstanceAs (Decidable (_ ∧ _))

section PieceAt

variable {b : StringBuffer} {p : Piece} {s e : Nat}

theorem positionInBuffer_eq (hb : b.Ok) (h : PieceAt b p s e) {remainder : Nat} (hr : s + remainder ≤ e) :
    positionInBuffer b p remainder = cursorAt b.buffer (s + remainder) := by
  have hoff : b.lineStarts.getD p.start.line 0 + p.start.column = s := by
    have := offset_cursorAt hb s
    rw [offsetInBuffer, ← h.start] at this
    exact this
  have ho : s + remainder ≤ b.buffer.length := Nat.le_trans hr h.bound
  have hline : searchLine b.lineStarts (s + remainder) p.start.line p.stop.line 0 =
      (cursorAt b.buffer (s + remainder)).line := by
    rw [hb, h.start, h.stop]
    exact searchLine_eq ho _ _ _ (cursorAt_line_mono (by omega) ho) (cursorAt_line_mono hr h.bound)
      (cursorAt_line_lt _ _)
  unfold positionInBuffer
  rw [hoff]
  dsimp only
  rw [hline, hb, lineStart_cursorAt]
  rfl

theorem breaks_between (text : JsString) {s e : Nat} (h : s ≤ e) :
    (cursorAt text e).line = (cursorAt text s).line + breaks (text.drop e).head? (text.substring s e) := by
  have hhead : (text.substring s e).head?.or (text.drop e).head? = (text.drop s).head? := by
    rw [text.drop_eq_append h]
    cases text.substring s e <;> simp
  simp only [cursorAt]
  rw [text.take_eq_append h, breaks_append, hhead]

end PieceAt

/-! ## Neighbouring cursors -/

section Neighbours

variable {text : JsString} {o : Nat} {c : UInt16}

theorem startsUpTo_succ (hc : text[o]? = some c) : startsUpTo text (o + 1) =
    startsUpTo text o ++ if endsLine c (text.drop (o + 1)).head? then [o + 1] else [] := by
  have hlt : o < text.length := (List.getElem?_eq_some_iff.mp hc).1
  have hhead : (text.drop o).head? = some c := by rw [List.head?_drop, hc]
  have htake : text.take (o + 1) = text.take o ++ [c] := by
    rw [take_add_one, hc]
    rfl
  have hlen : (text.take o).length = o := by simp; omega
  rw [startsUpTo, htake, lineEnds_append, hlen, startsUpTo, hhead, Nat.zero_add, cons_append]
  rfl

theorem cursorAt_succ_of_ends (hc : text[o]? = some c) (h : endsLine c (text.drop (o + 1)).head? = true) :
    cursorAt text (o + 1) = ⟨(cursorAt text o).line + 1, 0⟩ := by
  have hstarts := startsUpTo_succ hc
  rw [if_pos h] at hstarts
  have hline := startsUpTo_length text (o + 1)
  rw [hstarts, length_append, startsUpTo_length] at hline
  have hcol : (cursorAt text (o + 1)).column = 0 := by
    simp only [cursorAt]
    rw [hstarts, getLastD_eq_getLast?, getLast?_append]
    simp
  cases hcur : cursorAt text (o + 1) with
  | mk line column =>
    rw [hcur] at hline hcol
    simp only [length_singleton] at hline hcol
    rw [BufferCursor.mk.injEq]
    omega

theorem cursorAt_succ_of_not_ends (hc : text[o]? = some c) (h : endsLine c (text.drop (o + 1)).head? = false) :
    cursorAt text (o + 1) = ⟨(cursorAt text o).line, (cursorAt text o).column + 1⟩ := by
  have hstarts := startsUpTo_succ hc
  rw [h, if_neg Bool.false_ne_true, append_nil] at hstarts
  have hline := startsUpTo_length text (o + 1)
  rw [hstarts, startsUpTo_length] at hline
  have hle : (startsUpTo text o).getLastD 0 ≤ o := getLastD_le
  have hcol : (cursorAt text (o + 1)).column = (cursorAt text o).column + 1 := by
    simp only [cursorAt]
    rw [hstarts]
    omega
  cases hcur : cursorAt text (o + 1) with
  | mk line column =>
    rw [hcur] at hline hcol
    dsimp only at hline hcol
    rw [BufferCursor.mk.injEq]
    exact ⟨by omega, hcol⟩

theorem getLast?_take {o : Nat} (ho : o < text.length) : (text.take (o + 1)).getLast? = text[o]? := by
  rw [getLast?_eq_getElem?, length_take, Nat.min_eq_left (by omega), getElem?_take]
  simp

theorem getLineFeedCnt_eq {b : StringBuffer} (hb : b.Ok) {s e : Nat} (hse : s ≤ e) (he : e ≤ b.buffer.length) :
    getLineFeedCnt b (cursorAt b.buffer s) (cursorAt b.buffer e) =
      breaks (b.buffer.drop e).head? (b.buffer.substring s e) + if splitsCrLf b.buffer e then 1 else 0 := by
  have hdiff : (cursorAt b.buffer e).line - (cursorAt b.buffer s).line =
      breaks (b.buffer.drop e).head? (b.buffer.substring s e) := by
    rw [breaks_between b.buffer hse, Nat.add_sub_cancel_left]
  -- what follows where the end splits `\r\n`
  have hsplit : splitsCrLf b.buffer e → (cursorAt b.buffer e).column ≠ 0 ∧
      cursorAt b.buffer (e + 1) = ⟨(cursorAt b.buffer e).line + 1, 0⟩ ∧ b.buffer[e - 1]? = some carriageReturn := by
    rintro ⟨hcr, hlf⟩
    obtain ⟨o, rfl⟩ : ∃ o, e = o + 1 := by
      cases e with
      | zero => simp at hcr
      | succ o => exact ⟨o, rfl⟩
    rw [getLast?_take (by omega)] at hcr
    rw [List.head?_drop] at hlf
    refine ⟨?_, cursorAt_succ_of_ends hlf (endsLine_lf _), hcr⟩
    rw [cursorAt_succ_of_not_ends hcr (by rw [List.head?_drop, hlf]; exact endsLine_cr_lf)]
    exact Nat.succ_ne_zero _
  unfold getLineFeedCnt
  rw [hdiff, hb]
  split
  · next hcol => rw [if_neg fun h => (hsplit h).1 hcol, Nat.add_zero]
  · next hcol =>
    split
    · next hlast =>
      rw [if_neg, Nat.add_zero]
      intro h
      have := cursorAt_line_lt b.buffer (e + 1)
      rw [(hsplit h).2.1] at this
      dsimp only at this
      omega
    · next hlast =>
      have hoff := offset_cursorAt hb e
      rw [offsetInBuffer, hb] at hoff
      rw [hoff]
      dsimp only
      split
      · next hfar =>
        rw [if_neg, Nat.add_zero]
        intro h
        have hoff' := offset_cursorAt hb (e + 1)
        rw [offsetInBuffer, hb, (hsplit h).2.1] at hoff'
        dsimp only at hoff'
        omega
      · next hnear =>
        by_cases hcr : b.buffer[e - 1]? = some carriageReturn
        · rw [if_pos hcr, if_pos]
          obtain ⟨o, rfl⟩ : ∃ o, e = o + 1 := by
            cases e with
            | zero => exact (hcol rfl).elim
            | succ o => exact ⟨o, rfl⟩
          rw [Nat.add_sub_cancel] at hcr
          refine ⟨by rw [getLast?_take (by omega)]; exact hcr, ?_⟩
          by_contra hlf
          refine hcol ?_
          rw [cursorAt_succ_of_ends hcr (endsLine_of_eol (.inl rfl) fun h => hlf h.2)]
        · rw [if_neg hcr, if_neg fun h => hcr (hsplit h).2.2, Nat.add_zero]

/-- The line feeds of a piece that is not empty are the line breaks of its text. -/
theorem getLineFeedCnt_eq_eolCount {b : StringBuffer} (hb : b.Ok) {s e : Nat} (hse : s < e)
    (he : e ≤ b.buffer.length) : getLineFeedCnt b (cursorAt b.buffer s) (cursorAt b.buffer e) =
      eolCount (b.buffer.substring s e) := by
  rw [getLineFeedCnt_eq hb (by omega) he, eolCount_eq, breaks_none _ (b.buffer.drop e).head?]
  have hlast : (b.buffer.take e).getLast? = (b.buffer.substring s e).getLast? := by
    rw [b.buffer.take_eq_append (show s ≤ e by omega), getLast?_append]
    have hne : b.buffer.substring s e ≠ [] := by
      intro hnil
      have hlen : (b.buffer.substring s e).length = e - s := substring_length he
      rw [hnil, length_nil] at hlen
      omega
    rw [getLast?_eq_some_getLast hne, Option.some_or]
  simp only [splitsCrLf, hlast]

end Neighbours

end TongjiCode.PieceTree
