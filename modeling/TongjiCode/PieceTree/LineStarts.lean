import TongjiCode.PieceTree.Invariant
import TongjiCode.PieceTree.Reads

/-!
# Piece tree: where lines start

`lineStartAt text k` is where the line `k` of a text starts, lines behind the last one starting at its end.
In a text made of two parts that no `\r\n` joins, lines start where they start in the parts.  For a piece
the buffer gives the same places: `getAccumulatedValue` is the start of a line of the piece's text, and
`getIndexOf` is the cursor of an offset in it.
-/

open List

namespace TongjiCode.PieceTree

open JsString

def lineStartAt (text : JsString) (k : Nat) : Nat := (createLineStartsFast text).getD k text.length

section LineStartAt

variable {a b text : JsString} {k o : Nat}

theorem lineStartAt_zero (text : JsString) : lineStartAt text 0 = 0 := rfl

theorem lineStartAt_of_lt (h : eolCount text < k) : lineStartAt text k = text.length := by
  rw [lineStartAt, getD_eq_getElem?_getD, getElem?_eq_none]
  · rfl
  · rw [createLineStartsFast_length]
    omega

theorem lineStartAt_eq_getD (h : k ≤ eolCount text) : (createLineStartsFast text).getD k 0 = lineStartAt text k := by
  have hlt : k < (createLineStartsFast text).length := by
    rw [createLineStartsFast_length]
    omega
  rw [lineStartAt, getD_eq_getElem?_getD, getD_eq_getElem?_getD, getElem?_eq_getElem hlt]
  rfl

theorem lineStartAt_append_left (h : ¬ Junction a b) (hk : k ≤ eolCount a) :
    lineStartAt (a ++ b) k = lineStartAt a k := by
  have hlt : k < (createLineStartsFast a).length := by
    rw [createLineStartsFast_length]
    omega
  rw [lineStartAt, lineStartAt, createLineStartsFast_append h, getD_eq_getElem?_getD,
    getD_eq_getElem?_getD, getElem?_append_left hlt, getElem?_eq_getElem hlt]
  rfl

theorem lineStartAt_append_right (h : ¬ Junction a b) (hk : eolCount a < k) :
    lineStartAt (a ++ b) k = a.length + lineStartAt b (k - eolCount a) := by
  have hlen := createLineStartsFast_length a
  obtain ⟨j, rfl⟩ : ∃ j, k = eolCount a + 1 + j := ⟨k - (eolCount a + 1), by omega⟩
  have hshift : lineEnds a.length none b = (lineEnds 0 none b).map (· + a.length) := by
    have := lineEnds_add b none a.length 0
    rwa [Nat.zero_add] at this
  rw [lineStartAt, lineStartAt, createLineStartsFast_append h, getD_eq_getElem?_getD,
    getD_eq_getElem?_getD, getElem?_append_right (by omega), hlen, hshift, getElem?_map,
    createLineStartsFast, createLineStartsLoop_eq, show eolCount a + 1 + j - (eolCount a + 1) = j by omega,
    show eolCount a + 1 + j - eolCount a = j + 1 by omega, getElem?_cons_succ, length_append]
  cases (lineEnds 0 none b)[j]? with
  | none => rfl
  | some x => exact Nat.add_comm x a.length

theorem lineStartAt_le_length (text : JsString) (k : Nat) : lineStartAt text k ≤ text.length := by
  by_cases hk : k < (createLineStartsFast text).length
  · rw [lineStartAt, getD_eq_getElem?_getD, getElem?_eq_getElem hk, Option.getD_some]
    have hall : ∀ x ∈ createLineStartsFast text, x ≤ text.length := by
      rw [createLineStartsFast_eq_startsUpTo]
      exact startsUpTo_le
    exact hall _ (getElem_mem hk)
  · rw [createLineStartsFast_length] at hk
    rw [lineStartAt_of_lt (by omega)]

theorem cursorAt_line_le (text : JsString) (o : Nat) : (cursorAt text o).line ≤ eolCount text := by
  have := cursorAt_line_lt text o
  rw [createLineStartsFast_length] at this
  omega

theorem lineStartAt_cursorAt (text : JsString) (o : Nat) :
    lineStartAt text (cursorAt text o).line + (cursorAt text o).column = o := by
  have hle : (startsUpTo text o).getLastD 0 ≤ o := getLastD_le
  rw [← lineStartAt_eq_getD (cursorAt_line_le text o), lineStart_cursorAt]
  exact Nat.add_sub_cancel' hle

theorem le_lineStartAt_succ (ho : o ≤ text.length) : o ≤ lineStartAt text ((cursorAt text o).line + 1) := by
  by_cases hk : (cursorAt text o).line + 1 ≤ eolCount text
  · have hiff := lineStart_le_iff ho (show (cursorAt text o).line + 1 < (createLineStartsFast text).length by
      rw [createLineStartsFast_length]
      omega)
    rw [lineStartAt_eq_getD hk] at hiff
    omega
  · rw [lineStartAt_of_lt (by omega)]
    exact ho

theorem cursorAt_end_line (text : JsString) : (cursorAt text text.length).line = eolCount text := by
  rw [cursorAt_length, createLineStartsFast_length]
  rfl

/-! ## Cursors in the rest of a text -/

theorem startsUpTo_add (ho : o ≤ text.length) : startsUpTo text (o + k) = startsUpTo text o ++
    ((startsUpTo (text.drop o) k).drop 1).map (· + o) := by
  have htake : text.take (o + k) = text.take o ++ (text.drop o).take k := take_add
  have hhead : ((text.drop o).take k).head?.or (text.drop (o + k)).head? = (text.drop o).head? := by
    rw [← drop_drop]
    cases k with
    | zero => rfl
    | succ k => cases text.drop o <;> rfl
  have hlen : (text.take o).length = o := by
    rw [length_take]
    omega
  rw [startsUpTo, startsUpTo, startsUpTo, htake, lineEnds_append, hhead, hlen, drop_one, tail_cons,
    ← lineEnds_add, drop_drop, cons_append]

theorem cursorAt_add_line (ho : o ≤ text.length) : (cursorAt text (o + k)).line =
    (cursorAt text o).line + (cursorAt (text.drop o) k).line := by
  have h := congrArg List.length (startsUpTo_add (k := k) ho)
  rw [length_append, length_map, length_drop, startsUpTo_length, startsUpTo_length,
    startsUpTo_length] at h
  omega

theorem cursorAt_add_column (ho : o ≤ text.length) (hline : (cursorAt (text.drop o) k).line ≠ 0) :
    (cursorAt text (o + k)).column = (cursorAt (text.drop o) k).column := by
  have hstarts := startsUpTo_add (k := k) ho
  have hlen := startsUpTo_length (text.drop o) k
  show o + k - (startsUpTo text (o + k)).getLastD 0 = k - (startsUpTo (text.drop o) k).getLastD 0
  rw [hstarts]
  obtain ⟨x, xs, hxs⟩ : ∃ x xs, startsUpTo (text.drop o) k = 0 :: (xs ++ [x]) := by
    have hne : lineEnds 0 ((text.drop o).drop k).head? ((text.drop o).take k) ≠ [] := by
      intro hnil
      rw [startsUpTo, hnil] at hlen
      simp only [length_cons, length_nil] at hlen
      omega
    exact ⟨_, _, congrArg _ (dropLast_append_getLast hne).symm⟩
  rw [hxs, drop_one, tail_cons, map_append, map_singleton, ← append_assoc,
    getLastD_concat, ← cons_append, getLastD_concat]
  omega

end LineStartAt

/-! ## Pieces -/

/-- A `\n` that follows takes away the last line end, if it stands behind a `\r`. -/
theorem lineEnds_none_eq (text : JsString) (nx : Option UInt16) (i : Nat) : lineEnds i none text =
    lineEnds i nx text ++ if text.getLast? = some carriageReturn ∧ nx = some lineFeed then [i + text.length] else [] := by
  split
  · next h =>
    obtain ⟨hcr, rfl⟩ := h
    obtain ⟨t, rfl⟩ := getLast?_eq_some_iff.mp hcr
    rw [lineEnds_append, lineEnds_append, length_append, append_assoc]
    rfl
  · next h => rw [lineEnds_none text h, append_nil]

section Piece

variable {bs : List StringBuffer} {p : Piece} {b : StringBuffer} {s e : Nat}

section

variable (h : Lies bs p b s e)
include h

theorem Lies.start_le : s ≤ b.buffer.length := Nat.le_trans h.pieceAt.le h.pieceAt.bound

theorem Lies.content_length : (PieceTree.content bs p).length = e - s := by
  rw [h.content, substring_length h.pieceAt.bound]

theorem Lies.drop_start : b.buffer.drop s = PieceTree.content bs p ++ b.buffer.drop e := by
  rw [h.content]
  exact b.buffer.drop_eq_append h.pieceAt.le

theorem Lies.startsUpTo : startsUpTo (b.buffer.drop s) (e - s) =
    0 :: lineEnds 0 (b.buffer.drop e).head? (PieceTree.content bs p) := by
  rw [PieceTree.startsUpTo, drop_drop, Nat.add_sub_cancel' h.pieceAt.le, h.drop_start, ← h.content_length,
    take_left]

theorem Lies.line_stop :
    p.stop.line = p.start.line + breaks (b.buffer.drop e).head? (PieceTree.content bs p) := by
  rw [h.pieceAt.stop, h.pieceAt.start, h.content]
  exact breaks_between b.buffer h.pieceAt.le

theorem Lies.lineStart {k : Nat} (hk : p.start.line + k + 1 ≤ p.stop.line) :
    b.lineStarts.getD (p.start.line + k + 1) 0 = s + lineStartAt (PieceTree.content bs p) (k + 1) := by
  have hline := h.line_stop
  have hlt : k < (lineEnds 0 (b.buffer.drop e).head? (PieceTree.content bs p)).length := by
    rw [lineEnds_length]
    omega
  have hlen := startsUpTo_length b.buffer s
  rw [← h.pieceAt.start] at hlen
  have hstarts : createLineStartsFast b.buffer = PieceTree.startsUpTo b.buffer s ++
      ((lineEnds 0 (b.buffer.drop e).head? (PieceTree.content bs p)).map (· + s) ++
        lineEnds (b.buffer.take e).length none (b.buffer.drop e)) := by
    have := startsUpTo_add (k := e - s) h.start_le
    rw [h.startsUpTo, drop_one, tail_cons, Nat.add_sub_cancel' h.pieceAt.le] at this
    rw [createLineStartsFast_eq b.buffer e, this, append_assoc]
  have hinner : lineStartAt (PieceTree.content bs p) (k + 1) =
      (lineEnds 0 (b.buffer.drop e).head? (PieceTree.content bs p)).get ⟨k, hlt⟩ := by
    rw [lineStartAt, createLineStartsFast, createLineStartsLoop_eq, lineEnds_none_eq _ (b.buffer.drop e).head?,
      getD_eq_getElem?_getD, getElem?_cons_succ, getElem?_append_left hlt,
      getElem?_eq_getElem hlt]
    rfl
  rw [h.ok, hstarts, getD_eq_getElem?_getD, getElem?_append_right (by omega), hlen,
    show p.start.line + k + 1 - (p.start.line + 1) = k by omega, getElem?_append_left (by simpa using hlt),
    getElem?_map, getElem?_eq_getElem hlt, hinner]
  exact Nat.add_comm _ s

/-- A piece ends at the end of its text, or at the `\n` that belongs to its last line. -/
theorem Lies.lineStart_stop {k : Nat} (hk : p.stop.line < p.start.line + k + 1) :
    lineStartAt (PieceTree.content bs p) (k + 1) = (PieceTree.content bs p).length := by
  have hline := h.line_stop
  have hge : (lineEnds 0 (b.buffer.drop e).head? (PieceTree.content bs p)).length ≤ k := by
    rw [lineEnds_length]
    omega
  rw [lineStartAt, createLineStartsFast, createLineStartsLoop_eq, lineEnds_none_eq _ (b.buffer.drop e).head?,
    getD_eq_getElem?_getD, getElem?_cons_succ, getElem?_append_right hge]
  split
  · cases k - (lineEnds 0 (b.buffer.drop e).head? (PieceTree.content bs p)).length with
    | zero => exact Nat.zero_add _
    | succ j => rfl
  · rfl

end

theorem PieceOk.getAccumulatedValue (h : PieceOk bs p) (index : Int) : getAccumulatedValue bs p index =
    lineStartAt (content bs p) (index + 1).toNat := by
  obtain ⟨b, s, e, h⟩ := h
  rw [PieceTree.getAccumulatedValue]
  by_cases hneg : index < 0
  · rw [if_pos hneg, show (index + 1).toNat = 0 by omega]
    rfl
  · rw [if_neg hneg, h.bufferAt]
    dsimp only
    have hstart := h.offset_start
    have hstop := h.offset_stop
    have hlen := h.content_length
    have hle := h.pieceAt.le
    rw [offsetInBuffer] at hstart hstop
    obtain ⟨k, rfl⟩ : ∃ k : Nat, index = k := ⟨index.toNat, by omega⟩
    rw [Int.toNat_natCast, show ((k : Int) + 1).toNat = k + 1 by omega]
    split
    · next hgt =>
      rw [h.lineStart_stop hgt, hlen]
      omega
    · next hgt =>
      rw [h.lineStart (by omega)]
      omega

theorem PieceOk.getIndexOf (h : PieceOk bs p) {o : Nat} (ho : o ≤ p.length) (hpos : 0 < p.length) :
    (getIndexOf bs p o).1 = (cursorAt (content bs p) o).line ∧
      ((getIndexOf bs p o).1 ≠ 0 → (getIndexOf bs p o).2 = (cursorAt (content bs p) o).column) := by
  obtain ⟨b, s, e, h⟩ := h
  have hplen := h.pieceAt.length
  have hlen := h.content_length
  have hpos' : positionInBuffer b p o = cursorAt b.buffer (s + o) :=
    positionInBuffer_eq h.ok h.pieceAt (by omega)
  have hline : (cursorAt b.buffer (s + o)).line = p.start.line + (cursorAt (content bs p ++ b.buffer.drop e) o).line := by
    rw [cursorAt_add_line h.start_le, h.drop_start, h.pieceAt.start]
  have hcolumn : (cursorAt (content bs p ++ b.buffer.drop e) o).line ≠ 0 →
      (cursorAt b.buffer (s + o)).column = (cursorAt (content bs p ++ b.buffer.drop e) o).column := by
    intro hne
    rw [← h.drop_start] at hne ⊢
    exact cursorAt_add_column h.start_le hne
  rw [PieceTree.getIndexOf, h.bufferAt]
  rw [hpos', h.offset_start, h.offset_stop, hline, Nat.add_sub_cancel_left]
  by_cases hend : e - s = o
  · -- at the end of the piece the buffer may go on with the `\n` of a `\r\n`
    rw [if_pos hend]
    have hso : s + o = e := by omega
    have hreal : getLineFeedCnt b p.start (cursorAt b.buffer (s + o)) = (cursorAt (content bs p) o).line := by
      rw [hso, h.pieceAt.start, getLineFeedCnt_eq_eolCount h.ok (by omega) h.pieceAt.bound, ← h.content,
        ← hend, ← hlen, cursorAt_end_line]
    rw [hreal]
    by_cases hjunction : Junction (content bs p) (b.buffer.drop e)
    · have hcount : (cursorAt (content bs p) o).line = (cursorAt (content bs p ++ b.buffer.drop e) o).line + 1 := by
        rw [← hend, ← hlen, cursorAt_end_line, eolCount_eq, breaks_none _ (b.buffer.drop e).head?, if_pos (show _ ∧ _ from hjunction)]
        show _ = breaks _ ((content bs p ++ b.buffer.drop e).take (content bs p).length) + 1
        rw [drop_left, take_left]
      have hzero : (cursorAt (content bs p) o).column = 0 := by
        obtain ⟨t, ht⟩ := getLast?_eq_some_iff.mp hjunction.1
        have hat : (t ++ [carriageReturn])[t.length]? = some carriageReturn := by simp
        rw [← hend, ← hlen, ht, length_append, length_singleton, cursorAt_succ_of_ends hat]
        rw [drop_eq_nil_of_le (by simp)]
        rfl
      rw [if_pos (by omega)]
      exact ⟨rfl, fun _ => hzero.symm⟩
    · rw [cursorAt_append (by omega) fun _ => hjunction] at hcolumn ⊢
      rw [if_neg (by simp)]
      exact ⟨rfl, hcolumn⟩
  · rw [if_neg hend]
    rw [cursorAt_append (by omega) (by omega)] at hcolumn ⊢
    exact ⟨rfl, hcolumn⟩

theorem PieceOk.substring {bs : List StringBuffer} {p : Piece} (h : PieceOk bs p) {i j : Nat}
    (hj : j ≤ p.length) : (bufferAt bs p.bufferIndex).buffer.substring (offsetInBuffer (bufferAt bs p.bufferIndex) p.start + i)
      (offsetInBuffer (bufferAt bs p.bufferIndex) p.start + j) = (content bs p).substring i j := by
  obtain ⟨b, s, e, h⟩ := h
  have hlen := h.pieceAt.length
  have hle := h.pieceAt.le
  rw [h.bufferAt, h.offset_start, h.content, JsString.substring, JsString.substring, JsString.substring, take_drop,
    drop_drop, take_take, Nat.min_eq_left (by omega)]

theorem PieceOk.substring_rest {bs : List StringBuffer} {p : Piece} (h : PieceOk bs p) (i : Nat) :
    (bufferAt bs p.bufferIndex).buffer.substring (offsetInBuffer (bufferAt bs p.bufferIndex) p.start + i)
      (offsetInBuffer (bufferAt bs p.bufferIndex) p.start + p.length) = (content bs p).drop i := by
  have hlen := h.length
  rw [h.substring (Nat.le_refl _), JsString.substring, ← hlen, take_length]

end Piece

end TongjiCode.PieceTree
