import TongjiCode.PieceTree.RawLines
import TongjiCode.PieceTree.Positions

/-!
# Piece tree: all lines

`getLinesContent` goes over the pieces with the line it is in, and with a mark for a `\r` at the end of a piece,
which a `\n` of the next one could complete.  What it has collected behind each piece are the lines of the text
so far (`Collected`).
-/

open List

namespace TongjiCode.PieceTree

open JsString Tokens PieceTreeBase

/-! ## Lines of a text that ends with `\r` -/

theorem rawLine_last_trim (text : JsString) :
    trimEol (rawLine text (eolCount text)) = rawLine text (eolCount text) := by
  induction text using unit_induction with
  | nil => decide
  | eol u t hu hjoin ih =>
    rw [eolCount_append hjoin, hu.eolCount, Nat.add_comm, rawLine_break_succ hu hjoin, ih]
  | other c t hc ih =>
    rw [eolCount_other hc]
    cases hcnt : eolCount t with
    | zero => rw [rawLine_other_zero hc, trimEol_other hc, ← hcnt, ih]
    | succ n => rw [rawLine_other_succ hc, ← hcnt, ih]

theorem splitLines_eq (text : JsString) : splitLines text =
    (splitLines text).take (eolCount text) ++ [text.drop (lineStartAt text (eolCount text))] := by
  have hlast : (splitLines text)[eolCount text]? = some (text.drop (lineStartAt text (eolCount text))) := by
    rw [splitLines_getElem?, if_pos (Nat.le_refl _), rawLine_last_trim, rawLine_last]
  have hlen := splitLines_length text
  conv => lhs; rw [← take_append_drop (eolCount text) (splitLines text)]
  rw [drop_eq_getElem_cons (by omega), drop_eq_nil_of_le (by omega)]
  rw [getElem?_eq_getElem (by omega), Option.some.injEq] at hlast
  rw [hlast]

theorem splitLines_concat_cr (t : JsString) : splitLines (t ++ [carriageReturn]) = splitLines t ++ [[]] := by
  have hjoin : ¬ Junction t [carriageReturn] := fun h => cr_ne_lf (Option.some.inj h.2)
  have hlines : splitLines [carriageReturn] = [[], []] := by decide
  rw [splitLines_append hjoin, hlines]
  conv => lhs; rw [splitLines_eq t]
  rw [glue_concat, append_nil]
  conv => rhs; rw [splitLines_eq t]
  rw [append_assoc]
  rfl

theorem lineStartAt_concat_cr (t : JsString) : lineStartAt (t ++ [carriageReturn]) (eolCount t) = lineStartAt t (eolCount t) ∧
    lineStartAt (t ++ [carriageReturn]) (eolCount t + 1) = t.length + 1 := by
  have hjoin : ¬ Junction t [carriageReturn] := fun h => cr_ne_lf (Option.some.inj h.2)
  refine ⟨lineStartAt_append_left hjoin (Nat.le_refl _), ?_⟩
  rw [lineStartAt_append_right hjoin (show eolCount t < eolCount t + 1 by omega), Nat.add_sub_cancel_left]
  rfl

/-! ## What has been collected -/

namespace LinesState

/-- The collected lines; a line that was taken back may still stand behind them. -/
structure Collected (s : LinesState) (xs : List JsString) : Prop where
  lines : s.lines.take s.linesLength = xs
  length : s.linesLength = xs.length
  le : s.lines.length ≤ xs.length + 1

/-- No line stands behind the collected ones. -/
structure Exactly (s : LinesState) (xs : List JsString) : Prop where
  lines : s.lines = xs
  length : s.linesLength = xs.length

variable {s : LinesState} {xs : List JsString} {x : JsString}

theorem Exactly.collected (h : Exactly s xs) : Collected s xs :=
  ⟨by rw [h.length, h.lines, take_length], h.length, by rw [h.lines]; exact Nat.le_succ _⟩

theorem Collected.withLine (h : Collected s xs) (currentLine : JsString) (danglingCR : Bool) :
    Collected { s with currentLine, danglingCR } xs := ⟨h.lines, h.length, h.le⟩

theorem Collected.push (h : Collected s xs) (x : JsString) : Exactly (s.push x) (xs ++ [x]) := by
  have hle := h.le
  have hlen := h.length
  refine ⟨?_, ?_⟩
  · show s.lines.take s.linesLength ++ x :: s.lines.drop (s.linesLength + 1) = _
    rw [h.lines, drop_eq_nil_of_le (by omega)]
  · show s.linesLength + 1 = _
    rw [length_append, hlen]
    rfl

theorem Exactly.takeBack (h : Exactly s (xs ++ [x])) : Collected { s with linesLength := s.linesLength - 1 } xs := by
  have hlen := h.length
  rw [length_append, length_singleton] at hlen
  refine ⟨?_, ?_, ?_⟩
  · show s.lines.take (s.linesLength - 1) = xs
    rw [h.lines, hlen, Nat.add_sub_cancel, take_left]
  · show s.linesLength - 1 = _
    omega
  · show s.lines.length ≤ _
    rw [h.lines, length_append]
    exact Nat.le_refl _

/-- A loop that pushes one line after the other, the last one being the line it is in. -/
theorem Exactly.foldl_push (f : Nat → JsString) (lines : List Nat) : ∀ {s : LinesState} {xs : List JsString},
    Exactly s (xs ++ [s.currentLine]) → ∃ ys,
      Exactly (lines.foldl (fun s line => { s.push (f line) with currentLine := f line }) s)
        (ys ++ [(lines.foldl (fun s line => { s.push (f line) with currentLine := f line }) s).currentLine]) ∧
      ys ++ [(lines.foldl (fun s line => { s.push (f line) with currentLine := f line }) s).currentLine] =
        xs ++ s.currentLine :: lines.map f ∧
      (lines.foldl (fun s line => { s.push (f line) with currentLine := f line }) s).danglingCR = s.danglingCR := by
  induction lines with
  | nil => intro s xs h; exact ⟨xs, h, rfl, rfl⟩
  | cons line lines ih =>
    intro s xs h
    have hpush : Exactly ({ s.push (f line) with currentLine := f line } : LinesState) ((xs ++ [s.currentLine]) ++ [f line]) := by
      obtain ⟨h1, h2⟩ := h.collected.push (f line)
      exact ⟨h1, h2⟩
    obtain ⟨ys, hys, heq, hdangling⟩ := ih hpush
    refine ⟨ys, hys, ?_, hdangling⟩
    rw [foldl_cons, heq, map_cons, append_assoc]
    rfl

end LinesState

/-! ## Lines of a piece -/

open LinesState

section Piece

variable {T : PieceTreeBase} {p : Piece} {b : StringBuffer} {start stop : Nat}

theorem substringBetween_of_le (s : JsString) {i j : Nat} (h : i ≤ j) : substringBetween s i j = s.substring i j := by
  rw [substringBetween, Int.min_eq_left (by omega), Int.max_eq_right (by omega), Int.toNat_natCast, Int.toNat_natCast]

theorem lineStartAt_le_succ (text : JsString) (k : Nat) : lineStartAt text k ≤ lineStartAt text (k + 1) := by
  by_cases hk : k + 1 ≤ eolCount text
  · have hsorted : (createLineStartsFast text).Pairwise (· ≤ ·) := by
      rw [createLineStartsFast, createLineStartsLoop_eq, pairwise_cons]
      exact ⟨fun x _ => Nat.zero_le x, (lineEnds_sorted text none 0).imp Nat.le_of_lt⟩
    have hlen := createLineStartsFast_length text
    rw [← lineStartAt_eq_getD hk, ← lineStartAt_eq_getD (by omega), getD_eq_getElem?_getD, getD_eq_getElem?_getD,
      getElem?_eq_getElem (by omega), getElem?_eq_getElem (by omega)]
    exact pairwise_iff_getElem.mp hsorted k (k + 1) _ _ (by omega)
  · rw [lineStartAt_of_lt (show eolCount text < k + 1 by omega)]
    exact lineStartAt_le_length text k

theorem rawLine_length (text : JsString) (k : Nat) :
    (rawLine text k).length = lineStartAt text (k + 1) - lineStartAt text k :=
  substring_length (lineStartAt_le_length text _)

theorem Lies.substring {bs : List StringBuffer} (h : Lies bs p b start stop) {i j : Nat} (hj : j ≤ (PieceTree.content bs p).length) :
    b.buffer.substring (start + i) (start + j) = (PieceTree.content bs p).substring i j := by
  have hle := h.pieceAt.le
  rw [h.content_length] at hj
  rw [h.content, JsString.substring, JsString.substring, JsString.substring, take_drop, drop_drop,
    take_take, Nat.min_eq_left (by omega)]

theorem UsesOnly.line_substring {eol : EndOfLine} {text : JsString} (h : UsesOnly eol text) {k : Nat} (hk : k < eolCount text) :
    text.substring (lineStartAt text k) (lineStartAt text (k + 1) - eol.text.length) = trimEol (rawLine text k) ∧
      lineStartAt text k + eol.text.length ≤ lineStartAt text (k + 1) := by
  have hraw := h.line_eq hk
  have hlen := rawLine_length text k
  generalize trimEol (rawLine text k) = line at hraw ⊢
  have hmono := lineStartAt_le_succ text k
  rw [hraw, length_append] at hlen
  refine ⟨?_, by omega⟩
  have hline : rawLine text k = (text.drop (lineStartAt text k)).take (line.length + eol.text.length) := by
    rw [rawLine, JsString.substring, drop_take, hlen]
  have hcut : line = (rawLine text k).take line.length := by rw [hraw, take_left]
  rw [hline, take_take, Nat.min_eq_left (by omega)] at hcut
  rw [JsString.substring, drop_take, show lineStartAt text (k + 1) - eol.text.length - lineStartAt text k = line.length by omega]
  exact hcut.symm

section

variable (h : Lies T.buffers p b start stop)
variable (huses : T.eolNormalized = true → UsesOnly T.eol (PieceTree.content T.buffers p))
include h huses

theorem Lies.bufferLine {k : Nat} (hk : k < eolCount (PieceTree.content T.buffers p)) :
    T.bufferLine b.buffer (start + lineStartAt (PieceTree.content T.buffers p) k)
      (start + lineStartAt (PieceTree.content T.buffers p) (k + 1) : Nat) =
      trimEol (rawLine (PieceTree.content T.buffers p) k) := by
  have hmono := lineStartAt_le_succ (PieceTree.content T.buffers p) k
  have hbound := lineStartAt_le_length (PieceTree.content T.buffers p) (k + 1)
  rw [PieceTreeBase.bufferLine]
  cases hn : T.eolNormalized with
  | false =>
    rw [if_neg Bool.false_ne_true, substringBetween_of_le _ (by omega), h.substring hbound]
    rfl
  | true =>
    obtain ⟨hcut, hroom⟩ := (huses hn).line_substring hk
    have hstop : ((start + lineStartAt (PieceTree.content T.buffers p) (k + 1) : Nat) : Int) - T.eol.text.length =
        ((start + (lineStartAt (PieceTree.content T.buffers p) (k + 1) - T.eol.text.length) : Nat) : Int) := by omega
    rw [if_pos rfl, hstop, substringBetween_of_le _ (by omega), h.substring (by omega), hcut]

omit h huses in
theorem splitLines_take {text : JsString} {m : Nat} (hm : m ≤ eolCount text + 1) :
    (splitLines text).take m = (List.range m).map fun k => trimEol (rawLine text k) := by
  apply ext_getElem?
  intro k
  rw [getElem?_take, getElem?_map, splitLines_getElem?]
  by_cases hk : k < m
  · rw [if_pos hk, if_pos (by omega), getElem?_range hk]
    rfl
  · rw [if_neg hk, getElem?_eq_none (by rw [length_range]; omega)]
    rfl

omit h huses in
theorem Lies.breaks_le (h : Lies T.buffers p b start stop) :
    p.stop.line - p.start.line = breaks (b.buffer.drop stop).head? (PieceTree.content T.buffers p) ∧
      p.stop.line - p.start.line ≤ eolCount (PieceTree.content T.buffers p) := by
  have hline := h.line_stop
  have hcnt := breaks_none (PieceTree.content T.buffers p) (b.buffer.drop stop).head?
  rw [← eolCount_eq] at hcnt
  omega

/-- The lines that `linesOfBreaks` pushes: the line it is in, and those that start and end in the piece. -/
theorem Lies.pushes (hlines : p.start.line < p.stop.line) (currentLine : JsString) :
    (currentLine ++ if T.eolNormalized then
        substringBetween b.buffer start (max start ((b.lineStarts.getD (p.start.line + 1) 0 : Nat) - T.eol.text.length))
      else trimEol (substringBetween b.buffer start (b.lineStarts.getD (p.start.line + 1) 0 : Nat))) ::
      (range' (p.start.line + 1) (p.stop.line - (p.start.line + 1))).map (fun line =>
        T.bufferLine b.buffer (b.lineStarts.getD line 0) (b.lineStarts.getD (line + 1) 0)) =
    glue [currentLine] ((splitLines (PieceTree.content T.buffers p)).take (p.stop.line - p.start.line)) := by
  obtain ⟨-, hle⟩ := h.breaks_le
  obtain ⟨n, hn⟩ : ∃ n, p.stop.line - p.start.line = n + 1 := ⟨p.stop.line - p.start.line - 1, by omega⟩
  have hfirst : b.lineStarts.getD (p.start.line + 1) 0 = start + lineStartAt (PieceTree.content T.buffers p) 1 :=
    h.lineStart (k := 0) (by omega)
  have hline := h.bufferLine huses (show 0 < eolCount (PieceTree.content T.buffers p) by omega)
  rw [splitLines_take (by omega), hn, show p.stop.line - (p.start.line + 1) = n by omega, range_succ_eq_map,
    map_cons, map_map, range'_eq_map_range, map_map]
  show _ = (currentLine ++ _) :: _
  congr 1
  · rw [← hline, hfirst, PieceTreeBase.bufferLine]
    cases hnormal : T.eolNormalized with
    | false => rfl
    | true =>
      obtain ⟨-, hroom⟩ := (huses hnormal).line_substring (show 0 < eolCount (PieceTree.content T.buffers p) by omega)
      rw [if_pos rfl, if_pos rfl, lineStartAt_zero, Nat.add_zero, Nat.zero_add,
        Int.max_eq_right (by rw [lineStartAt_zero, Nat.zero_add, Nat.zero_add] at hroom; omega)]
  · refine map_congr_left fun j hj => ?_
    rw [mem_range] at hj
    have hline := h.bufferLine huses (show j + 1 < eolCount (PieceTree.content T.buffers p) by omega)
    show T.bufferLine b.buffer (b.lineStarts.getD (p.start.line + 1 + j) 0) (b.lineStarts.getD (p.start.line + 1 + j + 1) 0 : Nat) = _
    rw [show p.start.line + 1 + j = p.start.line + j + 1 by omega, h.lineStart (by omega),
      show p.start.line + j + 1 + 1 = p.start.line + (j + 1) + 1 by omega, h.lineStart (by omega)]
    exact hline

end

theorem glue_front (xs : List JsString) (x : JsString) (ys : List JsString) : glue (xs ++ [x]) ys = xs ++ glue [x] ys := by
  induction xs with
  | nil => rfl
  | cons x' xs ih => rw [cons_append, glue_cons (by simp), ih, cons_append]

theorem glue_back (x : JsString) {ys : List JsString} (h : ys ≠ []) (zs : List JsString) :
    glue [x] (ys ++ zs) = glue [x] ys ++ zs := by
  cases ys with
  | nil => exact (h rfl).elim
  | cons y ys => rfl

/-- What is known behind a text: the line it ends in, and the lines before. -/
structure Progress (T : PieceTreeBase) (s : LinesState) (text : JsString) (lines : List JsString) : Prop where
  dangling : s.danglingCR = true ↔ T.eolNormalized = false ∧ text.getLast? = some carriageReturn
  lines : ∃ xs, Collected s xs ∧ lines = xs ++ s.currentLine :: if s.danglingCR then [[]] else []

theorem Lies.lastStart (h : Lies T.buffers p b start stop) (hlines : p.start.line < p.stop.line) :
    b.lineStarts.getD p.stop.line 0 =
      start + lineStartAt (PieceTree.content T.buffers p) (p.stop.line - p.start.line) := by
  have := h.lineStart (k := p.stop.line - p.start.line - 1) (by omega)
  rwa [show p.start.line + (p.stop.line - p.start.line - 1) + 1 = p.stop.line by omega,
    show p.stop.line - p.start.line - 1 + 1 = p.stop.line - p.start.line by omega] at this

theorem Lies.linesOfBreaks (h : Lies T.buffers p b start stop)
    (huses : T.eolNormalized = true → UsesOnly T.eol (PieceTree.content T.buffers p))
    (hlines : p.start.line < p.stop.line) {s : LinesState} {xs : List JsString} (hs : Collected s xs)
    (hdangling : s.danglingCR = false) : Progress T (T.linesOfBreaks s p start) (PieceTree.content T.buffers p)
      (xs ++ glue [s.currentLine] (splitLines (PieceTree.content T.buffers p))) := by
  have hpushes := h.pushes huses hlines s.currentLine
  have hlast := h.lastStart hlines
  have hstop := h.offset_stop
  have hlen := h.content_length
  have hle := h.pieceAt.le
  obtain ⟨hbreaks, hcount⟩ := h.breaks_le
  have hnone := breaks_none (PieceTree.content T.buffers p) (b.buffer.drop stop).head?
  rw [← eolCount_eq, ← hbreaks] at hnone
  rw [offsetInBuffer, hlast] at hstop
  have hlt : start < stop := by
    have hne : PieceTree.content T.buffers p ≠ [] := by
      intro hnil
      rw [hnil] at hcount
      rw [show eolCount ([] : JsString) = 0 from rfl] at hcount
      omega
    have := length_pos_iff.mpr hne
    omega
  have hchar := h.getLast? hlt
  unfold PieceTreeBase.linesOfBreaks
  rw [PieceTreeBase.bufferOf, h.bufferAt]
  dsimp only
  generalize hfirst : (s.currentLine ++ if T.eolNormalized = true then _ else _) = first at hpushes ⊢
  have hone : Exactly (({ s with currentLine := first } : LinesState).push first) (xs ++ [first]) := by
    obtain ⟨h1, h2⟩ := hs.push first
    exact ⟨h1, h2⟩
  obtain ⟨ys, hys, heq, hsame⟩ := LinesState.Exactly.foldl_push (fun line =>
    T.bufferLine b.buffer (b.lineStarts.getD line 0) (b.lineStarts.getD (line + 1) 0))
    (range' (p.start.line + 1) (p.stop.line - (p.start.line + 1))) hone
  generalize (range' (p.start.line + 1) (p.stop.line - (p.start.line + 1))).foldl _ _ = s2 at hys heq hsame ⊢
  have hlines2 : ys ++ [s2.currentLine] = xs ++ glue [s.currentLine]
      ((splitLines (PieceTree.content T.buffers p)).take (p.stop.line - p.start.line)) := by
    rw [← hpushes]
    exact heq
  have htake : ∀ text : JsString, (splitLines text).take (p.stop.line - p.start.line) ≠ [] := by
    intro text hnil
    rw [take_eq_nil_iff] at hnil
    rcases hnil with hzero | hnil
    · omega
    · exact splitLines_ne_nil text hnil
  have hrest : ∀ j, lineStartAt (PieceTree.content T.buffers p) (p.stop.line - p.start.line) + j ≤ stop - start →
      b.buffer.substring (start + lineStartAt (PieceTree.content T.buffers p) (p.stop.line - p.start.line))
        (start + lineStartAt (PieceTree.content T.buffers p) (p.stop.line - p.start.line) + j) =
      ((PieceTree.content T.buffers p).drop
        (lineStartAt (PieceTree.content T.buffers p) (p.stop.line - p.start.line))).take j := by
    intro j hj
    rw [Nat.add_assoc, h.substring (by omega), JsString.substring, drop_take, Nat.add_sub_cancel_left]
  have hfold2 : s2.danglingCR = false := hsame.trans hdangling
  rw [hlast, show start + lineStartAt (PieceTree.content T.buffers p) (p.stop.line - p.start.line) + p.stop.column - 1 =
    stop - 1 by omega, ← hchar]
  by_cases hcr : T.eolNormalized = false ∧ (PieceTree.content T.buffers p).getLast? = some carriageReturn
  · rw [if_pos (by rw [hcr.1, hcr.2]; decide)]
    obtain ⟨t, ht⟩ := getLast?_eq_some_iff.mp hcr.2
    obtain ⟨hstartLast, hstartEnd⟩ := lineStartAt_concat_cr t
    have hlenT : (t ++ [carriageReturn]).length = t.length + 1 := by simp
    have hboundT := lineStartAt_le_length t (eolCount t)
    have hmark : T.eolNormalized = false ∧ (PieceTree.content T.buffers p).getLast? = some carriageReturn := hcr
    rw [ht] at hstop hlen hnone hrest hlines2 hmark ⊢
    rw [eolCount_concat_cr] at hnone
    rw [splitLines_concat_cr] at hlines2 ⊢
    have hlenLines := splitLines_length t
    split
    · next hzero =>
      have hcnt : p.stop.line - p.start.line = eolCount t + 1 := by
        by_contra hne
        have hcnt : p.stop.line - p.start.line = eolCount t := by
          split at hnone <;> omega
        rw [hcnt] at hstop
        omega
      refine ⟨⟨fun _ => hmark, fun _ => rfl⟩, ys, (hys.takeBack).withLine _ _, ?_⟩
      rw [hcnt, take_left' hlenLines] at hlines2
      rw [if_pos rfl, glue_back _ (splitLines_ne_nil t), ← append_assoc, ← hlines2, append_assoc]
      rfl
    · next hcolumn =>
      have hcnt : p.stop.line - p.start.line = eolCount t := by
        by_contra hne
        have hcnt : p.stop.line - p.start.line = eolCount t + 1 := by
          split at hnone <;> omega
        rw [hcnt] at hstop
        omega
      refine ⟨⟨fun _ => hmark, fun _ => rfl⟩, ys ++ [s2.currentLine], hys.collected.withLine _ _, ?_⟩
      have htakeT := htake t
      rw [hcnt] at hstop hlines2 hrest htakeT ⊢
      rw [take_append_of_le_length (by omega)] at hlines2
      have hwhole : (t.drop (lineStartAt t (eolCount t))).take (p.stop.column - 1) = t.drop (lineStartAt t (eolCount t)) :=
        take_of_length_le (by rw [length_drop]; omega)
      rw [hlines2, if_pos rfl, hrest _ (by omega), hstartLast, drop_append_of_le_length hboundT,
        take_append_of_le_length (by rw [length_drop]; omega), hwhole]
      conv => lhs; rw [splitLines_eq t]
      rw [append_assoc, glue_back _ htakeT, append_assoc]
      rfl
  · rw [if_neg (by rw [Bool.and_eq_true, Bool.not_eq_true', decide_eq_true_eq]; exact hcr)]
    have hnot : (PieceTree.content T.buffers p).getLast? ≠ some carriageReturn := by
      cases hn : T.eolNormalized with
      | false => exact fun hc => hcr ⟨hn, hc⟩
      | true => exact (huses hn).getLast?
    rw [if_neg (show ¬ (_ ∧ _) from fun hc => hnot hc.1), Nat.add_zero] at hnone
    refine ⟨⟨fun hc => ?_, fun hc => (hcr hc).elim⟩, ys ++ [s2.currentLine], hys.collected.withLine _ _, ?_⟩
    · rw [hfold2] at hc
      cases hc
    · dsimp only
      have hwhole : ((PieceTree.content T.buffers p).drop (lineStartAt (PieceTree.content T.buffers p)
          (p.stop.line - p.start.line))).take p.stop.column = (PieceTree.content T.buffers p).drop
            (lineStartAt (PieceTree.content T.buffers p) (p.stop.line - p.start.line)) :=
        take_of_length_le (by rw [length_drop]; omega)
      rw [hfold2, if_neg Bool.false_ne_true, hlines2, hrest _ (by omega), hwhole]
      conv => lhs; rw [splitLines_eq (PieceTree.content T.buffers p), hnone]
      rw [glue_back _ (htake _), append_assoc]

theorem Lies.linesOfPiece (h : Lies T.buffers p b start stop) (hlt : start < stop)
    (huses : T.eolNormalized = true → UsesOnly T.eol (PieceTree.content T.buffers p)) {s : LinesState} {text : JsString}
    (hjoin : ¬ Junction text (PieceTree.content T.buffers p)) (hs : Progress T s text (splitLines text)) :
    Progress T (T.linesOfPiece s p) (text ++ PieceTree.content T.buffers p)
      (splitLines (text ++ PieceTree.content T.buffers p)) := by
  obtain ⟨xs, hxs, hlines⟩ := hs.lines
  have hlen := h.content_length
  have hplen := h.pieceAt.length
  have hne : PieceTree.content T.buffers p ≠ [] := by
    intro hnil
    rw [hnil, length_nil] at hlen
    omega
  have hlastChar : (text ++ PieceTree.content T.buffers p).getLast? = (PieceTree.content T.buffers p).getLast? :=
    getLast?_append_of_ne_nil _ hne
  have hskip : (s.danglingCR && b.buffer[start]? = some lineFeed : Bool) = false := by
    rw [Bool.and_eq_false_iff, decide_eq_false_iff_not, ← h.head? hlt]
    by_contra hboth
    rw [not_or, Bool.not_eq_false, not_not] at hboth
    exact hjoin ⟨(hs.dangling.mp hboth.1).2, hboth.2⟩
  -- the line the text ends in, after a dangling `\r`
  obtain ⟨s1, xs1, hs1, hxs1, hfree, hlines1⟩ : ∃ s1 xs1,
      (if s.danglingCR then { s.push s.currentLine with currentLine := [], danglingCR := false } else s) = s1 ∧
      Collected s1 xs1 ∧ s1.danglingCR = false ∧ splitLines text = xs1 ++ [s1.currentLine] := by
    cases hd : s.danglingCR with
    | false =>
      rw [hd, if_neg Bool.false_ne_true] at hlines
      exact ⟨s, xs, rfl, hxs, hd, hlines⟩
    | true =>
      rw [hd, if_pos rfl] at hlines
      refine ⟨_, xs ++ [s.currentLine], rfl, (hxs.push s.currentLine).collected.withLine _ _, rfl, ?_⟩
      rw [hlines, append_assoc]
      rfl
  have hglue : splitLines (text ++ PieceTree.content T.buffers p) =
      xs1 ++ glue [s1.currentLine] (splitLines (PieceTree.content T.buffers p)) := by
    rw [splitLines_append hjoin, hlines1, glue_front]
  rw [PieceTreeBase.linesOfPiece, if_neg (by omega), PieceTreeBase.bufferOf, h.bufferAt, h.offset_start, hglue]
  dsimp only at hs1 ⊢
  rw [hskip, if_neg Bool.false_ne_true, if_neg Bool.false_ne_true, hs1, if_neg (by omega)]
  by_cases hsame : p.start.line = p.stop.line
  · rw [if_pos hsame]
    have hnone := breaks_none (PieceTree.content T.buffers p) (b.buffer.drop stop).head?
    rw [← eolCount_eq, ← h.breaks_le.1] at hnone
    have hchar := h.getLast? hlt
    have hwhole := h.substring (i := 0) (j := p.length) (by omega)
    rw [Nat.add_zero] at hwhole
    rw [hplen, show start + (stop - start) - 1 = stop - 1 by omega, ← hchar, ← hplen]
    by_cases hcr : T.eolNormalized = false ∧ (PieceTree.content T.buffers p).getLast? = some carriageReturn
    · rw [if_pos (by rw [hcr.1, hcr.2]; decide)]
      refine ⟨⟨fun _ => ⟨hcr.1, hlastChar.trans hcr.2⟩, fun _ => rfl⟩, xs1, hxs1.withLine _ _, ?_⟩
      obtain ⟨t, ht⟩ := getLast?_eq_some_iff.mp hcr.2
      have hcnt : eolCount t = 0 := by
        rw [ht, eolCount_concat_cr] at hnone
        split at hnone <;> omega
      have hpart := h.substring (i := 0) (j := p.length - 1) (by omega)
      have hlenT : p.length - 1 = t.length := by
        have := congrArg List.length ht
        rw [length_append, length_singleton] at this
        omega
      have hsplit := splitLines_eq t
      rw [hcnt, take_zero, nil_append, lineStartAt_zero, drop_zero] at hsplit
      rw [Nat.add_zero] at hpart
      rw [hpart, ht, splitLines_concat_cr, hsplit, hlenT, JsString.substring, take_left, drop_zero]
      rfl
    · rw [if_neg (by rw [Bool.and_eq_true, Bool.not_eq_true', decide_eq_true_eq]; exact hcr)]
      refine ⟨⟨fun hc => ?_, fun hc => (hcr ⟨hc.1, hlastChar.symm.trans hc.2⟩).elim⟩, xs1, hxs1.withLine _ _, ?_⟩
      · rw [hfree] at hc
        cases hc
      · have hnot : (PieceTree.content T.buffers p).getLast? ≠ some carriageReturn := by
          cases hn : T.eolNormalized with
          | false => exact fun hc => hcr ⟨hn, hc⟩
          | true => exact (huses hn).getLast?
        rw [if_neg (show ¬ (_ ∧ _) from fun hc => hnot hc.1), hsame, Nat.sub_self] at hnone
        have hsplit := splitLines_eq (PieceTree.content T.buffers p)
        rw [hnone, take_zero, nil_append, lineStartAt_zero, drop_zero] at hsplit
        rw [hfree, if_neg Bool.false_ne_true, hsplit, hwhole, JsString.substring, hplen, ← hlen, take_length,
          drop_zero]
        rfl
  · rw [if_neg hsame]
    obtain ⟨hdangling, hcollected⟩ := h.linesOfBreaks huses (by have := h.line_stop; omega) hxs1 hfree
    exact ⟨by rw [hlastChar]; exact hdangling, hcollected⟩

end Piece

/-! ## All pieces -/

section Tree

variable {T : PieceTreeBase} {L : Nodes}

/-- The text of a tree uses only its line break, if the tree is marked so. -/
def Uniform (T : PieceTreeBase) (text : JsString) : Prop := T.eolNormalized = true → UsesOnly T.eol text

instance (T : PieceTreeBase) (text : JsString) : Decidable (Uniform T text) := inferInstanceAs (Decidable (_ → _))

theorem Inv.uniform_piece {l1 l2 : Nodes} {id : Nat} {p : Piece} (h : Inv T (l1 ++ (id, p) :: l2))
    (huses : Uniform T (docText T.buffers (l1 ++ (id, p) :: l2))) : Uniform T (content T.buffers p) := by
  obtain ⟨-, hjoined, hleft⟩ := joined_texts_append.mp h.joined
  obtain ⟨hright, -⟩ := joined_texts_cons.mp hjoined
  intro hn
  have hall := huses hn
  rw [docText_append] at hall
  have hrest := (hall.parts hleft).2
  exact (hrest.parts hright).1

/-- The loop of `getLinesContent` over the nodes behind those it has seen. -/
theorem Inv.foldl_linesOfPiece (l2 : Nodes) : ∀ {l1 : Nodes} {s : LinesState}, Inv T (l1 ++ l2) →
    Uniform T (docText T.buffers (l1 ++ l2)) → Progress T s (docText T.buffers l1) (splitLines (docText T.buffers l1)) →
      Progress T (l2.foldl (fun s i => T.linesOfPiece s i.2) s) (docText T.buffers (l1 ++ l2))
        (splitLines (docText T.buffers (l1 ++ l2))) := by
  induction l2 with
  | nil =>
    intro l1 s _ _ hs
    rw [append_nil]
    exact hs
  | cons i l2 ih =>
    intro l1 s h huses hs
    obtain ⟨id, p⟩ := i
    obtain ⟨b, start, stop, hp⟩ : PieceOk T.buffers p := h.valid (id, p) (by simp)
    have hpos : 0 < p.length := h.positive (id, p) (by simp)
    have hlen := hp.pieceAt.length
    have hassoc : (l1 ++ [(id, p)]) ++ l2 = l1 ++ (id, p) :: l2 := by simp
    have hne : content T.buffers p ≠ [] := by
      intro hnil
      have := hp.content_length
      rw [hnil, length_nil] at this
      omega
    have hjoin : ¬ Junction (docText T.buffers l1) (content T.buffers p) := by
      have := (joined_texts_append.mp h.joined).2.2
      rwa [docText_cons, junction_append_right hne] at this
    have hstep := hp.linesOfPiece (by omega) (h.uniform_piece huses) hjoin hs
    have htext : docText T.buffers (l1 ++ [(id, p)]) = docText T.buffers l1 ++ content T.buffers p := by
      rw [docText_append, docText_cons, docText_nil, append_nil]
    rw [← htext] at hstep
    rw [← hassoc] at h huses ⊢
    exact ih h huses hstep

theorem Inv.getLinesContent (h : Inv T L) (huses : Uniform T (docText T.buffers L)) :
    T.getLinesContent = splitLines (docText T.buffers L) := by
  have hempty : Progress T {} [] (splitLines []) :=
    ⟨⟨(fun hc => nomatch hc), fun hc => nomatch hc.2⟩, [], ⟨rfl, rfl, Nat.zero_le _⟩, rfl⟩
  obtain ⟨hdangling, xs, hxs, hlines⟩ := @Inv.foldl_linesOfPiece T L [] _ h huses hempty
  rw [nil_append] at hlines
  have hfold : T.root.toList.foldl (fun s node => T.linesOfPiece s node.piece) {} =
      L.foldl (fun s i => T.linesOfPiece s i.2) {} := by
    rw [← h.holds.items, items, foldl_map]
    rfl
  rw [PieceTreeBase.getLinesContent, hfold, hlines]
  generalize L.foldl (fun s i => T.linesOfPiece s i.2) {} = s at hxs hlines ⊢
  cases hd : s.danglingCR with
  | false => rw [if_neg Bool.false_ne_true, if_neg Bool.false_ne_true, (hxs.push s.currentLine).lines]
  | true =>
    have hflush := (hxs.push s.currentLine).collected.withLine [] (s.push s.currentLine).danglingCR
    rw [if_pos rfl, if_pos rfl, (hflush.push []).lines, append_assoc]
    rfl

end Tree

end TongjiCode.PieceTree
