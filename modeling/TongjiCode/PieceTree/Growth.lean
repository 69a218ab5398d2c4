import TongjiCode.PieceTree.Base

/-!
# Piece tree: pieces of buffers that grow

`Lies bs p b s e` says that the piece `p` covers the offsets from `s` to `e` of the buffer `b`.  Parts of a
piece are pieces again, and a piece stays what it is when the change buffer grows, unless it ends with the
`\r` of a `\r\n` that comes to stand in the buffer (`Lies.set`).
-/

open List

namespace TongjiCode.PieceTree

open JsString

/-! ## Strings that grow -/

/-- A final `\r` of the first string and a leading `\n` of the second one. -/
def Junction (a b : JsString) : Prop := a.getLast? = some carriageReturn ∧ b.head? = some lineFeed

instance (a b : JsString) : Decidable (Junction a b) := inferInstanceAs (Decidable (_ ∧ _))

theorem lineEnds_none (str : JsString) {nx : Option UInt16}
    (h : ¬ (str.getLast? = some carriageReturn ∧ nx = some lineFeed)) : ∀ i, lineEnds i nx str = lineEnds i none str := by
  induction str with
  | nil => intro i; rfl
  | cons c t ih =>
    intro i
    cases t with
    | nil =>
      have hend : endsLine c nx = endsLine c none := by
        by_cases hc : c = carriageReturn
        · have hnx : nx ≠ some lineFeed := by
            intro hnx
            exact h ⟨by rw [hc]; rfl, hnx⟩
          simp [endsLine, hnx]
        · simp [endsLine, hc]
      simp [lineEnds, hend]
    | cons d t =>
      have hrest := ih h (i + 1)
      have hhead : (d :: t).head?.or nx = (d :: t).head?.or none := rfl
      rw [lineEnds.eq_def i nx, lineEnds.eq_def i none]
      dsimp only
      rw [hrest, hhead]

variable {o : Nat}

section Append

variable {t x : JsString}

theorem startsUpTo_append (ho : o ≤ t.length) (h : o = t.length → ¬ Junction t x) :
    startsUpTo (t ++ x) o = startsUpTo t o := by
  rw [startsUpTo, startsUpTo, take_append_of_le_length ho]
  by_cases hlt : o < t.length
  · rw [head?_drop, head?_drop, List.getElem?_append_left hlt]
  · obtain rfl : o = t.length := by omega
    rw [drop_left, drop_length, take_length, lineEnds_none t (h rfl)]
    rfl

theorem cursorAt_append (ho : o ≤ t.length) (h : o = t.length → ¬ Junction t x) :
    cursorAt (t ++ x) o = cursorAt t o := by
  have hstarts := startsUpTo_append ho h
  have hline : (cursorAt (t ++ x) o).line = (cursorAt t o).line := by
    have h1 := startsUpTo_length (t ++ x) o
    have h2 := startsUpTo_length t o
    rw [hstarts] at h1
    omega
  have hcol : (cursorAt (t ++ x) o).column = (cursorAt t o).column := by
    simp only [cursorAt, hstarts]
  exact congrArg₂ BufferCursor.mk hline hcol

theorem createLineStartsFast_eq_startsUpTo (t : JsString) : createLineStartsFast t = startsUpTo t t.length := by
  rw [createLineStartsFast_eq t t.length, drop_length]
  exact append_nil _

theorem drop_createLineStartsFast (x : JsString) (n : Nat) :
    ((createLineStartsFast x).drop 1).map (· + n) = lineEnds n none x := by
  have := lineEnds_add x none n 0
  rw [createLineStartsFast, createLineStartsLoop_eq, drop_one, tail_cons, ← this, Nat.zero_add]

theorem createLineStartsFast_append (h : ¬ Junction t x) :
    createLineStartsFast (t ++ x) = createLineStartsFast t ++ lineEnds t.length none x := by
  rw [createLineStartsFast_eq (t ++ x) t.length, startsUpTo_append (Nat.le_refl _) fun _ => h,
    createLineStartsFast_eq_startsUpTo t, drop_left, take_left]

theorem createLineStartsFast_concat_cr (t : JsString) : createLineStartsFast (t ++ [carriageReturn]) =
    startsUpTo (t ++ [carriageReturn]) t.length ++ [t.length + 1] := by
  have hat : (t ++ [carriageReturn])[t.length]? = some carriageReturn := by simp
  have hlen : (t ++ [carriageReturn]).length = t.length + 1 := by simp
  rw [createLineStartsFast_eq_startsUpTo, hlen, startsUpTo_succ hat, ← hlen, drop_length]
  rfl

/-- The line that started behind the `\r` is gone when a `\n` comes to stand there. -/
theorem createLineStartsFast_append_junction (h : Junction t x) :
    createLineStartsFast (t ++ x) = (createLineStartsFast t).dropLast ++ lineEnds t.length none x := by
  obtain ⟨hcr, hlf⟩ := h
  obtain ⟨t', rfl⟩ := getLast?_eq_some_iff.mp hcr
  have hat : (t' ++ [carriageReturn] ++ x)[t'.length]? = some carriageReturn := by simp
  have hlen : (t' ++ [carriageReturn]).length = t'.length + 1 := by simp
  have hstarts : startsUpTo (t' ++ [carriageReturn] ++ x) t'.length = startsUpTo (t' ++ [carriageReturn]) t'.length :=
    startsUpTo_append (by simp) (by simp)
  have hdrop : ((t' ++ [carriageReturn] ++ x).drop (t'.length + 1)).head? = x.head? := by
    rw [← hlen, drop_left]
  rw [createLineStartsFast_concat_cr, dropLast_concat, createLineStartsFast_eq _ (t' ++ [carriageReturn]).length,
    drop_left, take_left, hlen, startsUpTo_succ hat, hstarts, hdrop, hlf, endsLine_cr_lf]
  simp

end Append

theorem cursorAt_length (t : JsString) : cursorAt t t.length = ⟨(createLineStartsFast t).length - 1,
    t.length - (createLineStartsFast t).getD ((createLineStartsFast t).length - 1) 0⟩ := by
  have hlen := startsUpTo_length t t.length
  have hline : (cursorAt t t.length).line = (createLineStartsFast t).length - 1 := by
    rw [createLineStartsFast_eq_startsUpTo]
    omega
  rw [← hline, lineStart_cursorAt]
  rfl

variable {b : StringBuffer}

theorem cursorAt_injective (hb : b.Ok) {o o' : Nat} (h : cursorAt b.buffer o = cursorAt b.buffer o') :
    o = o' := by
  rw [← offset_cursorAt hb o, h, offset_cursorAt hb]

/-- The cursor in front of a final `\r`, as `fixCRLF` computes it. -/
theorem cursorAt_pred (hb : b.Ok) (hcr : b.buffer[o]? = some carriageReturn) :
    (if (cursorAt b.buffer (o + 1)).column = 0 then
      ⟨(cursorAt b.buffer (o + 1)).line - 1, b.lineStarts.getD (cursorAt b.buffer (o + 1)).line 0 -
        b.lineStarts.getD ((cursorAt b.buffer (o + 1)).line - 1) 0 - 1⟩
      else ⟨(cursorAt b.buffer (o + 1)).line, (cursorAt b.buffer (o + 1)).column - 1⟩ : BufferCursor) =
      cursorAt b.buffer o := by
  have hoff := offset_cursorAt hb o
  have hoff' := offset_cursorAt hb (o + 1)
  rw [offsetInBuffer] at hoff hoff'
  cases hend : endsLine carriageReturn (b.buffer.drop (o + 1)).head? with
  | true =>
    rw [cursorAt_succ_of_ends hcr hend] at hoff' ⊢
    rw [if_pos rfl, Nat.add_sub_cancel]
    cases hcur : cursorAt b.buffer o with
    | mk line column =>
      rw [hcur] at hoff hoff'
      dsimp only at hoff hoff' ⊢
      rw [BufferCursor.mk.injEq]
      omega
  | false =>
    rw [cursorAt_succ_of_not_ends hcr hend]
    dsimp only
    rw [if_neg (by omega), Nat.add_sub_cancel]

/-! ## Counting over parts of a string -/

theorem eolCount_append {a b : JsString} (h : ¬ Junction a b) : eolCount (a ++ b) = eolCount a + eolCount b := by
  rw [eolCount_eq, eolCount_eq, eolCount_eq, breaks_append, Option.or_none, breaks_none a b.head?,
    if_neg (show ¬ (_ ∧ _) from h), Nat.add_zero]

theorem eolCount_cons_lf (t : JsString) : eolCount (lineFeed :: t) = eolCount t + 1 := by
  rw [eolCount_eq, eolCount_eq, breaks, endsLine_lf, if_pos rfl]
  omega

theorem eolCount_concat_cr (t : JsString) : eolCount (t ++ [carriageReturn]) = eolCount t + 1 :=
  eolCount_append fun h => cr_ne_lf (Option.some.inj h.2)

variable {t : JsString}

theorem eolCount_pos {c : UInt16} (hc : c = carriageReturn ∨ c = lineFeed) (h : c ∈ t) :
    0 < eolCount t := by
  induction t using eolCount.induct with
  | case1 => cases h
  | case2 d hd => simp [eolCount, hd]
  | case3 d hd =>
    rw [mem_singleton] at h
    exact (hd (h ▸ hc)).elim
  | case4 d d' t hd ih =>
    rw [eolCount, if_pos hd]
    omega
  | case5 d d' t hd hd' ih =>
    rw [eolCount, if_neg hd, if_pos hd']
    omega
  | case6 d d' t hd hd' ih =>
    rw [eolCount, if_neg hd, if_neg hd']
    rcases mem_cons.mp h with rfl | h
    · exact (hd' hc).elim
    · exact ih h

/-! ## Pieces of buffers -/

/-- The piece covers the offsets from `s` to `e` of the buffer `b`, and counts the line breaks there.
Only a piece that is about to be deleted is empty; its count does not matter. -/
structure Lies (bs : List StringBuffer) (p : Piece) (b : StringBuffer) (s e : Nat) : Prop where
  buffer : bs[p.bufferIndex]? = some b
  ok : b.Ok
  pieceAt : PieceAt b p s e
  lineFeedCnt : s < e → p.lineFeedCnt = eolCount (b.buffer.substring s e)

def PieceOk (bs : List StringBuffer) (p : Piece) : Prop := ∃ b s e, Lies bs p b s e

section Lies

variable {bs : List StringBuffer} {p : Piece} {b : StringBuffer} {s e : Nat}

section

variable (h : Lies bs p b s e)
include h

theorem Lies.bufferAt : bufferAt bs p.bufferIndex = b := by
  rw [PieceTree.bufferAt, getD_eq_getElem?_getD, h.buffer]
  rfl

theorem Lies.offset_start : offsetInBuffer b p.start = s := by
  rw [h.pieceAt.start, offset_cursorAt h.ok]

theorem Lies.offset_stop : offsetInBuffer b p.stop = e := by
  rw [h.pieceAt.stop, offset_cursorAt h.ok]

theorem Lies.content : content bs p = b.buffer.substring s e := by
  unfold PieceTree.content
  rw [h.bufferAt]
  dsimp only
  rw [h.offset_start, h.offset_stop]

omit h in
theorem PieceOk.length (h : PieceOk bs p) : (PieceTree.content bs p).length = p.length := by
  obtain ⟨b, s, e, h⟩ := h
  rw [h.content, substring_length h.pieceAt.bound, h.pieceAt.length]

omit h in
theorem PieceOk.lineFeedCnt (h : PieceOk bs p) (hpos : 0 < p.length) :
    p.lineFeedCnt = eolCount (PieceTree.content bs p) := by
  obtain ⟨b, s, e, h⟩ := h
  rw [h.pieceAt.length] at hpos
  rw [h.content, h.lineFeedCnt (by omega)]

theorem Lies.part {s' e' : Nat} (hle : s' ≤ e') (he : e' ≤ e) {q : Piece} (hindex : q.bufferIndex = p.bufferIndex)
    (hstart : q.start = cursorAt b.buffer s') (hstop : q.stop = cursorAt b.buffer e')
    (hcnt : q.lineFeedCnt = getLineFeedCnt b (cursorAt b.buffer s') (cursorAt b.buffer e')) (hlength : q.length = e' - s') :
    Lies bs q b s' e' := by
  have hbound : e' ≤ b.buffer.length := Nat.le_trans he h.pieceAt.bound
  refine ⟨by rw [hindex]; exact h.buffer, h.ok, ⟨hstart, hstop, hle, hbound, hlength⟩, ?_⟩
  intro hlt
  rw [hcnt, getLineFeedCnt_eq_eolCount h.ok hlt hbound]

omit h in
theorem substring_head? (h : s < e) : (t.substring s e).head? = t[s]? := by
  rw [substring, head?_drop, getElem?_take, if_pos h]

omit h in
theorem substring_getLast? (h : s < e) (he : e ≤ t.length) : (t.substring s e).getLast? = t[e - 1]? := by
  have hlen : (t.substring s e).length = e - s := substring_length he
  rw [getLast?_eq_getElem?, hlen, substring, getElem?_drop, getElem?_take]
  rw [if_pos (by omega)]
  congr 1
  omega

theorem Lies.head? (hlt : s < e) : (PieceTree.content bs p).head? = b.buffer[s]? := by
  rw [h.content, substring_head? hlt]

theorem Lies.getLast? (hlt : s < e) : (PieceTree.content bs p).getLast? = b.buffer[e - 1]? := by
  rw [h.content, substring_getLast? hlt h.pieceAt.bound]

end

end Lies

/-! ## A leading `\n` and a final `\r` -/

section Ends

variable {T : PieceTreeBase} {p : Piece} {b : StringBuffer} {s e id : Nat}

theorem Lies.startWithLF (h : Lies T.buffers p b s e) (hp : T.pieceOf id = p) (hlt : s < e) :
    T.startWithLF (some id) = true ↔ (PieceTree.content T.buffers p).head? = some lineFeed := by
  have hhead := h.head? hlt
  have hoff := h.offset_start
  rw [offsetInBuffer] at hoff
  rw [PieceTreeBase.startWithLF, PieceTreeBase.bufferOf, hp, h.bufferAt]
  dsimp only
  rw [hoff, hhead]
  constructor
  · intro hres
    split at hres
    · cases hres
    · split at hres
      · cases hres
      · split at hres
        · cases hres
        · exact of_decide_eq_true hres
  · intro hlf
    have hsucc := cursorAt_succ_of_ends hlf (endsLine_lf _)
    have hline := cursorAt_line_lt b.buffer (s + 1)
    have hoff' := offset_cursorAt h.ok (s + 1)
    rw [hsucc] at hline hoff'
    rw [← h.pieceAt.start] at hline hoff'
    rw [offsetInBuffer] at hoff'
    dsimp only at hline hoff'
    have hcnt : p.lineFeedCnt ≠ 0 := by
      rw [h.lineFeedCnt hlt, ← h.content]
      exact Nat.pos_iff_ne_zero.mp (eolCount_pos (.inr rfl) (mem_of_head? (hhead.trans hlf)))
    rw [if_neg hcnt, if_neg (by rw [h.ok]; omega), if_neg (by omega)]
    exact decide_eq_true hlf

theorem Lies.nodeCharCodeAt (h : Lies T.buffers p b s e) {offset : Nat} {c : UInt16}
    (hlt : s + offset < e) (hc : c = carriageReturn ∨ c = lineFeed) :
    T.nodeCharCodeAt p offset = some c ↔ b.buffer[s + offset]? = some c := by
  have hoff := h.offset_start
  rw [PieceTreeBase.nodeCharCodeAt, PieceTreeBase.bufferOf, h.bufferAt, hoff]
  constructor
  · intro hres
    split at hres
    · cases hres
    · exact hres
  · intro hat
    have hcnt : ¬ p.lineFeedCnt < 1 := by
      have hmem : c ∈ b.buffer.substring s e := by
        refine mem_of_getElem? (i := offset) ?_
        rw [substring, getElem?_drop, getElem?_take, if_pos hlt, hat]
      have := eolCount_pos hc hmem
      rw [h.lineFeedCnt (by omega)]
      omega
    rw [if_neg hcnt, hat]

theorem Lies.endWithCR (h : Lies T.buffers p b s e) (hp : T.pieceOf id = p) (hlt : s < e) :
    T.endWithCR (some id) = true ↔ (PieceTree.content T.buffers p).getLast? = some carriageReturn := by
  have hlast := h.getLast? hlt
  have hlen := h.pieceAt.length
  have hidx : s + (p.length - 1) = e - 1 := by omega
  rw [PieceTreeBase.endWithCR, hp, hlast]
  constructor
  · intro hres
    split at hres
    · cases hres
    · have := (h.nodeCharCodeAt (by omega) (.inl rfl)).mp (of_decide_eq_true hres)
      rwa [hidx] at this
  · intro hcr
    have hcnt : p.lineFeedCnt ≠ 0 := by
      rw [h.lineFeedCnt hlt, ← h.content]
      exact Nat.pos_iff_ne_zero.mp (eolCount_pos (.inl rfl) (mem_of_getLast? (hlast.trans hcr)))
    rw [if_neg hcnt]
    refine decide_eq_true ((h.nodeCharCodeAt (by omega) (.inl rfl)).mpr ?_)
    rwa [hidx]

end Ends

/-! ## Parts the operations make -/

section Parts

variable {T : PieceTreeBase} {p : Piece} {b : StringBuffer} {s e : Nat}

theorem Lies.dropLF (h : Lies T.buffers p b s e) (hlt : s < e) (hlf : b.buffer[s]? = some lineFeed) :
    Lies T.buffers (T.dropLF p) b (s + 1) e ∧ p.lineFeedCnt = (T.dropLF p).lineFeedCnt + 1 := by
  have hsucc := cursorAt_succ_of_ends hlf (endsLine_lf _)
  have hstart : (T.dropLF p).start = cursorAt b.buffer (s + 1) := by
    rw [hsucc, ← h.pieceAt.start]
    rfl
  have hcnt : (T.dropLF p).lineFeedCnt = getLineFeedCnt b (cursorAt b.buffer (s + 1)) (cursorAt b.buffer e) := by
    rw [← hstart, ← h.pieceAt.stop, ← h.bufferAt]
    rfl
  have hlength : (T.dropLF p).length = e - (s + 1) := by
    have := h.pieceAt.length
    show p.length - 1 = _
    omega
  refine ⟨h.part (by omega) (Nat.le_refl e) rfl hstart h.pieceAt.stop hcnt hlength, ?_⟩
  have hbound := h.pieceAt.bound
  have hsub : b.buffer.substring s e = lineFeed :: b.buffer.substring (s + 1) e := by
    have hone : b.buffer.substring s (s + 1) = [lineFeed] := by
      rw [substring, take_add_one, hlf, drop_append_of_le_length (by simp; omega)]
      simp
    rw [substring_append b.buffer (Nat.le_succ s) (show s + 1 ≤ e by omega), hone]
    rfl
  rw [h.lineFeedCnt hlt, hsub, eolCount_cons_lf, hcnt]
  by_cases hlt' : s + 1 < e
  · rw [getLineFeedCnt_eq_eolCount h.ok hlt' hbound]
  · -- the piece was the `\n` alone
    obtain rfl : e = s + 1 := by omega
    rw [getLineFeedCnt_eq h.ok (Nat.le_refl _) hbound, if_neg]
    · simp [substring]
    · rintro ⟨hcr, -⟩
      rw [getLast?_take (by omega), hlf] at hcr
      exact cr_ne_lf (Option.some.inj hcr).symm

theorem Lies.dropCR (h : Lies T.buffers p b s e) (hlt : s < e) (hcr : b.buffer[e - 1]? = some carriageReturn) :
    Lies T.buffers (T.dropCR p) b s (e - 1) ∧ p.lineFeedCnt = (T.dropCR p).lineFeedCnt + 1 := by
  have hbound := h.pieceAt.bound
  have hplen := h.pieceAt.length
  have hstop : (T.dropCR p).stop = cursorAt b.buffer (e - 1) := by
    have hpred := cursorAt_pred h.ok hcr
    rw [Nat.sub_add_cancel (show 1 ≤ e by omega), ← h.pieceAt.stop] at hpred
    rw [← hpred, PieceTreeBase.dropCR, PieceTreeBase.bufferOf, h.bufferAt]
  have hsub : b.buffer.substring s e = b.buffer.substring s (e - 1) ++ [carriageReturn] := by
    have hone : b.buffer.substring (e - 1) e = [carriageReturn] := by
      obtain ⟨o, rfl⟩ : ∃ o, e = o + 1 := ⟨e - 1, by omega⟩
      rw [Nat.add_sub_cancel] at hcr ⊢
      rw [substring, take_add_one, hcr, drop_append_of_le_length (by simp; omega)]
      simp
    rw [substring_append b.buffer (show s ≤ e - 1 by omega) (Nat.sub_le e 1), hone]
  have hold : p.lineFeedCnt = eolCount (b.buffer.substring s (e - 1)) + 1 := by
    rw [h.lineFeedCnt hlt, hsub, eolCount_concat_cr]
  have hnew : (T.dropCR p).lineFeedCnt = p.lineFeedCnt - 1 := rfl
  have hlength : (T.dropCR p).length = p.length - 1 := rfl
  refine ⟨⟨h.buffer, h.ok, ⟨h.pieceAt.start, hstop, by omega, by omega, by omega⟩, ?_⟩, by omega⟩
  intro _
  omega

end Parts

/-! ## Texts that meet -/

/-- No text ends with a `\r` where the next unit is a `\n`; `nx` is the unit behind the last text. -/
def Joined (nx : Option UInt16) : List JsString → Prop
  | [] => True
  | t :: ts => ¬ (t.getLast? = some carriageReturn ∧ ts.flatten.head?.or nx = some lineFeed) ∧ Joined nx ts

instance decidableJoined (nx : Option UInt16) : ∀ ts, Decidable (Joined nx ts)
  | [] => inferInstanceAs (Decidable True)
  | _ :: ts =>
    have := decidableJoined nx ts
    inferInstanceAs (Decidable (_ ∧ _))

theorem joined_append (ts us : List JsString) (nx : Option UInt16) :
    Joined nx (ts ++ us) ↔ Joined (us.flatten.head?.or nx) ts ∧ Joined nx us := by
  induction ts with
  | nil => simp [Joined]
  | cons t ts ih => rw [cons_append, Joined, Joined, flatten_append, head?_append_or, ih, and_assoc]

theorem joined_iff (ts : List JsString) (nx : Option UInt16) : Joined nx ts ↔
    Joined none ts ∧ ¬ (ts.flatten.getLast? = some carriageReturn ∧ nx = some lineFeed) := by
  induction ts with
  | nil => simp [Joined]
  | cons t ts ih =>
    rw [Joined, Joined, ih, flatten_cons, Option.or_none]
    cases hts : ts.flatten with
    | nil =>
      simp only [append_nil, head?_nil, Option.none_or, getLast?_nil]
      constructor
      · rintro ⟨h1, h2, -⟩
        exact ⟨⟨by simp, h2⟩, h1⟩
      · rintro ⟨⟨-, h2⟩, h1⟩
        exact ⟨h1, h2, by simp⟩
    | cons c rest =>
      have hlast : (t ++ c :: rest).getLast? = (c :: rest).getLast? := by
        rw [getLast?_append, getLast?_eq_some_getLast (cons_ne_nil c rest), Option.some_or]
      rw [hlast, head?_cons, Option.some_or, and_assoc]

/-- Texts are joined if both parts are and no pair is split where they meet. -/
theorem joined_append_iff {ts us : List JsString} :
    Joined none (ts ++ us) ↔ Joined none ts ∧ Joined none us ∧ ¬ Junction ts.flatten us.flatten := by
  rw [joined_append, joined_iff ts, Option.or_none]
  constructor
  · rintro ⟨⟨h1, h2⟩, h3⟩
    exact ⟨h1, h3, h2⟩
  · rintro ⟨h1, h3, h2⟩
    exact ⟨⟨h1, h2⟩, h3⟩

variable {ts : List JsString}

theorem joined_cons_iff :
    Joined none (t :: ts) ↔ ¬ Junction t ts.flatten ∧ Joined none ts := by
  rw [Joined, Option.or_none]
  rfl

theorem not_junction_nil_left (b : JsString) : ¬ Junction [] b := by
  rintro ⟨h, -⟩
  cases h

theorem not_junction_nil_right (a : JsString) : ¬ Junction a [] := by
  rintro ⟨-, h⟩
  cases h

theorem junction_append_right {a b c : JsString} (hb : b ≠ []) : Junction a (b ++ c) ↔ Junction a b := by
  rw [Junction, Junction, head?_append_of_ne_nil _ hb]

theorem junction_append_left {a b c : JsString} (hb : b ≠ []) : Junction (a ++ b) c ↔ Junction b c := by
  rw [Junction, Junction, getLast?_append_of_ne_nil _ hb]

theorem not_junction_left {a x y : JsString} (h : ¬ Junction a (x ++ y)) : ¬ Junction a x := by
  intro hjoin
  have hne : x ≠ [] := by
    rintro rfl
    exact not_junction_nil_right _ hjoin
  exact h ((junction_append_right hne).mpr hjoin)

theorem not_junction_right {x y b : JsString} (h : ¬ Junction (x ++ y) b) : ¬ Junction y b := by
  intro hjoin
  have hne : y ≠ [] := by
    rintro rfl
    exact not_junction_nil_left _ hjoin
  exact h ((junction_append_left hne).mpr hjoin)

theorem joined_of_getLast? (nx : Option UInt16) (h : ∀ t ∈ ts, t.getLast? ≠ some carriageReturn) :
    Joined nx ts := by
  induction ts with
  | nil => trivial
  | cons t ts ih =>
    refine ⟨?_, ih fun u hu => h u (mem_cons_of_mem _ hu)⟩
    rintro ⟨hcr, -⟩
    exact h t mem_cons_self hcr

theorem eolCount_flatten (h : Joined none ts) : eolCount ts.flatten = (ts.map eolCount).sum := by
  induction ts with
  | nil => rfl
  | cons t ts ih =>
    obtain ⟨hglue, hrest⟩ := h
    rw [Option.or_none] at hglue
    rw [flatten_cons, eolCount_append hglue, ih hrest, map_cons, sum_cons]

/-! ## Buffers that grow -/

section Grow

variable {bs : List StringBuffer} {p : Piece} {b : StringBuffer} {s e : Nat}

theorem bufferAt_zero (hne : bs ≠ []) : bs[0]? = some (bufferAt bs 0) := by
  cases bs with
  | nil => exact (hne rfl).elim
  | cons b bs => rfl

theorem substring_left (t x : JsString) (he : e ≤ t.length) : (t ++ x).substring s e = t.substring s e := by
  rw [substring, substring, take_append_of_le_length he]

theorem Lies.set (h : Lies bs p b s e) (hne : bs ≠ []) {b' : StringBuffer} {x : JsString} (hok : b'.Ok)
    (htext : b'.buffer = (PieceTree.bufferAt bs 0).buffer ++ x)
    (hjoin : p.bufferIndex = 0 → e = b.buffer.length → ¬ Junction b.buffer x) :
    (∃ b1, Lies (bs.set 0 b') p b1 s e) ∧ PieceTree.content (bs.set 0 b') p = PieceTree.content bs p := by
  by_cases hindex : p.bufferIndex = 0
  · have hb : b = PieceTree.bufferAt bs 0 := by rw [← h.bufferAt, hindex]
    rw [← hb] at htext
    have hle := h.pieceAt.le
    have hbound := h.pieceAt.bound
    have hpos : 0 < bs.length := length_pos_iff.mpr hne
    have hcur : ∀ o, o ≤ e → cursorAt b'.buffer o = cursorAt b.buffer o := by
      intro o ho
      rw [htext]
      exact cursorAt_append (by omega) fun heq => hjoin hindex (by omega)
    have hsub : b'.buffer.substring s e = b.buffer.substring s e := by
      rw [htext, substring_left _ _ hbound]
    have hbuffer : (bs.set 0 b')[p.bufferIndex]? = some b' := by
      rw [hindex, getElem?_set_self hpos]
    have hlies : Lies (bs.set 0 b') p b' s e := by
      refine ⟨hbuffer, hok, ⟨?_, ?_, hle, ?_, h.pieceAt.length⟩, ?_⟩
      · rw [hcur s hle, h.pieceAt.start]
      · rw [hcur e (Nat.le_refl e), h.pieceAt.stop]
      · rw [htext, length_append]
        omega
      · rw [hsub]
        exact h.lineFeedCnt
    exact ⟨⟨b', hlies⟩, by rw [hlies.content, h.content, hsub]⟩
  · have hbuffer : (bs.set 0 b')[p.bufferIndex]? = some b := by
      rw [getElem?_set_ne (by omega)]
      exact h.buffer
    have hlies : Lies (bs.set 0 b') p b s e := ⟨hbuffer, h.ok, h.pieceAt, h.lineFeedCnt⟩
    exact ⟨⟨b, hlies⟩, by rw [hlies.content, h.content]⟩

theorem Lies.append (h : Lies bs p b s e) (more : List StringBuffer) : Lies (bs ++ more) p b s e := by
  refine ⟨?_, h.ok, h.pieceAt, h.lineFeedCnt⟩
  rw [List.getElem?_append_left (List.getElem?_eq_some_iff.mp h.buffer).1]
  exact h.buffer

/-- Every piece of the buffers is one of the new buffers, with the same content. -/
def Grown (bs bs' : List StringBuffer) : Prop :=
  ∀ p, PieceOk bs p → PieceOk bs' p ∧ content bs' p = content bs p

theorem grown_append (bs more : List StringBuffer) : Grown bs (bs ++ more) := by
  rintro p ⟨b, s, e, h⟩
  refine ⟨⟨b, s, e, h.append more⟩, ?_⟩
  rw [(h.append more).content, h.content]

theorem grown_set (hne : bs ≠ []) {b' : StringBuffer} {x : JsString} (hok : b'.Ok)
    (htext : b'.buffer = (bufferAt bs 0).buffer ++ x) (hjoin : ¬ Junction (bufferAt bs 0).buffer x) :
    Grown bs (bs.set 0 b') := by
  rintro p ⟨b, s, e, h⟩
  have hb : p.bufferIndex = 0 → b = bufferAt bs 0 := by
    intro hindex
    rw [← h.bufferAt, hindex]
  obtain ⟨⟨b1, h1⟩, hcontent⟩ := h.set hne hok htext (by
    intro hindex _
    rw [hb hindex]
    exact hjoin)
  exact ⟨⟨b1, s, e, h1⟩, hcontent⟩

end Grow

/-! ## Whole buffers -/

theorem createLineStartsFast_length (t : JsString) : (createLineStartsFast t).length = eolCount t + 1 := by
  rw [createLineStartsFast, createLineStartsLoop_eq, length_cons, lineEnds_length, eolCount_eq]

theorem lies_whole {bs : List StringBuffer} {p : Piece} (hb : bs[p.bufferIndex]? = some b) (hok : b.Ok)
    (hstart : p.start = ⟨0, 0⟩) (hstop : p.stop = cursorAt b.buffer b.buffer.length)
    (hcnt : p.lineFeedCnt = b.lineStarts.length - 1) (hlength : p.length = b.buffer.length) :
    Lies bs p b 0 b.buffer.length ∧ content bs p = b.buffer := by
  have hsub : b.buffer.substring 0 b.buffer.length = b.buffer := by
    rw [substring, take_length, drop_zero]
  have hlies : Lies bs p b 0 b.buffer.length := by
    refine ⟨hb, hok, ⟨hstart, hstop, Nat.zero_le _, Nat.le_refl _, hlength⟩, ?_⟩
    intro _
    rw [hcnt, hok, createLineStartsFast_length, hsub]
    rfl
  exact ⟨hlies, by rw [hlies.content, hsub]⟩

end TongjiCode.PieceTree
