import TongjiCode.PieceTree.Growth

/-!
# Piece tree: new pieces

`createNewPieces` puts a text into the buffers and returns its pieces.  The pieces spell the text, none of
them is empty, no `\r\n` is split between two of them, and all other pieces stay.
-/

open List

namespace TongjiCode.PieceTree

open JsString

/-- The buffers have their line starts, and the last change ended where the change buffer ends. -/
structure BuffersOk (T : PieceTreeBase) : Prop where
  nonempty : T.buffers ≠ []
  ok : ∀ b ∈ T.buffers, b.Ok
  last : T.lastChangeBufferPos =
    cursorAt (bufferAt T.buffers 0).buffer (bufferAt T.buffers 0).buffer.length

/-- The piece at the end of the change buffer, to which `insert` may append. -/
def isTail (last : BufferCursor) (p : Piece) : Bool := p.bufferIndex = 0 && p.stop = last

def tails (last : BufferCursor) (L : List Piece) : Nat := L.countP (isTail last)

/-- What `createNewPieces` does. -/
structure NewPieces (T : PieceTreeBase) (text : JsString) (T' : PieceTreeBase) (pieces : List Piece) : Prop where
  frame : ∃ buffers last, T' = { T with buffers := buffers, lastChangeBufferPos := last }
  buffersOk : BuffersOk T'
  grown : Grown T.buffers T'.buffers
  valid : ∀ p ∈ pieces, PieceOk T'.buffers p ∧ 0 < p.length
  spells : (pieces.map (content T'.buffers)).flatten = text
  joined : Joined none (pieces.map (content T'.buffers))
  tails : ∀ L : List Piece, (∀ p ∈ L, PieceOk T.buffers p) → tails T.lastChangeBufferPos L ≤ 1 →
    tails T'.lastChangeBufferPos L + tails T'.lastChangeBufferPos pieces ≤ 1
  noCr : (∀ b ∈ T.buffers, carriageReturn ∉ b.buffer) → carriageReturn ∉ text →
    ∀ b ∈ T'.buffers, carriageReturn ∉ b.buffer

/-! ## A large text -/

theorem splitText_flatten (text : JsString) : (PieceTreeBase.splitText text).flatten = text := by
  induction text using PieceTreeBase.splitText.induct with
  | case1 text h ih =>
    rw [PieceTreeBase.splitText, if_pos h, flatten_cons, ih, take_append_drop]
  | case2 text h =>
    rw [PieceTreeBase.splitText, if_neg h]
    simp

variable {text : JsString}

theorem splitText_ne_nil (hne : text ≠ []) : ∀ t ∈ PieceTreeBase.splitText text, t ≠ [] := by
  induction text using PieceTreeBase.splitText.induct with
  | case1 text h ih =>
    have hsplit := PieceTreeBase.splitLength_pos text
    rw [PieceTreeBase.splitText, if_pos h]
    intro t ht
    rcases mem_cons.mp ht with rfl | ht
    · rw [← length_pos_iff, length_take]
      omega
    · refine ih ?_ t ht
      rw [← length_pos_iff, length_drop]
      omega
  | case2 text h =>
    rw [PieceTreeBase.splitText, if_neg h]
    intro t ht
    rw [mem_singleton] at ht
    rw [ht]
    exact hne

/-- A chunk does not end between `\r` and `\n`. -/
theorem splitLength_not_junction (h : text.length > averageBufferSize) :
    ¬ Junction (text.take (PieceTreeBase.splitLength text)) (text.drop (PieceTreeBase.splitLength text)) := by
  rintro ⟨hcr, hlf⟩
  rw [head?_drop] at hlf
  have hpos := PieceTreeBase.splitLength_pos text
  obtain ⟨n, hn⟩ : ∃ n, PieceTreeBase.splitLength text = n + 1 := ⟨PieceTreeBase.splitLength text - 1, by omega⟩
  rw [hn, getLast?_take (by omega)] at hcr
  rw [hn] at hlf
  have hsplit : PieceTreeBase.splitLength text = n + 1 := hn
  unfold PieceTreeBase.splitLength at hsplit
  dsimp only at hsplit
  split at hsplit
  · next hlast =>
    -- the unit kept back is no `\n`
    rw [show n + 1 = averageBufferSize - 1 by omega] at hlf
    rw [getD_eq_getElem?_getD, hlf, Option.getD_some] at hlast
    rcases hlast with hlast | ⟨hlast, -⟩
    · exact cr_ne_lf hlast.symm
    · exact absurd hlast (by decide)
  · next hlast =>
    rw [show n = averageBufferSize - 1 by omega] at hcr
    rw [getD_eq_getElem?_getD, hcr, Option.getD_some] at hlast
    exact hlast (.inl rfl)

theorem splitText_joined (text : JsString) : Joined none (PieceTreeBase.splitText text) := by
  induction text using PieceTreeBase.splitText.induct with
  | case1 text h ih =>
    rw [PieceTreeBase.splitText, if_pos h]
    refine ⟨?_, ih⟩
    rw [splitText_flatten, Option.or_none]
    exact splitLength_not_junction h
  | case2 text h =>
    rw [PieceTreeBase.splitText, if_neg h]
    simp [Joined]

theorem wholePieces (bs : List StringBuffer) (chunks : List JsString) :
    let bs' := bs ++ chunks.map fun chunk => ⟨chunk, createLineStartsFast chunk⟩
    let pieces := chunks.zipIdx.map fun chunk => PieceTreeBase.wholePiece (bs.length + chunk.2) chunk.1
    (∀ p ∈ pieces, PieceOk bs' p ∧ content bs' p ∈ chunks) ∧ pieces.map (content bs') = chunks := by
  intro bs' pieces
  have hone : ∀ c ∈ chunks.zipIdx, PieceOk bs' (PieceTreeBase.wholePiece (bs.length + c.2) c.1) ∧
      content bs' (PieceTreeBase.wholePiece (bs.length + c.2) c.1) = c.1 := by
    rintro ⟨chunk, i⟩ hc
    have hi : chunks[i]? = some chunk := mem_zipIdx_iff_getElem?.mp hc
    have hbuffer : bs'[bs.length + i]? = some ⟨chunk, createLineStartsFast chunk⟩ := by
      rw [getElem?_append_right (by omega), Nat.add_sub_cancel_left, getElem?_map, hi]
      rfl
    have hstop := cursorAt_length chunk
    obtain ⟨hlies, hcontent⟩ := lies_whole (p := PieceTreeBase.wholePiece (bs.length + i) chunk) hbuffer rfl rfl
      hstop.symm rfl rfl
    exact ⟨⟨_, _, _, hlies⟩, hcontent⟩
  constructor
  · intro p hp
    obtain ⟨c, hc, rfl⟩ := mem_map.mp hp
    obtain ⟨hok, hcontent⟩ := hone c hc
    refine ⟨hok, ?_⟩
    rw [hcontent]
    exact mem_of_getElem? (mem_zipIdx_iff_getElem?.mp hc)
  · show List.map _ (List.map _ _) = _
    rw [map_map]
    have : chunks.zipIdx.map (content bs' ∘ fun c => PieceTreeBase.wholePiece (bs.length + c.2) c.1) =
        chunks.zipIdx.map Prod.fst := map_congr_left fun c hc => (hone c hc).2
    rw [this, zipIdx_map_fst]

variable {T : PieceTreeBase}

theorem createLargePieces_spec (h : BuffersOk T) (hne : text ≠ []) :
    NewPieces T text (T.createLargePieces text).1 (T.createLargePieces text).2 := by
  obtain ⟨hvalid, hcontents⟩ := wholePieces T.buffers (PieceTreeBase.splitText text)
  have hzero : ∀ more, bufferAt (T.buffers ++ more) 0 = bufferAt T.buffers 0 := by
    intro more
    have h0 := bufferAt_zero h.nonempty
    rw [bufferAt, getD_eq_getElem?_getD,
      getElem?_append_left (length_pos_iff.mpr h.nonempty), h0]
    rfl
  have hindex : ∀ p ∈ (T.createLargePieces text).2, p.bufferIndex ≠ 0 := by
    intro p hp
    obtain ⟨c, -, rfl⟩ := mem_map.mp hp
    have := length_pos_iff.mpr h.nonempty
    show T.buffers.length + c.2 ≠ 0
    omega
  refine ⟨⟨_, _, rfl⟩, ⟨?_, ?_, ?_⟩, grown_append _ _, ?_, ?_, ?_, ?_, ?_⟩
  · intro hnil
    exact h.nonempty (append_eq_nil_iff.mp hnil).1
  · intro b hb
    rcases mem_append.mp hb with hb | hb
    · exact h.ok b hb
    · obtain ⟨chunk, -, rfl⟩ := mem_map.mp hb
      exact rfl
  · show T.lastChangeBufferPos = _
    rw [h.last]
    show _ = cursorAt (bufferAt (T.buffers ++ _) 0).buffer (bufferAt (T.buffers ++ _) 0).buffer.length
    rw [hzero]
  · intro p hp
    obtain ⟨hok, hmem⟩ := hvalid p hp
    refine ⟨hok, ?_⟩
    rw [← hok.length, length_pos_iff]
    exact splitText_ne_nil hne _ hmem
  · exact (congrArg List.flatten hcontents).trans (splitText_flatten text)
  · show Joined none (List.map _ _)
    exact hcontents ▸ splitText_joined text
  · intro L hL hle
    have hnone : tails T.lastChangeBufferPos (T.createLargePieces text).2 = 0 := by
      rw [tails, countP_eq_zero]
      intro p hp
      simp [isTail, hindex p hp]
    show tails T.lastChangeBufferPos L + tails T.lastChangeBufferPos (T.createLargePieces text).2 ≤ 1
    omega
  · intro hold hnew b hb
    rcases mem_append.mp hb with hb | hb
    · exact hold b hb
    · obtain ⟨chunk, hchunk, rfl⟩ := mem_map.mp hb
      intro hcr
      apply hnew
      rw [← splitText_flatten text]
      exact mem_flatten_of_mem hchunk hcr

/-! ## A small text -/

/-- The buffers after `x` has been appended to the change buffer. -/
structure Appended (T : PieceTreeBase) (x : JsString) (T' : PieceTreeBase) (b' : StringBuffer) : Prop where
  frame : T' = { T with buffers := T.buffers.set 0 b', lastChangeBufferPos := cursorAt b'.buffer b'.buffer.length }
  ok : b'.Ok
  buffer : b'.buffer = (bufferAt T.buffers 0).buffer ++ x

section Appended

variable {T T' : PieceTreeBase} {x : JsString} {b' : StringBuffer}

section

variable (h : Appended T x T' b')
include h

theorem Appended.bufferAt_zero (hT : BuffersOk T) : bufferAt T'.buffers 0 = b' := by
  rw [h.frame]
  have hpos : 0 < T.buffers.length := length_pos_iff.mpr hT.nonempty
  show (T.buffers.set 0 b').getD 0 _ = b'
  rw [getD_eq_getElem?_getD, getElem?_set_self hpos]
  rfl

theorem Appended.getElem_zero (hT : BuffersOk T) : T'.buffers[0]? = some b' := by
  rw [h.frame]
  exact getElem?_set_self (length_pos_iff.mpr hT.nonempty)

theorem Appended.buffersOk (hT : BuffersOk T) : BuffersOk T' := by
  have hzero := h.bufferAt_zero hT
  refine ⟨?_, ?_, ?_⟩
  · rw [h.frame]
    rw [← length_pos_iff, length_set]
    exact length_pos_iff.mpr hT.nonempty
  · intro b hb
    rw [h.frame] at hb
    rcases mem_or_eq_of_mem_set hb with hb | rfl
    · exact hT.ok b hb
    · exact h.ok
  · rw [hzero, h.frame]

theorem Appended.tails (hx : x ≠ []) {L : List Piece}
    (hL : ∀ p ∈ L, p.bufferIndex = 0 → ∃ e, e ≤ (bufferAt T.buffers 0).buffer.length ∧ p.stop = cursorAt b'.buffer e) :
    tails T'.lastChangeBufferPos L = 0 := by
  rw [PieceTree.tails, countP_eq_zero]
  intro p hp htail
  rw [isTail, Bool.and_eq_true, decide_eq_true_eq, decide_eq_true_eq] at htail
  obtain ⟨hindex, hstop⟩ := htail
  obtain ⟨e, he, hcursor⟩ := hL p hp hindex
  have hend : e = b'.buffer.length := by
    refine cursorAt_injective h.ok ?_
    rw [← hcursor, hstop, h.frame]
  have hlen := congrArg List.length h.buffer
  have hxpos := length_pos_iff.mpr hx
  rw [length_append] at hlen
  omega

theorem Appended.noCr (hT : BuffersOk T) (hold : ∀ b ∈ T.buffers, carriageReturn ∉ b.buffer) (hx : carriageReturn ∉ x) :
    ∀ b ∈ T'.buffers, carriageReturn ∉ b.buffer := by
  intro b hb
  rw [h.frame] at hb
  rcases mem_or_eq_of_mem_set hb with hb | rfl
  · exact hold b hb
  · rw [h.buffer, mem_append, not_or]
    exact ⟨hold _ (mem_of_getElem? (PieceTree.bufferAt_zero hT.nonempty)), hx⟩

end

end Appended

theorem Appended.newPieces {T T' : PieceTreeBase} {x text : JsString} {b' : StringBuffer} {p : Piece} {start : Nat}
    (h : Appended T x T' b') (hT : BuffersOk T) (hjoin : ¬ Junction (bufferAt T.buffers 0).buffer x) (hne : text ≠ [])
    (hx : x = text ∨ x = 0x5F :: text) (hstart : start + text.length = b'.buffer.length)
    (hp : p = ⟨0, cursorAt b'.buffer start, cursorAt b'.buffer b'.buffer.length,
      getLineFeedCnt b' (cursorAt b'.buffer start) (cursorAt b'.buffer b'.buffer.length), b'.buffer.length - start⟩) :
    NewPieces T text T' [p] := by
  have hpos := length_pos_iff.mpr hne
  have hxne : x ≠ [] := by
    rcases hx with rfl | rfl <;> simp [hne]
  have hlies : Lies T'.buffers p b' start b'.buffer.length := by
    subst hp
    refine ⟨h.getElem_zero hT, h.ok, ⟨rfl, rfl, by omega, Nat.le_refl _, rfl⟩, ?_⟩
    intro hlt
    exact getLineFeedCnt_eq_eolCount h.ok hlt (Nat.le_refl _)
  have hsuffix : ∃ front, b'.buffer = front ++ text ∧ front.length = start := by
    rcases hx with rfl | rfl
    · refine ⟨(bufferAt T.buffers 0).buffer, h.buffer, ?_⟩
      have := congrArg List.length h.buffer
      rw [length_append] at this
      omega
    · refine ⟨(bufferAt T.buffers 0).buffer ++ [0x5F], by rw [h.buffer]; simp, ?_⟩
      have := congrArg List.length h.buffer
      simp only [length_append, length_cons, length_nil] at this ⊢
      omega
  have hcontent : content T'.buffers p = text := by
    obtain ⟨front, hfront, hlen⟩ := hsuffix
    rw [hlies.content, substring, take_length, hfront, ← hlen, drop_left]
  refine ⟨?_, h.buffersOk hT, ?_, ?_, ?_, ?_, ?_, ?_⟩
  · exact ⟨_, _, h.frame⟩
  · rw [h.frame]
    exact grown_set hT.nonempty h.ok h.buffer hjoin
  · intro q hq
    rw [mem_singleton] at hq
    subst hq
    exact ⟨⟨b', start, _, hlies⟩, by rw [hlies.pieceAt.length]; omega⟩
  · simp [hcontent]
  · simp [Joined]
  · intro L hL _
    have hnone : PieceTree.tails T'.lastChangeBufferPos L = 0 := by
      refine h.tails hxne ?_
      intro q hq hindex
      obtain ⟨b, s, e, hq⟩ := hL q hq
      have hb : b = bufferAt T.buffers 0 := by rw [← hq.bufferAt, hindex]
      subst hb
      refine ⟨e, hq.pieceAt.bound, ?_⟩
      rw [hq.pieceAt.stop, h.buffer, cursorAt_append hq.pieceAt.bound fun _ => hjoin]
    have hone : PieceTree.tails T'.lastChangeBufferPos [p] ≤ 1 := countP_le_length
    omega
  · intro hold hnew
    refine h.noCr hT hold ?_
    rcases hx with rfl | rfl
    · exact hnew
    · rw [mem_cons, not_or]
      exact ⟨by decide, hnew⟩

theorem bufferAt_set {bs : List StringBuffer} (hne : bs ≠ []) (b' : StringBuffer) : bufferAt (bs.set 0 b') 0 = b' := by
  rw [bufferAt, getD_eq_getElem?_getD, getElem?_set_self (length_pos_iff.mpr hne)]
  rfl

variable {b : StringBuffer}

theorem StringBuffer.Ok.end_eq (hb : b.Ok) : (⟨b.lineStarts.length - 1,
    b.buffer.length - b.lineStarts.getD (b.lineStarts.length - 1) 0⟩ : BufferCursor) =
      cursorAt b.buffer b.buffer.length := by
  rw [hb, cursorAt_length]

/-- The `_` is needed exactly where a `\r\n` would come to stand in the buffer. -/
theorem separate_iff (hok : b.Ok) (text : JsString) :
    (b.lineStarts.getD (b.lineStarts.length - 1) 0 = b.buffer.length && b.buffer.length ≠ 0 &&
      text.head? = some lineFeed && b.buffer.getLast? = some carriageReturn) = true ↔ Junction b.buffer text := by
  simp only [Bool.and_eq_true, decide_eq_true_eq]
  constructor
  · rintro ⟨⟨-, hlf⟩, hcr⟩
    exact ⟨hcr, hlf⟩
  · rintro ⟨hcr, hlf⟩
    refine ⟨⟨⟨?_, ?_⟩, hlf⟩, hcr⟩
    · obtain ⟨t, ht⟩ := getLast?_eq_some_iff.mp hcr
      rw [hok, ht, createLineStartsFast_concat_cr]
      simp
    · intro hzero
      rw [length_eq_zero_iff.mp hzero] at hcr
      cases hcr

theorem createNewPieces_spec (h : BuffersOk T) (hne : text ≠ []) :
    NewPieces T text (T.createNewPieces text).1 (T.createNewPieces text).2 := by
  by_cases hlarge : text.length > averageBufferSize
  · rw [PieceTreeBase.createNewPieces, if_pos hlarge]
    exact createLargePieces_spec h hne
  have hok : (bufferAt T.buffers 0).Ok := h.ok _ (mem_of_getElem? (bufferAt_zero h.nonempty))
  have hlast := h.last
  have hsep := separate_iff hok text
  unfold PieceTreeBase.createNewPieces PieceTreeBase.appendToBuffer
  rw [if_neg hlarge]
  dsimp only
  rw [hlast]
  by_cases hjunction : Junction (bufferAt T.buffers 0).buffer text
  · rw [if_pos (hsep.mpr hjunction), if_pos (hsep.mpr hjunction), if_pos (hsep.mpr hjunction),
      drop_createLineStartsFast, bufferAt_set h.nonempty]
    have hjoin : ¬ Junction (bufferAt T.buffers 0).buffer (0x5F :: text) := by
      rintro ⟨-, hlf⟩
      exact absurd (Option.some.inj hlf) (by decide)
    have hstarts := createLineStartsFast_append hjoin
    rw [lineEnds, endsLine_of_ne (by decide), if_neg Bool.false_ne_true, ← hok] at hstarts
    have hok' : StringBuffer.Ok ⟨(bufferAt T.buffers 0).buffer ++ 0x5F :: text, (bufferAt T.buffers 0).lineStarts ++
      lineEnds ((bufferAt T.buffers 0).buffer.length + 1) none text⟩ := hstarts.symm
    have hstart : (⟨(cursorAt (bufferAt T.buffers 0).buffer (bufferAt T.buffers 0).buffer.length).line,
        (cursorAt (bufferAt T.buffers 0).buffer (bufferAt T.buffers 0).buffer.length).column + 1⟩ : BufferCursor) =
        cursorAt ((bufferAt T.buffers 0).buffer ++ 0x5F :: text) ((bufferAt T.buffers 0).buffer.length + 1) := by
      rw [← cursorAt_append (Nat.le_refl _) fun _ => hjoin]
      exact (cursorAt_succ_of_not_ends (c := 0x5F) (by simp) (endsLine_of_ne (by decide) _)).symm
    rw [hstart, hok'.end_eq]
    refine Appended.newPieces ⟨rfl, hok', rfl⟩ h hjoin hne (.inr rfl) ?_ rfl
    simp only [length_append, length_cons]
    omega
  · rw [if_neg (mt hsep.mp hjunction), if_neg (mt hsep.mp hjunction), if_neg (mt hsep.mp hjunction),
      drop_createLineStartsFast, bufferAt_set h.nonempty]
    have hstarts := createLineStartsFast_append hjunction
    rw [← hok] at hstarts
    have hok' : StringBuffer.Ok ⟨(bufferAt T.buffers 0).buffer ++ text, (bufferAt T.buffers 0).lineStarts ++
      lineEnds (bufferAt T.buffers 0).buffer.length none text⟩ := hstarts.symm
    have hstart : cursorAt (bufferAt T.buffers 0).buffer (bufferAt T.buffers 0).buffer.length =
        cursorAt ((bufferAt T.buffers 0).buffer ++ text) (bufferAt T.buffers 0).buffer.length :=
      (cursorAt_append (Nat.le_refl _) fun _ => hjunction).symm
    rw [hstart, hok'.end_eq]
    refine Appended.newPieces ⟨rfl, hok', rfl⟩ h hjunction hne (.inl rfl) ?_ rfl
    rw [length_append]

theorem BuffersOk.isTail_iff (h : BuffersOk T) {p : Piece} {s e : Nat} (hp : Lies T.buffers p b s e) :
    isTail T.lastChangeBufferPos p = true ↔ p.bufferIndex = 0 ∧ e = b.buffer.length := by
  rw [isTail, Bool.and_eq_true, decide_eq_true_eq, decide_eq_true_eq]
  have hb : p.bufferIndex = 0 → bufferAt T.buffers 0 = b := by
    intro hindex
    rw [← hp.bufferAt, hindex]
  constructor
  · rintro ⟨hindex, hstop⟩
    refine ⟨hindex, cursorAt_injective hp.ok ?_⟩
    rw [← hp.pieceAt.stop, hstop, h.last, hb hindex]
  · rintro ⟨hindex, he⟩
    refine ⟨hindex, ?_⟩
    rw [h.last, hb hindex, hp.pieceAt.stop, he]

theorem createNewPieces_small (T : PieceTreeBase) (h : ¬ text.length > averageBufferSize) :
    ∃ r, (T.createNewPieces text).2 = [r] := by
  rw [PieceTreeBase.createNewPieces, if_neg h]
  exact ⟨_, rfl⟩

end TongjiCode.PieceTree
