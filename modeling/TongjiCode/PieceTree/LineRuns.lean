import TongjiCode.PieceTree.LineContent

/-!
# Piece tree: line views in runs

The search cache and the last visited line are right in every state of a run (`Viewed`).  So what is read of a
line does not depend on what was read before, and all views show the lines of the text.
-/

open List

namespace TongjiCode.PieceTree

open JsString Tokens PieceTreeBase

/-! ## The line of a cached node -/

theorem lineStartLoop_line {bs : List StringBuffer} {endOffset : Nat} (n : Int) (t : Tree TreeNode) :
    ∀ (lineNumber base : Int), Readable bs t → ∀ value entry,
      lineStartLoop bs n endOffset t lineNumber base = .whole value entry →
      ∃ l1 p l2, items t = l1 ++ (entry.node, p) :: l2 ∧
        entry.nodeStartLineNumber = some (n - (lineNumber - 1) + eolCount (docText bs l1)).toNat := by
  induction t with
  | nil => intro lineNumber base _ value entry h; cases h
  | node c l v r ihl ihr =>
    intro lineNumber base hr value entry h
    have hf := hr.facts
    have hleft := hf.lfLeft
    have hcnt := hf.lineFeedCnt
    have hitems := items_node c l v r
    unfold lineStartLoop at h
    split at h
    · obtain ⟨l1, p, l2, hsplit, hline⟩ := ihl lineNumber base hf.left value entry h
      refine ⟨l1, p, l2 ++ (v.item :: items r), ?_, hline⟩
      rw [hitems, hsplit, append_assoc, cons_append]
    · split at h
      · simp only [LineStart.whole.injEq] at h
        obtain ⟨-, rfl⟩ := h
        refine ⟨items l, v.piece, items r, hitems, ?_⟩
        show some _ = some (n - (lineNumber - 1) + eolCount (textOf bs l)).toNat
        congr 2
        omega
      · split at h
        · cases h
        · obtain ⟨l1, p, l2, hsplit, hline⟩ := ihr _ _ hf.right value entry h
          have hcount := hf.eolCount_upTo hsplit
          refine ⟨items l ++ v.item :: l1, p, l2, ?_, ?_⟩
          · rw [hitems, hsplit, append_assoc, cons_append]
          · rw [hline, hcount]
            congr 2
            omega

section Tree

variable {T : PieceTreeBase} {L : Nodes} {k : Nat}

theorem Inv.getLineRawContent_lines (h : Inv T L) (hlines : CacheLines (docText T.buffers L) T.searchCache)
    (lineNumber endOffset : Nat) :
    CacheLines (docText T.buffers L) (T.getLineRawContent lineNumber endOffset).1.searchCache := by
  obtain ⟨cache, hcacheEq, hcacheOk⟩ := getLineRawContent_inv h lineNumber endOffset
  unfold PieceTreeBase.getLineRawContent at hcacheEq ⊢
  dsimp only at hcacheEq ⊢
  split
  · split <;> exact hlines
  · next hget =>
    rw [hget] at hcacheEq
    split
    · next value entry hloop =>
      rw [hloop] at hcacheEq
      intro entry' n hentry hline
      obtain rfl := Option.some.inj hentry
      have hcache : some entry = cache := congrArg PieceTreeBase.searchCache hcacheEq
      have hstart := hcacheOk entry hcache.symm
      obtain ⟨l1, p, l2, hsplit, hnumber⟩ := lineStartLoop_line _ T.root lineNumber 0 h.readable value entry hloop
      rw [h.holds.items] at hsplit
      have hnodup := h.holds.nodup
      rw [hsplit, map_append, map_cons, nodup_append] at hnodup
      have hoffset : totalLength l1 = entry.nodeStartOffset := by
        rw [hsplit, startOf_middle fun hmem => hnodup.2.2 entry.node hmem entry.node mem_cons_self rfl] at hstart
        exact Option.some.inj hstart
      have hlen : (docText T.buffers l1).length = totalLength l1 :=
        docText_length fun j hj => h.valid j (by rw [hsplit]; simp [hj])
      rw [hline, Option.some.injEq] at hnumber
      rw [hnumber, hsplit, docText_append, ← hoffset, ← hlen, take_left]
      omega
    · exact hlines
    · exact hlines

theorem Inv.getLineContent_lines (h : Inv T L) (hlines : CacheLines (docText T.buffers L) T.searchCache) (lineNumber : Nat) :
    CacheLines (docText T.buffers L) (T.getLineContent lineNumber).1.searchCache := by
  have hraw := h.getLineRawContent_lines hlines lineNumber
  unfold PieceTreeBase.getLineContent
  split
  · exact hlines
  · dsimp only
    split
    · exact hraw 0
    · split
      · exact hraw _
      · exact hraw 0

theorem nodeAt_lines {text : JsString} (hlines : CacheLines text T.searchCache) (offset : Nat) :
    CacheLines text (T.nodeAt offset).1.searchCache := by
  unfold PieceTreeBase.nodeAt
  split
  · exact hlines
  · split
    · intro entry n hentry hline
      rw [← Option.some.inj hentry] at hline
      cases hline
    · exact hlines

/-- The last visited line is the line of its number, if there is such a line. -/
def LastLine (T : PieceTreeBase) (text : JsString) : Prop :=
  Uniform T text → ∀ k, k ≤ eolCount text → T.lastVisitedLine.1 = k + 1 → T.lastVisitedLine.2 = (splitLines text).getD k []

theorem Inv.cuttable (h : Inv T L) (huses : UsesOnly T.eol (docText T.buffers L)) (hn : T.eolNormalized = true) :
    Cuttable T.buffers L T.eol.text.length := by
  intro i hi j hj
  obtain ⟨l1, l2, rfl⟩ := append_of_mem hi
  have hroom := ((h.uniform_piece (fun _ => huses) hn).line_substring hj).2
  rw [rawLine_length]
  omega

section

variable (h : Inv T L) (hlines : CacheLines (docText T.buffers L) T.searchCache)
variable (hlast : LastLine T (docText T.buffers L))
include h hlines hlast

theorem Inv.getLineContent (huses : Uniform T (docText T.buffers L)) (hk : k ≤ eolCount (docText T.buffers L)) :
    (T.getLineContent (k + 1)).2 = (splitLines (docText T.buffers L)).getD k [] := by
  have hzero : Cuttable T.buffers L 0 := fun _ _ _ _ => Nat.zero_le _
  have hwhole := h.getLineRawContent hlines hk hzero
  rw [cutEnd_zero, ite_self] at hwhole
  rw [PieceTreeBase.getLineContent]
  by_cases hvisited : T.lastVisitedLine.1 = k + 1
  · rw [if_pos hvisited]
    exact hlast huses k hk hvisited
  · rw [if_neg hvisited, splitLines_getD hk]
    by_cases hend : k + 1 = T.lineCnt
    · rw [if_pos hend, hwhole]
      rw [h.lineCnt] at hend
      obtain rfl : k = eolCount (docText T.buffers L) := by omega
      exact (rawLine_last_trim _).symm
    · rw [if_neg hend]
      rw [h.lineCnt] at hend
      cases hn : T.eolNormalized with
      | false =>
        exact congrArg trimEol hwhole
      | true =>
        have hcut := h.getLineRawContent hlines hk (h.cuttable (huses hn) hn)
        have hline := (huses hn).line_eq (show k < eolCount (docText T.buffers L) by omega)
        rw [if_pos (by omega)] at hcut
        rw [if_pos rfl, hcut]
        conv => lhs; rw [hline]
        rw [cutEnd_append _ (Nat.le_refl _), cutEnd, Nat.sub_self, take_zero, append_nil]

theorem Inv.getLineContent_last (lineNumber : Nat) :
    LastLine (T.getLineContent lineNumber).1 (docText T.buffers L) := by
  intro huses k hk hvisited
  obtain ⟨cache, line, heq, -⟩ := getLineContent_inv h lineNumber
  have huses' : Uniform T (docText T.buffers L) := by
    rw [heq] at huses
    exact huses
  by_cases hsame : T.lastVisitedLine.1 = lineNumber
  · have hstay : (T.getLineContent lineNumber).1 = T := by
      rw [PieceTreeBase.getLineContent, if_pos hsame]
    rw [hstay] at hvisited ⊢
    exact hlast huses' k hk hvisited
  · have hnew : (T.getLineContent lineNumber).1.lastVisitedLine = (lineNumber, (T.getLineContent lineNumber).2) := by
      rw [PieceTreeBase.getLineContent, if_neg hsame]
    rw [hnew] at hvisited ⊢
    dsimp only at hvisited ⊢
    rw [hvisited]
    exact h.getLineContent hlines hlast huses' hk

end

end Tree

/-! ## Runs -/

/-- What the tree remembers of earlier reads is right. -/
structure Viewed (T : PieceTreeBase) (text : JsString) : Prop where
  lines : CacheLines text T.searchCache
  last : LastLine T text

theorem viewed_of_forgotten {T : PieceTreeBase} {text : JsString} (hlines : CacheLines text T.searchCache)
    (hlast : T.lastVisitedLine = (0, [])) : Viewed T text := by
  refine ⟨hlines, fun _ k _ hvisited => ?_⟩
  rw [hlast] at hvisited
  cases hvisited

theorem create_viewed (chunks : List StringBuffer) (eol : EndOfLine) (eolNormalized : Bool) (text : JsString) :
    Viewed (create chunks eol eolNormalized) text := by
  unfold create
  dsimp only
  generalize hT : ({ eol, eolNormalized, buffers := ⟨[], [0]⟩ :: chunks.filter fun chunk => 0 < chunk.buffer.length } :
    PieceTreeBase) = T
  obtain ⟨hframe, -⟩ := insertPiecesRight_frame (chunkPieces chunks) T none
  obtain ⟨cache, heq, hcache⟩ := computeBufferMetadata_eq (T.insertPiecesRight none (chunkPieces chunks)).1
  rw [heq]
  refine viewed_of_forgotten (fun entry n hentry => ?_) ?_
  · have hold := (hcache entry hentry).1
    rw [hframe.searchCache, ← hT] at hold
    cases hold
  · show (T.insertPiecesRight none (chunkPieces chunks)).1.lastVisitedLine = (0, [])
    rw [hframe.lastVisitedLine, ← hT]

theorem Viewed.step {T T' : PieceTreeBase} {d : Doc} {L : Nodes} (hv : Viewed T d.text) (h : Holding T d L) {a : Action}
    (ha : d.Accepts a) (hT' : T.step a = some T') : Viewed T' (d.apply a).text := by
  have hlines := hv.lines
  have hlast := hv.last
  rw [← h.text] at hlines hlast
  cases a with
  | insert offset value eolNormalized =>
    obtain ⟨hne, hoffset, huses⟩ := ha
    rw [← h.text] at hoffset
    rw [← h.eol] at huses
    obtain ⟨T₁, L₁, hT1, -, htext, -, -, hforgotten, hkept⟩ := insert_spec h.inv hoffset hne huses
    obtain rfl := Option.some.inj (hT1.symm.trans hT')
    have hnew := hkept hlines
    rw [htext, h.text] at hnew
    exact viewed_of_forgotten hnew hforgotten
  | delete offset cnt =>
    have hle : offset + cnt ≤ d.text.length := ha
    rw [← h.text] at hle
    obtain ⟨T₁, L₁, hT1, -, htext, -, -, hforgotten, hkept⟩ := delete_spec h.inv hle
    obtain rfl := Option.some.inj (hT1.symm.trans hT')
    have hnew := hkept hlines
    rw [htext, h.text] at hnew
    exact viewed_of_forgotten hnew hforgotten
  | setEOL eol =>
    obtain rfl := Option.some.inj hT'
    exact create_viewed _ _ _ _
  | getLineContent lineNumber =>
    obtain rfl := Option.some.inj hT'
    refine ⟨?_, ?_⟩
    · exact h.text ▸ h.inv.getLineContent_lines hlines lineNumber
    · exact h.text ▸ h.inv.getLineContent_last hlines hlast lineNumber
  | getLineRawContent lineNumber endOffset =>
    obtain rfl := Option.some.inj hT'
    obtain ⟨cache, heq, -⟩ := getLineRawContent_inv h.inv lineNumber endOffset
    refine ⟨h.text ▸ h.inv.getLineRawContent_lines hlines lineNumber endOffset, ?_⟩
    show LastLine (T.getLineRawContent lineNumber endOffset).1 d.text
    rw [heq]
    exact hv.last
  | getValueInRange range eol =>
    obtain rfl := Option.some.inj hT'
    exact hv
  | getLineCharCode lineNumber index =>
    obtain rfl := Option.some.inj hT'
    exact hv
  | getCharCode offset =>
    obtain rfl := Option.some.inj hT'
    obtain ⟨cache, heq, -⟩ := nodeAt_inv h.inv offset
    refine ⟨nodeAt_lines hv.lines offset, ?_⟩
    show LastLine (T.nodeAt offset).1 d.text
    rw [heq]
    exact hv.last

theorem Viewed.run (actions : List Action) : ∀ {T : PieceTreeBase} {d : Doc} {L : Nodes}, Holding T d L → Viewed T d.text →
    d.AcceptsAll actions → ∃ T' L', T.run actions = some T' ∧ Holding T' (d.run actions) L' ∧ Viewed T' (d.run actions).text := by
  induction actions with
  | nil => intro T d L h hv _; exact ⟨T, L, rfl, h, hv⟩
  | cons a actions ih =>
    intro T d L h hv hall
    obtain ⟨T', L', hT', h'⟩ := h.step hall.1
    obtain ⟨T'', L'', hT'', h''⟩ := ih h' (hv.step h hall.1 hT') hall.2
    refine ⟨T'', L'', ?_, h''⟩
    rw [PieceTreeBase.run, hT']
    exact hT''

/-! ## The views of a tree -/

section Views

variable {T : PieceTreeBase} {L : Nodes}

theorem Inv.views (h : Inv T L) (hv : Viewed T (docText T.buffers L)) (huses : Uniform T (docText T.buffers L)) :
    T.getLinesContent = splitLines T.getLinesRawContent ∧
      ∀ n, 1 ≤ n → n ≤ T.lineCnt → T.getLinesContent[n - 1]? = some (T.getLineContent n).2 := by
  have hall := h.getLinesContent huses
  refine ⟨by rw [hall, h.getLinesRawContent], fun n hpos hle => ?_⟩
  rw [h.lineCnt] at hle
  obtain ⟨k, rfl⟩ : ∃ k, n = k + 1 := ⟨n - 1, by omega⟩
  have hline := h.getLineContent hv.lines hv.last huses (show k ≤ eolCount (docText T.buffers L) by omega)
  rw [hall, hline, splitLines_getD (by omega), splitLines_getElem?, Nat.add_sub_cancel, if_pos (by omega)]

theorem Inv.setEOL_views (h : Inv T L) (eol : EndOfLine) :
    (T.setEOL eol).getLinesRawContent = replaceEol eol.text T.getLinesRawContent ∧
      (T.setEOL eol).getLinesContent = splitLines T.getLinesRawContent ∧
      ∀ n, 1 ≤ n → n ≤ T.lineCnt → some ((T.setEOL eol).getLineContent n).2 = (splitLines T.getLinesRawContent)[n - 1]? := by
  obtain ⟨L', h', htext, heol, hnormalized⟩ := setEOL_spec h eol
  have huses : Uniform (T.setEOL eol) (docText (T.setEOL eol).buffers L') := by
    intro _
    rw [heol, htext]
    exact usesOnly_replaceEol eol _
  obtain ⟨hall, hlines⟩ := h'.views (create_viewed _ _ _ _) huses
  have hcount : (T.setEOL eol).lineCnt = T.lineCnt := by
    have h1 := splitLines_length (docText (T.setEOL eol).buffers L')
    have h2 := splitLines_length (docText T.buffers L)
    rw [htext, splitLines_replaceEol, h2, ← htext] at h1
    rw [h'.lineCnt, h.lineCnt]
    omega
  rw [h'.getLinesRawContent, htext, splitLines_replaceEol] at hall
  rw [h'.getLinesRawContent, htext, h.getLinesRawContent]
  refine ⟨rfl, hall, fun n hpos hle => ?_⟩
  rw [← hall, hlines n hpos (hcount ▸ hle)]

end Views

section Runs

variable {chunks : List StringBuffer} {eol : EndOfLine} {eolNormalized : Bool} {actions : List Action}

/-- In every state of a run, whatever was read before, the lines of the tree are those of its text, provided that a tree
marked as normalized uses only its line break. -/
theorem line_views (hchunks : ChunksOk chunks eol eolNormalized) (hactions : (Doc.ofChunks chunks eol).AcceptsAll actions) :
    ∃ T, (create chunks eol eolNormalized).run actions = some T ∧ (Uniform T T.getLinesRawContent →
      T.getLinesContent = splitLines T.getLinesRawContent ∧
        ∀ n, 1 ≤ n → n ≤ T.lineCnt → T.getLinesContent[n - 1]? = some (T.getLineContent n).2) := by
  obtain ⟨L, hinv, htext, heol, -⟩ := create_spec hchunks
  obtain ⟨T, L', hT, h, hv⟩ := Viewed.run actions ⟨hinv, htext, heol⟩ (create_viewed _ _ _ _) hactions
  refine ⟨T, hT, fun huses => ?_⟩
  rw [← h.text] at hv
  rw [h.inv.getLinesRawContent] at huses
  exact h.inv.views hv huses

/-- Lines over several pieces, read before and behind edits. -/
theorem line_views_crlf : ∃ T, (create [⟨[97, 13], [0, 2]⟩, ⟨[98, 10, 99, 13], [0, 2, 4]⟩] .lf false).run
    [.getLineContent 2, .insert 2 [10, 100] false, .getLineRawContent 1 0, .delete 4 1, .getLineContent 7] = some T ∧
      (Uniform T T.getLinesRawContent → T.getLinesContent = splitLines T.getLinesRawContent ∧
        ∀ n, 1 ≤ n → n ≤ T.lineCnt → T.getLinesContent[n - 1]? = some (T.getLineContent n).2) :=
  line_views (by decide) (by decide)

/-- A normalized text in which a deletion leaves the `\n` of a `\r\n`: its line is not cut in the right place. -/
theorem not_line_views : ¬ ∀ (chunks : List StringBuffer) (eol : EndOfLine) (eolNormalized : Bool) (actions : List Action),
    ChunksOk chunks eol eolNormalized → (Doc.ofChunks chunks eol).AcceptsAll actions →
      ∃ T, (create chunks eol eolNormalized).run actions = some T ∧ T.getLinesContent = splitLines T.getLinesRawContent ∧
        ∀ n, 1 ≤ n → n ≤ T.lineCnt → T.getLinesContent[n - 1]? = some (T.getLineContent n).2 := by
  intro hall
  obtain ⟨T, hT, -, hlines⟩ := hall [⟨[97, 13, 10, 98], [0, 3]⟩] .crlf true [.delete 1 1] (by decide) (by decide)
  have hrun : ((create [⟨[97, 13, 10, 98], [0, 3]⟩] .crlf true).run [.delete 1 1]).map (fun T =>
      (T.lineCnt, T.getLinesContent[0]?, (T.getLineContent 1).2)) = some (2, some [97], [97, 13]) := by decide +kernel
  rw [hT] at hrun
  simp only [Option.map_some, Option.some.injEq, Prod.mk.injEq] at hrun
  obtain ⟨hcount, hfirst, hline⟩ := hrun
  have hbad := hlines 1 (Nat.le_refl 1) (by omega)
  rw [hline] at hbad
  have := hfirst.symm.trans hbad
  exact absurd this (by decide)

/-- `setEOL` replaces each break of the text, whatever its pieces are: the lines stay, and a second time nothing changes. -/
theorem setEOL_normalizes (hchunks : ChunksOk chunks eol eolNormalized)
    (hactions : (Doc.ofChunks chunks eol).AcceptsAll actions) (newEOL : EndOfLine) :
    ∃ T, (create chunks eol eolNormalized).run actions = some T ∧
      (T.setEOL newEOL).getLinesRawContent = replaceEol newEOL.text T.getLinesRawContent ∧
      splitLines (T.setEOL newEOL).getLinesRawContent = splitLines T.getLinesRawContent ∧
      (T.setEOL newEOL).getLinesContent = splitLines T.getLinesRawContent ∧
      (∀ n, 1 ≤ n → n ≤ T.lineCnt →
        some ((T.setEOL newEOL).getLineContent n).2 = (splitLines T.getLinesRawContent)[n - 1]?) ∧
      ((T.setEOL newEOL).setEOL newEOL).getLinesRawContent = (T.setEOL newEOL).getLinesRawContent ∧
      ((T.setEOL newEOL).setEOL newEOL).getLinesContent = (T.setEOL newEOL).getLinesContent := by
  obtain ⟨T, L, hT, h⟩ := Holding.of_run hchunks hactions
  obtain ⟨hraw, hall, hlines⟩ := h.inv.setEOL_views newEOL
  obtain ⟨L', h', -, -, -⟩ := setEOL_spec h.inv newEOL
  obtain ⟨hraw', hall', -⟩ := h'.setEOL_views newEOL
  have htwice : replaceEol newEOL.text (replaceEol newEOL.text T.getLinesRawContent) =
      replaceEol newEOL.text T.getLinesRawContent := usesOnly_replaceEol newEOL _
  refine ⟨T, hT, hraw, ?_, hall, hlines, ?_, ?_⟩
  · rw [hraw, splitLines_replaceEol]
  · rw [hraw', hraw, htwice]
  · rw [hall', hall, hraw, splitLines_replaceEol]

theorem setEOL_normalizes_crlf : ∃ T, (create [⟨[97, 13], [0, 2]⟩, ⟨[98, 10, 99, 13], [0, 2, 4]⟩] .lf false).run
    [.insert 2 [10, 100] false, .delete 4 1] = some T ∧
      (T.setEOL .crlf).getLinesRawContent = replaceEol EndOfLine.crlf.text T.getLinesRawContent ∧
      splitLines (T.setEOL .crlf).getLinesRawContent = splitLines T.getLinesRawContent ∧
      (T.setEOL .crlf).getLinesContent = splitLines T.getLinesRawContent ∧
      (∀ n, 1 ≤ n → n ≤ T.lineCnt →
        some ((T.setEOL .crlf).getLineContent n).2 = (splitLines T.getLinesRawContent)[n - 1]?) ∧
      ((T.setEOL .crlf).setEOL .crlf).getLinesRawContent = (T.setEOL .crlf).getLinesRawContent ∧
      ((T.setEOL .crlf).setEOL .crlf).getLinesContent = (T.setEOL .crlf).getLinesContent :=
  setEOL_normalizes (by decide) (by decide) .crlf

end Runs

end TongjiCode.PieceTree
