import TongjiCode.PieceTree.Insert

/-!
# Piece tree: creation and change of the line breaks

`create` makes a tree of chunks.  `setEOL` replaces every line break of the text, in chunks that never end
inside a `\r\n`, and creates the tree anew.
-/

open List

namespace TongjiCode.PieceTree

open JsString

/-! ## Replacing line breaks -/

theorem replaceEol_cons {eol : JsString} {c : UInt16} (h : ¬ (c = carriageReturn ∨ c = lineFeed)) (t : JsString) :
    replaceEol eol (c :: t) = c :: replaceEol eol t := by
  cases t with
  | nil => simp only [replaceEol, if_neg h]
  | cons d t =>
    have hcr : ¬ (c = carriageReturn ∧ d = lineFeed) := fun hc => h (.inl hc.1)
    rw [replaceEol, if_neg hcr, if_neg h]

theorem replaceEol_append {eol a b : JsString} (h : ¬ Junction a b) :
    replaceEol eol (a ++ b) = replaceEol eol a ++ replaceEol eol b := by
  induction a using eolCount.induct with
  | case1 => rfl
  | case2 c hc =>
    rw [replaceEol, if_pos hc]
    cases b with
    | nil => simp only [append_nil, replaceEol, if_pos hc]
    | cons d t =>
      have hcr : ¬ (c = carriageReturn ∧ d = lineFeed) := by
        rintro ⟨rfl, rfl⟩
        exact h ⟨rfl, rfl⟩
      rw [singleton_append, replaceEol, if_neg hcr, if_pos hc]
  | case3 c hc => rw [singleton_append, replaceEol_cons hc, replaceEol_cons hc]; rfl
  | case4 c d t hc ih =>
    have h' : ¬ Junction t b := by
      intro hjoin
      have hne : t ≠ [] := by
        rintro rfl
        exact not_junction_nil_left _ hjoin
      exact h ((junction_append_left (a := [c, d]) hne).mpr hjoin)
    rw [cons_append, cons_append, replaceEol, if_pos hc, replaceEol, if_pos hc, ih h', append_assoc]
  | case5 c d t hc hc' ih =>
    have h' : ¬ Junction (d :: t) b := fun hjoin => h ((junction_append_left (a := [c]) (List.cons_ne_nil d t)).mpr hjoin)
    rw [cons_append, cons_append, replaceEol, if_neg hc, if_pos hc', replaceEol, if_neg hc, if_pos hc',
      ← cons_append, ih h', append_assoc]
  | case6 c d t hc hc' ih =>
    have h' : ¬ Junction (d :: t) b := fun hjoin => h ((junction_append_left (a := [c]) (List.cons_ne_nil d t)).mpr hjoin)
    rw [cons_append, replaceEol_cons hc', replaceEol_cons hc', ih h', cons_append]

theorem replaceEol_eol (eol : EndOfLine) (t : JsString) :
    replaceEol eol.text (eol.text ++ t) = eol.text ++ replaceEol eol.text t := by
  cases eol with
  | lf =>
    have h : ¬ Junction EndOfLine.lf.text t := by
      rintro ⟨hlast, -⟩
      exact absurd hlast (by decide)
    rw [replaceEol_append h]
    rfl
  | crlf =>
    rfl

/-- A text whose line breaks have been replaced uses the new one only. -/
theorem usesOnly_replaceEol (eol : EndOfLine) (t : JsString) : UsesOnly eol (replaceEol eol.text t) := by
  rw [UsesOnly]
  induction t using eolCount.induct with
  | case1 => rfl
  | case2 c hc =>
    rw [replaceEol, if_pos hc]
    have := replaceEol_eol eol []
    rwa [append_nil, replaceEol, append_nil] at this
  | case3 c hc =>
    rw [replaceEol, if_neg hc, replaceEol, if_neg hc]
  | case4 c d t hc ih => rw [replaceEol, if_pos hc, replaceEol_eol, ih]
  | case5 c d t hc hc' ih => rw [replaceEol, if_neg hc, if_pos hc', replaceEol_eol, ih]
  | case6 c d t hc hc' ih => rw [replaceEol_cons hc', replaceEol_cons hc', ih]

theorem replaceEol_ne_nil (eol : EndOfLine) {t : JsString} (h : t ≠ []) : replaceEol eol.text t ≠ [] := by
  have heol : ∀ u : JsString, eol.text ++ u ≠ [] := by
    intro u
    cases eol <;> exact List.cons_ne_nil _ _
  induction t using eolCount.induct with
  | case1 => exact (h rfl).elim
  | case2 c hc =>
    rw [replaceEol, if_pos hc]
    have := heol []
    rwa [append_nil] at this
  | case3 c hc => rw [replaceEol, if_neg hc]; exact List.cons_ne_nil _ _
  | case4 c d t hc ih => rw [replaceEol, if_pos hc]; exact heol _
  | case5 c d t hc hc' ih => rw [replaceEol, if_neg hc, if_pos hc']; exact heol _
  | case6 c d t hc hc' ih => rw [replaceEol_cons hc']; exact List.cons_ne_nil _ _

variable {eol : EndOfLine}

theorem UsesOnly.getLast? {t : JsString} (h : UsesOnly eol t) : t.getLast? ≠ some carriageReturn := by
  intro hcr
  obtain ⟨u, rfl⟩ := List.getLast?_eq_some_iff.mp hcr
  have hsplit : ¬ Junction u [carriageReturn] := fun hjoin => cr_ne_lf (Option.some.inj hjoin.2)
  rw [UsesOnly, replaceEol_append hsplit] at h
  have hlast := congrArg List.getLast? h
  rw [show replaceEol eol.text [carriageReturn] = eol.text from rfl, List.getLast?_concat] at hlast
  have hne : eol.text ≠ [] := by cases eol <;> exact List.cons_ne_nil _ _
  rw [getLast?_append_of_ne_nil _ hne] at hlast
  cases eol with
  | lf => exact absurd hlast (by decide)
  | crlf => exact absurd hlast (by decide)

/-! ## Creation -/

/-- The chunks of an initial text: all of them hold text, or none does, their line starts are right, no
`\r\n` is split, and the flag for normalized line breaks is true only of such texts. -/
structure ChunksOk (chunks : List StringBuffer) (eol : EndOfLine) (eolNormalized : Bool) : Prop where
  nonempty : (∀ b ∈ chunks, b.buffer ≠ []) ∨ ∀ b ∈ chunks, b.buffer = []
  ok : ∀ b ∈ chunks, b.Ok
  joined : Joined none (chunks.map StringBuffer.buffer)
  normalized : eolNormalized = true → ∀ b ∈ chunks, UsesOnly eol b.buffer

instance (chunks : List StringBuffer) (eol : EndOfLine) (eolNormalized : Bool) :
    Decidable (ChunksOk chunks eol eolNormalized) :=
  decidable_of_iff (((∀ b ∈ chunks, b.buffer ≠ []) ∨ ∀ b ∈ chunks, b.buffer = []) ∧ (∀ b ∈ chunks, b.Ok) ∧
      Joined none (chunks.map StringBuffer.buffer) ∧ (eolNormalized = true → ∀ b ∈ chunks, UsesOnly eol b.buffer))
    ⟨fun h => ⟨h.1, h.2.1, h.2.2.1, h.2.2.2⟩, fun h => ⟨h.nonempty, h.ok, h.joined, h.normalized⟩⟩

variable {T : PieceTreeBase}

theorem Core.insertPiecesRight_none (h : Core T []) {pieces : List Piece} (hvalid : ∀ p ∈ pieces, PieceOk T.buffers p)
    (htails : tails T.lastChangeBufferPos pieces ≤ 1) :
    Core (T.insertPiecesRight none pieces).1 (number T.nextId pieces) := by
  cases pieces with
  | nil => exact h
  | cons p ps =>
    obtain ⟨hp, hps⟩ := forall_mem_cons.mp hvalid
    rw [tails_cons] at htails
    have hroot : T.root = .nil := (root_eq_nil_iff h).mpr rfl
    have hfirst : Core (T.rbInsertRight none p).1 ([] ++ (T.nextId, p) :: []) := by
      have heq : (T.rbInsertRight none p).1 = { T with
          root := .node .black .nil { id := T.nextId, piece := p } .nil
          nextId := T.nextId + 1 } := by
        simp only [PieceTreeBase.rbInsertRight, insertRight, hroot]
      rw [heq]
      refine h.withRoot (holds_single _ rfl) ?_ ?_ ?_
      · intro i hi
        rw [mem_singleton.mp hi]
        omega
      · intro i hi
        rw [mem_singleton.mp hi]
        exact hp
      · show tails T.lastChangeBufferPos [p] ≤ 1
        rw [tails_cons, tails_nil]
        omega
    have hrest := hfirst.insertPiecesRight ps hps (by
      show tails T.lastChangeBufferPos [p] + tails T.lastChangeBufferPos ps ≤ 1
      rw [tails_cons, tails_nil]
      omega)
    rw [append_nil] at hrest
    exact hrest

theorem chunkPieces_spec {chunks : List StringBuffer} {eolNormalized : Bool} (h : ChunksOk chunks eol eolNormalized) :
    let bs := ⟨[], [0]⟩ :: chunks.filter fun chunk => 0 < chunk.buffer.length
    (∀ p ∈ PieceTreeBase.chunkPieces chunks, PieceOk bs p ∧ 0 < p.length ∧ p.bufferIndex ≠ 0) ∧
      Joined none ((PieceTreeBase.chunkPieces chunks).map (content bs)) ∧
      ((PieceTreeBase.chunkPieces chunks).map (content bs)).flatten = (chunks.map StringBuffer.buffer).flatten := by
  intro bs
  rcases h.nonempty with hne | hempty
  · have hfilter : chunks.filter (fun chunk => 0 < chunk.buffer.length) = chunks :=
      filter_eq_self.mpr fun b hb => decide_eq_true (length_pos_iff.mpr (hne b hb))
    have hbs : bs = ⟨[], [0]⟩ :: chunks := congrArg _ hfilter
    have hzip : chunks.zipIdx.filter (fun chunk => 0 < chunk.1.buffer.length) = chunks.zipIdx := by
      refine filter_eq_self.mpr ?_
      rintro ⟨b, i⟩ hb
      exact decide_eq_true (length_pos_iff.mpr (hne b (mem_of_getElem? (mem_zipIdx_iff_getElem?.mp hb))))
    have hone : ∀ c ∈ chunks.zipIdx, ∀ p : Piece, p = ⟨c.2 + 1, ⟨0, 0⟩, ⟨c.1.lineStarts.length - 1,
        c.1.buffer.length - c.1.lineStarts.getD (c.1.lineStarts.length - 1) 0⟩, c.1.lineStarts.length - 1,
          c.1.buffer.length⟩ → PieceOk bs p ∧ content bs p = c.1.buffer ∧ 0 < p.length ∧ p.bufferIndex ≠ 0 := by
      rintro ⟨b, i⟩ hb p hp
      have hi : chunks[i]? = some b := mem_zipIdx_iff_getElem?.mp hb
      have hmem := mem_of_getElem? hi
      have hbuffer : bs[p.bufferIndex]? = some b := by
        rw [hp, hbs]
        exact hi
      obtain ⟨hlies, hcontent⟩ := lies_whole hbuffer (h.ok b hmem) (by rw [hp])
        (by rw [hp]; exact (h.ok b hmem).end_eq) (by rw [hp]) (by rw [hp])
      refine ⟨⟨_, _, _, hlies⟩, hcontent, ?_, ?_⟩
      · rw [hp]
        exact length_pos_iff.mpr (hne b hmem)
      · rw [hp]
        exact Nat.succ_ne_zero i
    have hmap : (PieceTreeBase.chunkPieces chunks).map (content bs) = chunks.map StringBuffer.buffer := by
      rw [PieceTreeBase.chunkPieces, hzip, map_map]
      have hcongr : chunks.zipIdx.map (StringBuffer.buffer ∘ Prod.fst) = chunks.map StringBuffer.buffer := by
        rw [← map_map, zipIdx_map_fst]
      rw [← hcongr]
      exact map_congr_left fun c hc => (hone c hc _ rfl).2.1
    refine ⟨?_, ?_, ?_⟩
    · intro p hp
      rw [PieceTreeBase.chunkPieces, hzip] at hp
      obtain ⟨c, hc, rfl⟩ := mem_map.mp hp
      exact ⟨(hone c hc _ rfl).1, (hone c hc _ rfl).2.2⟩
    · rw [hmap]
      exact h.joined
    · rw [hmap]
  · have hpieces : PieceTreeBase.chunkPieces chunks = [] := by
      rw [PieceTreeBase.chunkPieces, map_eq_nil_iff, filter_eq_nil_iff]
      rintro ⟨b, i⟩ hb
      have := hempty b (mem_of_getElem? (mem_zipIdx_iff_getElem?.mp hb))
      simp [this]
    have hflat : (chunks.map StringBuffer.buffer).flatten = [] := by
      rw [flatten_eq_nil_iff]
      intro t ht
      obtain ⟨b, hb, rfl⟩ := mem_map.mp ht
      exact hempty b hb
    rw [hpieces, hflat]
    exact ⟨(fun p hp => by cases hp), trivial, rfl⟩

theorem create_spec {chunks : List StringBuffer} {eolNormalized : Bool} (h : ChunksOk chunks eol eolNormalized) :
    ∃ L, Inv (PieceTreeBase.create chunks eol eolNormalized) L ∧
      docText (PieceTreeBase.create chunks eol eolNormalized).buffers L = (chunks.map StringBuffer.buffer).flatten ∧
      (PieceTreeBase.create chunks eol eolNormalized).eol = eol ∧
      (PieceTreeBase.create chunks eol eolNormalized).eolNormalized = eolNormalized := by
  obtain ⟨hvalid, hjoined, htext⟩ := chunkPieces_spec h
  generalize hT : ({ eol, eolNormalized, buffers := ⟨[], [0]⟩ :: chunks.filter fun chunk => 0 < chunk.buffer.length } :
    PieceTreeBase) = T
  have hbs : T.buffers = ⟨[], [0]⟩ :: chunks.filter fun chunk => 0 < chunk.buffer.length := by rw [← hT]
  rw [← hbs] at hvalid hjoined htext
  have hempty : Core T [] := by
    rw [← hT]
    refine ⟨⟨⟨⟨0, .nil⟩, trivial⟩, rfl, nodup_nil⟩, by simp, ⟨by simp, ?_, rfl⟩, by simp, Nat.zero_le 1, ?_⟩
    · intro b hb
      rcases mem_cons.mp hb with rfl | hb
      · rfl
      · exact h.ok b (mem_filter.mp hb).1
    · intro hcheck b hb
      obtain ⟨hnormalized, heol⟩ := shouldCheckCRLF_eq_false.mp hcheck
      rcases mem_cons.mp hb with rfl | hb
      · simp
      · have := h.normalized hnormalized b (mem_filter.mp hb).1
        exact UsesOnly.noCr (heol ▸ this)
  have htails : tails T.lastChangeBufferPos (PieceTreeBase.chunkPieces chunks) = 0 := by
    rw [tails, countP_eq_zero]
    intro p hp
    simp [isTail, (hvalid p hp).2.2]
  have hcore := hempty.insertPiecesRight_none (fun p hp => (hvalid p hp).1) (by omega)
  obtain ⟨hframe, hbuffers, -⟩ := insertPiecesRight_frame (PieceTreeBase.chunkPieces chunks) T none
  have heq : PieceTreeBase.create chunks eol eolNormalized =
      (T.insertPiecesRight none (PieceTreeBase.chunkPieces chunks)).1.computeBufferMetadata := by
    rw [← hT]
    rfl
  generalize (T.insertPiecesRight none (PieceTreeBase.chunkPieces chunks)).1 = T' at hcore hframe hbuffers heq
  have htexts : texts T'.buffers (number T.nextId (PieceTreeBase.chunkPieces chunks)) =
      (PieceTreeBase.chunkPieces chunks).map (content T.buffers) := by
    rw [hbuffers, texts_number]
  have hgood : Good T' (number T.nextId (PieceTreeBase.chunkPieces chunks)) := by
    refine ⟨hcore, ?_, ?_⟩
    · intro i hi
      refine (hvalid i.2 ?_).2.1
      rw [← number_snd (PieceTreeBase.chunkPieces chunks) T.nextId]
      exact mem_map_of_mem hi
    · rw [htexts]
      exact hjoined
  have hinv := hgood.computeBufferMetadata (by
    rw [hframe.searchCache, ← hT]
    intro entry hentry
    cases hentry)
  obtain ⟨hb', he', hn'⟩ := computeBufferMetadata_buffers T'
  rw [heq]
  refine ⟨_, hinv, ?_, ?_, ?_⟩
  · rw [hb', docText, htexts, htext]
  · rw [he', hframe.eol, ← hT]
  · rw [hn', hframe.eolNormalized, ← hT]

/-! ## Change of the line breaks -/

theorem nodeContents_flatten (bs : List StringBuffer) (t : Tree TreeNode) :
    (nodeContents bs t).flatten = docText bs (items t) := by
  induction t with
  | nil => rfl
  | node c l v r ihl ihr =>
    rw [nodeContents, flatten_append, flatten_cons, ihl, ihr, items_node, docText_append, docText_cons]
    rfl

theorem nodeContents_joined (bs : List StringBuffer) (t : Tree TreeNode) : ∀ nx,
    Joined nx (nodeContents bs t) ↔ Joined nx (texts bs (items t)) := by
  induction t with
  | nil => intro nx; simp [nodeContents, items_nil, Joined]
  | node c l v r ihl ihr =>
    intro nx
    have hr := nodeContents_flatten bs r
    rw [nodeContents, items_node, texts_append, texts_cons, joined_append, joined_append, ihl, Joined, Joined, ihr,
      flatten_cons, flatten_cons, hr]
    rfl

theorem Inv.getLinesRawContent {L : Nodes} (h : Inv T L) :
    T.getLinesRawContent = docText T.buffers L := by
  rw [PieceTreeBase.getLinesRawContent, nodeContents_flatten, h.holds.items]

/-- The chunks hold the text with its line breaks replaced; none is empty. -/
theorem normalizeChunks_spec (eol : EndOfLine) (strs : List JsString) : ∀ temp : JsString, Joined none (temp :: strs) →
    (PieceTreeBase.normalizeChunks eol.text temp strs).flatten = replaceEol eol.text (temp ++ strs.flatten) ∧
      ∀ t ∈ PieceTreeBase.normalizeChunks eol.text temp strs, ∃ u, u ≠ [] ∧ t = replaceEol eol.text u := by
  induction strs with
  | nil =>
    intro temp _
    rw [PieceTreeBase.normalizeChunks]
    split
    · next hpos =>
      refine ⟨by simp, fun t ht => ⟨temp, length_pos_iff.mp hpos, mem_singleton.mp ht⟩⟩
    · next hpos =>
      have hnil : temp = [] := length_eq_zero_iff.mp (by omega)
      rw [hnil]
      exact ⟨rfl, fun t ht => by cases ht⟩
  | cons str strs ih =>
    intro temp h
    obtain ⟨h1, h2⟩ := joined_cons_iff.mp h
    obtain ⟨h3, h4⟩ := joined_cons_iff.mp h2
    rw [PieceTreeBase.normalizeChunks]
    split
    · have hjoined : Joined none ((temp ++ str) :: strs) := by
        refine joined_cons_iff.mpr ⟨?_, h4⟩
        intro hjoin
        by_cases hstr : str = []
        · rw [hstr, append_nil] at hjoin
          refine h1 ?_
          rw [hstr, flatten_cons, nil_append]
          exact hjoin
        · exact h3 ((junction_append_left hstr).mp hjoin)
      obtain ⟨hflat, hall⟩ := ih (temp ++ str) hjoined
      refine ⟨?_, hall⟩
      rw [hflat, flatten_cons, append_assoc]
    · next hflush =>
      have hne : temp ≠ [] := by
        intro hnil
        rw [not_or, hnil] at hflush
        exact hflush.1 (Nat.zero_le _)
      obtain ⟨hflat, hall⟩ := ih str h2
      refine ⟨?_, forall_mem_cons.mpr ⟨⟨temp, hne, rfl⟩, hall⟩⟩
      rw [flatten_cons, hflat, replaceEol_append h1, flatten_cons]

theorem setEOL_spec {L : Nodes} (h : Inv T L) (eol : EndOfLine) :
    ∃ L', Inv (T.setEOL eol) L' ∧ docText (T.setEOL eol).buffers L' = replaceEol eol.text (docText T.buffers L) ∧
      (T.setEOL eol).eol = eol ∧ (T.setEOL eol).eolNormalized = true := by
  have hjoined : Joined none ([] :: nodeContents T.buffers T.root) := by
    refine joined_cons_iff.mpr ⟨not_junction_nil_left _, ?_⟩
    rw [nodeContents_joined, h.holds.items]
    exact h.joined
  obtain ⟨hflat, hall⟩ := normalizeChunks_spec eol _ [] hjoined
  rw [nil_append, nodeContents_flatten, h.holds.items] at hflat
  have huses : ∀ t ∈ PieceTreeBase.normalizeChunks eol.text [] (nodeContents T.buffers T.root), UsesOnly eol t := by
    intro t ht
    obtain ⟨u, -, rfl⟩ := hall t ht
    exact usesOnly_replaceEol eol u
  have hchunks : ChunksOk ((PieceTreeBase.normalizeChunks eol.text [] (nodeContents T.buffers T.root)).map
      fun text => ⟨text, createLineStartsFast text⟩) eol true := by
    refine ⟨.inl ?_, ?_, ?_, fun _ => ?_⟩
    · intro b hb
      obtain ⟨t, ht, rfl⟩ := mem_map.mp hb
      obtain ⟨u, hu, rfl⟩ := hall t ht
      exact replaceEol_ne_nil eol hu
    · intro b hb
      obtain ⟨t, -, rfl⟩ := mem_map.mp hb
      rfl
    · refine joined_of_getLast? none ?_
      intro t ht
      obtain ⟨b, hb, rfl⟩ := mem_map.mp ht
      obtain ⟨u, hu, rfl⟩ := mem_map.mp hb
      exact (huses u hu).getLast?
    · intro b hb
      obtain ⟨t, ht, rfl⟩ := mem_map.mp hb
      exact huses t ht
  obtain ⟨L', hinv, htext, heol, hnormalized⟩ := create_spec hchunks
  refine ⟨L', hinv, ?_, heol, hnormalized⟩
  have htext : docText (T.setEOL eol).buffers L' = _ := htext
  rw [htext, map_map, ← hflat]
  exact congrArg _ (List.map_id _)

end TongjiCode.PieceTree
