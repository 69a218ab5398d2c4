import TongjiCode.PieceTree.Insert

/-!
# Piece tree: deletion

One lemma for each kind of range `delete` can meet: a whole node, the head, the tail or the middle of one
node, and a range over several nodes.
-/

open List

namespace TongjiCode.PieceTree

open JsString

/-- The text without the part `X`. -/
structure Deleted (T : PieceTreeBase) (A : JsString) (B : JsString) (T' : PieceTreeBase) (L' : Nodes) : Prop where
  good : Good T' L'
  text : docText T'.buffers L' = A ++ B
  frame : Frame T T'

theorem Repaired.deleted {T T₁ T' : PieceTreeBase} {A B front : Nodes} (h : Repaired T₁ A B T' front) (hA : Positive A)
    (hB : Positive B) (hframe : Frame T T₁) :
    Deleted T (docText T₁.buffers A) (docText T₁.buffers B) T' (front ++ B.tail) := by
  refine ⟨h.good hA hB, ?_, hframe.trans h.frame⟩
  rw [h.text, docText_append]

section OneNode

variable {T : PieceTreeBase} {l₁ l₂ : Nodes} {i : Nat} {p : Piece}

theorem Core.not_mem (h : Core T (l₁ ++ (i, p) :: l₂)) : i ∉ (l₁ ++ l₂).map Prod.fst := by
  have hnodup := h.holds.nodup
  rw [map_append, map_cons, nodup_append, nodup_cons] at hnodup
  rw [map_append, mem_append]
  rintro (hmem | hmem)
  · exact hnodup.2.2 i hmem i mem_cons_self rfl
  · exact hnodup.2.1.1 hmem

theorem Core.head_ne (h : Core T (l₁ ++ (i, p) :: l₂)) : l₂.head?.map Prod.fst ≠ some i := by
  intro heq
  obtain ⟨k, hk, hki⟩ := Option.map_eq_some_iff.mp heq
  refine h.not_mem ?_
  rw [← hki]
  exact mem_map_of_mem (mem_append_right _ (mem_of_head? hk))

/-- A node is taken out. -/
theorem deleteNode_deleted (h : Good T (l₁ ++ (i, p) :: l₂)) :
    ∃ L', Deleted T (docText T.buffers l₁) (docText T.buffers l₂)
      ((T.rbDelete i).validateCRLFWithPrevNode (PieceTree.next T.root i)) L' ∧ startOf L' i = none := by
  obtain ⟨hposA, hposB⟩ := positive_append.mp h.positive
  obtain ⟨hA, hB, -⟩ := joined_texts_append.mp h.joined
  have hposl2 := (positive_cons.mp hposB).2
  have hB2 := (joined_texts_cons.mp hB).2
  have h1 := h.toCore.rbDelete
  have hnone := h.toCore.not_mem
  obtain ⟨front, hrepaired⟩ := validateCRLFWithPrevNode_spec h1 hposA.last hposl2.head hA hB2
  rw [h.holds.next]
  refine ⟨_, hrepaired.deleted hposA hposl2 (rbDelete_frame T i), ?_⟩
  rcases hrepaired.stays i h.toCore.id_lt h.toCore.head_ne with hstays | hstays
  · exact hstays
  · rw [hstays, startOf_eq_none]
    exact hnone

variable {b : StringBuffer} {s e : Nat}

/-- A node loses its front. -/
theorem deleteHead_deleted (h : Good T (l₁ ++ (i, p) :: l₂)) (hp : Lies T.buffers p b s e) {m : Nat} (hs : s ≤ m)
    (hm : m < e) {T' : PieceTreeBase} {c : Option CacheEntry}
    (hT' : T' = { T.deleteNodeHead i (cursorAt b.buffer m) with searchCache := c }) :
    ∃ L', Deleted { T with searchCache := c } (docText T.buffers l₁) (b.buffer.substring m e ++ docText T.buffers l₂)
      (T'.validateCRLFWithPrevNode (some i)) L' := by
  obtain ⟨hposA, hposB⟩ := positive_append.mp h.positive
  obtain ⟨hA, hB, -⟩ := joined_texts_append.mp h.joined
  obtain ⟨hB1, hB2⟩ := joined_texts_cons.mp hB
  obtain ⟨q, h1, hq, hframe, hbuffers⟩ := deleteNodeHead_spec h.toCore hp hs (Nat.le_of_lt hm)
  have hqlen := hq.pieceAt.length
  have h1' : Core T' (l₁ ++ (i, q) :: l₂) := by
    rw [hT']
    exact h1.withCache c _ _ _
  have hbuffers' : T'.buffers = T.buffers := by
    rw [hT']
    exact hbuffers
  have hframe' : Frame { T with searchCache := c } T' := by
    rw [hT']
    exact ⟨hframe.eol, hframe.eolNormalized, rfl, hframe.lastVisitedLine, hframe.nextId⟩
  have hposB' : Positive ((i, q) :: l₂) := positive_cons.mpr ⟨by dsimp only; omega, (positive_cons.mp hposB).2⟩
  have hB' : Joined none (texts T'.buffers ((i, q) :: l₂)) := by
    rw [hbuffers']
    refine joined_texts_cons.mpr ⟨?_, hB2⟩
    rw [hp.content, substring_append b.buffer hs (Nat.le_of_lt hm)] at hB1
    rw [hq.content]
    exact not_junction_right hB1
  obtain ⟨front, hrepaired⟩ := validateCRLFWithPrevNode_spec h1' hposA.last hposB'.head (by rw [hbuffers']; exact hA) hB'
  have := hrepaired.deleted hposA hposB' hframe'
  rw [hbuffers', docText_cons, hq.content] at this
  exact ⟨_, this⟩

/-- A node loses its end. -/
theorem deleteTail_deleted (h : Good T (l₁ ++ (i, p) :: l₂)) (hp : Lies T.buffers p b s e) {m : Nat} (hs : s < m)
    (hm : m ≤ e) : ∃ L', Deleted T (docText T.buffers l₁ ++ b.buffer.substring s m) (docText T.buffers l₂)
      ((T.deleteNodeTail i (cursorAt b.buffer m)).validateCRLFWithNextNode (some i)) L' ∧
        Stays (l₁ ++ (i, p) :: l₂) L' i := by
  obtain ⟨hposA, hposB⟩ := positive_append.mp h.positive
  obtain ⟨hA, hB, hAB⟩ := joined_texts_append.mp h.joined
  obtain ⟨hB1, hB2⟩ := joined_texts_cons.mp hB
  obtain ⟨q, h1, hq, -, hframe, hbuffers, -⟩ := deleteNodeTail_spec h.toCore hp (Nat.le_of_lt hs) hm
  have hqlen := hq.pieceAt.length
  generalize T.deleteNodeTail i (cursorAt b.buffer m) = T₁ at h1 hframe hbuffers
  have h1' : Core T₁ ((l₁ ++ [(i, q)]) ++ l₂) := by
    rw [append_assoc]
    exact h1
  have hposA' : Positive (l₁ ++ [(i, q)]) := by
    refine positive_append.mpr ⟨hposA, positive_cons.mpr ⟨by dsimp only; omega, fun j hj => by cases hj⟩⟩
  have hposl2 := (positive_cons.mp hposB).2
  have hA' : Joined none (texts T₁.buffers (l₁ ++ [(i, q)])) := by
    rw [hbuffers]
    refine joined_texts_append.mpr ⟨hA, ⟨by simp, trivial⟩, ?_⟩
    rw [docText_cons, hp.content, substring_append b.buffer (Nat.le_of_lt hs) hm, append_assoc] at hAB
    rw [docText_cons, docText_nil, append_nil, hq.content]
    exact not_junction_left hAB
  obtain ⟨front, hrepaired⟩ := validateCRLFWithNextNode_spec h1' hposA'.last hposl2.head hA' (by rw [hbuffers]; exact hB2)
  have hlast : (l₁ ++ [(i, q)]).getLast?.map Prod.fst = some i := by simp
  rw [hlast] at hrepaired
  have hdeleted := hrepaired.deleted hposA' hposl2 hframe
  rw [hbuffers, docText_append, docText_cons, docText_nil, append_nil, hq.content] at hdeleted
  refine ⟨_, hdeleted, ?_⟩
  have hstays := hrepaired.stays i h1.id_lt h.toCore.head_ne
  rw [Stays, append_assoc] at hstays
  rw [Stays, h.toCore.startOf, ← h1.startOf]
  exact hstays

end OneNode

section Shrink

variable {T : PieceTreeBase} {l₁ l₂ : Nodes} {i : Nat} {p : Piece} {b : StringBuffer} {s e : Nat}

/-- A node loses what is in its middle and becomes two. -/
theorem shrinkNode_deleted (h : Good T (l₁ ++ (i, p) :: l₂)) (hp : Lies T.buffers p b s e) {m m' : Nat} (hs : s < m)
    (hle : m ≤ m') (hlt : m < e) (hm' : m' < e) :
    ∃ L', Deleted T (docText T.buffers l₁ ++ b.buffer.substring s m)
      (b.buffer.substring m' e ++ docText T.buffers l₂)
      (T.shrinkNode i (cursorAt b.buffer m) (cursorAt b.buffer m')) L' ∧ Stays (l₁ ++ (i, p) :: l₂) L' i := by
  obtain ⟨hposA, hposB⟩ := positive_append.mp h.positive
  obtain ⟨hA, hB, hAB⟩ := joined_texts_append.mp h.joined
  obtain ⟨hB1, hB2⟩ := joined_texts_cons.mp hB
  have hbound := hp.pieceAt.bound
  have hbuffer : T.bufferOf p = b := hp.bufferAt
  -- the part in front of the range
  generalize hleft : ({ p with
      stop := cursorAt b.buffer m
      lineFeedCnt := getLineFeedCnt b p.start (cursorAt b.buffer m)
      length := offsetInBuffer b (cursorAt b.buffer m) - offsetInBuffer b p.start } : Piece) = left
  have hLeft : Lies T.buffers left b s m := by
    subst hleft
    refine hp.part (Nat.le_of_lt hs) (by omega) rfl hp.pieceAt.start rfl ?_ ?_
    · show getLineFeedCnt b p.start _ = _
      rw [hp.pieceAt.start]
    · show offsetInBuffer b _ - offsetInBuffer b p.start = _
      rw [hp.offset_start, offset_cursorAt hp.ok]
  have hleftlen := hLeft.pieceAt.length
  have hnotTail : ¬ isTail T.lastChangeBufferPos left = true := by
    intro htail
    have := ((h.buffers.isTail_iff hLeft).mp htail).2
    omega
  -- the part behind it
  generalize hright : ({ p with
      start := cursorAt b.buffer m'
      lineFeedCnt := getLineFeedCnt b (cursorAt b.buffer m') p.stop
      length := offsetInBuffer b p.stop - offsetInBuffer b (cursorAt b.buffer m') } : Piece) = right
  have hRight : Lies T.buffers right b m' e := by
    subst hright
    refine hp.part (Nat.le_of_lt hm') (Nat.le_refl e) rfl rfl hp.pieceAt.stop ?_ ?_
    · show getLineFeedCnt b _ p.stop = _
      rw [hp.pieceAt.stop]
    · show offsetInBuffer b p.stop - offsetInBuffer b _ = _
      rw [hp.offset_stop, offset_cursorAt hp.ok]
  have hrightlen := hRight.pieceAt.length
  have hrightTail : isTail T.lastChangeBufferPos right = isTail T.lastChangeBufferPos p := by
    rw [← hright]
    rfl
  have h1 : Core (T.replacePiece i left (left.length - p.length) (left.lineFeedCnt - p.lineFeedCnt))
      (l₁ ++ (i, left) :: l₂) := by
    refine h.toCore.replacePiece ⟨b, s, m, hLeft⟩ ?_ fun htail => (hnotTail htail).elim
    rw [Piece.metadata, Piece.metadata, Prod.mk_add_mk, Prod.mk.injEq]
    omega
  have h2 := h1.rbInsertRight (q := right) ⟨b, m', e, hRight⟩ (by
    have hold := h.tail
    show tails T.lastChangeBufferPos _ + tails T.lastChangeBufferPos _ ≤ 1
    simp only [map_append, map_cons, tails_append, tails_cons, tails_nil] at hold ⊢
    rw [hrightTail, if_neg hnotTail]
    omega)
  have heq : T.shrinkNode i (cursorAt b.buffer m) (cursorAt b.buffer m') =
      ((T.replacePiece i left (left.length - p.length) (left.lineFeedCnt - p.lineFeedCnt)).rbInsertRight (some i)
        right).1.validateCRLFWithPrevNode (some T.nextId) := by
    unfold PieceTreeBase.shrinkNode
    rw [h.toCore.pieceOf]
    dsimp only
    rw [hbuffer, ← hleft, ← hright]
    rfl
  have hframe : Frame T ((T.replacePiece i left (left.length - p.length) (left.lineFeedCnt - p.lineFeedCnt)).rbInsertRight
      (some i) right).1 := (replacePiece_frame T i _ _ _).trans (rbInsertRight_frame _ _ _)
  have hbuffers : ((T.replacePiece i left (left.length - p.length) (left.lineFeedCnt - p.lineFeedCnt)).rbInsertRight
      (some i) right).1.buffers = T.buffers := rfl
  generalize ((T.replacePiece i left (left.length - p.length) (left.lineFeedCnt - p.lineFeedCnt)).rbInsertRight (some i)
    right).1 = T₁ at h2 heq hframe hbuffers
  have h2' : Core T₁ ((l₁ ++ [(i, left)]) ++ (T.nextId, right) :: l₂) := by
    rw [append_assoc]
    exact h2
  have hposA' : Positive (l₁ ++ [(i, left)]) :=
    positive_append.mpr ⟨hposA, positive_cons.mpr ⟨by dsimp only; omega, fun j hj => by cases hj⟩⟩
  have hposB' : Positive ((T.nextId, right) :: l₂) :=
    positive_cons.mpr ⟨by dsimp only; omega, (positive_cons.mp hposB).2⟩
  have hA' : Joined none (texts T₁.buffers (l₁ ++ [(i, left)])) := by
    rw [hbuffers]
    refine joined_texts_append.mpr ⟨hA, ⟨by simp, trivial⟩, ?_⟩
    rw [docText_cons, hp.content, substring_append b.buffer (Nat.le_of_lt hs) (Nat.le_of_lt hlt),
      append_assoc] at hAB
    rw [docText_cons, docText_nil, append_nil, hLeft.content]
    exact not_junction_left hAB
  have hB' : Joined none (texts T₁.buffers ((T.nextId, right) :: l₂)) := by
    rw [hbuffers]
    refine joined_texts_cons.mpr ⟨?_, hB2⟩
    rw [hp.content, substring_append b.buffer (show s ≤ m' by omega) (Nat.le_of_lt hm')] at hB1
    rw [hRight.content]
    exact not_junction_right hB1
  obtain ⟨front, hrepaired⟩ := validateCRLFWithPrevNode_spec h2' hposA'.last hposB'.head hA' hB'
  have hdeleted := hrepaired.deleted hposA' hposB' hframe
  rw [hbuffers, docText_append, docText_cons, docText_nil, append_nil, docText_cons, hLeft.content,
    hRight.content] at hdeleted
  rw [heq]
  refine ⟨_, hdeleted, ?_⟩
  have hid := h.toCore.id_lt
  have hstays := hrepaired.stays i h2.id_lt (by
    intro hsame
    have : T.nextId = i := Option.some.inj hsame
    omega)
  rw [Stays, append_assoc] at hstays
  rw [Stays, h.toCore.startOf, ← h2.startOf]
  exact hstays

end Shrink

/-! ## A range over several nodes -/

section Several

variable {T : PieceTreeBase} {l₁ mid m₂ : Nodes} {i j : Nat} {p q : Piece}

theorem Core.deleteNodes : ∀ (mid : Nodes) {T : PieceTreeBase}, Core T (l₁ ++ (mid ++ m₂)) →
    Core (T.deleteNodes (mid.map Prod.fst)) (l₁ ++ m₂) := by
  intro mid
  induction mid with
  | nil => intro T h; exact h
  | cons k mid ih =>
    intro T h
    have h' : Core T (l₁ ++ (k.1, k.2) :: (mid ++ m₂)) := h
    exact ih h'.rbDelete

theorem deleteNodes_append (T : PieceTreeBase) (ids ids' : List Nat) :
    T.deleteNodes (ids ++ ids') = (T.deleteNodes ids).deleteNodes ids' := by
  simp [PieceTreeBase.deleteNodes, PieceTree.deleteNodes]

/-- The loop collects the nodes in between. -/
theorem nodesUpTo_spec {root : Tree TreeNode} (mid : Nodes) : ∀ {l₁ : Nodes} {i : Nat} {p : Piece} {fuel : Nat},
    Holds root (l₁ ++ (i, p) :: (mid ++ (j, q) :: m₂)) → mid.length < fuel →
    PieceTreeBase.nodesUpTo root j fuel (PieceTree.next root i) = mid.map Prod.fst := by
  induction mid with
  | nil =>
    intro l₁ i p fuel h hfuel
    obtain ⟨fuel, rfl⟩ : ∃ n, fuel = n + 1 := ⟨fuel - 1, by omega⟩
    rw [h.next]
    simp [PieceTreeBase.nodesUpTo]
  | cons k mid ih =>
    intro l₁ i p fuel h hfuel
    obtain ⟨fuel, rfl⟩ : ∃ n, fuel = n + 1 := ⟨fuel - 1, by omega⟩
    have h' : Holds root ((l₁ ++ [(i, p)]) ++ (k.1, k.2) :: (mid ++ (j, q) :: m₂)) := by
      rw [append_assoc]
      exact h
    have hne : k.1 ≠ j := by
      intro heq
      have hnodup := h'.nodup
      rw [map_append, map_cons, nodup_append, nodup_cons] at hnodup
      refine hnodup.2.1.1 ?_
      rw [heq]
      simp
    rw [h.next]
    show PieceTreeBase.nodesUpTo root j (fuel + 1) (some k.1) = _
    rw [PieceTreeBase.nodesUpTo, if_neg hne, ih h' (by rw [length_cons] at hfuel; omega)]
    rfl

theorem Core.deleteBetween (h : Core T (l₁ ++ (i, p) :: (mid ++ (j, q) :: m₂))) :
    Core (T.deleteNodes ((if p.length = 0 then [i] else []) ++ (if q.length = 0 then [j] else []) ++ mid.map Prod.fst))
      ((l₁ ++ PieceTree.cut i p) ++ (PieceTree.cut j q ++ m₂)) := by
  have hone : ∀ (T : PieceTreeBase) (id : Nat) (p : Piece),
      T.deleteNodes (if p.length = 0 then [id] else []) = if p.length = 0 then T.rbDelete id else T := by
    intro T id p
    split <;> rfl
  rw [deleteNodes_append, deleteNodes_append, hone, hone]
  have h1 : Core (if p.length = 0 then T.rbDelete i else T) ((l₁ ++ PieceTree.cut i p ++ mid) ++ (j, q) :: m₂) := by
    rw [append_assoc, append_assoc]
    exact h.cut
  have h2 := h1.cut
  rw [append_assoc] at h2
  exact Core.deleteNodes mid h2

variable {b b' : StringBuffer} {s e s' e' : Nat}

theorem prev_cut (h : Core T (l₁ ++ (i, p) :: m₂)) :
    (if p.length = 0 then PieceTree.prev T.root i else some i) = (l₁ ++ cut i p).getLast?.map Prod.fst := by
  rw [cut, h.holds.prev]
  split
  · rw [append_nil]
  · simp

/-- Two nodes lose their end and their front, and what is between them goes. -/
theorem deleteAcrossNodes_deleted (h : Good T (l₁ ++ (i, p) :: (mid ++ (j, q) :: m₂)))
    (hp : Lies T.buffers p b s e) (hq : Lies T.buffers q b' s' e') {r r' offset : Nat} (hr : s + r ≤ e)
    (hr' : s' + r' ≤ e') (hcache : ∀ entry, T.searchCache = some entry → offset ≤ entry.nodeStartOffset) :
    ∃ L', Deleted { T with searchCache := none } (docText T.buffers l₁ ++ b.buffer.substring s (s + r))
      (b'.buffer.substring (s' + r') e' ++ docText T.buffers m₂) (T.deleteAcrossNodes offset i j r r') L' := by
  obtain ⟨hposA, hposB⟩ := positive_append.mp h.positive
  obtain ⟨hA, hB, hAB⟩ := joined_texts_append.mp h.joined
  obtain ⟨hB1, hB2⟩ := joined_texts_cons.mp hB
  obtain ⟨-, hB3, -⟩ := joined_texts_append.mp hB2
  obtain ⟨hB4, hB5⟩ := joined_texts_cons.mp hB3
  have hposm2 := (positive_cons.mp (positive_append.mp (positive_cons.mp hposB).2).2).2
  -- the first node
  have hcursor := positionInBuffer_eq hp.ok hp.pieceAt hr
  obtain ⟨p', h1, hp', -, hframe1, hbuffers1, -⟩ := deleteNodeTail_spec h.toCore hp (by omega) hr
  generalize hT1 : T.deleteNodeTail i (cursorAt b.buffer (s + r)) = T₁ at h1 hframe1 hbuffers1
  obtain ⟨c, hvalidate, hc⟩ := validate_cache offset T₁
  have hnone : c = none := by
    cases hc' : c with
    | none => rfl
    | some entry =>
      obtain ⟨hold, -, hlt⟩ := hc entry hc'
      rw [hframe1.searchCache] at hold
      have := hcache entry hold
      omega
  subst hnone
  have h2 : Core { T₁ with searchCache := none } ((l₁ ++ (i, p') :: mid) ++ (j, q) :: m₂) := by
    rw [append_assoc]
    exact h1.withCache none _ _ _
  -- the last node
  have hq2 : Lies T₁.buffers q b' s' e' := by
    rw [hbuffers1]
    exact hq
  have hcursor' := positionInBuffer_eq hq.ok hq.pieceAt hr'
  obtain ⟨q', h3, hq', hframe3, hbuffers3⟩ := deleteNodeHead_spec h2 hq2 (by omega) hr'
  generalize hT3 : { T₁ with searchCache := none }.deleteNodeHead j (cursorAt b'.buffer (s' + r')) = T₃
    at h3 hframe3 hbuffers3
  rw [append_assoc] at h3
  have hbuffers : T₃.buffers = T.buffers := hbuffers3.trans hbuffers1
  have hframe2 : Frame { T with searchCache := none } { T₁ with searchCache := none } :=
    ⟨hframe1.eol, hframe1.eolNormalized, rfl, hframe1.lastVisitedLine, hframe1.nextId⟩
  have hframe := hframe2.trans hframe3
  -- the empty nodes and those in between go
  have h3' : Core T₃ (l₁ ++ (i, p') :: (mid ++ (j, q') :: m₂)) := h3
  have h4 := h3'.deleteBetween
  have hbetween := nodesUpTo_spec mid h3'.holds (show mid.length < T₃.root.toList.length by
    have hlen := congrArg List.length h3'.holds.items
    simp only [items, length_map, length_append, length_cons] at hlen
    omega)
  have hprev := prev_cut h3'
  have hpiecei : ({ T₁ with searchCache := none } : PieceTreeBase).pieceOf i = p' := by
    rw [append_assoc] at h2
    exact h2.pieceOf
  have hpiecej : T₃.pieceOf j = q' := by
    rw [← cons_append, ← append_assoc] at h3'
    exact h3'.pieceOf
  have heq : T.deleteAcrossNodes offset i j r r' = (T₃.deleteNodes ((if p'.length = 0 then [i] else []) ++
      (if q'.length = 0 then [j] else []) ++ mid.map Prod.fst)).validateCRLFWithNextNode
        ((l₁ ++ cut i p').getLast?.map Prod.fst) := by
    unfold PieceTreeBase.deleteAcrossNodes
    rw [h.toCore.pieceOf]
    dsimp only
    rw [show T.bufferOf p = b from hp.bufferAt, hcursor, hT1, hvalidate, h2.pieceOf, hpiecei,
      show ({ T₁ with searchCache := none } : PieceTreeBase).bufferOf q = b' from hq2.bufferAt, hcursor', hT3, hpiecej,
      hbetween, ← hprev]
    simp only [decide_eq_true_eq]
  have hframe4 : Frame T₃ (T₃.deleteNodes ((if p'.length = 0 then [i] else []) ++
    (if q'.length = 0 then [j] else []) ++ mid.map Prod.fst)) := ⟨rfl, rfl, rfl, rfl, Nat.le_refl _⟩
  have hbuffers4 : (T₃.deleteNodes ((if p'.length = 0 then [i] else []) ++
    (if q'.length = 0 then [j] else []) ++ mid.map Prod.fst)).buffers = T.buffers := hbuffers
  generalize T₃.deleteNodes ((if p'.length = 0 then [i] else []) ++ (if q'.length = 0 then [j] else []) ++
    mid.map Prod.fst) = T₄ at h4 heq hframe4 hbuffers4
  have hpok : PieceOk T.buffers p' := ⟨b, s, s + r, hp'⟩
  have hqok : PieceOk T.buffers q' := by
    rw [← hbuffers1]
    exact ⟨b', s' + r', e', hq'⟩
  have hqcontent : content T.buffers q' = b'.buffer.substring (s' + r') e' := by
    rw [← hbuffers1]
    exact hq'.content
  have hposA' := positive_append.mpr ⟨hposA, positive_cut i p'⟩
  have hposB' := positive_append.mpr ⟨positive_cut j q', hposm2⟩
  have hA' : Joined none (texts T₄.buffers (l₁ ++ cut i p')) := by
    rw [hbuffers4]
    refine joined_texts_append.mpr ⟨hA, joined_cut _ _ _, ?_⟩
    rw [docText_cons, hp.content, substring_append b.buffer (by omega) hr, append_assoc] at hAB
    rw [docText_cut hpok, hp'.content]
    exact not_junction_left hAB
  have hB' : Joined none (texts T₄.buffers (cut j q' ++ m₂)) := by
    rw [hbuffers4]
    refine joined_texts_append.mpr ⟨joined_cut _ _ _, hB5, ?_⟩
    rw [hq.content, substring_append b'.buffer (by omega) hr'] at hB4
    rw [docText_cut hqok, hqcontent]
    exact not_junction_right hB4
  obtain ⟨front, hrepaired⟩ := validateCRLFWithNextNode_spec h4 hposA'.last hposB'.head hA' hB'
  have hdeleted := hrepaired.deleted hposA' hposB' (hframe.trans hframe4)
  rw [hbuffers4, docText_append, docText_append, docText_cut hpok, docText_cut hqok, hqcontent, hp'.content] at hdeleted
  rw [heq]
  exact ⟨_, hdeleted⟩

end Several

/-! ## The whole deletion -/

section Delete

variable {T : PieceTreeBase} {L : Nodes}

theorem Deleted.finish {T' : PieceTreeBase} {A B : JsString} {L' : Nodes} (h : Deleted T A B T' L')
    (hweak : CacheWeak L' T'.searchCache) : Inv T'.computeBufferMetadata L' ∧
      docText T'.computeBufferMetadata.buffers L' = A ++ B ∧
      T'.computeBufferMetadata.eol = T.eol ∧ T'.computeBufferMetadata.eolNormalized = T.eolNormalized := by
  obtain ⟨hbuffers, heol, hnormalized⟩ := computeBufferMetadata_buffers T'
  refine ⟨h.good.computeBufferMetadata hweak, ?_, heol.trans h.frame.eol, hnormalized.trans h.frame.eolNormalized⟩
  rw [hbuffers, h.text]

theorem splice_delete {text A X B : JsString} {offset cnt : Nat} (h : text = A ++ X ++ B) (hoffset : offset = A.length)
    (hcnt : cnt = X.length) : splice text offset cnt [] = A ++ B := by
  rw [splice, h, hoffset, hcnt, append_nil, ← length_append, drop_left, append_assoc, take_left]

theorem two_nodes {l₁ l₂ m1 m₂ : Nodes} {i j : Nat} {p q : Piece} (heq : l₁ ++ (i, p) :: l₂ = m1 ++ (j, q) :: m₂)
    (hne : i ≠ j) (hlt : totalLength l₁ < totalLength m1 + q.length) :
    ∃ mid, l₂ = mid ++ (j, q) :: m₂ ∧ m1 = l₁ ++ (i, p) :: mid := by
  rcases append_eq_append_iff.mp heq with ⟨x, hm1, hl2⟩ | ⟨x, hl1, hm2⟩
  · cases x with
    | nil =>
      rw [nil_append, List.cons.injEq] at hl2
      exact (hne (congrArg Prod.fst hl2.1)).elim
    | cons a x =>
      rw [cons_append, List.cons.injEq] at hl2
      obtain ⟨rfl, hl2⟩ := hl2
      exact ⟨x, hl2, hm1⟩
  · cases x with
    | nil =>
      rw [nil_append, List.cons.injEq] at hm2
      exact (hne (congrArg Prod.fst hm2.1).symm).elim
    | cons a x =>
      obtain ⟨rfl, -⟩ := hm2
      rw [hl1, totalLength_append, totalLength_cons] at hlt
      dsimp only at hlt
      omega

/-- What a deletion leaves behind before the metadata are computed again; `old` is the cache it started with. -/
def Removes (T : PieceTreeBase) (L : Nodes) (old : Option CacheEntry) (offset cnt : Nat) (T₁ : PieceTreeBase) : Prop :=
  ∃ A X B c L', Deleted { T with searchCache := c } A B T₁ L' ∧ CacheWeak L' T₁.searchCache ∧ CacheKept old c offset ∧
    docText T.buffers L = A ++ X ++ B ∧ offset = A.length ∧ cnt = X.length

section Removes

variable {l₁ l₂ : Nodes} {i : Nat} {p : Piece} {entry : CacheEntry} {old : Option CacheEntry} {b : StringBuffer}
  {s e r r' : Nat}

theorem Good.withEntry (h : Good T L) (entry : CacheEntry) : Good { T with searchCache := some entry } L :=
  ⟨h.toCore.withCache (some entry) T.lastVisitedLine T.lineCnt T.length, h.positive, h.joined⟩

theorem length_before (h : Good T (l₁ ++ (i, p) :: l₂)) : (docText T.buffers l₁).length = totalLength l₁ :=
  docText_length (forall_mem_middle.mp h.valid).1

theorem text_around (hp : Lies T.buffers p b s e) : docText T.buffers (l₁ ++ (i, p) :: l₂) =
    docText T.buffers l₁ ++ b.buffer.substring s e ++ docText T.buffers l₂ := by
  rw [docText_append, docText_cons, hp.content, append_assoc]

section

variable (h : Good T (l₁ ++ (i, p) :: l₂))
include h

theorem startOf_entry (hnode : entry.node = i) (hstart : entry.nodeStartOffset = totalLength l₁) :
    startOf (l₁ ++ (i, p) :: l₂) entry.node = some entry.nodeStartOffset := by
  rw [hnode, hstart]
  exact h.toCore.startOf

section

variable (hp : Lies T.buffers p b s e)
include hp

theorem removes_node (hnode : entry.node = i) (hkept : CacheKept old (some entry) (totalLength l₁)) :
    Removes T (l₁ ++ (i, p) :: l₂) old (totalLength l₁) p.length
      (({ T with searchCache := some entry }.rbDelete i).validateCRLFWithPrevNode (PieceTree.next T.root i)) := by
  obtain ⟨L', hdel, hnone⟩ := deleteNode_deleted (h.withEntry entry)
  refine ⟨_, _, _, _, L', hdel, ?_, hkept, text_around hp, (length_before h).symm, ?_⟩
  · rw [hdel.frame.searchCache]
    intro x hx
    obtain rfl := Option.some.inj hx
    rw [hnode]
    exact .inl hnone
  · rw [substring_length hp.pieceAt.bound]
    have hlength := hp.pieceAt.length
    omega

theorem removes_head (hlt : s + r < e) (hstart : entry.nodeStartOffset = totalLength l₁)
    (hkept : CacheKept old (some entry) (totalLength l₁)) :
    Removes T (l₁ ++ (i, p) :: l₂) old (totalLength l₁) r
      ((({ T with searchCache := some entry }.deleteNodeHead i (cursorAt b.buffer (s + r))).validate
        (totalLength l₁)).validateCRLFWithPrevNode (some i)) := by
  have hle := Nat.le_add_right s r
  have hbound := hp.pieceAt.bound
  obtain ⟨c, hvalidate, hc⟩ := validate_cache (totalLength l₁)
    ({ T with searchCache := some entry }.deleteNodeHead i (cursorAt b.buffer (s + r)))
  rw [hvalidate]
  obtain ⟨L', hdel⟩ := deleteHead_deleted (h.withEntry entry) hp hle hlt (c := c) rfl
  refine ⟨_, b.buffer.substring s (s + r), _, c, L', hdel, ?_, ?_, ?_, (length_before h).symm, ?_⟩
  · rw [hdel.frame.searchCache]
    intro x hx
    obtain ⟨hold, -, hlt⟩ := hc x hx
    obtain rfl := Option.some.inj (show some entry = some x from hold)
    rw [hstart] at hlt
    omega
  · intro x n hx
    exact hkept x n (hc x hx).1
  · rw [text_around hp, substring_append b.buffer hle (Nat.le_of_lt hlt)]
    simp
  · rw [substring_length (by omega)]
    omega

theorem removes_tail (hpos : 0 < r) (hle : s + r ≤ e) (hnode : entry.node = i)
    (hstart : entry.nodeStartOffset = totalLength l₁) (hkept : CacheKept old (some entry) (totalLength l₁ + r)) :
    Removes T (l₁ ++ (i, p) :: l₂) old (totalLength l₁ + r) (e - (s + r))
      (({ T with searchCache := some entry }.deleteNodeTail i (cursorAt b.buffer (s + r))).validateCRLFWithNextNode
        (some i)) := by
  have hbound := hp.pieceAt.bound
  obtain ⟨L', hdel, hstays⟩ := deleteTail_deleted (h.withEntry entry) hp (by omega) hle
  refine ⟨_, b.buffer.substring (s + r) e, _, _, L', hdel, ?_, hkept, ?_, ?_, ?_⟩
  · rw [hdel.frame.searchCache]
    exact cacheWeak_of_stays (startOf_entry h hnode hstart) (hnode ▸ hstays)
  · rw [text_around hp, substring_append b.buffer (by omega) hle]
    simp
  · rw [length_append, substring_length (by omega), Nat.add_sub_cancel_left]
    exact congrArg (· + r) (length_before h).symm
  · rw [substring_length hbound]

theorem removes_middle (hpos : 0 < r) (hle : r ≤ r') (hlt : s + r' < e) (hnode : entry.node = i)
    (hstart : entry.nodeStartOffset = totalLength l₁) (hkept : CacheKept old (some entry) (totalLength l₁ + r)) :
    Removes T (l₁ ++ (i, p) :: l₂) old (totalLength l₁ + r) (r' - r)
      ({ T with searchCache := some entry }.shrinkNode i (cursorAt b.buffer (s + r)) (cursorAt b.buffer (s + r'))) := by
  have hbound := hp.pieceAt.bound
  have hle' : s + r ≤ s + r' := Nat.add_le_add_left hle s
  have hlt' : s + r < e := Nat.lt_of_le_of_lt hle' hlt
  obtain ⟨L', hdel, hstays⟩ := shrinkNode_deleted (h.withEntry entry) hp (by omega) hle' hlt' hlt
  refine ⟨_, b.buffer.substring (s + r) (s + r'), _, _, L', hdel, ?_, hkept, ?_, ?_, ?_⟩
  · rw [hdel.frame.searchCache]
    exact cacheWeak_of_stays (startOf_entry h hnode hstart) (hnode ▸ hstays)
  · rw [text_around hp, substring_append b.buffer (by omega) (Nat.le_of_lt hlt'),
      substring_append b.buffer hle' (Nat.le_of_lt hlt)]
    simp
  · rw [length_append, substring_length (by omega), Nat.add_sub_cancel_left]
    exact congrArg (· + r) (length_before h).symm
  · rw [substring_length (by omega), Nat.add_sub_add_left]

end

end

theorem removes_across {mid m₂ : Nodes} {j : Nat} {q : Piece} (h : Good T (l₁ ++ (i, p) :: (mid ++ (j, q) :: m₂)))
    (hp : Lies T.buffers p b s e) (hr : s + r ≤ e) (hr' : r' ≤ q.length)
    (hstart : entry.nodeStartOffset = totalLength l₁ + (p.length + totalLength mid)) :
    Removes T (l₁ ++ (i, p) :: (mid ++ (j, q) :: m₂)) old (totalLength l₁ + r) (p.length - r + totalLength mid + r')
      ({ T with searchCache := some entry }.deleteAcrossNodes (totalLength l₁ + r) i j r r') := by
  obtain ⟨hvalidA, -, hvalidB⟩ := forall_mem_middle.mp h.valid
  obtain ⟨hvalidmid, hvalidq, -⟩ := forall_mem_middle.mp hvalidB
  have hlengthmid : (docText T.buffers mid).length = totalLength mid := docText_length hvalidmid
  obtain ⟨b', s', e', hq⟩ := hvalidq
  have hbound := hp.pieceAt.bound
  have hboundq := hq.pieceAt.bound
  have hlength := hp.pieceAt.length
  have hle' : s' + r' ≤ e' := by
    have hlengthq : q.length = e' - s' := hq.pieceAt.length
    have hleq := hq.pieceAt.le
    omega
  have hcache : ∀ x, some entry = some x → totalLength l₁ + r ≤ x.nodeStartOffset := by
    intro x hx
    obtain rfl := Option.some.inj hx
    omega
  obtain ⟨L', hdel⟩ := deleteAcrossNodes_deleted (h.withEntry entry) hp hq hr hle' hcache
  refine ⟨_, b.buffer.substring (s + r) e ++ docText T.buffers mid ++ b'.buffer.substring s' (s' + r'), _, none, L',
    hdel, ?_, ?_, ?_, ?_, ?_⟩
  · rw [hdel.frame.searchCache]
    intro x hx
    cases hx
  · intro x n hx
    cases hx
  · rw [docText_append, docText_cons, docText_append, docText_cons, hp.content, hq.content,
      substring_append b.buffer (by omega) hr, substring_append b'.buffer (by omega) hle']
    simp
  · rw [length_append, substring_length (by omega), Nat.add_sub_cancel_left]
    exact congrArg (· + r) (length_before h).symm
  · rw [length_append, length_append, substring_length hbound, substring_length (by omega),
      hlengthmid]
    omega

end Removes

/-- `delete` keeps the invariant and takes the range out of the text. -/
theorem delete_spec (h : Inv T L) {offset cnt : Nat} (hle : offset + cnt ≤ (docText T.buffers L).length) :
    ∃ T' L', T.delete offset cnt = some T' ∧ Inv T' L' ∧
      docText T'.buffers L' = splice (docText T.buffers L) offset cnt [] ∧ T'.eol = T.eol ∧
      T'.eolNormalized = T.eolNormalized ∧ T'.lastVisitedLine = (0, []) ∧
      (CacheLines (docText T.buffers L) T.searchCache → CacheLines (docText T'.buffers L') T'.searchCache) := by
  generalize hT0 : { T with lastVisitedLine := (0, []) } = T₀
  have hgood : Good T₀ L := by
    rw [← hT0]
    exact ⟨h.toCore.withCache T.searchCache (0, []) T.lineCnt T.length, h.positive, h.joined⟩
  have hdoc : docText T₀.buffers L = docText T.buffers L := by rw [← hT0]
  have heol : T₀.eol = T.eol := by rw [← hT0]
  have hnormalized : T₀.eolNormalized = T.eolNormalized := by rw [← hT0]
  have hcache : CacheOk L T₀.searchCache := by
    rw [← hT0]
    exact h.cache
  rw [← hdoc] at hle ⊢
  -- every kind of range ends with `computeBufferMetadata`
  have hfinish : ∀ {T₁ : PieceTreeBase}, Removes T₀ L T.searchCache offset cnt T₁ →
      ∃ T' L', some T₁.computeBufferMetadata = some T' ∧ Inv T' L' ∧
        docText T'.buffers L' = splice (docText T₀.buffers L) offset cnt [] ∧ T'.eol = T.eol ∧
        T'.eolNormalized = T.eolNormalized ∧ T'.lastVisitedLine = (0, []) ∧
        (CacheLines (docText T₀.buffers L) T.searchCache → CacheLines (docText T'.buffers L') T'.searchCache) := by
    rintro T₁ ⟨A, X, B, c, L', hdel, hweak, hkept, htext, hoffset, hcnt⟩
    obtain ⟨hinv, htext', heol', hnormalized'⟩ := hdel.finish hweak
    rw [← show T₁.searchCache = c from hdel.frame.searchCache] at hkept
    obtain ⟨hkept', hlast⟩ := computeBufferMetadata_kept T₁ offset hkept
    refine ⟨_, L', rfl, hinv, ?_, heol'.trans heol, hnormalized'.trans hnormalized, ?_, fun hcacheLines => ?_⟩
    · rw [htext', splice_delete htext hoffset hcnt]
    · rw [hlast, hdel.frame.lastVisitedLine, ← hT0]
    · rw [htext, append_assoc] at hcacheLines
      rw [htext']
      exact hcacheLines.kept (hoffset ▸ hkept')
  have hlenL := docText_length hgood.valid
  unfold PieceTreeBase.delete
  rw [hT0]
  by_cases hnothing : cnt = 0 ∨ T₀.root = .nil
  · rw [if_pos hnothing]
    have hzero : cnt = 0 := by
      rcases hnothing with hzero | hroot
      · exact hzero
      · rw [(root_eq_nil_iff hgood.toCore).mp hroot] at hle
        simp only [docText_nil, length_nil] at hle
        omega
    refine ⟨T₀, L, rfl, ⟨hgood, hcache, ?_, ?_⟩, ?_, heol, hnormalized, ?_, ?_⟩
    · rw [hdoc, ← h.length, ← hT0]
    · rw [hdoc, ← h.lineCnt, ← hT0]
    · rw [splice, hzero, Nat.add_zero, append_nil, take_append_drop]
    · rw [← hT0]
    · rw [← hT0]
      exact id
  rw [if_neg hnothing]
  rw [not_or] at hnothing
  obtain ⟨hpos, hroot⟩ := hnothing
  have hLne : L ≠ [] := mt (root_eq_nil_iff hgood.toCore).mpr hroot
  rw [hlenL] at hle
  obtain ⟨l₁, i, p, l₂, entry, hL, hge1, hle1, hentry, hstart, hnodeAt⟩ :=
    hgood.nodeAt hcache hLne (Nat.le_trans (Nat.le_add_right offset cnt) hle)
  have hgood1 := hgood.withEntry entry
  have hstartOf : startOf L entry.node = some entry.nodeStartOffset := by
    rw [hL]
    exact startOf_entry (hL ▸ hgood) hentry hstart
  obtain ⟨m1, j, q, m₂, entry', hM, hge2, hle2, hentry', hstart', hnodeAt'⟩ :=
    hgood1.nodeAt (by
      intro e he
      obtain rfl := Option.some.inj he
      exact hstartOf) hLne hle
  have hkept : CacheKept T.searchCache (some entry') offset := by
    intro e n he hline
    have hold := nodeAt_kept hnodeAt
    rw [← hT0] at hold
    exact hold e n (nodeAt_kept hnodeAt' e n he hline).1 hline
  rw [hnodeAt]
  dsimp only
  rw [hnodeAt']
  dsimp only
  subst hL
  obtain ⟨b, s, e, hp⟩ := hgood.toCore.pieceOk
  have hlenp := hp.pieceAt.length
  have hlep := hp.pieceAt.le
  have hbuffer : ({ T₀ with searchCache := some entry' } : PieceTreeBase).bufferOf p = b := hp.bufferAt
  rw [(hgood.withEntry entry').toCore.pieceOf, hbuffer]
  have hcursor : ∀ r, s + r ≤ e → positionInBuffer b p r = cursorAt b.buffer (s + r) :=
    fun r hr => positionInBuffer_eq hp.ok hp.pieceAt hr
  obtain ⟨r, rfl⟩ := Nat.exists_eq_add_of_le hge1
  rw [Nat.add_sub_cancel_left]
  by_cases hsame : i = j
  · rw [if_pos hsame]
    obtain ⟨rfl, hpair, rfl⟩ := split_unique hM hsame hgood.holds.nodup
    obtain ⟨rfl, rfl⟩ := Prod.mk.inj hpair
    have hremainder : totalLength l₁ + r + cnt - totalLength l₁ = r + cnt := by
      rw [Nat.add_assoc, Nat.add_sub_cancel_left]
    have hinside : s + (r + cnt) ≤ e := by
      clear hle hge1 hge2 hle1
      omega
    rw [hremainder, hcursor _ (Nat.le_trans (Nat.add_le_add_left (Nat.le_add_right r cnt) s) hinside), hcursor _ hinside]
    by_cases hfirst : totalLength l₁ = totalLength l₁ + r
    · rw [if_pos hfirst]
      obtain rfl : r = 0 := by omega
      by_cases hwhole : cnt = p.length
      · rw [if_pos hwhole]
        subst hwhole
        exact hfinish (removes_node hgood hp hentry' hkept)
      · rw [if_neg hwhole, Nat.zero_add]
        exact hfinish (removes_head hgood hp (by omega) hstart' hkept)
    · rw [if_neg hfirst]
      have hposr : 0 < r := by omega
      by_cases hlast : totalLength l₁ + p.length = totalLength l₁ + r + cnt
      · rw [if_pos hlast]
        obtain rfl : cnt = e - (s + r) := by omega
        exact hfinish (removes_tail hgood hp hposr (by omega) hentry' hstart' hkept)
      · rw [if_neg hlast]
        have hremoved := removes_middle hgood hp hposr (Nat.le_add_right r cnt) (by omega) hentry' hstart' hkept
        rw [Nat.add_sub_cancel_left] at hremoved
        exact hfinish hremoved
  · rw [if_neg hsame]
    obtain ⟨mid, rfl, rfl⟩ := two_nodes hM hsame (by
      omega)
    -- a range over several nodes
    rw [totalLength_append, totalLength_cons] at hge2 hle2 hstart' ⊢
    dsimp only at hge2 hle2 hstart' ⊢
    obtain ⟨r', hr'⟩ := Nat.exists_eq_add_of_le hge2
    rw [hr'] at hle2 ⊢
    rw [Nat.add_sub_cancel_left]
    obtain rfl : cnt = p.length - r + totalLength mid + r' := by omega
    exact hfinish (removes_across hgood hp (by omega) (by omega) hstart')

end Delete

end TongjiCode.PieceTree
