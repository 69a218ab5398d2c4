import TongjiCode.PieceTree.Repair

/-!
# Piece tree: insertion

One lemma for each place at which `insert` can put a text: to the right of a node, to its left, inside it,
at the end of the change buffer and into an empty tree.  Each says that the text comes in at its place and
that the invariant holds again (`Inserted`).
-/

open List

namespace TongjiCode.PieceTree

open JsString

/-- The value stands between the nodes `A` and the nodes `B`. -/
structure Inserted (T : PieceTreeBase) (A : JsString) (value : JsString) (B : JsString) (T' : PieceTreeBase)
    (L' : Nodes) : Prop where
  good : Good T' L'
  text : docText T'.buffers L' = A ++ value ++ B
  frame : Frame T T'

variable {T : PieceTreeBase}

theorem Core.startOf {l₁ l₂ : Nodes} {i : Nat} {p : Piece} (h : Core T (l₁ ++ (i, p) :: l₂)) :
    startOf (l₁ ++ (i, p) :: l₂) i = some (totalLength l₁) := by
  refine startOf_middle ?_
  intro hmem
  have hnodup := h.holds.nodup
  rw [map_append, map_cons, nodup_append] at hnodup
  exact hnodup.2.2 i hmem i mem_cons_self rfl

theorem Core.id_lt {l₁ l₂ : Nodes} {i : Nat} {p : Piece} (h : Core T (l₁ ++ (i, p) :: l₂)) :
    i < T.nextId := (forall_mem_middle.mp h.fresh).2.1

variable {T' : PieceTreeBase} {pieces : List Piece}

theorem NewPieces.nodes {value : JsString} (h : NewPieces T value T' pieces) {new B : Nodes}
    (hnew : new.map Prod.snd = pieces) (hvalid : ∀ i ∈ B, PieceOk T.buffers i.2) (hB : Joined none (texts T.buffers B))
    (hjoin : ¬ Junction value (docText T.buffers B)) :
    Positive new ∧ Joined none (texts T'.buffers (new ++ B)) ∧
      docText T'.buffers (new ++ B) = value ++ docText T.buffers B := by
  have htexts : texts T'.buffers new = pieces.map (content T'.buffers) := by
    rw [← hnew, map_map]
    rfl
  have hdoc : docText T'.buffers new = value := by
    rw [docText, htexts, h.spells]
  have hdocB : docText T'.buffers B = docText T.buffers B := congrArg _ (texts_grown h.grown hvalid)
  refine ⟨?_, joined_texts_append.mpr ⟨?_, ?_, ?_⟩, ?_⟩
  · intro i hi
    refine (h.valid i.2 ?_).2
    rw [← hnew]
    exact mem_map_of_mem hi
  · rw [htexts]
    exact h.joined
  · rw [texts_grown h.grown hvalid]
    exact hB
  · rw [hdoc, hdocB]
    exact hjoin
  · rw [docText_append, hdoc, hdocB]

theorem NewPieces.ne_nil {value : JsString} (h : NewPieces T value T' pieces) (hne : value ≠ []) : pieces ≠ [] := by
  rintro rfl
  exact hne h.spells.symm

variable {L : Nodes}

theorem positive_take_one (h : ∀ i, L.head? = some i → 0 < i.2.length) : Positive (L.take 1) := by
  cases L with
  | nil => intro i hi; cases hi
  | cons i L =>
    intro j hj
    rw [take_one, head?_cons, Option.toList_some, mem_singleton] at hj
    rw [hj]
    exact h i rfl

theorem Positive.head (h : Positive L) : ∀ i, L.head? = some i → 0 < i.2.length :=
  fun i hi => h i (mem_of_head? hi)

theorem Positive.last (h : Positive L) : ∀ i, L.getLast? = some i → 0 < i.2.length :=
  fun i hi => h i (mem_of_getLast? hi)

theorem Repaired.good {A B front : Nodes} (h : Repaired T A B T' front) (hA : Positive A) (hB : Positive B) :
    Good T' (front ++ B.tail) := by
  refine ⟨h.core, positive_append.mpr ⟨h.positive hA (positive_take_one hB.head), ?_⟩, h.joined⟩
  intro i hi
  exact hB i (mem_of_mem_tail hi)

section Right

variable {T : PieceTreeBase} {l₁ l₂ : Nodes} {i : Nat} {p : Piece} {value : JsString}

theorem insertContentToNodeRight_spec (h : Good T (l₁ ++ (i, p) :: l₂)) (hne : value ≠ [])
    (hcr : T.shouldCheckCRLF = false → carriageReturn ∉ value) :
    ∃ L', Inserted T (docText T.buffers (l₁ ++ [(i, p)])) value (docText T.buffers l₂)
      (T.insertContentToNodeRight value i) L' ∧ Stays (l₁ ++ (i, p) :: l₂) L' i := by
  have hpos : Positive ((l₁ ++ [(i, p)]) ++ l₂) := by
    rw [append_assoc]
    exact h.positive
  have hjoined : Joined none (texts T.buffers ((l₁ ++ [(i, p)]) ++ l₂)) := by
    rw [append_assoc]
    exact h.joined
  obtain ⟨hposA, hposB⟩ := positive_append.mp hpos
  obtain ⟨hA, hB, -⟩ := joined_texts_append.mp hjoined
  obtain ⟨T₁, moved, l2', hadjust, h1, hframe1, hbuffers1, hadjusted⟩ :=
    adjustCarriageReturnFromNext_spec h.toCore hne hposB hB hcr
  generalize hvalue : (if moved then value ++ [lineFeed] else value) = value' at hadjusted
  obtain ⟨h2, hframe2, hid2, hnew, htails⟩ := h1.createNewPieces value' hadjusted.ne_nil (by
    rw [hframe1.shouldCheckCRLF]
    exact fun hcheck => hadjusted.noCr (hcr hcheck))
  generalize hT2 : (T₁.createNewPieces value').1 = T₂ at h2 hframe2 hid2 hnew htails
  generalize hpieces : (T₁.createNewPieces value').2 = pieces at hnew htails
  have h3 := h2.insertPiecesRight pieces (fun q hq => (hnew.valid q hq).1) htails
  obtain ⟨hframe3, hbuffers3, -⟩ := insertPiecesRight_frame pieces T₂ (some i)
  have heq : T.insertContentToNodeRight value i =
      (T₂.insertPiecesRight (some i) pieces).1.validateCRLFWithPrevNode (some T₂.nextId) := by
    rw [PieceTreeBase.insertContentToNodeRight, hadjust]
    dsimp only
    rw [hvalue, ← hT2, ← hpieces]
  generalize (T₂.insertPiecesRight (some i) pieces).1 = T₃ at h3 hframe3 hbuffers3 heq
  -- the contents of the nodes in the new buffers
  obtain ⟨hvalidA, hvalidB⟩ := forall_mem_append.mp
    (show ∀ j ∈ (l₁ ++ [(i, p)]) ++ l2', PieceOk T₁.buffers j.2 by
      rw [append_assoc]
      exact h1.valid)
  have htextsA : texts T₃.buffers (l₁ ++ [(i, p)]) = texts T.buffers (l₁ ++ [(i, p)]) := by
    rw [hbuffers3, texts_grown hnew.grown hvalidA, hbuffers1]
  obtain ⟨hposnew, hB', hdocB'⟩ := hnew.nodes (number_snd pieces T₂.nextId) hvalidB
    (by rw [hbuffers1]; exact hadjusted.joined) (by rw [hbuffers1]; exact hadjusted.noJunction)
  have hposB' := positive_append.mpr ⟨hposnew, hadjusted.positive⟩
  rw [← hbuffers3] at hB' hdocB'
  have hhead : (number T₂.nextId pieces ++ l2').head?.map Prod.fst = some T₂.nextId := by
    cases hcons : pieces with
    | nil => exact (hnew.ne_nil hadjusted.ne_nil hcons).elim
    | cons q qs => rfl
  have h3' : Core T₃ ((l₁ ++ [(i, p)]) ++ (number T₂.nextId pieces ++ l2')) := by
    rw [append_assoc]
    exact h3
  obtain ⟨front, hrepaired⟩ := validateCRLFWithPrevNode_spec h3' hposA.last hposB'.head (htextsA ▸ hA) hB'
  rw [hhead, ← heq] at hrepaired
  refine ⟨_, ⟨hrepaired.good hposA hposB', ?_, ?_⟩, ?_⟩
  · rw [hrepaired.text, docText_append, hdocB', docText, htextsA, hbuffers1, hadjusted.text, append_assoc]
    rfl
  · exact hframe1.trans (hframe2.trans (hframe3.trans hrepaired.frame))
  · have hlt : i < T₂.nextId := h2.id_lt
    have hstays := hrepaired.stays i h3.id_lt (by
      rw [hhead]
      intro hsame
      have := Option.some.inj hsame
      omega)
    rw [append_assoc] at hstays
    rw [Stays] at hstays ⊢
    rw [h.toCore.startOf]
    have hstart := h3.startOf
    rcases hstays with hstays | hstays
    · exact .inl hstays
    · exact .inr (hstays.trans hstart)

end Right

variable {q : Piece}

section Left

variable {T : PieceTreeBase} {l₁ l₂ : Nodes} {i : Nat} {p : Piece} {value : JsString}

theorem joined_cut_iff {bs : List StringBuffer} (hp : PieceOk bs p) :
    Joined none (texts bs (l₁ ++ (cut i p ++ l₂))) ↔ Joined none (texts bs (l₁ ++ (i, p) :: l₂)) := by
  rw [cut]
  split
  · next hzero =>
    have hnil : content bs p = [] := by
      rw [← length_eq_zero_iff, hp.length, hzero]
    rw [nil_append, joined_texts_append, joined_texts_append, joined_texts_cons, docText_cons, hnil]
    simp [not_junction_nil_left]
  · exact Iff.rfl

/-- A value and the piece behind it, after the `\n` of a pair has gone from the piece to the value; `X` is
the text behind the piece. -/
structure TakenLF (T : PieceTreeBase) (value : JsString) (q : Piece) (X : JsString) (move : Bool) (value' : JsString)
    (q' : Piece) : Prop where
  piece : (if move then T.dropLF q else q) = q'
  longer : (if move then value ++ [lineFeed] else value) = value'
  ok : PieceOk T.buffers q'
  delta : move = true → q'.metadata = q.metadata + (-1, -1)
  text : value' ++ content T.buffers q' = value ++ content T.buffers q
  junction : ¬ Junction value' (content T.buffers q' ++ X)
  junction' : ¬ Junction (content T.buffers q') X
  ne_nil : value' ≠ []
  head : value'.head? = value.head?
  noCr : T.shouldCheckCRLF = false → carriageReturn ∉ value'

theorem takeLF {X : JsString} {flag : Bool} (hq : PieceOk T.buffers q) (hpos : 0 < q.length)
    (hX : ¬ Junction (content T.buffers q) X) (hflag : flag = true ↔ (content T.buffers q).head? = some lineFeed)
    (hne : value ≠ []) (hcr : T.shouldCheckCRLF = false → carriageReturn ∉ value) : ∃ move value' q',
      (T.shouldCheckCRLF && value.getLast? = some carriageReturn && flag) = move ∧ TakenLF T value q X move value' q' := by
  have hqne := content_ne_nil hq hpos
  cases hmove : (T.shouldCheckCRLF && value.getLast? = some carriageReturn && flag) with
  | false =>
    refine ⟨false, value, q, rfl, rfl, rfl, hq, (fun h => by cases h), rfl, ?_, hX, hne, rfl, hcr⟩
    rw [junction_append_right hqne]
    intro hjoin
    have hlf := hflag.mpr hjoin.2
    cases hcheck : T.shouldCheckCRLF with
    | true =>
      rw [hcheck, hlf, decide_eq_true hjoin.1] at hmove
      cases hmove
    | false => exact hcr hcheck (mem_of_getLast? hjoin.1)
  | true =>
    simp only [Bool.and_eq_true, decide_eq_true_eq] at hmove
    obtain ⟨hq', hcontent, hdelta⟩ := hq.dropLF (hflag.mp hmove.2)
    refine ⟨true, value ++ [lineFeed], T.dropLF q, rfl, rfl, rfl, hq', fun _ => hdelta, ?_, ?_, ?_, by simp, ?_, ?_⟩
    · rw [hcontent]
      simp
    · rintro ⟨hlast, -⟩
      rw [getLast?_concat] at hlast
      exact cr_ne_lf (Option.some.inj hlast).symm
    · intro hjoin
      refine hX ?_
      have hne' : content T.buffers (T.dropLF q) ≠ [] := by
        intro hnil
        rw [hnil] at hjoin
        exact not_junction_nil_left _ hjoin
      rw [hcontent]
      exact (junction_append_left (a := [lineFeed]) hne').mpr hjoin
    · rw [head?_append_of_ne_nil _ hne]
    · intro hcheck
      rw [hmove.1.1] at hcheck
      cases hcheck

theorem insertContentToNodeLeft_spec (h : Good T (l₁ ++ (i, p) :: l₂)) (hne : value ≠ [])
    (hcr : T.shouldCheckCRLF = false → carriageReturn ∉ value) :
    ∃ L', Inserted T (docText T.buffers l₁) value (docText T.buffers ((i, p) :: l₂))
      (T.insertContentToNodeLeft value i) L' := by
  obtain ⟨hposA, hposB⟩ := positive_append.mp h.positive
  have hposl2 := (positive_cons.mp hposB).2
  obtain ⟨hA, -, -⟩ := joined_texts_append.mp h.joined
  have hposp : 0 < p.length := (positive_cons.mp hposB).1
  obtain ⟨-, hjoinedB, -⟩ := joined_texts_append.mp h.joined
  obtain ⟨hB1, hB2⟩ := joined_texts_cons.mp hjoinedB
  obtain ⟨moveLF, value', p', hmove, htaken⟩ := takeLF h.toCore.pieceOk hposp hB1 (h.toCore.startWithLF hposp) hne hcr
  have hempty : moveLF = true ∧ (T.dropLF p).length = 0 ↔ p'.length = 0 := by
    rw [← htaken.piece]
    cases moveLF with
    | true => simp
    | false =>
      simp only [Bool.false_eq_true, false_and, if_false, false_iff]
      omega
  generalize hT1 : (if moveLF then T.replacePiece i (T.dropLF p) (-1) (-1) else T) = T₁
  obtain ⟨h1, hframe1, hbuffers1⟩ : Core T₁ (l₁ ++ (i, p') :: l₂) ∧ Frame T T₁ ∧ T₁.buffers = T.buffers := by
    rw [← hT1, ← htaken.piece]
    cases hm : moveLF with
    | false => exact ⟨h.toCore, Frame.refl T, rfl⟩
    | true =>
      have hp' : T.dropLF p = p' := by
        rw [← htaken.piece, hm]
        rfl
      refine ⟨h.toCore.replacePiece ?_ ?_ fun htail => htail, replacePiece_frame T i _ _ _, rfl⟩
      · rw [hp']
        exact htaken.ok
      · rw [hp']
        exact htaken.delta hm
  have hB : Joined none (texts T.buffers ((i, p') :: l₂)) := joined_texts_cons.mpr ⟨htaken.junction', hB2⟩
  have htext : value' ++ docText T.buffers ((i, p') :: l₂) = value ++ docText T.buffers ((i, p) :: l₂) := by
    rw [docText_cons, docText_cons, ← append_assoc, htaken.text, append_assoc]
  have hjoin : ¬ Junction value' (docText T.buffers ((i, p') :: l₂)) := by
    exact htaken.junction
  have hne' := htaken.ne_nil
  obtain ⟨h2, hframe2, hid2, hnew, htails⟩ := h1.createNewPieces value' hne' (by
    rw [hframe1.shouldCheckCRLF]
    exact htaken.noCr)
  generalize hT2 : (T₁.createNewPieces value').1 = T₂ at h2 hframe2 hid2 hnew htails
  generalize hpieces : (T₁.createNewPieces value').2 = pieces at hnew htails
  obtain ⟨h3, hnode⟩ := h2.insertPiecesLeft pieces.reverse
    (fun q hq => (hnew.valid q (mem_reverse.mp hq)).1) (by
      rw [tails, tails, countP_reverse]
      exact htails)
  obtain ⟨hframe3, hbuffers3⟩ := insertPiecesLeft_frame pieces.reverse T₂ (some i)
  have heq : T.insertContentToNodeLeft value i = if p'.length = 0
      then ((T₂.insertPiecesLeft (some i) pieces.reverse).1.validateCRLFWithPrevNode
        (T₂.insertPiecesLeft (some i) pieces.reverse).2).rbDelete i
      else (T₂.insertPiecesLeft (some i) pieces.reverse).1.validateCRLFWithPrevNode
        (T₂.insertPiecesLeft (some i) pieces.reverse).2 := by
    rw [PieceTreeBase.insertContentToNodeLeft, h.toCore.pieceOf]
    simp only [hmove, hT1, htaken.longer]
    rw [← hT2, ← hpieces]
    exact if_congr hempty rfl rfl
  have hsnd : ((number T₂.nextId pieces.reverse).reverse).map Prod.snd = pieces := by
    rw [map_reverse, number_snd, reverse_reverse]
  generalize (number T₂.nextId pieces.reverse).reverse = new at h3 hnode hsnd
  rw [hnode] at heq
  generalize (T₂.insertPiecesLeft (some i) pieces.reverse).1 = T₃ at h3 hframe3 hbuffers3 heq
  -- the contents of the nodes in the new buffers
  obtain ⟨hvalidA, hvalidp, hvalidl2⟩ := forall_mem_middle.mp h1.valid
  have htextsA : texts T₃.buffers l₁ = texts T.buffers l₁ := by
    rw [hbuffers3, texts_grown hnew.grown hvalidA, hbuffers1]
  obtain ⟨hposnew, hB', hdocB'⟩ := hnew.nodes hsnd (forall_mem_cons.mpr ⟨hvalidp, hvalidl2⟩)
    (by rw [hbuffers1]; exact hB) (by rw [hbuffers1]; exact hjoin)
  rw [← hbuffers3] at hB' hdocB'
  obtain ⟨k, new', hcons⟩ : ∃ k new', new = k :: new' := by
    cases new with
    | nil => exact (hnew.ne_nil hne' hsnd.symm).elim
    | cons k new' => exact ⟨k, new', rfl⟩
  subst hcons
  obtain ⟨front, hrepaired⟩ := validateCRLFWithPrevNode_spec h3 hposA.last
    (fun j hj => hposnew j (by rw [← Option.some.inj hj]; exact mem_cons_self)) (htextsA ▸ hA) hB'
  generalize hT4 : T₃.validateCRLFWithPrevNode (((k :: new') ++ (i, p') :: l₂).head?.map Prod.fst) = T₄ at heq hrepaired
  have hcore : Core T₄ ((front ++ new') ++ (i, p') :: l₂) := by
    rw [append_assoc]
    exact hrepaired.core
  have hcut := hcore.cut
  obtain ⟨hframe5, hbuffers5⟩ := cut_frame T₄ i p'
  rw [← heq] at hcut hframe5 hbuffers5
  refine ⟨_, ⟨hcut, ?_, ?_⟩, ?_, ?_⟩
  · refine positive_append.mpr ⟨positive_append.mpr ⟨?_, fun j hj => hposnew j (mem_cons_of_mem _ hj)⟩,
      positive_append.mpr ⟨positive_cut _ _, hposl2⟩⟩
    exact hrepaired.positive hposA (positive_take_one
      (fun j hj => hposnew j (by rw [← Option.some.inj hj]; exact mem_cons_self)))
  · rw [hbuffers5, joined_cut_iff hcore.pieceOk, append_assoc]
    exact hrepaired.joined
  · have hdocA : docText T₃.buffers l₁ = docText T.buffers l₁ := congrArg _ htextsA
    have htextR := hrepaired.text
    rw [docText_append T₃.buffers l₁, hdocA, hdocB', hbuffers1, htext] at htextR
    rw [hbuffers5, docText_append, docText_append T₄.buffers (cut i p'), docText_cut hcore.pieceOk,
      append_assoc, ← htextR]
    simp
  · exact hframe1.trans (hframe2.trans (hframe3.trans (hrepaired.frame.trans hframe5)))

end Left

/-! ## Inside a node -/

variable {m : Nat}

section Parts

variable {T : PieceTreeBase} {l₁ l₂ : Nodes} {i : Nat} {p : Piece} {b : StringBuffer} {s e : Nat}

section

variable (h : Core T (l₁ ++ (i, p) :: l₂)) (hp : Lies T.buffers p b s e) (hs : s ≤ m) (hm : m ≤ e)
include h hp hs hm

theorem deleteNodeTail_spec :
    ∃ q, Core (T.deleteNodeTail i (cursorAt b.buffer m)) (l₁ ++ (i, q) :: l₂) ∧ Lies T.buffers q b s m ∧
      q.bufferIndex = p.bufferIndex ∧ Frame T (T.deleteNodeTail i (cursorAt b.buffer m)) ∧
      (T.deleteNodeTail i (cursorAt b.buffer m)).buffers = T.buffers ∧
      (T.deleteNodeTail i (cursorAt b.buffer m)).lastChangeBufferPos = T.lastChangeBufferPos := by
  have hlen := hp.pieceAt.length
  have hbuffer : T.bufferOf p = b := hp.bufferAt
  unfold PieceTreeBase.deleteNodeTail
  rw [h.pieceOf]
  dsimp only
  rw [hbuffer, hp.offset_stop, offset_cursorAt hp.ok]
  have hq : Lies T.buffers { p with
      stop := cursorAt b.buffer m
      lineFeedCnt := getLineFeedCnt b p.start (cursorAt b.buffer m)
      length := (p.length + ((m : Int) - e)).toNat } b s m := by
    refine hp.part hs hm rfl hp.pieceAt.start rfl ?_ ?_
    · show getLineFeedCnt b p.start _ = _
      rw [hp.pieceAt.start]
    · show (p.length + ((m : Int) - e)).toNat = m - s
      omega
  refine ⟨_, h.replacePiece ⟨b, s, m, hq⟩ ?_ ?_, hq, rfl, replacePiece_frame T i _ _ _, rfl, rfl⟩
  · rw [Piece.metadata, Piece.metadata, Prod.mk_add_mk, Prod.mk.injEq]
    dsimp only
    omega
  · intro htail
    obtain ⟨hindex, hm'⟩ := (h.buffers.isTail_iff hq).mp htail
    refine (h.buffers.isTail_iff hp).mpr ⟨hindex, ?_⟩
    have := hp.pieceAt.bound
    omega

theorem deleteNodeHead_spec :
    ∃ q, Core (T.deleteNodeHead i (cursorAt b.buffer m)) (l₁ ++ (i, q) :: l₂) ∧ Lies T.buffers q b m e ∧
      Frame T (T.deleteNodeHead i (cursorAt b.buffer m)) ∧
      (T.deleteNodeHead i (cursorAt b.buffer m)).buffers = T.buffers := by
  have hlen := hp.pieceAt.length
  have hbuffer : T.bufferOf p = b := hp.bufferAt
  unfold PieceTreeBase.deleteNodeHead
  rw [h.pieceOf]
  dsimp only
  rw [hbuffer, hp.offset_start, offset_cursorAt hp.ok]
  have hq : Lies T.buffers { p with
      start := cursorAt b.buffer m
      lineFeedCnt := getLineFeedCnt b (cursorAt b.buffer m) p.stop
      length := (p.length + ((s : Int) - m)).toNat } b m e := by
    refine hp.part hm (Nat.le_refl e) rfl rfl hp.pieceAt.stop ?_ ?_
    · show getLineFeedCnt b _ p.stop = _
      rw [hp.pieceAt.stop]
    · show (p.length + ((s : Int) - m)).toNat = e - m
      omega
  refine ⟨_, h.replacePiece ⟨b, m, e, hq⟩ ?_ fun htail => htail, hq, replacePiece_frame T i _ _ _, rfl⟩
  rw [Piece.metadata, Piece.metadata, Prod.mk_add_mk, Prod.mk.injEq]
  dsimp only
  omega

end

end Parts

section Middle

variable {T : PieceTreeBase} {l₁ l₂ : Nodes} {i : Nat} {p : Piece} {value : JsString} {b : StringBuffer} {s e : Nat}

/-- The piece in front of a value, after the `\r` of a pair has gone from the piece to the value. -/
structure TakenCR (T : PieceTreeBase) (value : JsString) (b : StringBuffer) (s m : Nat) (move : Bool) (value' : JsString)
    (m' : Nat) : Prop where
  stop : (if move then m - 1 else m) = m'
  longer : (if move then carriageReturn :: value else value) = value'
  le : s ≤ m'
  le' : m' ≤ m
  empty : m' = s → move = true
  text : b.buffer.substring s m' ++ value' = b.buffer.substring s m ++ value
  junction : ¬ Junction (b.buffer.substring s m') value'
  ne_nil : value' ≠ []
  last : value'.getLast? = value.getLast?
  noCr : T.shouldCheckCRLF = false → carriageReturn ∉ value'

theorem takeCR {flag : Bool} (hb : b ∈ T.buffers)
    (hnoCr : T.shouldCheckCRLF = false → ∀ b ∈ T.buffers, carriageReturn ∉ b.buffer) (hlt : s < m)
    (hm : m ≤ b.buffer.length) (hflag : flag = true ↔ b.buffer[m - 1]? = some carriageReturn) (hne : value ≠ [])
    (hcr : T.shouldCheckCRLF = false → carriageReturn ∉ value) : ∃ move value' m',
      (T.shouldCheckCRLF && value.head? = some lineFeed && flag) = move ∧ TakenCR T value b s m move value' m' := by
  have hlast := substring_getLast? hlt hm
  cases hmove : (T.shouldCheckCRLF && value.head? = some lineFeed && flag) with
  | false =>
    refine ⟨false, value, m, rfl, rfl, rfl, by omega, Nat.le_refl m, by omega, rfl, ?_, hne, rfl, hcr⟩
    intro hjoin
    have hat := hlast.symm.trans hjoin.1
    cases hcheck : T.shouldCheckCRLF with
    | true =>
      rw [hcheck, hflag.mpr hat, decide_eq_true hjoin.2] at hmove
      cases hmove
    | false => exact hnoCr hcheck b hb (mem_of_getElem? hat)
  | true =>
    simp only [Bool.and_eq_true, decide_eq_true_eq] at hmove
    have hat := hflag.mp hmove.2
    refine ⟨true, carriageReturn :: value, m - 1, rfl, rfl, rfl, by omega, by omega, fun _ => rfl, ?_, ?_, by simp, ?_, ?_⟩
    · have hone : b.buffer.substring (m - 1) m = [carriageReturn] := by
        obtain ⟨c, hc⟩ := length_eq_one_iff.mp
          (show (b.buffer.substring (m - 1) m).length = 1 by rw [substring_length hm]; omega)
        have hlast' := substring_getLast? (show m - 1 < m by omega) hm
        rw [hc, hat] at hlast'
        rw [hc]
        exact congrArg (fun c => [c]) (Option.some.inj hlast')
      rw [substring_append b.buffer (show s ≤ m - 1 by omega) (Nat.sub_le m 1), hone]
      simp
    · rintro ⟨-, hhead⟩
      exact cr_ne_lf (Option.some.inj hhead)
    · cases value with
      | nil => exact (hne rfl).elim
      | cons c t => rfl
    · intro hcheck
      rw [hmove.1.1] at hcheck
      cases hcheck

theorem Core.startOf_cut {rest : Nodes} (h : Core T (l₁ ++ (i, q) :: rest)) :
    PieceTree.startOf (l₁ ++ (PieceTree.cut i q ++ rest)) i = none ∨
      PieceTree.startOf (l₁ ++ (PieceTree.cut i q ++ rest)) i = some (totalLength l₁) := by
  rw [PieceTree.cut]
  split
  · left
    rw [startOf_eq_none]
    intro hmem
    have hnodup := h.holds.nodup
    rw [nil_append, map_append, mem_append] at hmem
    rw [map_append, map_cons, nodup_append, nodup_cons] at hnodup
    rcases hmem with hmem | hmem
    · exact hnodup.2.2 i hmem i mem_cons_self rfl
    · exact hnodup.2.1.1 hmem
  · right
    exact h.startOf

theorem tails_cut_le (last : BufferCursor) (id : Nat) (q : Piece) : tails last ((cut id q).map Prod.snd) ≤ tails last [q] := by
  rw [cut]
  split
  · exact Nat.zero_le _
  · exact Nat.le_refl _

/-- The new nodes of an insertion into a node: the new pieces and what is left of the right part. -/
theorem insertBoth_spec {R : Piece} (h : Core T (l₁ ++ (i, p) :: l₂)) (hR : PieceOk T.buffers R)
    (hvalid : ∀ q ∈ pieces, PieceOk T.buffers q)
    (htails : tails T.lastChangeBufferPos ((l₁ ++ (i, p) :: l₂).map Prod.snd) + tails T.lastChangeBufferPos [R] + tails T.lastChangeBufferPos pieces ≤ 1)
    {T₁ T' : PieceTreeBase} (hT1 : T₁ = if R.length > 0 then (T.insertPiecesRight (some i) [R]).1 else T)
    (hT' : T' = (T₁.insertPiecesRight (some i) pieces).1) :
    ∃ new, new.map Prod.snd = pieces ∧ Core T' (l₁ ++ (i, p) :: (new ++ (cut T.nextId R ++ l₂))) ∧ Frame T T' ∧
      T'.buffers = T.buffers := by
  have hcut := tails_cut_le T.lastChangeBufferPos T.nextId R
  obtain ⟨h1, hframe1, hbuffers1, hlast1⟩ : Core T₁ (l₁ ++ (i, p) :: (cut T.nextId R ++ l₂)) ∧ Frame T T₁ ∧
      T₁.buffers = T.buffers ∧ T₁.lastChangeBufferPos = T.lastChangeBufferPos := by
    rw [hT1, cut]
    by_cases hpos : R.length > 0
    · rw [if_pos hpos, if_neg (by omega)]
      obtain ⟨hframe, hbuffers, hlast⟩ := insertPiecesRight_frame [R] T (some i)
      refine ⟨h.insertPiecesRight [R] (fun q hq => ?_) (by omega), hframe, hbuffers, hlast⟩
      rw [mem_singleton] at hq
      rw [hq]
      exact hR
    · rw [if_neg hpos, if_pos (by omega)]
      exact ⟨h, Frame.refl T, rfl, rfl⟩
  obtain ⟨hframe2, hbuffers2, -⟩ := insertPiecesRight_frame pieces T₁ (some i)
  refine ⟨number T₁.nextId pieces, number_snd pieces _, ?_, ?_, ?_⟩
  · rw [hT']
    refine h1.insertPiecesRight pieces (fun q hq => by rw [hbuffers1]; exact hvalid q hq) ?_
    rw [hlast1]
    simp only [map_append, map_cons, tails_append, tails_cons] at htails hcut ⊢
    omega
  · rw [hT']
    exact hframe1.trans hframe2
  · rw [hT', hbuffers2, hbuffers1]

theorem insertContentIntoNode_spec (h : Good T (l₁ ++ (i, p) :: l₂)) {remainder : Nat} (hr : 0 < remainder)
    (hr' : remainder < p.length) (hne : value ≠ []) (hcr : T.shouldCheckCRLF = false → carriageReturn ∉ value) :
    ∃ L' front back, content T.buffers p = front ++ back ∧ front.length = remainder ∧
      Inserted T (docText T.buffers l₁ ++ front) value (back ++ docText T.buffers l₂)
        (T.insertContentIntoNode value i remainder) L' ∧ Stays (l₁ ++ (i, p) :: l₂) L' i := by
  obtain ⟨b, s, e, hp⟩ := h.toCore.pieceOk
  have hlen := hp.pieceAt.length
  have hbound := hp.pieceAt.bound
  have hbuffer : T.bufferOf p = b := hp.bufferAt
  have hpos := positionInBuffer_eq hp.ok hp.pieceAt (show s + remainder ≤ e by omega)
  have hpos' := positionInBuffer_eq hp.ok hp.pieceAt (show s + (remainder - 1) ≤ e by omega)
  obtain ⟨hA, hB, hAB⟩ := joined_texts_append.mp h.joined
  obtain ⟨hB1, hB2⟩ := joined_texts_cons.mp hB
  obtain ⟨hposA, hposB⟩ := positive_append.mp h.positive
  -- the part behind the insertion point
  generalize hright : ({ p with
      start := cursorAt b.buffer (s + remainder)
      lineFeedCnt := getLineFeedCnt b (cursorAt b.buffer (s + remainder)) p.stop
      length := offsetInBuffer b p.stop - offsetInBuffer b (cursorAt b.buffer (s + remainder)) } : Piece) = right
  have hRight : Lies T.buffers right b (s + remainder) e := by
    subst hright
    refine hp.part (by omega) (Nat.le_refl e) rfl rfl hp.pieceAt.stop ?_ ?_
    · show getLineFeedCnt b _ p.stop = _
      rw [hp.pieceAt.stop]
    · show offsetInBuffer b p.stop - offsetInBuffer b _ = _
      rw [hp.offset_stop, offset_cursorAt hp.ok]
  have hRlen := hRight.pieceAt.length
  have hsplit : content T.buffers p = b.buffer.substring s (s + remainder) ++ content T.buffers right := by
    rw [hp.content, hRight.content, substring_append b.buffer (Nat.le_add_right s remainder) (by omega)]
  have hflag : decide (T.nodeCharCodeAt p remainder = some lineFeed) = true ↔
      (content T.buffers right).head? = some lineFeed := by
    rw [decide_eq_true_eq, hp.nodeCharCodeAt (by omega) (.inr rfl), hRight.head? (by omega)]
  obtain ⟨moveLF, value1, R, hmoveLF, hLF⟩ := takeLF ⟨b, _, e, hRight⟩ (by omega)
    (X := docText T.buffers l₂) (by
      intro hjoin
      refine hB1 ?_
      rw [hsplit]
      exact (junction_append_left (content_ne_nil ⟨b, _, e, hRight⟩ (by omega))).mpr hjoin) hflag hne hcr
  -- the part in front of it
  have hflag' : decide (T.nodeCharCodeAt p (remainder - 1) = some carriageReturn) = true ↔
      b.buffer[s + remainder - 1]? = some carriageReturn := by
    rw [decide_eq_true_eq, hp.nodeCharCodeAt (by omega) (.inl rfl), Nat.add_sub_assoc hr]
  obtain ⟨moveCR, value2, m, hmoveCR, hCR⟩ := takeCR (mem_of_getElem? hp.buffer) h.noCr
    (show s < s + remainder by omega) (by omega) hflag' hLF.ne_nil hLF.noCr
  obtain ⟨q, h1, hq, hqindex, hframe1, hbuffers1, hlast1⟩ := deleteNodeTail_spec h.toCore hp hCR.le
    (Nat.le_trans hCR.le' (by omega))
  generalize hT1 : T.deleteNodeTail i (cursorAt b.buffer m) = T₁ at h1 hframe1 hbuffers1 hlast1
  have hqlen := hq.pieceAt.length
  have hempty : (moveCR && decide ((T₁.pieceOf i).length = 0)) = true ↔ q.length = 0 := by
    rw [h1.pieceOf, Bool.and_eq_true, decide_eq_true_eq]
    exact ⟨And.right, fun hzero => ⟨hCR.empty (by have := hCR.le; omega), hzero⟩⟩
  -- the new pieces
  obtain ⟨h2, hframe2, hid2, hnew, -⟩ := h1.createNewPieces value2 hCR.ne_nil (by
    rw [hframe1.shouldCheckCRLF]
    exact hCR.noCr)
  have hR : PieceOk T₁.buffers R := by
    rw [hbuffers1]
    exact hLF.ok
  have htails := hnew.tails ((l₁ ++ (i, q) :: l₂).map Prod.snd ++ [R]) (by
      intro x hx
      rcases mem_append.mp hx with hx | hx
      · obtain ⟨j, hj, rfl⟩ := mem_map.mp hx
        exact h1.valid j hj
      · rw [mem_singleton.mp hx]
        exact hR) (by
      have hold := h.tail
      have hqtail : ¬ isTail T₁.lastChangeBufferPos q = true := by
        intro htail
        rw [hlast1] at htail
        have := ((h.buffers.isTail_iff hq).mp htail).2
        have := hCR.le'
        omega
      have hRtail : isTail T₁.lastChangeBufferPos R = isTail T₁.lastChangeBufferPos p := by
        rw [← hLF.piece, ← hright]
        cases moveLF <;> rfl
      rw [← hlast1] at hold
      simp only [map_append, map_cons, tails_append, tails_cons, tails_nil] at hold ⊢
      rw [hRtail, if_neg hqtail]
      omega)
  rw [tails_append] at htails
  generalize hT2 : (T₁.createNewPieces value2).1 = T₂ at h2 hframe2 hid2 hnew htails
  generalize hpieces : (T₁.createNewPieces value2).2 = pieces at hnew htails
  obtain ⟨new, hsnd, h3, hframe3, hbuffers3⟩ := insertBoth_spec h2 (hnew.grown R hR).1
    (fun x hx => (hnew.valid x hx).1) htails rfl rfl
  have heq : T.insertContentIntoNode value i remainder = if q.length = 0
      then ((if R.length > 0 then (T₂.insertPiecesRight (some i) [R]).1 else T₂).insertPiecesRight (some i)
        pieces).1.rbDelete i
      else ((if R.length > 0 then (T₂.insertPiecesRight (some i) [R]).1 else T₂).insertPiecesRight (some i)
        pieces).1 := by
    unfold PieceTreeBase.insertContentIntoNode
    rw [h.toCore.pieceOf]
    dsimp only
    rw [hbuffer, hpos, hpos', hright, hmoveLF, hLF.piece, hLF.longer, hmoveCR, hCR.longer]
    have hdel : (if moveCR = true then T.deleteNodeTail i (cursorAt b.buffer (s + (remainder - 1)))
        else T.deleteNodeTail i (cursorAt b.buffer (s + remainder))) = T₁ := by
      rw [← hT1, ← hCR.stop]
      cases moveCR with
      | true => rw [if_pos rfl, if_pos rfl, Nat.add_sub_assoc hr]
      | false => rfl
    rw [hdel, if_congr hempty rfl rfl, ← hT2, ← hpieces]
    by_cases hRpos : R.length > 0
    · rw [if_pos hRpos, if_pos hRpos]
    · rw [if_neg hRpos, if_neg hRpos]
  generalize ((if R.length > 0 then (T₂.insertPiecesRight (some i) [R]).1 else T₂).insertPiecesRight (some i)
    pieces).1 = T₃ at h3 hframe3 hbuffers3 heq
  have hcut := h3.cut
  obtain ⟨hframe4, hbuffers4⟩ := cut_frame T₃ i q
  rw [← heq] at hcut hframe4 hbuffers4
  rw [hbuffers3] at hbuffers4
  -- what the nodes spell in the new buffers
  have hgrown : Grown T.buffers T₂.buffers := by
    rw [← hbuffers1]
    exact hnew.grown
  obtain ⟨hvalidA, hvalidp, hvalidl2⟩ := forall_mem_middle.mp h.valid
  have hq2 := hgrown q ⟨b, s, m, hq⟩
  have hdocR : docText T.buffers (cut T₂.nextId R ++ l₂) = content T.buffers R ++ docText T.buffers l₂ := by
    rw [docText_append, docText_cut hLF.ok]
  have hvalidR : ∀ j ∈ cut T₂.nextId R ++ l₂, PieceOk T₁.buffers j.2 := by
    rw [hbuffers1]
    refine forall_mem_append.mpr ⟨?_, hvalidl2⟩
    intro j hj
    rw [cut] at hj
    split at hj
    · cases hj
    · rw [mem_singleton.mp hj]
      exact hLF.ok
  have hjoinedR : Joined none (texts T.buffers (cut T₂.nextId R ++ l₂)) := by
    refine joined_texts_append.mpr ⟨joined_cut _ _ _, hB2, ?_⟩
    rw [docText_cut hLF.ok]
    exact hLF.junction'
  obtain ⟨hposnew, hjoinednew, hdocnew⟩ := hnew.nodes hsnd hvalidR (by rw [hbuffers1]; exact hjoinedR) (by
    rw [hbuffers1, hdocR]
    exact fun hjoin => hLF.junction ⟨hCR.last ▸ hjoin.1, hjoin.2⟩)
  rw [hbuffers1, hdocR] at hdocnew
  have hdocA : docText T₂.buffers l₁ = docText T.buffers l₁ := congrArg _ (texts_grown hgrown hvalidA)
  have hfront : b.buffer.substring s (s + remainder) ≠ [] := by
    rw [← length_pos_iff, substring_length (by omega)]
    omega
  have hdoc : docText T₂.buffers (cut i q ++ (new ++ (cut T₂.nextId R ++ l₂))) =
      b.buffer.substring s (s + remainder) ++ (value ++ content T.buffers right ++ docText T.buffers l₂) := by
    rw [docText_append, docText_cut hq2.1, hq2.2, hq.content, hdocnew, ← append_assoc, hCR.text,
      append_assoc, ← append_assoc value1, hLF.text]
  refine ⟨_, _, _, hsplit, by rw [substring_length (by omega)]; omega, ⟨⟨hcut, ?_, ?_⟩, ?_, ?_⟩, ?_⟩
  · exact positive_append.mpr ⟨hposA, positive_append.mpr ⟨positive_cut _ _, positive_append.mpr ⟨hposnew,
      positive_append.mpr ⟨positive_cut _ _, (positive_cons.mp hposB).2⟩⟩⟩⟩
  · rw [hbuffers4]
    refine joined_texts_append.mpr ⟨?_, joined_texts_append.mpr ⟨joined_cut _ _ _, hjoinednew, ?_⟩, ?_⟩
    · rw [texts_grown hgrown hvalidA]
      exact hA
    · rw [docText_cut hq2.1, hq2.2, hq.content, hdocnew, junction_append_right hCR.ne_nil]
      exact hCR.junction
    · rw [hdocA, hdoc, junction_append_right hfront]
      rw [docText_cons, hsplit, append_assoc, junction_append_right hfront] at hAB
      exact hAB
  · rw [hbuffers4, docText_append, hdocA, hdoc]
    simp
  · exact hframe1.trans (hframe2.trans (hframe3.trans hframe4))
  · rw [Stays, h.toCore.startOf]
    exact h3.startOf_cut

end Middle

/-! ## At the end of the change buffer -/

section Append

variable {T : PieceTreeBase} {l₁ l₂ : Nodes} {i : Nat} {p : Piece} {value : JsString}

/-- The change buffer with a value behind it; where a `\r\n` comes to stand there, a line start goes. -/
def grownBuffer (b : StringBuffer) (hitCRLF : Bool) (value : JsString) : StringBuffer :=
  ⟨b.buffer ++ value, (if hitCRLF then b.lineStarts.dropLast else b.lineStarts) ++
    ((createLineStartsFast value).map (· + b.buffer.length)).drop 1⟩

theorem grownBuffer_ok {b : StringBuffer} (hb : b.Ok) {hitCRLF : Bool} (hhit : hitCRLF = true ↔ Junction b.buffer value) :
    (grownBuffer b hitCRLF value).Ok := by
  have hstarts : ((createLineStartsFast value).map (· + b.buffer.length)).drop 1 = lineEnds b.buffer.length none value := by
    rw [← map_drop, drop_createLineStartsFast]
  rw [StringBuffer.Ok, grownBuffer, hstarts, hb]
  cases hitCRLF with
  | true => exact (createLineStartsFast_append_junction (hhit.mp rfl)).symm
  | false => exact (createLineStartsFast_append fun hjoin => Bool.noConfusion (hhit.mpr hjoin)).symm

theorem lies_grown {bs : List StringBuffer} {b b' : StringBuffer} {s : Nat} (hp : Lies bs p b s b.buffer.length)
    (hlt : s < b.buffer.length) (hzero : p.bufferIndex = 0) (hok : b'.Ok) (htext : b'.buffer = b.buffer ++ value)
    (hindex : q.bufferIndex = 0) (hstart : q.start = p.start) (hstop : q.stop = cursorAt b'.buffer b'.buffer.length)
    (hcnt : q.lineFeedCnt = getLineFeedCnt b' p.start q.stop) (hlength : q.length = p.length + value.length) :
    Lies (bs.set 0 b') q b' s b'.buffer.length ∧ content (bs.set 0 b') q = content bs p ++ value := by
  have hlen : b'.buffer.length = b.buffer.length + value.length := by rw [htext, length_append]
  have hcur : cursorAt b'.buffer s = p.start := by
    rw [hp.pieceAt.start, htext]
    exact cursorAt_append (by omega) (by omega)
  have hplen := hp.pieceAt.length
  have hbs : 0 < bs.length := by
    have := (List.getElem?_eq_some_iff.mp hp.buffer).1
    omega
  have hlies : Lies (bs.set 0 b') q b' s b'.buffer.length := by
    refine ⟨?_, hok, ⟨hstart.trans hcur.symm, hstop, by omega, Nat.le_refl _, by omega⟩, ?_⟩
    · rw [hindex, getElem?_set_self hbs]
    · intro hlt'
      rw [hcnt, hstop, ← hcur, getLineFeedCnt_eq_eolCount hok hlt' (Nat.le_refl _)]
  refine ⟨hlies, ?_⟩
  rw [hlies.content, hp.content, substring, substring, take_length, take_length, htext,
    drop_append_of_le_length (by omega)]

theorem growNode_spec (h : Core T (l₁ ++ (i, p) :: l₂)) (hpos : Positive (l₁ ++ (i, p) :: l₂))
    (htail : isTail T.lastChangeBufferPos p = true) (hne : value ≠ [])
    (hcr : T.shouldCheckCRLF = false → carriageReturn ∉ value) {b' : StringBuffer} (hok : b'.Ok)
    (htext : b'.buffer = (bufferAt T.buffers 0).buffer ++ value) {newEnd : BufferCursor}
    (hend : newEnd = cursorAt b'.buffer b'.buffer.length) {T' : PieceTreeBase}
    (hT' : T' = { T with buffers := T.buffers.set 0 b', lastChangeBufferPos := newEnd }.replacePiece i
      { p with
        stop := newEnd
        lineFeedCnt := getLineFeedCnt b' p.start newEnd
        length := p.length + value.length } value.length (getLineFeedCnt b' p.start newEnd - p.lineFeedCnt)) :
    ∃ q, q.length = p.length + value.length ∧ Core T' (l₁ ++ (i, q) :: l₂) ∧ Frame T T' ∧ content T'.buffers q = content T.buffers p ++ value ∧
      texts T'.buffers l₁ = texts T.buffers l₁ ∧ texts T'.buffers l₂ = texts T.buffers l₂ := by
  generalize hq' : ({ p with
    stop := newEnd
    lineFeedCnt := getLineFeedCnt b' p.start newEnd
    length := p.length + value.length } : Piece) = q at hT'
  have hq := hq'.symm
  refine ⟨q, by rw [hq], ?_⟩
  obtain ⟨b, s, e, hp⟩ := h.pieceOk
  obtain ⟨hindex, he⟩ := (h.buffers.isTail_iff hp).mp htail
  subst he
  have hb : bufferAt T.buffers 0 = b := by rw [← hp.bufferAt, hindex]
  have hplen := hp.pieceAt.length
  obtain ⟨hposA, hposp, hposl2⟩ := forall_mem_middle.mp hpos
  have hlt : s < b.buffer.length := by
    dsimp only at hposp
    omega
  rw [hb] at htext
  have hbuffers : T'.buffers = T.buffers.set 0 b' := by rw [hT']; rfl
  have happended : Appended T value { T with buffers := T.buffers.set 0 b', lastChangeBufferPos := newEnd } b' :=
    ⟨by rw [hend], hok, by rw [hb]; exact htext⟩
  obtain ⟨hqlies, hqcontent⟩ := lies_grown (q := q) hp hlt hindex hok htext (by rw [hq]; exact hindex) (by rw [hq])
    (by rw [hq]; exact hend) (by rw [hq]) (by rw [hq])
  -- every other piece of the change buffer ends in front of its end
  have hother : ∀ j ∈ l₁ ++ l₂, ∃ b1 s1 e1, Lies T.buffers j.2 b1 s1 e1 ∧
      (j.2.bufferIndex = 0 → e1 ≠ b1.buffer.length) := by
    intro j hj
    have hold := h.tail
    rw [map_append, map_cons, tails_append, tails_cons, if_pos htail] at hold
    have hnone : tails T.lastChangeBufferPos ((l₁ ++ l₂).map Prod.snd) = 0 := by
      rw [map_append, tails_append]
      omega
    obtain ⟨b1, s1, e1, hj'⟩ : PieceOk T.buffers j.2 := by
      refine h.valid j ?_
      rcases mem_append.mp hj with hj | hj
      · exact mem_append_left _ hj
      · exact mem_append_right _ (mem_cons_of_mem _ hj)
    refine ⟨b1, s1, e1, hj', fun hzero hend' => ?_⟩
    rw [tails, countP_eq_zero] at hnone
    exact hnone j.2 (mem_map_of_mem hj) ((h.buffers.isTail_iff hj').mpr ⟨hzero, hend'⟩)
  have hstay : ∀ j ∈ l₁ ++ l₂, PieceOk T'.buffers j.2 ∧ content T'.buffers j.2 = content T.buffers j.2 := by
    intro j hj
    obtain ⟨b1, s1, e1, hj', hne'⟩ := hother j hj
    rw [hbuffers]
    obtain ⟨⟨b2, h2⟩, hcontent⟩ := hj'.set h.buffers.nonempty hok (by rw [hb]; exact htext)
      fun hzero hend' => (hne' hzero hend').elim
    exact ⟨⟨b2, s1, e1, h2⟩, hcontent⟩
  obtain ⟨hstay1, hstay2⟩ := forall_mem_append.mp hstay
  have htails : tails newEnd ((l₁ ++ l₂).map Prod.snd) = 0 := by
    refine happended.tails hne ?_
    intro x hx hzero
    obtain ⟨j, hj, rfl⟩ := mem_map.mp hx
    obtain ⟨b1, s1, e1, hj', hne'⟩ := hother j hj
    have hb1 : b1 = b := by rw [← hj'.bufferAt, hzero, hb]
    subst hb1
    have hbound := hj'.pieceAt.bound
    have hne' := hne' hzero
    refine ⟨e1, by rw [hb]; exact hbound, ?_⟩
    rw [hj'.pieceAt.stop, htext]
    exact (cursorAt_append hbound fun heq => (hne' heq).elim).symm
  have hBuffers := happended.buffersOk h.buffers
  refine ⟨⟨?_, ?_, ?_, ?_, ?_, ?_⟩, ?_, ?_, ?_, ?_⟩
  · rw [hT']
    refine h.holds.changePiece ?_
    rw [hq, Piece.metadata, Piece.metadata, Prod.mk_add_mk, Prod.mk.injEq]
    dsimp only
    omega
  · rw [hT']
    have hfresh := forall_mem_middle.mp h.fresh
    exact forall_mem_middle.mpr ⟨hfresh.1, hfresh.2.1, hfresh.2.2⟩
  · rw [hT']
    exact ⟨hBuffers.nonempty, hBuffers.ok, hBuffers.last⟩
  · refine forall_mem_middle.mpr ⟨fun j hj => (hstay1 j hj).1, ?_, fun j hj => (hstay2 j hj).1⟩
    rw [hbuffers]
    exact ⟨b', s, _, hqlies⟩
  · rw [hT']
    show tails newEnd _ ≤ 1
    rw [map_append, tails_append] at htails
    rw [map_append, map_cons, tails_append, tails_cons]
    split <;> omega
  · rw [hT']
    intro hcheck
    exact happended.noCr h.buffers (h.noCr hcheck) (hcr hcheck)
  · rw [hT']
    exact ⟨rfl, rfl, rfl, rfl, Nat.le_refl _⟩
  · rw [hbuffers]
    exact hqcontent
  · exact map_congr_left fun j hj => (hstay1 j hj).2
  · exact map_congr_left fun j hj => (hstay2 j hj).2

theorem appendToNode_spec (h : Good T (l₁ ++ (i, p) :: l₂)) (htail : isTail T.lastChangeBufferPos p = true)
    (hne : value ≠ []) (hcr : T.shouldCheckCRLF = false → carriageReturn ∉ value) :
    ∃ L', Inserted T (docText T.buffers (l₁ ++ [(i, p)])) value (docText T.buffers l₂) (T.appendToNode i value) L' ∧
      Stays (l₁ ++ (i, p) :: l₂) L' i := by
  obtain ⟨hposA, hposB⟩ := positive_append.mp h.positive
  obtain ⟨hposp, hposl2⟩ := positive_cons.mp hposB
  obtain ⟨hA, hB, hAB⟩ := joined_texts_append.mp h.joined
  obtain ⟨-, hB2⟩ := joined_texts_cons.mp hB
  obtain ⟨T₁, moved, l2', hadjust, h1, hframe1, hbuffers1, hadjusted⟩ :=
    adjustCarriageReturnFromNext_spec h.toCore hne hposl2 hB2 hcr
  generalize hvalue : (if moved then value ++ [lineFeed] else value) = value' at hadjusted
  have hlast1 : T₁.lastChangeBufferPos = T.lastChangeBufferPos := by
    rw [h1.buffers.last, h.buffers.last, hbuffers1]
  have htail1 : isTail T₁.lastChangeBufferPos p = true := by
    rw [hlast1]
    exact htail
  have hcr1 : T₁.shouldCheckCRLF = false → carriageReturn ∉ value' := by
    rw [hframe1.shouldCheckCRLF]
    exact fun hcheck => hadjusted.noCr (hcr hcheck)
  have hok : (bufferAt T₁.buffers 0).Ok := h1.buffers.ok _ (mem_of_getElem? (bufferAt_zero h1.buffers.nonempty))
  -- a pair comes to stand in the buffer exactly where the code takes a line start away
  have hlastunit : (content T₁.buffers p).getLast? = (bufferAt T₁.buffers 0).buffer.getLast? := by
    obtain ⟨b, s, e, hp⟩ := h1.pieceOk
    obtain ⟨hindex, he⟩ := (h1.buffers.isTail_iff hp).mp htail1
    have hb : bufferAt T₁.buffers 0 = b := by rw [← hp.bufferAt, hindex]
    have hlen := hp.pieceAt.length
    dsimp only at hposp
    rw [hp.getLast? (by omega), hb, he, getLast?_eq_getElem?]
  have hhit : (T₁.shouldCheckCRLF && value'.head? = some lineFeed && T₁.endWithCR (some i)) = true ↔
      Junction (bufferAt T₁.buffers 0).buffer value' := by
    rw [Bool.and_eq_true, Bool.and_eq_true, decide_eq_true_eq, h1.endWithCR hposp, hlastunit]
    constructor
    · rintro ⟨⟨-, hlf⟩, hcr⟩
      exact ⟨hcr, hlf⟩
    · rintro ⟨hcr, hlf⟩
      refine ⟨⟨?_, hlf⟩, hcr⟩
      cases hcheck : T₁.shouldCheckCRLF with
      | true => rfl
      | false =>
        exact (h1.noCr hcheck _ (mem_of_getElem? (bufferAt_zero h1.buffers.nonempty))
          (mem_of_getLast? hcr)).elim
  have hok' := grownBuffer_ok hok hhit
  obtain ⟨q, hqlen, h2, hframe2, hcontent, htexts1, htexts2⟩ := growNode_spec h1
    (positive_append.mpr ⟨hposA, positive_cons.mpr ⟨hposp, hadjusted.positive⟩⟩) htail1 hadjusted.ne_nil hcr1 hok'
    rfl hok'.end_eq (show T.appendToNode i value = _ by
      rw [PieceTreeBase.appendToNode, hadjust]
      dsimp only
      rw [hvalue, h1.pieceOf]
      rfl)
  generalize T.appendToNode i value = T₂ at h2 hframe2 hcontent htexts1 htexts2
  rw [hbuffers1] at hcontent htexts1 htexts2
  have hdoc1 : docText T₂.buffers l₁ = docText T.buffers l₁ := congrArg _ htexts1
  have hdoc2 : docText T₂.buffers l2' = docText T.buffers l2' := congrArg _ htexts2
  have hpne : content T.buffers p ≠ [] := content_ne_nil h.toCore.pieceOk hposp
  refine ⟨_, ⟨⟨h2, ?_, ?_⟩, ?_, hframe1.trans hframe2⟩, ?_⟩
  · refine positive_append.mpr ⟨hposA, positive_cons.mpr ⟨?_, hadjusted.positive⟩⟩
    dsimp only at hposp ⊢
    omega
  · refine joined_texts_append.mpr ⟨htexts1 ▸ hA, joined_texts_cons.mpr ⟨?_, htexts2 ▸ hadjusted.joined⟩, ?_⟩
    · rw [hcontent, hdoc2, junction_append_left hadjusted.ne_nil]
      exact hadjusted.noJunction
    · rw [docText_cons, hcontent, hdoc1, append_assoc, junction_append_right hpne]
      rw [docText_cons, junction_append_right hpne] at hAB
      exact hAB
  · rw [docText_append, docText_cons, hcontent, hdoc1, hdoc2, append_assoc (content T.buffers p), hadjusted.text]
    simp
  · rw [Stays, h.toCore.startOf]
    exact .inr h2.startOf

end Append

/-! ## The whole insertion -/

/-- The text with `cnt` units at `offset` replaced by the value. -/
def splice (text : JsString) (offset cnt : Nat) (value : JsString) : JsString :=
  text.take offset ++ value ++ text.drop (offset + cnt)

theorem splice_append {A B : JsString} {offset : Nat} (value : JsString) (h : offset = A.length) :
    splice (A ++ B) offset 0 value = A ++ value ++ B := by
  rw [splice, h, Nat.add_zero, take_left, drop_left]

section Insert

variable {T : PieceTreeBase} {L : Nodes} {value : JsString}

theorem root_eq_nil_iff (h : Core T L) : T.root = .nil ↔ L = [] := by
  rw [← h.holds.items]
  constructor
  · intro hnil
    rw [hnil]
    rfl
  · intro hnil
    cases hroot : T.root with
    | nil => rfl
    | node c l v r =>
      rw [hroot, items_node] at hnil
      simp at hnil

theorem insertEmpty_spec (h : Good T []) (hne : value ≠ []) (hcr : T.shouldCheckCRLF = false → carriageReturn ∉ value) :
    let T₁ := (T.createNewPieces value).1
    let pieces := (T.createNewPieces value).2
    let T₂ := T₁.insertPiecesLeft none (pieces.take 1)
    ∃ L', Inserted T [] value [] (T₂.1.insertPiecesRight T₂.2 (pieces.drop 1)).1 L' := by
  intro T₁ pieces T₂
  obtain ⟨h1, hframe1, hid1, hnew, htails⟩ := h.toCore.createNewPieces value hne hcr
  obtain ⟨p, ps, hpieces⟩ := exists_cons_of_ne_nil (hnew.ne_nil hne)
  have hpieces' : pieces = p :: ps := hpieces
  have hroot : T₁.root = .nil := (root_eq_nil_iff h1).mpr rfl
  rw [hpieces] at hnew htails
  rw [map_nil, tails_nil, Nat.zero_add, tails_cons] at htails
  change tails T₁.lastChangeBufferPos ps + (if isTail T₁.lastChangeBufferPos p = true then 1 else 0) ≤ 1 at htails
  have hT2 : T₂ = ({ T₁ with
      root := .node .black .nil { id := T₁.nextId, piece := p } .nil
      nextId := T₁.nextId + 1 }, some T₁.nextId) := by
    show T₁.insertPiecesLeft none (pieces.take 1) = _
    rw [hpieces']
    simp only [take_succ_cons, take_zero, PieceTreeBase.insertPiecesLeft, PieceTreeBase.rbInsertLeft,
      insertLeft, hroot]
  have h2 : Core T₂.1 ([] ++ (T₁.nextId, p) :: []) := by
    rw [hT2]
    refine h1.withRoot (holds_single _ rfl) ?_ ?_ ?_
    · intro i hi
      rw [mem_singleton.mp hi]
      omega
    · intro i hi
      rw [mem_singleton.mp hi]
      exact (hnew.valid p mem_cons_self).1
    · show tails T₁.lastChangeBufferPos [p] ≤ 1
      rw [tails_cons, tails_nil]
      omega
  have hT₂buffers : T₂.1.buffers = T₁.buffers := by rw [hT2]
  have hframe2 : Frame T₁ T₂.1 := by
    rw [hT2]
    exact ⟨rfl, rfl, rfl, rfl, Nat.le_succ _⟩
  have hnode : T₂.2 = some T₁.nextId := by rw [hT2]
  have h3 := h2.insertPiecesRight ps (fun q hq => by
    rw [hT₂buffers]
    exact (hnew.valid q (mem_cons_of_mem _ hq)).1) (by
    have hlast : T₂.1.lastChangeBufferPos = T₁.lastChangeBufferPos := by rw [hT2]
    rw [hlast]
    simp only [nil_append, map_cons, map_nil, tails_cons, tails_nil]
    omega)
  obtain ⟨hframe3, hbuffers3, -⟩ := insertPiecesRight_frame ps T₂.1 (some T₁.nextId)
  have hdrop : pieces.drop 1 = ps := by rw [hpieces']; rfl
  rw [hnode, hdrop]
  have hsnd : ([] ++ (T₁.nextId, p) :: (number T₂.1.nextId ps ++ [])).map Prod.snd = p :: ps := by
    simp [number_snd]
  obtain ⟨hpos, hjoined, hdoc⟩ := hnew.nodes (B := []) hsnd (by simp) trivial (not_junction_nil_right _)
  rw [append_nil] at hjoined hdoc
  rw [hT₂buffers] at hbuffers3
  refine ⟨_, ⟨h3, hpos, ?_⟩, ?_, hframe1.trans (hframe2.trans hframe3)⟩
  · rw [hbuffers3]
    exact hjoined
  · rw [hbuffers3, hdoc]
    simp

theorem cr_not_mem_replaceEol (text : JsString) : carriageReturn ∉ replaceEol EndOfLine.lf.text text := by
  have hlf : carriageReturn ∉ EndOfLine.lf.text := by decide
  induction text using eolCount.induct with
  | case1 => simp [replaceEol]
  | case2 c h =>
    rw [replaceEol, if_pos h]
    exact hlf
  | case3 c h =>
    rw [replaceEol, if_neg h]
    simp only [mem_singleton]
    exact fun heq => h (.inl heq.symm)
  | case4 c d t h ih =>
    rw [replaceEol, if_pos h, mem_append, not_or]
    exact ⟨hlf, ih⟩
  | case5 c d t h h' ih =>
    rw [replaceEol, if_neg h, if_pos h', mem_append, not_or]
    exact ⟨hlf, ih⟩
  | case6 c d t h h' ih =>
    rw [replaceEol, if_neg h, if_neg h', mem_cons, not_or]
    exact ⟨fun heq => h' (.inl heq.symm), ih⟩

/-- Every line break of the text is the given one. -/
def UsesOnly (eol : EndOfLine) (text : JsString) : Prop := replaceEol eol.text text = text

instance (eol : EndOfLine) (text : JsString) : Decidable (UsesOnly eol text) := inferInstanceAs (Decidable (_ = _))

theorem UsesOnly.noCr {text : JsString} (h : UsesOnly .lf text) : carriageReturn ∉ text := by
  rw [← h]
  exact cr_not_mem_replaceEol text

theorem shouldCheckCRLF_eq_false : T.shouldCheckCRLF = false ↔ T.eolNormalized = true ∧ T.eol = .lf := by
  rw [PieceTreeBase.shouldCheckCRLF, Bool.not_eq_false', Bool.and_eq_true, decide_eq_true_eq]

theorem computeBufferMetadata_buffers (T : PieceTreeBase) : T.computeBufferMetadata.buffers = T.buffers ∧
    T.computeBufferMetadata.eol = T.eol ∧ T.computeBufferMetadata.eolNormalized = T.eolNormalized := by
  obtain ⟨cache, heq, -⟩ := computeBufferMetadata_eq T
  rw [heq]
  exact ⟨rfl, rfl, rfl⟩

/-- The last line is not looked at, and the entry of the cache may only be dropped. -/
theorem computeBufferMetadata_kept (T : PieceTreeBase) (offset : Nat) {old : Option CacheEntry}
    (h : CacheKept old T.searchCache offset) : CacheKept old T.computeBufferMetadata.searchCache offset ∧
      T.computeBufferMetadata.lastVisitedLine = T.lastVisitedLine := by
  obtain ⟨cache, heq, hcache⟩ := computeBufferMetadata_eq T
  rw [heq]
  exact ⟨fun entry n hentry hline => h entry n (hcache entry hentry).1 hline, rfl⟩

theorem cacheWeak_of_stays {L L' : Nodes} {entry : CacheEntry} (hstart : startOf L entry.node = some entry.nodeStartOffset)
    (hstays : Stays L L' entry.node) : CacheWeak L' (some entry) := by
  intro entry' hentry
  obtain rfl := Option.some.inj hentry
  rcases hstays with hstays | hstays
  · exact .inl hstays
  · exact .inr (hstays.trans hstart)

theorem Inserted.finish {A B : JsString} {L' : Nodes} (h : Inserted T A value B T' L')
    (hweak : CacheWeak L' T'.searchCache) : Inv T'.computeBufferMetadata L' ∧
      docText T'.computeBufferMetadata.buffers L' = A ++ value ++ B ∧
      T'.computeBufferMetadata.eol = T.eol ∧ T'.computeBufferMetadata.eolNormalized = T.eolNormalized := by
  obtain ⟨hbuffers, heol, hnormalized⟩ := computeBufferMetadata_buffers T'
  refine ⟨h.good.computeBufferMetadata hweak, ?_, heol.trans h.frame.eol, hnormalized.trans h.frame.eolNormalized⟩
  rw [hbuffers, h.text]

theorem insert_spec (h : Inv T L) {offset : Nat} (hoffset : offset ≤ (docText T.buffers L).length) (hne : value ≠ [])
    {eolNormalized : Bool} (huses : eolNormalized = true → UsesOnly T.eol value) :
    ∃ T' L', T.insert offset value eolNormalized = some T' ∧ Inv T' L' ∧
      docText T'.buffers L' = splice (docText T.buffers L) offset 0 value ∧ T'.eol = T.eol ∧
      T'.eolNormalized = (T.eolNormalized && eolNormalized) ∧ T'.lastVisitedLine = (0, []) ∧
      (CacheLines (docText T.buffers L) T.searchCache → CacheLines (docText T'.buffers L') T'.searchCache) := by
  generalize hT0 : { T with eolNormalized := T.eolNormalized && eolNormalized, lastVisitedLine := (0, []) } = T₀
  have hcheck : T₀.shouldCheckCRLF = false → T.shouldCheckCRLF = false ∧ eolNormalized = true ∧ T.eol = .lf := by
    rw [shouldCheckCRLF_eq_false, shouldCheckCRLF_eq_false, ← hT0, Bool.and_eq_true]
    rintro ⟨⟨h1, h2⟩, h3⟩
    exact ⟨⟨h1, h3⟩, h2, h3⟩
  have hgood : Good T₀ L := by
    have hbuffers := h.buffers
    refine ⟨⟨?_, ?_, ?_, ?_, ?_, fun hfalse => ?_⟩, h.positive, ?_⟩
    · rw [← hT0]; exact h.holds
    · rw [← hT0]; exact h.fresh
    · rw [← hT0]; exact ⟨hbuffers.nonempty, hbuffers.ok, hbuffers.last⟩
    · rw [← hT0]; exact h.valid
    · rw [← hT0]; exact h.tail
    · rw [← hT0]; exact h.noCr (hcheck hfalse).1
    · rw [← hT0]; exact h.joined
  have hcr : T₀.shouldCheckCRLF = false → carriageReturn ∉ value := by
    intro hfalse
    obtain ⟨-, hnormalized, heol⟩ := hcheck hfalse
    exact UsesOnly.noCr (heol ▸ huses hnormalized)
  have hdoc : docText T₀.buffers L = docText T.buffers L := by rw [← hT0]
  have heol : T₀.eol = T.eol := by rw [← hT0]
  have hnormalized : T₀.eolNormalized = (T.eolNormalized && eolNormalized) := by rw [← hT0]
  have hcache : CacheOk L T₀.searchCache := by
    rw [← hT0]
    exact h.cache
  -- every place ends with `computeBufferMetadata`
  have hfinish : ∀ {A B : JsString} {c : Option CacheEntry} {T₁ : PieceTreeBase} {L' : Nodes},
      Inserted { T₀ with searchCache := c } A value B T₁ L' →
      CacheWeak L' T₁.searchCache → CacheKept T.searchCache c offset → docText T.buffers L = A ++ B → offset = A.length →
      ∃ T' L', some T₁.computeBufferMetadata = some T' ∧ Inv T' L' ∧
        docText T'.buffers L' = splice (docText T.buffers L) offset 0 value ∧ T'.eol = T.eol ∧
        T'.eolNormalized = (T.eolNormalized && eolNormalized) ∧ T'.lastVisitedLine = (0, []) ∧
        (CacheLines (docText T.buffers L) T.searchCache → CacheLines (docText T'.buffers L') T'.searchCache) := by
    intro A B c T₁ L' hins hweak hkept htext hlen
    obtain ⟨hinv, htext', heol', hnormalized'⟩ := hins.finish hweak
    rw [← show T₁.searchCache = c from hins.frame.searchCache] at hkept
    obtain ⟨hkept', hlast⟩ := computeBufferMetadata_kept T₁ offset hkept
    refine ⟨_, L', rfl, hinv, ?_, heol'.trans heol, hnormalized'.trans hnormalized, ?_, fun hcacheLines => ?_⟩
    · rw [htext', htext, splice_append value hlen]
    · rw [hlast, hins.frame.lastVisitedLine, ← hT0]
    · rw [htext] at hcacheLines
      rw [htext', append_assoc]
      exact hcacheLines.kept (hlen ▸ hkept')
  unfold PieceTreeBase.insert
  rw [hT0]
  dsimp only
  by_cases hroot : T₀.root = .nil
  · rw [if_neg (not_not.mpr hroot)]
    obtain rfl := (root_eq_nil_iff hgood.toCore).mp hroot
    obtain ⟨L', hins⟩ := insertEmpty_spec hgood hne hcr
    refine hfinish (c := T₀.searchCache) hins ?_ ?_ rfl (Nat.le_zero.mp hoffset)
    · rw [hins.frame.searchCache]
      intro entry hentry
      cases hcache entry hentry
    · intro entry n hentry
      cases hcache entry hentry
  · rw [if_pos hroot]
    have hLne : L ≠ [] := mt (root_eq_nil_iff hgood.toCore).mpr hroot
    rw [← hdoc, docText_length hgood.valid] at hoffset
    obtain ⟨l₁, i, p, l₂, entry, rfl, hle, hge, hentry, hstart, hnodeAt⟩ := hgood.nodeAt hcache hLne hoffset
    have hkept : CacheKept T.searchCache (some entry) offset := by
      have := nodeAt_kept hnodeAt
      rwa [← hT0] at this
    rw [hnodeAt]
    dsimp only
    have hgood1 : Good { T₀ with searchCache := some entry } (l₁ ++ (i, p) :: l₂) :=
      ⟨hgood.toCore.withCache (some entry) T₀.lastVisitedLine T₀.lineCnt T₀.length, hgood.positive, hgood.joined⟩
    have hlenA : (docText T₀.buffers l₁).length = totalLength l₁ := docText_length (forall_mem_middle.mp hgood.valid).1
    have hlenp : (content T₀.buffers p).length = p.length := hgood.toCore.pieceOk.length
    have hstartOf : startOf (l₁ ++ (i, p) :: l₂) entry.node = some entry.nodeStartOffset := by
      rw [hentry, hstart]
      exact hgood.toCore.startOf
    rw [← hdoc] at hfinish ⊢
    rw [hgood1.toCore.pieceOf]
    split
    · next htail =>
      obtain ⟨hindex, hstop, hend, -⟩ := htail
      obtain ⟨L', hins, hstays⟩ := appendToNode_spec hgood1 (by
        rw [isTail, Bool.and_eq_true, decide_eq_true_eq, decide_eq_true_eq]
        exact ⟨hindex, hstop⟩) hne hcr
      refine hfinish hins ?_ hkept (by simp) ?_
      · rw [hins.frame.searchCache]
        exact cacheWeak_of_stays hstartOf (hentry ▸ hstays)
      · simp only [docText_append, docText_cons, docText_nil, append_nil, length_append]
        omega
    · split
      · next hleft =>
        obtain ⟨L', hins⟩ := insertContentToNodeLeft_spec hgood1 hne hcr
        have hcache' := hins.frame.searchCache
        -- the entry is about the node behind the insertion, so the validation drops it
        obtain ⟨c, hvalidate, hc⟩ := validate_cache offset
          ({ T₀ with searchCache := some entry }.insertContentToNodeLeft value i)
        rw [hvalidate]
        refine hfinish (c := c) ⟨⟨hins.good.toCore.withCache c _ _ _, hins.good.positive, hins.good.joined⟩, hins.text,
          ⟨hins.frame.eol, hins.frame.eolNormalized, rfl, hins.frame.lastVisitedLine, hins.frame.nextId⟩⟩ ?_ ?_ (by simp) ?_
        · intro entry' hentry'
          obtain ⟨hold, -, hlt⟩ := hc entry' hentry'
          rw [hcache'] at hold
          obtain rfl := Option.some.inj hold
          omega
        · intro entry' n hentry'
          obtain ⟨hold, -, -⟩ := hc entry' hentry'
          rw [hcache'] at hold
          exact hkept entry' n hold
        · show offset = (docText T₀.buffers l₁).length
          omega
      · next hleft =>
        split
        · next hmiddle =>
          obtain ⟨L', front, back, hsplit, hfront, hins, hstays⟩ := insertContentIntoNode_spec hgood1
            (show 0 < offset - totalLength l₁ by omega) (by omega) hne hcr
          refine hfinish hins ?_ hkept ?_ ?_
          · rw [hins.frame.searchCache]
            exact cacheWeak_of_stays hstartOf (hentry ▸ hstays)
          · have hsplit : content T₀.buffers p = front ++ back := hsplit
            rw [docText_append, docText_cons, hsplit]
            simp
          · rw [length_append]
            show offset = (docText T₀.buffers l₁).length + front.length
            omega
        · next hmiddle =>
          obtain ⟨L', hins, hstays⟩ := insertContentToNodeRight_spec hgood1 hne hcr
          refine hfinish hins ?_ hkept (by simp) ?_
          · rw [hins.frame.searchCache]
            exact cacheWeak_of_stays hstartOf (hentry ▸ hstays)
          · simp only [docText_append, docText_cons, docText_nil, append_nil, length_append]
            omega

end Insert

end TongjiCode.PieceTree
