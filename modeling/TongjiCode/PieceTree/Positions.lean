import TongjiCode.PieceTree.LineStarts
import TongjiCode.PieceTree.Runs

/-!
# Piece tree: offsets and positions

The tree is descended by line numbers (`getOffsetAt`, `nodeAt2`) or by offsets (`getPositionAt`).  Each loop
is compared with the text of the subtree it has reached (`textOf`).
-/

open List

namespace TongjiCode.PieceTree

open JsString

/-! ## Subtrees -/

def textOf (bs : List StringBuffer) (t : Tree TreeNode) : JsString := docText bs (items t)

structure Readable (bs : List StringBuffer) (t : Tree TreeNode) : Prop where
  good : pieceAugment.Good t
  nodup : ((items t).map Prod.fst).Nodup
  valid : ∀ i ∈ items t, PieceOk bs i.2
  positive : Positive (items t)
  joined : Joined none (texts bs (items t))

variable {T : PieceTreeBase} {L : Nodes}

theorem Inv.readable (h : Inv T L) : Readable T.buffers T.root := by
  have hitems := h.holds.items
  refine ⟨h.holds.ok.good, ?_, ?_, ?_, ?_⟩ <;> rw [hitems]
  · exact h.holds.nodup
  · exact h.valid
  · exact h.positive
  · exact h.joined

theorem Inv.textOf (h : Inv T L) : textOf T.buffers T.root = docText T.buffers L := by
  rw [PieceTree.textOf, h.holds.items]

theorem Inv.length_eq (h : Inv T L) : T.root.toList.length = L.length := by
  rw [← h.holds.items, items, length_map]

variable {k : Nat}

section Node

variable {bs : List StringBuffer} {c : Color} {l r : Tree TreeNode} {v : TreeNode}

theorem textOf_node (bs : List StringBuffer) (c : Color) (l : Tree TreeNode) (v : TreeNode) (r : Tree TreeNode) :
    textOf bs (.node c l v r) = textOf bs l ++ (content bs v.piece ++ textOf bs r) := by
  rw [textOf, items_node, docText_append, docText_cons]
  rfl

/-- What a node knows of its subtrees. -/
structure NodeFacts (bs : List StringBuffer) (l : Tree TreeNode) (v : TreeNode) (r : Tree TreeNode) : Prop where
  left : Readable bs l
  right : Readable bs r
  piece : PieceOk bs v.piece
  pos : 0 < v.piece.length
  length : (content bs v.piece).length = v.piece.length
  lineFeedCnt : v.piece.lineFeedCnt = eolCount (content bs v.piece)
  sizeLeft : v.sizeLeft = (textOf bs l).length
  lfLeft : v.lfLeft = eolCount (textOf bs l)
  joinedLeft : ¬ Junction (textOf bs l) (content bs v.piece ++ textOf bs r)
  joinedRight : ¬ Junction (content bs v.piece) (textOf bs r)

theorem Readable.facts (h : Readable bs (.node c l v r)) : NodeFacts bs l v r := by
  obtain ⟨hgl, hgr, hnl, hnr, hsize⟩ := node_parts h.good h.nodup
  have hv := (good_node.mp h.good).1
  have hvalid := h.valid
  have hpositive := h.positive
  have hjoined := h.joined
  rw [items_node] at hvalid hpositive hjoined
  obtain ⟨hvl, hvp, hvr⟩ := forall_mem_middle.mp hvalid
  obtain ⟨hpl, hpp, hpr⟩ := forall_mem_middle.mp hpositive
  obtain ⟨hjl, hjr, hleft⟩ := joined_texts_append.mp hjoined
  obtain ⟨hright, hjr⟩ := joined_texts_cons.mp hjr
  refine ⟨⟨hgl, hnl, hvl, hpl, hjl⟩, ⟨hgr, hnr, hvr, hpr, hjr⟩, hvp, hpp, hvp.length, hvp.lineFeedCnt hpp, ?_, ?_, ?_, hright⟩
  · rw [hsize, textOf, docText_length hvl]
  · rw [textOf, ← total_snd hvl hpl hjl, ← hv]
    rfl
  · rw [docText_cons] at hleft
    exact hleft

section

variable (h : NodeFacts bs l v r)
include h

theorem NodeFacts.lineStartAt_left (hk : k ≤ eolCount (textOf bs l)) :
    lineStartAt (textOf bs (.node c l v r)) k = lineStartAt (textOf bs l) k := by
  rw [textOf_node, lineStartAt_append_left h.joinedLeft hk]

theorem NodeFacts.lineStartAt_here (hpos : 0 < k) (hk : k ≤ eolCount (content bs v.piece)) :
    lineStartAt (textOf bs (.node c l v r)) (eolCount (textOf bs l) + k) =
      (textOf bs l).length + lineStartAt (content bs v.piece) k := by
  rw [textOf_node, lineStartAt_append_right h.joinedLeft (by omega), Nat.add_sub_cancel_left,
    lineStartAt_append_left h.joinedRight hk]

theorem NodeFacts.lineStartAt_right (hpos : 0 < k) :
    lineStartAt (textOf bs (.node c l v r)) (eolCount (textOf bs l) + eolCount (content bs v.piece) + k) =
      (textOf bs l).length + v.piece.length + lineStartAt (textOf bs r) k := by
  rw [textOf_node, lineStartAt_append_right h.joinedLeft (by omega), lineStartAt_append_right h.joinedRight (by omega),
    h.length, Nat.add_assoc (eolCount _), Nat.add_sub_cancel_left, Nat.add_sub_cancel_left]
  omega

theorem NodeFacts.lineStartAt_line (hleft : l = .nil ∨ eolCount (textOf bs l) < k)
    (hk : k ≤ eolCount (textOf bs l) + eolCount (content bs v.piece)) : lineStartAt (textOf bs (.node c l v r)) k =
      (textOf bs l).length + lineStartAt (content bs v.piece) ((k : Int) + 1 - v.lfLeft - 2 + 1).toNat := by
  have hlf := h.lfLeft
  rcases Nat.eq_zero_or_pos (k - eolCount (textOf bs l)) with hzero | hpos
  · obtain rfl : l = .nil := hleft.resolve_right (by omega)
    rw [show eolCount (textOf bs .nil) = 0 from rfl] at hzero hlf
    obtain rfl : k = 0 := by omega
    rw [show ((0 : Nat) + 1 - v.lfLeft - 2 + 1 : Int).toNat = 0 by omega]
    rfl
  · have := h.lineStartAt_here (c := c) hpos (by omega)
    rw [Nat.add_sub_cancel' (by omega)] at this
    rw [this, show ((k : Int) + 1 - v.lfLeft - 2 + 1).toNat = k - eolCount (textOf bs l) by omega]

theorem NodeFacts.eolCount : eolCount (textOf bs (.node c l v r)) =
    JsString.eolCount (textOf bs l) + JsString.eolCount (content bs v.piece) + JsString.eolCount (textOf bs r) := by
  rw [textOf_node, eolCount_append h.joinedLeft, eolCount_append h.joinedRight, Nat.add_assoc]

theorem NodeFacts.eolCount_upTo {l1 l2 : Nodes} (hsplit : items r = l1 ++ l2) :
    JsString.eolCount (docText bs (items l ++ v.item :: l1)) =
      JsString.eolCount (textOf bs l) + JsString.eolCount (content bs v.piece) + JsString.eolCount (docText bs l1) := by
  have hleft := h.joinedLeft
  have hright := h.joinedRight
  rw [textOf, textOf, hsplit, docText_append, ← append_assoc] at hleft
  rw [textOf, hsplit, docText_append] at hright
  rw [docText_append, docText_cons]
  show JsString.eolCount (docText bs (items l) ++ (content bs v.piece ++ docText bs l1)) = _
  rw [eolCount_append (not_junction_left hleft), eolCount_append (not_junction_left hright), Nat.add_assoc]
  rfl

end

end Node

theorem textOf_nil (bs : List StringBuffer) : textOf bs .nil = [] := rfl

/-! ## Offsets of lines -/

theorem getOffsetAtLoop_eq {bs : List StringBuffer} (t : Tree TreeNode) (column : Int) : ∀ (k : Nat) (leftLen : Int),
    Readable bs t → t ≠ .nil → k ≤ eolCount (textOf bs t) →
      getOffsetAtLoop bs t (k + 1) column leftLen = leftLen + lineStartAt (textOf bs t) k + column - 1 := by
  induction t with
  | nil => intro k leftLen _ hne; exact (hne rfl).elim
  | node c l v r ihl ihr =>
    intro k leftLen h _ hk
    have hf := h.facts
    have hleft := hf.lfLeft
    have hsize := hf.sizeLeft
    have hcnt := hf.lineFeedCnt
    have htotal := hf.eolCount (c := c)
    rw [getOffsetAtLoop]
    by_cases hgoLeft : l ≠ .nil ∧ v.lfLeft + 1 ≥ (k : Int) + 1
    · have hkl : k ≤ eolCount (textOf bs l) := by omega
      rw [if_pos hgoLeft, ihl k leftLen hf.left hgoLeft.1 hkl, hf.lineStartAt_left hkl]
    · rw [if_neg hgoLeft]
      by_cases hhere : v.lfLeft + v.piece.lineFeedCnt + 1 ≥ (k : Int) + 1
      · rw [if_pos hhere, hf.piece.getAccumulatedValue, hsize]
        rw [not_and_or, not_not] at hgoLeft
        have hleftmost : l = .nil ∨ eolCount (textOf bs l) < k := hgoLeft.imp_right fun hlt => by omega
        rw [hf.lineStartAt_line (c := c) hleftmost (by omega)]
        omega
      · rw [if_neg hhere]
        have hr : r ≠ .nil := by
          rintro rfl
          rw [textOf_nil, show eolCount ([] : JsString) = 0 from rfl] at htotal
          omega
        obtain ⟨j, hj⟩ : ∃ j, k = eolCount (textOf bs l) + eolCount (content bs v.piece) + j :=
          ⟨k - (eolCount (textOf bs l) + eolCount (content bs v.piece)), by omega⟩
        have hline : (k : Int) + 1 - (v.lfLeft + v.piece.lineFeedCnt) = (j : Int) + 1 := by omega
        rw [hline, ihr j _ hf.right hr (by omega), hj, hf.lineStartAt_right (by omega), hsize]
        omega

theorem Inv.getOffsetAt (h : Inv T L) (hk : k ≤ eolCount (docText T.buffers L)) {column : Nat}
    (hcolumn : T.root = .nil → column = 1) :
    T.getOffsetAt (k + 1) column = lineStartAt (docText T.buffers L) k + column - 1 := by
  rw [PieceTreeBase.getOffsetAt]
  rw [← h.textOf] at hk ⊢
  by_cases hroot : T.root = .nil
  · rw [hroot] at hk ⊢
    rw [textOf_nil, show eolCount ([] : JsString) = 0 from rfl] at hk
    obtain rfl : k = 0 := by omega
    rw [hcolumn hroot]
    rfl
  · have := getOffsetAtLoop_eq T.root column k 0 h.readable hroot hk
    rw [Int.zero_add] at this
    exact this

/-! ## Positions of offsets -/

/-- The rest of a text from the start of a subtree on. -/
structure Behind (bs : List StringBuffer) (text : JsString) (start : Nat) (t : Tree TreeNode) (after : JsString) : Prop where
  le : start ≤ text.length
  drop : text.drop start = textOf bs t ++ after
  joined : ¬ Junction (textOf bs t) after

section Behind

variable {bs : List StringBuffer} {text after : JsString} {start : Nat} {c : Color} {l r : Tree TreeNode} {v : TreeNode}

section

variable (h : Behind bs text start (.node c l v r) after)
include h

theorem Behind.left (hf : NodeFacts bs l v r) :
    Behind bs text start l (content bs v.piece ++ (textOf bs r ++ after)) := by
  have hdrop := h.drop
  rw [textOf_node, append_assoc, append_assoc] at hdrop
  refine ⟨h.le, hdrop, ?_⟩
  have hne : content bs v.piece ≠ [] := by
    intro hnil
    have hlen := hf.length
    have hpos := hf.pos
    rw [hnil] at hlen
    simp only [length_nil] at hlen
    omega
  rw [junction_append_right hne, ← junction_append_right hne]
  exact hf.joinedLeft

theorem Behind.drop_piece :
    start + (textOf bs l).length ≤ text.length ∧
      text.drop (start + (textOf bs l).length) = content bs v.piece ++ (textOf bs r ++ after) := by
  have hdrop := h.drop
  have hle := h.le
  rw [textOf_node, append_assoc, append_assoc] at hdrop
  have hlen := congrArg List.length hdrop
  rw [length_drop, length_append] at hlen
  rw [← drop_drop, hdrop, drop_left]
  exact ⟨by omega, rfl⟩

theorem Behind.joined_piece (hf : NodeFacts bs l v r) :
    ¬ Junction (content bs v.piece) (textOf bs r ++ after) := by
  have hjoined := h.joined
  rw [textOf_node] at hjoined
  by_cases hr : textOf bs r = []
  · rw [hr, append_nil] at hjoined
    rw [hr, nil_append]
    exact not_junction_right hjoined
  · rw [junction_append_right hr]
    exact hf.joinedRight

theorem Behind.right (hf : NodeFacts bs l v r) :
    Behind bs text (start + (textOf bs l).length + v.piece.length) r after := by
  obtain ⟨hle, hdrop⟩ := h.drop_piece
  have hlen := congrArg List.length hdrop
  rw [length_drop, length_append, hf.length] at hlen
  refine ⟨by omega, ?_, ?_⟩
  · rw [← drop_drop, hdrop, ← hf.length, drop_left]
  · have hjoined := h.joined
    rw [textOf_node, ← append_assoc] at hjoined
    exact not_junction_right hjoined

end

theorem Behind.cursor {t : Tree TreeNode} (h : Behind bs text start t after) {o : Nat} (ho : o ≤ (textOf bs t).length) :
    (cursorAt text (start + o)).line = (cursorAt text start).line + (cursorAt (textOf bs t) o).line ∧
      ((cursorAt (textOf bs t) o).line ≠ 0 → (cursorAt text (start + o)).column = (cursorAt (textOf bs t) o).column) := by
  have happend : cursorAt (text.drop start) o = cursorAt (textOf bs t) o := by
    rw [h.drop]
    exact cursorAt_append ho fun _ => h.joined
  rw [← happend]
  exact ⟨cursorAt_add_line h.le, cursorAt_add_column h.le⟩

end Behind

theorem getPositionAtLoop_eq {bs : List StringBuffer} {text : JsString} {root : Tree TreeNode}
    (hroot : ∀ k, k ≤ eolCount text → getOffsetAtLoop bs root (k + 1) 1 0 = lineStartAt text k) (t : Tree TreeNode) :
    ∀ (start o : Nat) (after : JsString), Readable bs t → t ≠ .nil → Behind bs text start t after →
      o ≤ (textOf bs t).length → getPositionAtLoop root bs (start + o) t o (cursorAt text start).line =
        some (((cursorAt text (start + o)).line : Int) + 1, ((cursorAt text (start + o)).column : Int) + 1) := by
  induction t with
  | nil => intro start o after _ hne; exact (hne rfl).elim
  | node c l v r ihl ihr =>
    intro start o after h _ hbehind ho
    have hf := h.facts
    have hleft := hf.lfLeft
    have hsize := hf.sizeLeft
    have hcnt := hf.lineFeedCnt
    have hlen := hf.length
    rw [textOf_node, length_append, length_append] at ho
    rw [getPositionAtLoop]
    by_cases hgoLeft : v.sizeLeft ≠ 0 ∧ v.sizeLeft ≥ o
    · have hl : l ≠ .nil := by
        rintro rfl
        rw [textOf_nil, length_nil] at hsize
        exact hgoLeft.1 (by omega)
      rw [if_pos hgoLeft]
      exact ihl start o _ hf.left hl (hbehind.left hf) (by omega)
    · rw [if_neg hgoLeft]
      -- the line of the piece
      have hpiece : (cursorAt text (start + (textOf bs l).length)).line =
          (cursorAt text start).line + eolCount (textOf bs l) := by
        rw [((hbehind.left hf).cursor (Nat.le_refl _)).1, cursorAt_end_line]
      obtain ⟨hle, hdrop⟩ := hbehind.drop_piece
      have hjoined := hbehind.joined_piece hf
      by_cases hhere : v.sizeLeft + v.piece.length ≥ o
      · rw [if_pos hhere]
        obtain ⟨i, hi⟩ : ∃ i, o = (textOf bs l).length + i := ⟨o - (textOf bs l).length, by omega⟩
        have hin : ((o : Int) - v.sizeLeft).toNat = i := by omega
        obtain ⟨hindex, hremainder⟩ := hf.piece.getIndexOf (show i ≤ v.piece.length by omega) hf.pos
        have happend : cursorAt (text.drop (start + (textOf bs l).length)) i = cursorAt (content bs v.piece) i := by
          rw [hdrop]
          exact cursorAt_append (by omega) fun _ => hjoined
        have hline : (cursorAt text (start + o)).line =
            (cursorAt text start).line + (eolCount (textOf bs l) + (getIndexOf bs v.piece i).1) := by
          rw [hi, ← Nat.add_assoc, cursorAt_add_line hle, happend, hpiece, hindex, Nat.add_assoc]
        have hlineInt : ((cursorAt text start).line : Int) + (v.lfLeft + (getIndexOf bs v.piece i).1) =
            (cursorAt text (start + o)).line := by
          omega
        dsimp only
        rw [hin, hlineInt]
        by_cases hzero : (getIndexOf bs v.piece i).1 = 0
        · have hoffset := lineStartAt_cursorAt text (start + o)
          rw [if_pos hzero, hroot _ (cursorAt_line_le _ _)]
          congr 2
          omega
        · have hcolumn : (cursorAt text (start + o)).column = (getIndexOf bs v.piece i).2 := by
            rw [hi, ← Nat.add_assoc, hremainder hzero, ← happend]
            refine cursorAt_add_column hle ?_
            rwa [happend, ← hindex]
          rw [if_neg hzero, hcolumn]
      · rw [if_neg hhere]
        have hr : r ≠ .nil := by
          rintro rfl
          rw [textOf_nil, length_nil] at ho
          omega
        have hline : (cursorAt text (start + (textOf bs l).length + v.piece.length)).line =
            (cursorAt text start).line + (eolCount (textOf bs l) + eolCount (content bs v.piece)) := by
          rw [cursorAt_add_line hle, hdrop, cursorAt_append (by omega) fun _ => hjoined, hpiece, ← hlen,
            cursorAt_end_line, Nat.add_assoc]
        obtain ⟨i, hi⟩ : ∃ i, o = (textOf bs l).length + v.piece.length + i :=
          ⟨o - ((textOf bs l).length + v.piece.length), by omega⟩
        have := ihr _ i after hf.right hr (hbehind.right hf) (by omega)
        rw [if_neg hr, show (o : Int) - (v.sizeLeft + v.piece.length) = i by omega,
          show ((cursorAt text start).line : Int) + (v.lfLeft + v.piece.lineFeedCnt) =
            (cursorAt text (start + (textOf bs l).length + v.piece.length)).line by rw [hline]; omega,
          show start + o = start + (textOf bs l).length + v.piece.length + i by omega]
        exact this

theorem Inv.getPositionAt (h : Inv T L) {o : Nat} (ho : o ≤ (docText T.buffers L).length) : T.getPositionAt o =
      (((cursorAt (docText T.buffers L) o).line : Int) + 1, ((cursorAt (docText T.buffers L) o).column : Int) + 1) := by
  rw [PieceTreeBase.getPositionAt]
  have htext := h.textOf
  by_cases hroot : T.root = .nil
  · rw [hroot, textOf_nil] at htext
    rw [← htext, length_nil] at ho
    obtain rfl : o = 0 := by omega
    rw [hroot, ← htext]
    rfl
  · have hlines : ∀ k, k ≤ eolCount (docText T.buffers L) →
        getOffsetAtLoop T.buffers T.root (k + 1) 1 0 = lineStartAt (docText T.buffers L) k := by
      intro k hk
      rw [← htext] at hk ⊢
      rw [getOffsetAtLoop_eq T.root 1 k 0 h.readable hroot hk]
      omega
    have hbehind : Behind T.buffers (docText T.buffers L) 0 T.root [] := by
      refine ⟨Nat.zero_le _, ?_, not_junction_nil_right _⟩
      rw [drop_zero, append_nil, htext]
    have := getPositionAtLoop_eq hlines T.root 0 o [] h.readable hroot hbehind (by rw [htext]; exact ho)
    rw [Nat.zero_add] at this
    exact congrArg (fun pos => pos.getD (1, 1)) this

end TongjiCode.PieceTree
