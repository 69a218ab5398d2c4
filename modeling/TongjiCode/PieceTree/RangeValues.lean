import TongjiCode.PieceTree.Positions

/-!
# Piece tree: values of ranges

A range is read between two places, each a node with an offset in it.  `nodeAt2` looks for the node of a line
and, where the column is behind that node, walks on to later ones; `getValueInRange2` collects the pieces
between the places.
-/

open List

namespace TongjiCode.PieceTree

open JsString

/-- The place of an offset: a node and the rest of the offset in it. -/
def PlaceAt (L : Nodes) (node remainder o : Nat) : Prop :=
  ∃ l₁ p l₂, L = l₁ ++ (node, p) :: l₂ ∧ totalLength l₁ + remainder = o ∧ remainder ≤ p.length

/-- The end of the node in which a line begins, with the length that is left to go. -/
def EndBefore (L : Nodes) (k node : Nat) (rest : Int) (o : Nat) (bs : List StringBuffer) : Prop :=
  ∃ l₁ p l₂, L = l₁ ++ (node, p) :: l₂ ∧ ((totalLength l₁ + p.length : Nat) : Int) + rest = o ∧ 0 < rest ∧
    eolCount (docText bs l₁) + eolCount (content bs p) = k

section Parts

variable {bs : List StringBuffer} {c : Color} {l r : Tree TreeNode} {v : TreeNode} {node remainder o k : Nat}

theorem PlaceAt.left (h : PlaceAt (items l) node remainder o) : PlaceAt (items (.node c l v r)) node remainder o := by
  obtain ⟨l₁, p, l₂, heq, hsum, hle⟩ := h
  refine ⟨l₁, p, l₂ ++ (v.item :: items r), ?_, hsum, hle⟩
  rw [items_node, heq, append_assoc, cons_append]

theorem PlaceAt.here (hle : remainder ≤ v.piece.length) :
    PlaceAt (items (.node c l v r)) v.id remainder (totalLength (items l) + remainder) :=
  ⟨items l, v.piece, items r, items_node .., rfl, hle⟩

theorem PlaceAt.right (h : PlaceAt (items r) node remainder o) :
    PlaceAt (items (.node c l v r)) node remainder (totalLength (items l) + v.piece.length + o) := by
  obtain ⟨l₁, p, l₂, heq, hsum, hle⟩ := h
  refine ⟨items l ++ v.item :: l₁, p, l₂, ?_, ?_, hle⟩
  · rw [items_node, heq, append_assoc, cons_append]
  · rw [totalLength_append, totalLength_cons]
    show totalLength (items l) + (v.piece.length + totalLength l₁) + remainder = _
    omega

theorem EndBefore.left {rest : Int} (h : EndBefore (items l) k node rest o bs) :
    EndBefore (items (.node c l v r)) k node rest o bs := by
  obtain ⟨l₁, p, l₂, heq, hsum⟩ := h
  refine ⟨l₁, p, l₂ ++ (v.item :: items r), ?_, hsum⟩
  rw [items_node, heq, append_assoc, cons_append]

theorem EndBefore.right {rest : Int} (hf : NodeFacts bs l v r) (h : EndBefore (items r) k node rest o bs) :
    EndBefore (items (.node c l v r)) (eolCount (textOf bs l) + eolCount (content bs v.piece) + k) node rest
      (totalLength (items l) + v.piece.length + o) bs := by
  obtain ⟨l₁, p, l₂, heq, hsum, hpos, hcnt⟩ := h
  refine ⟨items l ++ v.item :: l₁, p, l₂, ?_, ?_, hpos, ?_⟩
  · rw [items_node, heq, append_assoc, cons_append]
  · rw [totalLength_append, totalLength_cons]
    show ((totalLength (items l) + (v.piece.length + totalLength l₁) + p.length : Nat) : Int) + rest = _
    omega
  · rw [hf.eolCount_upTo heq]
    omega

end Parts

/-- The first loop of `nodeAt2`: the column may be behind the node in which the line begins, but not behind the line. -/
theorem nodeAt2Loop_eq {bs : List StringBuffer} (t : Tree TreeNode) (column : Nat) : ∀ (k : Nat) (base : Int),
    Readable bs t → t ≠ .nil → k ≤ eolCount (textOf bs t) →
      (k < eolCount (textOf bs t) → lineStartAt (textOf bs t) k + column ≤ lineStartAt (textOf bs t) (k + 1)) →
      (∃ pos, nodeAt2Loop bs (column + 1) t (k + 1) base = .found pos ∧
        PlaceAt (items t) pos.node pos.remainder (lineStartAt (textOf bs t) k + column)) ∨
      (∃ node rest, nodeAt2Loop bs (column + 1) t (k + 1) base = .behind node (rest + 1) ∧
        EndBefore (items t) k node rest (lineStartAt (textOf bs t) k + column) bs) := by
  induction t with
  | nil => intro k base _ hne; exact (hne rfl).elim
  | node c l v r ihl ihr =>
    intro k base h _ hk hin
    have hf := h.facts
    have hleft := hf.lfLeft
    have hcnt := hf.lineFeedCnt
    have hlen := hf.length
    have htotal := hf.eolCount (c := c)
    have hlenl : (textOf bs l).length = totalLength (items l) := docText_length hf.left.valid
    rw [nodeAt2Loop]
    by_cases hgoLeft : l ≠ .nil ∧ v.lfLeft ≥ (k : Int) + 1 - 1
    · have hkl : k ≤ eolCount (textOf bs l) := by omega
      have hstart := hf.lineStartAt_left (c := c) hkl
      rw [if_pos hgoLeft, hstart]
      have hinl : k < eolCount (textOf bs l) →
          lineStartAt (textOf bs l) k + column ≤ lineStartAt (textOf bs l) (k + 1) := by
        intro hlt
        have := hin (by omega)
        rwa [hstart, hf.lineStartAt_left (by omega)] at this
      rcases ihl k base hf.left hgoLeft.1 hkl hinl with ⟨pos, heq, hplace⟩ | ⟨node, rest, heq, hend⟩
      · exact .inl ⟨pos, heq, hplace.left⟩
      · exact .inr ⟨node, rest, heq, hend.left⟩
    · rw [if_neg hgoLeft]
      rw [not_and_or, not_not] at hgoLeft
      have hleftmost : l = .nil ∨ eolCount (textOf bs l) < k := hgoLeft.imp_right fun hlt => by omega
      dsimp only
      rw [hf.piece.getAccumulatedValue, hf.piece.getAccumulatedValue]
      by_cases hwhole : v.lfLeft + v.piece.lineFeedCnt > (k : Int) + 1 - 1
      · rw [if_pos hwhole, hf.lineStartAt_line hleftmost (by omega)]
        have hkl : eolCount (textOf bs l) ≤ k := by
          rcases hleftmost with rfl | hlt
          · exact Nat.zero_le k
          · omega
        have hnext := hf.lineStartAt_here (c := c) (show 0 < k + 1 - eolCount (textOf bs l) by omega) (by omega)
        rw [Nat.add_sub_cancel' (by omega)] at hnext
        have hline := hin (by omega)
        have hbound := lineStartAt_le_length (content bs v.piece) (k + 1 - eolCount (textOf bs l))
        rw [hf.lineStartAt_line hleftmost (by omega), hnext] at hline
        rw [show ((k : Int) + 1 - v.lfLeft - 1 + 1).toNat = k + 1 - eolCount (textOf bs l) by omega]
        refine .inl ⟨_, rfl, ?_⟩
        dsimp only
        rw [hlenl, Nat.add_assoc, show (min ((lineStartAt (content bs v.piece) ((k : Int) + 1 - v.lfLeft - 2 + 1).toNat : Int) +
          (column + 1) - 1) (lineStartAt (content bs v.piece) (k + 1 - eolCount (textOf bs l)))).toNat =
            lineStartAt (content bs v.piece) ((k : Int) + 1 - v.lfLeft - 2 + 1).toNat + column by omega]
        exact .here (by omega)
      · rw [if_neg hwhole]
        by_cases hpart : v.lfLeft + v.piece.lineFeedCnt = (k : Int) + 1 - 1
        · rw [if_pos hpart, hf.lineStartAt_line hleftmost (by omega)]
          split
          · next hfits =>
            refine .inl ⟨_, rfl, ?_⟩
            dsimp only
            rw [hlenl, Nat.add_assoc, show ((lineStartAt (content bs v.piece) ((k : Int) + 1 - v.lfLeft - 2 + 1).toNat : Int) +
              (column + 1) - 1).toNat =
                lineStartAt (content bs v.piece) ((k : Int) + 1 - v.lfLeft - 2 + 1).toNat + column by omega]
            exact .here (by omega)
          · next hfits =>
            refine .inr ⟨v.id, column - (v.piece.length -
              lineStartAt (content bs v.piece) ((k : Int) + 1 - v.lfLeft - 2 + 1).toNat), ?_, ?_⟩
            · congr 1
              omega
            · refine ⟨items l, v.piece, items r, items_node .., ?_, ?_, ?_⟩
              · omega
              · omega
              · show eolCount (textOf bs l) + _ = k
                omega
        · rw [if_neg hpart]
          have hr : r ≠ .nil := by
            rintro rfl
            rw [textOf_nil, show eolCount ([] : JsString) = 0 from rfl] at htotal
            omega
          obtain ⟨j, hj⟩ : ∃ j, k = eolCount (textOf bs l) + eolCount (content bs v.piece) + j :=
            ⟨k - (eolCount (textOf bs l) + eolCount (content bs v.piece)), by omega⟩
          have hstart := hf.lineStartAt_right (c := c) (show 0 < j by omega)
          have hnext := hf.lineStartAt_right (c := c) (show 0 < j + 1 by omega)
          rw [← Nat.add_assoc] at hnext
          rw [← hj] at hstart hnext
          have hinr : j < eolCount (textOf bs r) →
              lineStartAt (textOf bs r) j + column ≤ lineStartAt (textOf bs r) (j + 1) := by
            intro hlt
            omega
          have hline : (k : Int) + 1 - (v.lfLeft + v.piece.lineFeedCnt) = (j : Int) + 1 := by omega
          rw [hline, hstart, hlenl, Nat.add_assoc (totalLength (items l) + v.piece.length)]
          rcases ihr j (base + (v.sizeLeft + v.piece.length)) hf.right hr (by omega) hinr with
            ⟨pos, heq, hplace⟩ | ⟨node, rest, heq, hend⟩
          · exact .inl ⟨pos, heq, hplace.right⟩
          · refine .inr ⟨node, rest, heq, ?_⟩
            rw [hj]
            exact hend.right hf

/-! ## Places of a tree -/

section Tree

variable {T : PieceTreeBase} {L l₁ l₂ : Nodes} {start stop : NodePosition} {a b k : Nat}

/-- The second loop of `nodeAt2`, over the nodes behind the one in which the line begins. -/
theorem Inv.nodeAt2Next (h : Inv T (l₁ ++ l₂)) (fuel : Nat) (hfuel : l₂.length ≤ fuel) (rest : Nat) (hpos : 0 < rest)
    (hle : rest ≤ lineStartAt (docText T.buffers l₂) 1) :
    ∃ pos, T.nodeAt2Next fuel (l₂.head?.map Prod.fst) (rest + 1 : Nat) = some pos ∧
      PlaceAt (l₁ ++ l₂) pos.node pos.remainder (totalLength l₁ + rest) := by
  induction l₂ generalizing l₁ fuel rest with
  | nil =>
    have hzero : lineStartAt (docText T.buffers []) 1 = 0 := rfl
    omega
  | cons i l₂ ih =>
    obtain ⟨id, p⟩ := i
    obtain ⟨fuel, rfl⟩ : ∃ n, fuel = n + 1 := ⟨fuel - 1, by simp only [length_cons] at hfuel; omega⟩
    have hvalid : PieceOk T.buffers p := h.valid (id, p) (by simp)
    have hppos : 0 < p.length := h.positive (id, p) (by simp)
    have hcnt := hvalid.lineFeedCnt hppos
    have hlen := hvalid.length
    have hjoined : ¬ Junction (content T.buffers p) (docText T.buffers l₂) :=
      (joined_texts_cons.mp (joined_texts_append.mp h.joined).2.1).1
    have hplace : ∀ remainder ≤ p.length, PlaceAt (l₁ ++ (id, p) :: l₂) id remainder (totalLength l₁ + remainder) :=
      fun remainder hr => ⟨l₁, p, l₂, rfl, rfl, hr⟩
    change rest ≤ lineStartAt (content T.buffers p ++ docText T.buffers l₂) 1 at hle
    simp only [head?_cons, Option.map_some, PieceTreeBase.nodeAt2Next, h.pieceOf]
    by_cases hlf : p.lineFeedCnt > 0
    · rw [if_pos hlf]
      have hbound := lineStartAt_le_length (content T.buffers p) 1
      have hline : lineStartAt (content T.buffers p ++ docText T.buffers l₂) 1 = lineStartAt (content T.buffers p) 1 :=
        lineStartAt_append_left hjoined (by omega)
      refine ⟨_, rfl, ?_⟩
      rw [hvalid.getAccumulatedValue, show ((0 : Int) + 1).toNat = 1 from rfl,
        show (min (((rest + 1 : Nat) : Int) - 1) (lineStartAt (content T.buffers p) 1)).toNat = rest by omega]
      exact hplace rest (by omega)
    · rw [if_neg hlf]
      have hline : lineStartAt (content T.buffers p ++ docText T.buffers l₂) 1 =
          p.length + lineStartAt (docText T.buffers l₂) 1 := by
        rw [lineStartAt_append_right hjoined (by omega), hlen, ← hcnt, show 1 - p.lineFeedCnt = 1 by omega]
      by_cases hfits : (p.length : Int) ≥ ((rest + 1 : Nat) : Int) - 1
      · rw [if_pos hfits]
        refine ⟨_, rfl, ?_⟩
        rw [show (((rest + 1 : Nat) : Int) - 1).toNat = rest by omega]
        exact hplace rest (by omega)
      · rw [if_neg hfits, h.holds.next, show ((rest + 1 : Nat) : Int) - p.length = ((rest - p.length + 1 : Nat) : Int) by omega]
        have hassoc : (l₁ ++ [(id, p)]) ++ l₂ = l₁ ++ (id, p) :: l₂ := by simp
        have hgrown : Inv T ((l₁ ++ [(id, p)]) ++ l₂) := by
          rw [hassoc]
          exact h
        obtain ⟨pos, heq, hat⟩ := ih hgrown fuel
          (by simp only [length_cons] at hfuel; omega) (rest - p.length) (by omega) (by omega)
        refine ⟨pos, heq, ?_⟩
        rw [hassoc] at hat
        have hsum : totalLength (l₁ ++ [(id, p)]) + (rest - p.length) = totalLength l₁ + rest := by
          rw [totalLength_append, totalLength_cons]
          show totalLength l₁ + (p.length + 0) + (rest - p.length) = _
          omega
        rwa [hsum] at hat

/-- `nodeAt2` finds the place of a line and a column that is not behind the line. -/
theorem Inv.nodeAt2 (h : Inv T L) (hne : L ≠ []) {column : Nat} (hk : k ≤ eolCount (docText T.buffers L))
    (hin : lineStartAt (docText T.buffers L) k + column ≤ lineStartAt (docText T.buffers L) (k + 1)) :
    ∃ pos, T.nodeAt2 (k + 1) (column + 1) = some pos ∧
      PlaceAt L pos.node pos.remainder (lineStartAt (docText T.buffers L) k + column) := by
  have hroot : T.root ≠ .nil := fun hnil => hne ((root_eq_nil_iff h.toCore).mp hnil)
  have htext := h.textOf
  have hloop := nodeAt2Loop_eq T.root column k 0 h.readable hroot (by rw [htext]; exact hk) (by rw [htext]; exact fun _ => hin)
  rw [htext, h.holds.items] at hloop
  rw [PieceTreeBase.nodeAt2]
  rcases hloop with ⟨pos, heq, hplace⟩ | ⟨node, rest, heq, l₁, p, l₂, rfl, hsum, hpos, hcnt⟩
  · refine ⟨pos, ?_, hplace⟩
    push_cast
    rw [heq]
  · obtain ⟨n, rfl⟩ : ∃ n : Nat, rest = n := ⟨rest.toNat, by omega⟩
    have hlenp : (content T.buffers p).length = p.length := (h.valid (node, p) (by simp)).length
    have hlen1 : (docText T.buffers l₁).length = totalLength l₁ := docText_length fun i hi => h.valid i (by simp [hi])
    have hjoined := joined_texts_append.mp h.joined
    have hjoined' := (joined_texts_cons.mp hjoined.2.1).1
    -- the line goes on behind the node
    have hline : lineStartAt (docText T.buffers (l₁ ++ (node, p) :: l₂)) (k + 1) =
        totalLength l₁ + p.length + lineStartAt (docText T.buffers l₂) 1 := by
      rw [docText_append, docText_cons]
      have hleft := hjoined.2.2
      rw [docText_cons] at hleft
      rw [lineStartAt_append_right hleft (by omega), lineStartAt_append_right hjoined' (by omega), hlen1]
      show totalLength l₁ + ((content T.buffers p).length + _) = _
      rw [hlenp, show k + 1 - eolCount (docText T.buffers l₁) - eolCount (content T.buffers p) = 1 by omega]
      omega
    have hassoc : (l₁ ++ [(node, p)]) ++ l₂ = l₁ ++ (node, p) :: l₂ := by simp
    obtain ⟨pos, hnext, hat⟩ := (hassoc ▸ h : Inv T ((l₁ ++ [(node, p)]) ++ l₂)).nodeAt2Next T.root.toList.length
      (by rw [h.length_eq]; simp; omega) n (by omega) (by rw [hline] at hin; omega)
    have hsum' : totalLength (l₁ ++ [(node, p)]) + n = lineStartAt (docText T.buffers (l₁ ++ (node, p) :: l₂)) k + column := by
      rw [totalLength_append, totalLength_cons]
      show totalLength l₁ + (p.length + 0) + n = _
      omega
    rw [hassoc, hsum'] at hat
    refine ⟨pos, ?_, hat⟩
    push_cast
    rw [heq]
    dsimp only
    rw [h.holds.next]
    exact hnext

/-! ## Between two places -/

theorem substring_append_right (x y : JsString) (i j : Nat) :
    (x ++ y).substring (x.length + i) (x.length + j) = y.substring i j := by
  rw [JsString.substring, JsString.substring, take_length_add_append, drop_length_add_append]

theorem substring_append_both {x : JsString} (y : JsString) {i : Nat} (hi : i ≤ x.length) (j : Nat) :
    (x ++ y).substring i (x.length + j) = x.drop i ++ y.take j := by
  rw [JsString.substring, take_length_add_append, drop_append_of_le_length hi]

/-- The loop of `getValueInRange2` collects the nodes up to the last one. -/
theorem Inv.valueUpTo {m : Nodes} {p : Piece} {l3 : Nodes} (h : Inv T (l₁ ++ (m ++ (stop.node, p) :: l3)))
    (hle : stop.remainder ≤ p.length) (fuel : Nat) (hfuel : m.length < fuel) (ret : JsString) :
    T.valueUpTo stop fuel ((m ++ (stop.node, p) :: l3).head?.map Prod.fst) ret =
      ret ++ (docText T.buffers m ++ (content T.buffers p).take stop.remainder) := by
  induction m generalizing l₁ fuel ret with
  | nil =>
    obtain ⟨fuel, rfl⟩ : ∃ n, fuel = n + 1 := ⟨fuel - 1, by omega⟩
    have hvalid : PieceOk T.buffers p := h.valid (stop.node, p) (by simp)
    have hsub := hvalid.substring (i := 0) hle
    have hpiece : T.pieceOf stop.node = p := h.pieceOf
    rw [Nat.add_zero] at hsub
    simp only [nil_append, head?_cons, Option.map_some, PieceTreeBase.valueUpTo, hpiece, if_pos,
      PieceTreeBase.bufferOf, hsub]
    rfl
  | cons i m ih =>
    obtain ⟨id, q⟩ := i
    obtain ⟨fuel, rfl⟩ : ∃ n, fuel = n + 1 := ⟨fuel - 1, by omega⟩
    have hvalid : PieceOk T.buffers q := h.valid (id, q) (by simp)
    have hne : id ≠ stop.node := by
      have hnodup := h.holds.nodup
      rw [map_append, cons_append, map_cons, nodup_append, nodup_cons] at hnodup
      rintro rfl
      exact hnodup.2.1.1 (by simp)
    have hsub := hvalid.substring_rest 0
    have hpiece : T.pieceOf id = q := h.pieceOf
    have hnext : PieceTree.next T.root id = (m ++ (stop.node, p) :: l3).head?.map Prod.fst := h.holds.next
    have hassoc : (l₁ ++ [(id, q)]) ++ (m ++ (stop.node, p) :: l3) = l₁ ++ ((id, q) :: m ++ (stop.node, p) :: l3) := by
      simp
    rw [Nat.add_zero, drop_zero] at hsub
    simp only [cons_append, head?_cons, Option.map_some, PieceTreeBase.valueUpTo, if_neg hne, hpiece,
      PieceTreeBase.bufferOf, hsub, hnext]
    have hgrown : Inv T ((l₁ ++ [(id, q)]) ++ (m ++ (stop.node, p) :: l3)) := by
      rw [hassoc]
      exact h
    rw [ih hgrown fuel (by simp only [length_cons] at hfuel; omega),
      docText_cons, append_assoc, append_assoc]

theorem placeAt_cases (hnodup : (L.map Prod.fst).Nodup) (ha : PlaceAt L start.node start.remainder a)
    (hb : PlaceAt L stop.node stop.remainder b) (hlt : a < b) :
    (start.node = stop.node ∧ ∃ l₁ p l₂, L = l₁ ++ (start.node, p) :: l₂ ∧ totalLength l₁ + start.remainder = a ∧
      totalLength l₁ + stop.remainder = b ∧ stop.remainder ≤ p.length) ∨
    ∃ l₁ p m q l3, L = l₁ ++ (start.node, p) :: (m ++ (stop.node, q) :: l3) ∧ totalLength l₁ + start.remainder = a ∧
      start.remainder ≤ p.length ∧ totalLength l₁ + p.length + totalLength m + stop.remainder = b ∧
      stop.remainder ≤ q.length := by
  obtain ⟨l₁, p, l₂, rfl, hsum, hle⟩ := ha
  obtain ⟨k1, q, k2, heq, hsum', hle'⟩ := hb
  rcases append_eq_append_iff.mp heq with ⟨m, rfl, hm⟩ | ⟨m, rfl, hm⟩
  · cases m with
    | nil =>
      rw [nil_append, List.cons.injEq, Prod.mk.injEq] at hm
      obtain ⟨⟨hnode, rfl⟩, rfl⟩ := hm
      rw [append_nil] at hsum'
      exact .inl ⟨hnode, l₁, p, l₂, rfl, hsum, hsum', hle'⟩
    | cons i m =>
      obtain ⟨rfl, rfl⟩ := hm
      refine .inr ⟨l₁, p, m, q, k2, rfl, hsum, hle, ?_, hle'⟩
      rw [totalLength_append, totalLength_cons] at hsum'
      dsimp only at hsum'
      omega
  · -- the second node would stand in front of the first one
    cases m with
    | nil =>
      rw [nil_append, List.cons.injEq, Prod.mk.injEq] at hm
      obtain ⟨⟨hnode, rfl⟩, rfl⟩ := hm
      rw [append_nil] at hsum ⊢
      exact .inl ⟨hnode.symm, k1, q, k2, rfl, hsum, hsum', hle'⟩
    | cons i m =>
      obtain ⟨rfl, -⟩ := hm
      rw [totalLength_append, totalLength_cons] at hsum
      dsimp only at hsum
      omega

theorem Inv.getValueInRange2 (h : Inv T L) (ha : PlaceAt L start.node start.remainder a)
    (hb : PlaceAt L stop.node stop.remainder b) (hlt : a < b) :
    T.getValueInRange2 start stop = (docText T.buffers L).substring a b := by
  rw [PieceTreeBase.getValueInRange2]
  rcases placeAt_cases h.holds.nodup ha hb hlt with ⟨hnode, l₁, p, l₂, rfl, hsum, hsum', hle⟩ |
    ⟨l₁, p, m, q, l3, rfl, hsum, hle, hsum', hle'⟩
  · have hvalid : PieceOk T.buffers p := h.valid (start.node, p) (by simp)
    have hlen := hvalid.length
    have hlen1 : (docText T.buffers l₁).length = totalLength l₁ := docText_length fun i hi => h.valid i (by simp [hi])
    rw [if_pos hnode, h.pieceOf, PieceTreeBase.bufferOf, substringBetween, Int.min_eq_left (by omega),
      Int.max_eq_right (by omega), Int.toNat_natCast, Int.toNat_natCast, hvalid.substring hle, docText_append, docText_cons,
      ← hsum, ← hsum', ← hlen1, substring_append_right, substring_left _ _ (by rw [hlen]; exact hle)]
  · have hvalid : PieceOk T.buffers p := h.valid (start.node, p) (by simp)
    have hlen := hvalid.length
    have hlen1 : (docText T.buffers l₁).length = totalLength l₁ := docText_length fun i hi => h.valid i (by simp [hi])
    have hlenm : (docText T.buffers m).length = totalLength m := docText_length fun i hi => h.valid i (by simp [hi])
    have hlenq : (content T.buffers q).length = q.length := (h.valid (stop.node, q) (by simp)).length
    have hne : start.node ≠ stop.node := by
      have hnodup := h.holds.nodup
      rw [map_append, map_cons, nodup_append, nodup_cons] at hnodup
      intro heq
      rw [heq] at hnodup
      exact hnodup.2.1.1 (by simp)
    have hassoc : (l₁ ++ [(start.node, p)]) ++ (m ++ (stop.node, q) :: l3) = l₁ ++ (start.node, p) :: (m ++ (stop.node, q) :: l3) := by
      simp
    have hloop := (hassoc ▸ h : Inv T ((l₁ ++ [(start.node, p)]) ++ (m ++ (stop.node, q) :: l3))).valueUpTo hle'
      T.root.toList.length (by rw [h.length_eq]; simp; omega) ((content T.buffers p).drop start.remainder)
    rw [if_neg hne, h.pieceOf, h.holds.next, PieceTreeBase.bufferOf, hvalid.substring_rest, hloop, ← hsum, ← hsum', docText_append,
      docText_cons, docText_append, docText_cons, ← hlen1, ← hlen, ← hlenm, Nat.add_assoc, Nat.add_assoc,
      substring_append_right, substring_append_both _ (by rw [hlen]; exact hle), take_length_add_append,
      take_append_of_le_length (by rw [hlenq]; exact hle')]

end Tree

/-! ## Offsets and positions are inverse -/

def lineNumberAt (text : JsString) (o : Nat) : Nat := ((createLineStartsFast text).filter (· ≤ o)).length

/-- `new Range`: the ends are exchanged if they are in the wrong order. -/
def Range.ofPositions (p q : Position) : Range :=
  if p.lineNumber > q.lineNumber ∨ p.lineNumber = q.lineNumber ∧ p.column > q.column then
    ⟨q.lineNumber, q.column, p.lineNumber, p.column⟩
  else ⟨p.lineNumber, p.column, q.lineNumber, q.column⟩

/-- A result of `getPositionAt` as a position. -/
def positionOf (pos : Int × Int) : Position := ⟨pos.1.toNat, pos.2.toNat⟩

theorem lineNumberAt_eq {text : JsString} {o : Nat} (ho : o ≤ text.length) :
    lineNumberAt text o = (cursorAt text o).line + 1 := by
  have hlen : (text.take o).length = o := by
    rw [length_take]
    omega
  have hbefore : (startsUpTo text o).filter (· ≤ o) = startsUpTo text o :=
    filter_eq_self.mpr fun x hx => decide_eq_true (startsUpTo_le x hx)
  have hbehind : (lineEnds o none (text.drop o)).filter (· ≤ o) = [] := by
    refine filter_eq_nil_iff.mpr fun x hx => ?_
    have := (lineEnds_bounds _ _ o x hx).1
    rw [decide_eq_true_eq]
    omega
  rw [lineNumberAt, createLineStartsFast_eq text o, filter_append, hbefore, hlen, hbehind, append_nil,
    startsUpTo_length]

section Positions

variable {T : PieceTreeBase} {L : Nodes} {o o' : Nat}

section

variable (h : Inv T L) (ho : o ≤ (docText T.buffers L).length)
include h ho

theorem Inv.positionOf : positionOf (T.getPositionAt o) =
    ⟨(cursorAt (docText T.buffers L) o).line + 1, (cursorAt (docText T.buffers L) o).column + 1⟩ := by
  rw [h.getPositionAt ho, PieceTree.positionOf]
  congr 1

theorem Inv.getOffsetAt_position :
    T.getOffsetAt (PieceTree.positionOf (T.getPositionAt o)).lineNumber (PieceTree.positionOf (T.getPositionAt o)).column = o := by
  rw [h.positionOf ho]
  dsimp only
  rw [h.getOffsetAt (cursorAt_line_le _ o)]
  · have := lineStartAt_cursorAt (docText T.buffers L) o
    omega
  · intro hroot
    have htext := h.textOf
    rw [hroot, textOf_nil] at htext
    rw [← htext, length_nil] at ho
    obtain rfl : o = 0 := by omega
    rfl

omit h ho in
theorem Inv.nodeAt2_position (h : Inv T L) (hne : L ≠ []) (ho : o ≤ (docText T.buffers L).length) : ∃ pos,
    T.nodeAt2 (PieceTree.positionOf (T.getPositionAt o)).lineNumber (PieceTree.positionOf (T.getPositionAt o)).column = some pos ∧
      PlaceAt L pos.node pos.remainder o := by
  have hoffset := lineStartAt_cursorAt (docText T.buffers L) o
  have hnext := le_lineStartAt_succ ho
  rw [← hoffset] at hnext
  obtain ⟨pos, heq, hplace⟩ := h.nodeAt2 hne (cursorAt_line_le _ o) (by rw [hoffset] at hnext ⊢; exact hnext)
  rw [hoffset] at hplace
  refine ⟨pos, ?_, hplace⟩
  rw [h.positionOf ho]
  exact heq

omit h ho in
theorem position_lt {text : JsString} (hlt : o < o') (ho' : o' ≤ text.length) :
    (cursorAt text o).line < (cursorAt text o').line ∨
      (cursorAt text o).line = (cursorAt text o').line ∧ (cursorAt text o).column < (cursorAt text o').column := by
  have hmono := cursorAt_line_mono (show o ≤ o' by omega) ho'
  rcases Nat.lt_or_eq_of_le hmono with hline | hline
  · exact .inl hline
  · have h1 := lineStartAt_cursorAt text o
    have h2 := lineStartAt_cursorAt text o'
    rw [hline] at h1
    exact .inr ⟨hline, by omega⟩

theorem Inv.getValueInRange (ho' : o' ≤ (docText T.buffers L).length) :
    T.getValueInRange (.ofPositions (PieceTree.positionOf (T.getPositionAt o)) (PieceTree.positionOf (T.getPositionAt o'))) none =
      some ((docText T.buffers L).substring (min o o') (max o o')) := by
  -- for two offsets in order
  have hordered : ∀ a b, a < b → a ≤ (docText T.buffers L).length → b ≤ (docText T.buffers L).length → T.getValueInRange
      ⟨(PieceTree.positionOf (T.getPositionAt a)).lineNumber, (PieceTree.positionOf (T.getPositionAt a)).column,
        (PieceTree.positionOf (T.getPositionAt b)).lineNumber, (PieceTree.positionOf (T.getPositionAt b)).column⟩ none =
      some ((docText T.buffers L).substring a b) := by
    intro a b hlt ha hb
    have hne : L ≠ [] := by
      rintro rfl
      rw [show docText T.buffers [] = [] from rfl, length_nil] at hb
      omega
    obtain ⟨start, hstart, hplace⟩ := h.nodeAt2_position hne ha
    obtain ⟨stop, hstop, hplace'⟩ := h.nodeAt2_position hne hb
    have hdiffer : ¬ ((PieceTree.positionOf (T.getPositionAt a)).lineNumber = (PieceTree.positionOf (T.getPositionAt b)).lineNumber ∧
        (PieceTree.positionOf (T.getPositionAt a)).column = (PieceTree.positionOf (T.getPositionAt b)).column) := by
      rw [h.positionOf ha, h.positionOf hb]
      dsimp only
      have := position_lt hlt hb
      omega
    rw [PieceTreeBase.getValueInRange, if_neg hdiffer]
    rw [hstart, hstop]
    exact congrArg some (h.getValueInRange2 hplace hplace' hlt)
  rcases Nat.lt_trichotomy o o' with hlt | rfl | hgt
  · have hin : ¬ ((PieceTree.positionOf (T.getPositionAt o)).lineNumber > (PieceTree.positionOf (T.getPositionAt o')).lineNumber ∨
        (PieceTree.positionOf (T.getPositionAt o)).lineNumber = (PieceTree.positionOf (T.getPositionAt o')).lineNumber ∧
        (PieceTree.positionOf (T.getPositionAt o)).column > (PieceTree.positionOf (T.getPositionAt o')).column) := by
      rw [h.positionOf ho, h.positionOf ho']
      dsimp only
      have := position_lt hlt ho'
      omega
    rw [Range.ofPositions, if_neg hin, hordered o o' hlt ho ho', Nat.min_eq_left (by omega), Nat.max_eq_right (by omega)]
  · rw [Range.ofPositions, Nat.min_self, Nat.max_self]
    have hempty : (docText T.buffers L).substring o o = [] := by
      exact drop_eq_nil_of_le (by rw [length_take]; omega)
    rw [hempty, ite_self, PieceTreeBase.getValueInRange, if_pos ⟨rfl, rfl⟩]
  · have hout : (PieceTree.positionOf (T.getPositionAt o)).lineNumber > (PieceTree.positionOf (T.getPositionAt o')).lineNumber ∨
        (PieceTree.positionOf (T.getPositionAt o)).lineNumber = (PieceTree.positionOf (T.getPositionAt o')).lineNumber ∧
        (PieceTree.positionOf (T.getPositionAt o)).column > (PieceTree.positionOf (T.getPositionAt o')).column := by
      rw [h.positionOf ho, h.positionOf ho']
      dsimp only
      have := position_lt hgt ho
      omega
    rw [Range.ofPositions, if_pos hout, hordered o' o hgt ho' ho, Nat.min_eq_right (by omega), Nat.max_eq_left (by omega)]

end

end Positions

section Runs

variable {chunks : List StringBuffer} {eol : EndOfLine} {eolNormalized : Bool} {actions : List Action}

/-- In every state of a run the tree's positions are those of its text, with `getOffsetAt` as their inverse, and the
value of a range between two of them is the text between the two offsets. -/
theorem positions_inverse (hchunks : ChunksOk chunks eol eolNormalized)
    (hactions : (Doc.ofChunks chunks eol).AcceptsAll actions) :
    ∃ T, (PieceTreeBase.create chunks eol eolNormalized).run actions = some T ∧
      (∀ o ≤ T.length,
        T.getPositionAt o = ((lineNumberAt T.getLinesRawContent o : Int),
          (o : Int) - (createLineStartsFast T.getLinesRawContent).getD (lineNumberAt T.getLinesRawContent o - 1) 0 + 1) ∧
        T.getOffsetAt (positionOf (T.getPositionAt o)).lineNumber (positionOf (T.getPositionAt o)).column = o) ∧
      ∀ o o', o ≤ T.length → o' ≤ T.length →
        T.getValueInRange (.ofPositions (positionOf (T.getPositionAt o)) (positionOf (T.getPositionAt o'))) none =
          some (T.getLinesRawContent.substring (min o o') (max o o')) := by
  obtain ⟨T, L, hT, h⟩ := Holding.of_run hchunks hactions
  have hinv := h.inv
  refine ⟨T, hT, ?_, ?_⟩
  · intro o ho
    rw [hinv.length] at ho
    refine ⟨?_, hinv.getOffsetAt_position ho⟩
    have hoffset := lineStartAt_cursorAt (docText T.buffers L) o
    rw [hinv.getPositionAt ho, hinv.getLinesRawContent, lineNumberAt_eq ho, Nat.add_sub_cancel,
      lineStartAt_eq_getD (cursorAt_line_le _ o)]
    congr 1
    omega
  · intro o o' ho ho'
    rw [hinv.length] at ho ho'
    rw [hinv.getLinesRawContent]
    exact hinv.getValueInRange ho ho'

/-- Lines whose breaks stand at the end of a piece, and in an inserted one. -/
theorem positions_inverse_crlf :
    let chunks : List StringBuffer := [⟨[97, 13], [0, 2]⟩, ⟨[98, 10, 99], [0, 2]⟩]
    ∃ T, (PieceTreeBase.create chunks .lf false).run [.insert 2 [10, 100] false, .delete 0 1] = some T ∧
      (∀ o ≤ T.length,
        T.getPositionAt o = ((lineNumberAt T.getLinesRawContent o : Int),
          (o : Int) - (createLineStartsFast T.getLinesRawContent).getD (lineNumberAt T.getLinesRawContent o - 1) 0 + 1) ∧
        T.getOffsetAt (positionOf (T.getPositionAt o)).lineNumber (positionOf (T.getPositionAt o)).column = o) ∧
      ∀ o o', o ≤ T.length → o' ≤ T.length →
        T.getValueInRange (.ofPositions (positionOf (T.getPositionAt o)) (positionOf (T.getPositionAt o'))) none =
          some (T.getLinesRawContent.substring (min o o') (max o o')) :=
  positions_inverse (by decide) (by decide)

end Runs

/-! ## Trees with the same text -/

section Equality

variable {T other : PieceTreeBase} {L M : Nodes}

theorem Inv.nodeAt (h : Inv T L) (hne : L ≠ []) {o : Nat} (ho : o ≤ (docText T.buffers L).length) :
    ∃ T' pos, T.nodeAt o = (T', some pos) ∧ Inv T' L ∧ T'.buffers = T.buffers ∧ PlaceAt L pos.node pos.remainder o := by
  rw [docText_length h.valid] at ho
  obtain ⟨l₁, id, p, l₂, entry, hL, hle, hle', -, -, heq⟩ := h.toGood.nodeAt h.cache hne ho
  obtain ⟨cache, hcache, hok⟩ := nodeAt_inv h o
  rw [heq] at hcache
  refine ⟨_, _, heq, ?_, rfl, l₁, p, l₂, hL, Nat.add_sub_cancel' hle, Nat.sub_le_iff_le_add'.mpr hle'⟩
  dsimp only at hcache
  rw [hcache]
  exact h.withCache hok T.lastVisitedLine

theorem content_unit {bs : List StringBuffer} {p : Piece} {r : Nat} (hr : r < (content bs p).length) :
    (bufferAt bs p.bufferIndex).buffer[offsetInBuffer (bufferAt bs p.bufferIndex) p.start + r]? = (content bs p)[r]? := by
  unfold content substring at *
  rw [length_drop, length_take] at hr
  rw [getElem?_drop, getElem?_take, if_pos (by omega)]

theorem Inv.charCodeAt (h : Inv T L) {pos : NodePosition} (hpos : PlaceAt L pos.node pos.remainder o) :
    T.charCodeAt pos = (docText T.buffers L)[o]? := by
  obtain ⟨l₁, p, l₂, rfl, rfl, hle⟩ := hpos
  have hlen1 : (docText T.buffers l₁).length = totalLength l₁ := docText_length fun i hi => h.valid i (by simp [hi])
  have hlen : (content T.buffers p).length = p.length := (h.valid (pos.node, p) (by simp)).length
  rw [PieceTreeBase.charCodeAt, h.pieceOf, h.holds.next, PieceTreeBase.bufferOf, docText_append, docText_cons, ← hlen1,
    getElem?_append_right (Nat.le_add_right ..), Nat.add_sub_cancel_left]
  dsimp only
  split
  · next heq =>
    rw [heq, ← hlen, getElem?_append_right (Nat.le_refl _), Nat.sub_self]
    cases l₂ with
    | nil => rfl
    | cons i l₂ =>
      obtain ⟨id, q⟩ := i
      have hpos : 0 < q.length := h.positive (id, q) (by simp)
      rw [← (h.valid (id, q) (by simp)).length] at hpos
      have h' : Inv T ((l₁ ++ [(pos.node, p)]) ++ (id, q) :: l₂) := by
        rw [append_assoc]
        exact h
      have hunit := content_unit hpos
      rw [Nat.add_zero] at hunit
      rw [head?_cons, Option.map_some, docText_cons, getElem?_append_left hpos, ← hunit]
      dsimp only
      rw [h'.pieceOf, PieceTreeBase.bufferOf]
  · next hne =>
    have hlt : pos.remainder < (content T.buffers p).length := by omega
    rw [getElem?_append_left hlt, content_unit hlt]

/-- Each node is compared with the part of the other text at its place. -/
theorem equalLoop_eq : ∀ {nodes : List TreeNode} {other : PieceTreeBase} {front back : JsString},
    (∀ node ∈ nodes, content T.buffers node.piece ≠ []) → Inv other M → docText other.buffers M = front ++ back →
    (docText T.buffers (nodes.map TreeNode.item)).length = back.length →
    ∃ other', T.equalLoop nodes front.length other =
      some (other', decide (docText T.buffers (nodes.map TreeNode.item) = back)) ∧ Inv other' M ∧ other'.buffers = other.buffers
  | [], other, front, back, _, hM, _, hlength => by
    rw [length_eq_zero_iff.mp hlength.symm]
    exact ⟨other, rfl, hM, rfl⟩
  | node :: nodes, other, front, back, hne, hM, htext, hlength => by
    have hitem : node.item.2 = node.piece := rfl
    rw [map_cons, docText_cons, hitem, length_append] at hlength
    have hpos := length_pos_iff.mpr (hne node mem_cons_self)
    obtain ⟨first, rest, rfl, hfirst⟩ : ∃ first rest, back = first ++ rest ∧
        first.length = (content T.buffers node.piece).length :=
      ⟨_, _, (take_append_drop (content T.buffers node.piece).length back).symm,
        length_take_of_le (hlength ▸ Nat.le_add_right ..)⟩
    have hM' : M ≠ [] := by
      rintro rfl
      have := congrArg length htext
      simp at this
      omega
    have htotal := congrArg length htext
    simp only [length_append] at htotal
    obtain ⟨other₁, start, hstart, hM₁, hbs₁, ha⟩ := hM.nodeAt hM' (o := front.length) (by omega)
    obtain ⟨other₂, stop, hstop, hM₂, hbs₂, hb⟩ := hM₁.nodeAt hM' (o := front.length + first.length) (by rw [hbs₁]; omega)
    have hvalue := hM₂.getValueInRange2 ha hb (by omega)
    rw [hbs₂, hbs₁, htext, substring, ← append_assoc, ← length_append, take_left, drop_left] at hvalue
    rw [PieceTreeBase.equalLoop, hstart]
    dsimp only
    rw [← hfirst, hstop]
    dsimp only
    rw [hvalue, map_cons, docText_cons, hitem]
    split
    · next heq =>
      obtain ⟨other', hloop, hM', hbs'⟩ := equalLoop_eq (fun node' hmem => hne node' (mem_cons_of_mem _ hmem)) hM₂
        (show _ = (front ++ first) ++ rest by rw [hbs₂, hbs₁, htext, append_assoc])
        (by rw [length_append] at hlength; omega)
      rw [length_append] at hloop
      refine ⟨other', ?_, hM', by rw [hbs', hbs₂, hbs₁]⟩
      rw [hloop, heq]
      simp
    · next hdiffer =>
      refine ⟨other₂, ?_, hM₂, by rw [hbs₂, hbs₁]⟩
      rw [decide_eq_false]
      exact fun h => hdiffer (append_inj_left h hfirst.symm)

/-- `equal` tells whether two trees hold the same text, however it is cut into pieces. -/
theorem Inv.equal (h : Inv T L) (hM : Inv other M) : ∃ other', T.equal other =
    some (other', decide (T.getLinesRawContent = other.getLinesRawContent)) ∧ Inv other' M ∧ other'.buffers = other.buffers := by
  rw [h.getLinesRawContent, hM.getLinesRawContent, PieceTreeBase.equal]
  split
  · next hdiffer =>
    refine ⟨other, ?_, hM, rfl⟩
    rw [decide_eq_false]
    intro heq
    rw [h.length, hM.length, h.lineCnt, hM.lineCnt, heq] at hdiffer
    simp at hdiffer
  · next hsame =>
    rw [not_or, not_not, h.length, hM.length] at hsame
    have hitems : T.root.toList.map TreeNode.item = L := h.holds.items
    rw [← hitems] at hsame ⊢
    refine equalLoop_eq ?_ hM (show _ = [] ++ _ from rfl) hsame.1
    intro node hmem hnil
    have hnode := h.positive node.item (hitems ▸ mem_map_of_mem hmem)
    have hlen := (h.valid node.item (hitems ▸ mem_map_of_mem hmem)).length
    rw [show node.item.2 = node.piece from rfl, hnil] at hlen
    exact Nat.ne_of_lt hnode hlen

end Equality

section Runs

variable {chunks chunks' : List StringBuffer} {eol eol' : EndOfLine} {eolNormalized eolNormalized' : Bool}
variable {actions actions' : List Action}

/-- After any runs of two trees `equal` tells whether they hold the same text, whatever pieces and caches the runs have left. -/
theorem equal_iff_same_text (hchunks : ChunksOk chunks eol eolNormalized) (hchunks' : ChunksOk chunks' eol' eolNormalized')
    (hactions : (Doc.ofChunks chunks eol).AcceptsAll actions) (hactions' : (Doc.ofChunks chunks' eol').AcceptsAll actions') :
    ∃ T other other', (PieceTreeBase.create chunks eol eolNormalized).run actions = some T ∧
      (PieceTreeBase.create chunks' eol' eolNormalized').run actions' = some other ∧
      T.equal other = some (other', decide (((Doc.ofChunks chunks eol).run actions).text =
        ((Doc.ofChunks chunks' eol').run actions').text)) ∧
      other'.getLinesRawContent = other.getLinesRawContent := by
  obtain ⟨T, L, hT, h⟩ := Holding.of_run hchunks hactions
  obtain ⟨other, M, hother, hM⟩ := Holding.of_run hchunks' hactions'
  obtain ⟨other', hequal, hM', hbuffers⟩ := h.inv.equal hM.inv
  refine ⟨T, other, other', hT, hother, ?_, ?_⟩
  · rw [hequal, h.inv.getLinesRawContent, hM.inv.getLinesRawContent, h.text, hM.text]
  · rw [hM'.getLinesRawContent, hM.inv.getLinesRawContent, hbuffers]

/-- The same text in one piece and in three. -/
theorem equal_iff_same_text_pieces : ∃ T other other',
    (PieceTreeBase.create [⟨[97, 98, 99], [0]⟩] .lf true).run [] = some T ∧
      (PieceTreeBase.create [⟨[97, 99], [0]⟩] .lf true).run [.insert 1 [98] true] = some other ∧
      T.equal other = some (other', decide (([97, 98, 99] : JsString) = [97, 98, 99])) ∧
      other'.getLinesRawContent = other.getLinesRawContent :=
  equal_iff_same_text (by decide) (by decide) (by decide) (by decide)

/-- After any run the characters that are read at offsets and in lines are those of the text. -/
theorem characters_agree (hchunks : ChunksOk chunks eol eolNormalized)
    (hactions : (Doc.ofChunks chunks eol).AcceptsAll actions) : ∃ T,
    (PieceTreeBase.create chunks eol eolNormalized).run actions = some T ∧
      let text := ((Doc.ofChunks chunks eol).run actions).text
      (∀ offset < text.length, (T.getCharCode offset).2 = text[offset]?) ∧
        ∀ k index, k ≤ eolCount text → lineStartAt text k + index < text.length →
          lineStartAt text k + index ≤ lineStartAt text (k + 1) →
            T.getLineCharCode (k + 1) index = text[lineStartAt text k + index]? := by
  obtain ⟨T, L, hT, h⟩ := Holding.of_run hchunks hactions
  refine ⟨T, hT, ?_⟩
  dsimp only
  rw [← h.text]
  have hne {o : Nat} (ho : o < (docText T.buffers L).length) : L ≠ [] := by
    rintro rfl
    cases ho
  constructor
  · intro offset hlt
    obtain ⟨T', pos, heq, hT', hbuffers, hpos⟩ := h.inv.nodeAt (hne hlt) (Nat.le_of_lt hlt)
    rw [PieceTreeBase.getCharCode, heq, ← hbuffers]
    exact hT'.charCodeAt hpos
  · intro k index hk hlt hle
    obtain ⟨pos, heq, hpos⟩ := h.inv.nodeAt2 (hne hlt) hk hle
    rw [PieceTreeBase.getLineCharCode, heq]
    exact h.inv.charCodeAt hpos

theorem characters_agree_insert : ∃ T,
    (PieceTreeBase.create [⟨[97, 99], [0]⟩] .lf true).run [.insert 1 [10, 98] true] = some T ∧
      (T.getCharCode 3).2 = some 99 ∧ T.getLineCharCode 2 1 = some 99 := by
  obtain ⟨T, hT, hoffset, hline⟩ := characters_agree (show ChunksOk [⟨[97, 99], [0]⟩] .lf true by decide)
    (show (Doc.ofChunks [⟨[97, 99], [0]⟩] .lf).AcceptsAll [.insert 1 [10, 98] true] by decide)
  exact ⟨T, hT, hoffset 3 (by decide), hline 1 1 (by decide) (by decide) (by decide)⟩

end Runs

end TongjiCode.PieceTree
