import TongjiCode.PieceTree.LineViews

/-!
# Piece tree: one line

`getLineRawContent` finds the node in which a line begins, by the tree or by the cached node, and goes on to
later nodes where the line does not end in it.  `getLineContent` cuts the break off, by its length if the breaks
of the tree are normalized.
-/

open List

namespace TongjiCode.PieceTree

open JsString Tokens PieceTreeBase

/-- A line without its last `endOffset` units. -/
def cutEnd (line : JsString) (endOffset : Nat) : JsString := line.take (line.length - endOffset)

theorem cutEnd_zero (line : JsString) : cutEnd line 0 = line := take_length

theorem cutEnd_append (x : JsString) {y : JsString} {endOffset : Nat} (h : endOffset ≤ y.length) :
    cutEnd (x ++ y) endOffset = x ++ cutEnd y endOffset := by
  rw [cutEnd, cutEnd, length_append, Nat.add_sub_assoc h, take_length_add_append]

/-- No line that ends in a piece is shorter than `endOffset` there. -/
def Cuttable (bs : List StringBuffer) (L : Nodes) (endOffset : Nat) : Prop :=
  ∀ i ∈ L, ∀ k < eolCount (content bs i.2), endOffset ≤ (rawLine (content bs i.2) k).length

section Pieces

variable {bs : List StringBuffer} {p : Piece} {endOffset k : Nat}

theorem PieceOk.wholeLine (h : PieceOk bs p)
    (hcut : endOffset ≤ (rawLine (content bs p) k).length) :
    substringBetween (bufferAt bs p.bufferIndex).buffer
      ((offsetInBuffer (bufferAt bs p.bufferIndex) p.start : Int) + lineStartAt (content bs p) k)
      ((offsetInBuffer (bufferAt bs p.bufferIndex) p.start : Int) + lineStartAt (content bs p) (k + 1) - endOffset) =
      cutEnd (rawLine (content bs p) k) endOffset := by
  obtain ⟨b, start, stop, h⟩ := h
  have hlen := rawLine_length (content bs p) k
  have hmono := lineStartAt_le_succ (content bs p) k
  have hbound := lineStartAt_le_length (content bs p) (k + 1)
  rw [h.bufferAt, h.offset_start]
  have hfrom : (start : Int) + lineStartAt (content bs p) k = ((start + lineStartAt (content bs p) k : Nat) : Int) := by omega
  have hto : (start : Int) + lineStartAt (content bs p) (k + 1) - endOffset =
      ((start + (lineStartAt (content bs p) (k + 1) - endOffset) : Nat) : Int) := by omega
  rw [hfrom, hto, substringBetween_of_le _ (by omega), h.substring (by omega), cutEnd, hlen, rawLine, JsString.substring,
    JsString.substring, drop_take, drop_take, take_take]
  congr 1
  omega

theorem PieceOk.lineTail (h : PieceOk bs p) :
    substringBetween (bufferAt bs p.bufferIndex).buffer
      ((offsetInBuffer (bufferAt bs p.bufferIndex) p.start : Int) + lineStartAt (content bs p) k)
      ((offsetInBuffer (bufferAt bs p.bufferIndex) p.start : Int) + p.length) =
      (content bs p).drop (lineStartAt (content bs p) k) := by
  have hlen := h.length
  have hbound := lineStartAt_le_length (content bs p) k
  obtain ⟨b, start, stop, h⟩ := h
  rw [h.bufferAt, h.offset_start]
  have hfrom : (start : Int) + lineStartAt (content bs p) k = ((start + lineStartAt (content bs p) k : Nat) : Int) := by omega
  have hto : (start : Int) + p.length = ((start + (content bs p).length : Nat) : Int) := by omega
  rw [hfrom, hto, substringBetween_of_le _ (by omega), h.substring (Nat.le_refl _), JsString.substring, take_length]

end Pieces

/-! ## Where the line begins -/

/-- The node in which the line `k` begins, and the number of the line in this node. -/
structure BeginsIn (bs : List StringBuffer) (L : Nodes) (k : Nat) (l₁ : Nodes) (node : Nat) (p : Piece) (l₂ : Nodes)
    (i : Nat) : Prop where
  split : L = l₁ ++ (node, p) :: l₂
  first : l₁ = [] ∨ 0 < i
  line : eolCount (docText bs l₁) + i = k

/-- What the loop of `getLineRawContent` reads in this node. -/
def lineInNode (bs : List StringBuffer) (node : Nat) (p : Piece) (i endOffset : Nat) (entry : CacheEntry) : LineStart :=
  if i < eolCount (content bs p) then .whole (cutEnd (rawLine (content bs p) i) endOffset) entry
  else .part node ((content bs p).drop (lineStartAt (content bs p) i))

theorem lineStartLoop_eq {bs : List StringBuffer} {endOffset : Nat} (n : Int) (t : Tree TreeNode) : ∀ (k : Nat) (base : Int),
    Readable bs t → t ≠ .nil → k ≤ eolCount (textOf bs t) → Cuttable bs (items t) endOffset →
      ∃ l₁ node p l₂ i entry, BeginsIn bs (items t) k l₁ node p l₂ i ∧ i ≤ eolCount (content bs p) ∧
        lineStartLoop bs n endOffset t (k + 1) base = lineInNode bs node p i endOffset entry := by
  induction t with
  | nil => intro k base _ hne; exact (hne rfl).elim
  | node c l v r ihl ihr =>
    intro k base h _ hk hcut
    have hf := h.facts
    have hleft := hf.lfLeft
    have hcnt := hf.lineFeedCnt
    have htotal := hf.eolCount (c := c)
    have hitems := items_node c l v r
    rw [lineStartLoop]
    by_cases hgoLeft : l ≠ .nil ∧ v.lfLeft ≥ (k : Int) + 1 - 1
    · have hcutl : Cuttable bs (items l) endOffset := by
        intro j hj
        exact hcut j (by rw [hitems]; exact mem_append_left _ hj)
      obtain ⟨l₁, node, p, l₂, i, entry, ⟨hsplit, hfirst, hline⟩, hi, heq⟩ :=
        ihl k base hf.left hgoLeft.1 (by omega) hcutl
      rw [if_pos hgoLeft]
      refine ⟨l₁, node, p, l₂ ++ (v.item :: items r), i, entry, ⟨?_, hfirst, hline⟩, hi, heq⟩
      rw [hitems, hsplit, append_assoc, cons_append]
    · dsimp only
      rw [if_neg hgoLeft]
      rw [not_and_or, not_not] at hgoLeft
      by_cases hhere : k ≤ eolCount (textOf bs l) + eolCount (content bs v.piece)
      · -- the line begins in the piece
        have hkl : eolCount (textOf bs l) ≤ k := by
          rcases hgoLeft with rfl | hlt
          · exact Nat.zero_le k
          · omega
        obtain ⟨i, hi⟩ : ∃ i, k = eolCount (textOf bs l) + i := ⟨k - eolCount (textOf bs l), by omega⟩
        have hbegins : BeginsIn bs (items (.node c l v r)) k (items l) v.id v.piece (items r) i := by
          refine ⟨hitems, ?_, hi.symm⟩
          rcases hgoLeft with rfl | hlt
          · exact .inl rfl
          · exact .inr (by omega)
        have hprev : ((k : Int) + 1 - v.lfLeft - 2 + 1).toNat = i := by omega
        have hnext : ((k : Int) + 1 - v.lfLeft - 1 + 1).toNat = i + 1 := by omega
        rw [hf.piece.getAccumulatedValue, hf.piece.getAccumulatedValue, hprev, hnext]
        by_cases hwhole : i < eolCount (content bs v.piece)
        · have hcutHere := hcut v.item (by rw [hitems]; simp) i hwhole
          rw [if_pos (by omega), hf.piece.wholeLine hcutHere]
          exact ⟨_, _, _, _, i, _, hbegins, by omega, by rw [lineInNode, if_pos hwhole]⟩
        · rw [if_neg (by omega), if_pos (by omega), hf.piece.lineTail]
          exact ⟨_, _, _, _, i, ⟨0, 0, none⟩, hbegins, by omega, by rw [lineInNode, if_neg hwhole]⟩
      · rw [if_neg (by omega), if_neg (by omega)]
        have hr : r ≠ .nil := by
          rintro rfl
          rw [textOf_nil, show eolCount ([] : JsString) = 0 from rfl] at htotal
          omega
        have hcutr : Cuttable bs (items r) endOffset := by
          intro j hj
          exact hcut j (by rw [hitems]; simp [hj])
        obtain ⟨j, hj⟩ : ∃ j, k = eolCount (textOf bs l) + eolCount (content bs v.piece) + j :=
          ⟨k - (eolCount (textOf bs l) + eolCount (content bs v.piece)), by omega⟩
        have hline : (k : Int) + 1 - (v.lfLeft + v.piece.lineFeedCnt) = (j : Int) + 1 := by omega
        obtain ⟨l₁, node, p, l₂, i, entry, ⟨hsplit, hfirst, hline'⟩, hi, heq⟩ :=
          ihr j (base + (v.sizeLeft + v.piece.length)) hf.right hr (by omega) hcutr
        rw [hline, heq]
        have hcount := hf.eolCount_upTo hsplit
        refine ⟨items l ++ v.item :: l₁, node, p, l₂, i, entry, ⟨?_, .inr ?_, ?_⟩, hi, rfl⟩
        · rw [hitems, hsplit, append_assoc, cons_append]
        · rcases hfirst with rfl | hpos
          · rw [docText_nil, show eolCount ([] : JsString) = 0 from rfl] at hline'
            omega
          · exact hpos
        · omega

/-! ## The rest of the line -/

section Tree

variable {T : PieceTreeBase} {L l₁ l₂ : Nodes} {node i k endOffset : Nat} {p : Piece}

theorem first_line_le {bs : List StringBuffer} {L : Nodes} (hjoined : Joined none (texts bs L))
    (hcut : Cuttable bs L endOffset) (hbreak : eolCount (docText bs L) ≠ 0) :
    endOffset ≤ (rawLine (docText bs L) 0).length := by
  induction L with
  | nil => exact (hbreak rfl).elim
  | cons i L ih =>
    obtain ⟨hjoin, hrest⟩ := joined_texts_cons.mp hjoined
    rw [docText_cons] at hbreak ⊢
    rw [eolCount_append hjoin] at hbreak
    by_cases hzero : eolCount (content bs i.2) = 0
    · have hfirst := rawLine_append_middle hjoin
      rw [hzero] at hfirst
      rw [hfirst, length_append]
      have := ih hrest (fun j hj => hcut j (mem_cons_of_mem _ hj)) (by omega)
      omega
    · rw [rawLine_append_left hjoin (by omega)]
      exact hcut i mem_cons_self 0 (by omega)

theorem Inv.restOfLine (h : Inv T (l₁ ++ l₂)) (hcut : Cuttable T.buffers (l₁ ++ l₂) endOffset) (fuel : Nat)
    (hfuel : l₂.length ≤ fuel) (ret : JsString) : T.restOfLine endOffset fuel (l₂.head?.map Prod.fst) ret =
      ret ++ if eolCount (docText T.buffers l₂) = 0 then docText T.buffers l₂
        else cutEnd (rawLine (docText T.buffers l₂) 0) endOffset := by
  induction l₂ generalizing l₁ fuel ret with
  | nil =>
    have hnil : (if eolCount (docText T.buffers []) = 0 then docText T.buffers []
        else cutEnd (rawLine (docText T.buffers []) 0) endOffset) = [] := rfl
    rw [hnil, append_nil]
    cases fuel <;> rfl
  | cons j l₂ ih =>
    obtain ⟨id, q⟩ := j
    obtain ⟨fuel, rfl⟩ : ∃ n, fuel = n + 1 := ⟨fuel - 1, by simp only [length_cons] at hfuel; omega⟩
    have hvalid : PieceOk T.buffers q := h.valid (id, q) (by simp)
    have hcnt := hvalid.lineFeedCnt (h.positive (id, q) (by simp))
    have hjoin : ¬ Junction (content T.buffers q) (docText T.buffers l₂) :=
      (joined_texts_cons.mp (joined_texts_append.mp h.joined).2.1).1
    have hcount : eolCount (docText T.buffers ((id, q) :: l₂)) =
        eolCount (content T.buffers q) + eolCount (docText T.buffers l₂) := by
      exact eolCount_append hjoin
    have hassoc : (l₁ ++ [(id, q)]) ++ l₂ = l₁ ++ (id, q) :: l₂ := by simp
    have hgrown : Inv T ((l₁ ++ [(id, q)]) ++ l₂) := by
      rw [hassoc]
      exact h
    simp only [head?_cons, Option.map_some, PieceTreeBase.restOfLine, h.pieceOf, PieceTreeBase.bufferOf]
    by_cases hbreak : q.lineFeedCnt > 0
    · have hwhole := hvalid.wholeLine (k := 0) (hcut (id, q) (by simp) 0 (by rw [← hcnt]; exact hbreak))
      rw [lineStartAt_zero, Int.natCast_zero, Int.add_zero, Nat.zero_add] at hwhole
      have hraw : rawLine (docText T.buffers ((id, q) :: l₂)) 0 = rawLine (content T.buffers q) 0 := by
        exact rawLine_append_left hjoin (show 0 < eolCount (content T.buffers q) by omega)
      rw [if_pos hbreak, hvalid.getAccumulatedValue, show ((0 : Int) + 1).toNat = 1 from rfl, hwhole, if_neg (by omega), hraw]
    · have hzero : eolCount (content T.buffers q) = 0 := by omega
      have hpart := hvalid.substring_rest 0
      rw [Nat.add_zero, drop_zero] at hpart
      rw [if_neg hbreak, hpart, h.holds.next, ih hgrown (by rw [hassoc]; exact hcut)
        fuel (by simp only [length_cons] at hfuel; omega), hcount, hzero, Nat.zero_add, append_assoc]
      congr 1
      split
      · rw [docText_cons]
      · next hmore =>
        have hlast : rawLine (content T.buffers q) 0 = content T.buffers q := by
          have := rawLine_last (content T.buffers q)
          rw [hzero, lineStartAt_zero, drop_zero] at this
          exact this
        have hfirst := rawLine_append_middle hjoin
        rw [hzero, hlast] at hfirst
        show _ = cutEnd (rawLine (content T.buffers q ++ docText T.buffers l₂) 0) endOffset
        have hrest := (joined_texts_cons.mp (joined_texts_append.mp h.joined).2.1).2
        rw [hfirst, cutEnd_append _ (first_line_le hrest (fun j hj => hcut j (by simp [hj])) hmore)]

theorem Inv.rawLine_begins (h : Inv T L) (hb : BeginsIn T.buffers L k l₁ node p l₂ i) (hi : i ≤ eolCount (content T.buffers p)) :
    rawLine (docText T.buffers L) k = if i < eolCount (content T.buffers p) then rawLine (content T.buffers p) i
      else (content T.buffers p).drop (lineStartAt (content T.buffers p) i) ++ rawLine (docText T.buffers l₂) 0 := by
  obtain ⟨rfl, hfirst, rfl⟩ := hb
  obtain ⟨-, hjoined, hleft⟩ := joined_texts_append.mp h.joined
  have hright : ¬ Junction (content T.buffers p) (docText T.buffers l₂) := (joined_texts_cons.mp hjoined).1
  rw [docText_cons] at hleft
  -- the line of the node and those behind it
  have hnode : rawLine (docText T.buffers (l₁ ++ (node, p) :: l₂)) (eolCount (docText T.buffers l₁) + i) =
      rawLine (content T.buffers p ++ docText T.buffers l₂) i := by
    rw [docText_append, docText_cons]
    rcases hfirst with rfl | hpos
    · rw [docText_nil, nil_append, show eolCount ([] : JsString) = 0 from rfl, Nat.zero_add]
    · rw [rawLine_append_right hleft (by omega), Nat.add_sub_cancel_left]
  rw [hnode]
  split
  · next hlt => exact rawLine_append_left hright hlt
  · next hge =>
    obtain rfl : i = eolCount (content T.buffers p) := by omega
    rw [rawLine_append_middle hright, rawLine_last]

theorem Inv.eolCount_split (h : Inv T (l₁ ++ (node, p) :: l₂)) : eolCount (docText T.buffers (l₁ ++ (node, p) :: l₂)) =
    eolCount (docText T.buffers l₁) + (eolCount (content T.buffers p) + eolCount (docText T.buffers l₂)) := by
  obtain ⟨-, hjoined, hleft⟩ := joined_texts_append.mp h.joined
  rw [docText_append, eolCount_append hleft, docText_cons]
  congr 1
  exact eolCount_append (joined_texts_cons.mp hjoined).1

theorem Inv.line_of_parts (h : Inv T L) (hcut : Cuttable T.buffers L endOffset)
    (hb : BeginsIn T.buffers L k l₁ node p l₂ i) (hi : i = eolCount (content T.buffers p)) (hcount : T.root.toList.length = L.length) :
    T.restOfLine endOffset T.root.toList.length (PieceTree.next T.root node)
      ((content T.buffers p).drop (lineStartAt (content T.buffers p) i)) =
      if k < eolCount (docText T.buffers L) then cutEnd (rawLine (docText T.buffers L) k) endOffset
      else rawLine (docText T.buffers L) k := by
  have hline := h.rawLine_begins hb (Nat.le_of_eq hi)
  obtain ⟨rfl, -, rfl⟩ := hb
  have hrest := (joined_texts_cons.mp (joined_texts_append.mp h.joined).2.1).2
  have hassoc : (l₁ ++ [(node, p)]) ++ l₂ = l₁ ++ (node, p) :: l₂ := by simp
  have htotal := h.eolCount_split
  have hloop := (hassoc ▸ h : Inv T ((l₁ ++ [(node, p)]) ++ l₂)).restOfLine (hassoc ▸ hcut) T.root.toList.length
    (by rw [hcount]; simp; omega) ((content T.buffers p).drop (lineStartAt (content T.buffers p) i))
  rw [if_neg (show ¬ i < eolCount (content T.buffers p) by omega)] at hline
  rw [h.holds.next, hloop, hline, htotal]
  by_cases hzero : eolCount (docText T.buffers l₂) = 0
  · have hlast := rawLine_last (docText T.buffers l₂)
    rw [hzero, lineStartAt_zero, drop_zero] at hlast
    rw [if_pos hzero, if_neg (show ¬ eolCount (docText T.buffers l₁) + i < _ by omega), hlast]
  · rw [if_neg hzero, if_pos (show eolCount (docText T.buffers l₁) + i < _ by omega), cutEnd_append _ (first_line_le hrest (fun j hj => hcut j (by simp [hj])) hzero)]

theorem cacheGet2_eq {lineNumber n : Nat} (h : T.cacheGet2 lineNumber = some (node, n)) : ∃ o,
    T.searchCache = some ⟨node, o, some n⟩ ∧ n < lineNumber ∧ n + (T.pieceOf node).lineFeedCnt ≥ lineNumber := by
  rw [cacheGet2] at h
  split at h
  · next hcache =>
    split at h
    · next hrange =>
      obtain ⟨rfl, rfl⟩ := Prod.mk.inj (Option.some.inj h)
      exact ⟨_, hcache, hrange.2.1, hrange.2.2⟩
    · cases h
  · cases h

theorem Inv.getLineRawContent (h : Inv T L) (hlines : CacheLines (docText T.buffers L) T.searchCache)
    (hk : k ≤ eolCount (docText T.buffers L)) (hcut : Cuttable T.buffers L endOffset) :
    (T.getLineRawContent (k + 1) endOffset).2 =
      if k < eolCount (docText T.buffers L) then cutEnd (rawLine (docText T.buffers L) k) endOffset
      else rawLine (docText T.buffers L) k := by
  have hcount := h.length_eq
  -- a line that ends in the node in which it begins is not the last one
  have hwhole : ∀ {l₁ node p l₂ i}, BeginsIn T.buffers L k l₁ node p l₂ i → i < eolCount (content T.buffers p) →
      cutEnd (rawLine (content T.buffers p) i) endOffset =
        if k < eolCount (docText T.buffers L) then cutEnd (rawLine (docText T.buffers L) k) endOffset
        else rawLine (docText T.buffers L) k := by
    intro l₁ node p l₂ i hb hlt
    have hline := h.rawLine_begins hb (Nat.le_of_lt hlt)
    rw [if_pos hlt] at hline
    obtain ⟨rfl, -, rfl⟩ := hb
    have hcountLt : eolCount (docText T.buffers l₁) + i < eolCount (docText T.buffers (l₁ ++ (node, p) :: l₂)) := by
      rw [h.eolCount_split]
      omega
    rw [if_pos hcountLt, hline]
  rw [PieceTreeBase.getLineRawContent]
  cases hget : T.cacheGet2 (k + 1) with
  | some found =>
    obtain ⟨node, n⟩ := found
    obtain ⟨o, hcache, hlt, hge⟩ := cacheGet2_eq hget
    obtain ⟨l₁, p, l₂, hsplit, hstart⟩ := startOf_eq_some (h.cache _ hcache)
    have hn := hlines _ n hcache rfl
    dsimp only at hsplit hstart hn
    have hpiece : T.pieceOf node = p := by
      rw [hsplit] at h
      exact h.pieceOf
    have hvalid : PieceOk T.buffers p := h.valid (node, p) (by rw [hsplit]; simp)
    have hcnt := hvalid.lineFeedCnt (h.positive (node, p) (by rw [hsplit]; simp))
    have htake : (docText T.buffers L).take o = docText T.buffers l₁ := by
      have hlen : (docText T.buffers l₁).length = totalLength l₁ :=
        docText_length fun j hj => h.valid j (by rw [hsplit]; simp [hj])
      rw [hsplit, docText_append, ← hstart, ← hlen, take_left]
    rw [htake] at hn
    obtain ⟨i, hi⟩ : ∃ i, k + 1 = n + i := ⟨k + 1 - n, by omega⟩
    have hb : BeginsIn T.buffers L k l₁ node p l₂ i := ⟨hsplit, .inr (by omega), by omega⟩
    rw [hpiece] at hge
    have hprev : (((k + 1 : Nat) : Int) - n - 1 + 1).toNat = i := by omega
    have hnext : (((k + 1 : Nat) : Int) - n + 1).toNat = i + 1 := by omega
    dsimp only
    rw [hpiece, PieceTreeBase.bufferOf, hvalid.getAccumulatedValue, hvalid.getAccumulatedValue, hprev, hnext, hvalid.lineTail]
    split
    · next hend => exact h.line_of_parts hcut hb (by omega) hcount
    · next hend =>
      have hlt' : i < eolCount (content T.buffers p) := by omega
      rw [hvalid.wholeLine (hcut (node, p) (by rw [hsplit]; simp) i hlt')]
      exact hwhole hb hlt'
  | none =>
    have htext := h.textOf
    by_cases hroot : T.root = .nil
    · rw [hroot, textOf_nil] at htext
      rw [← htext, show eolCount ([] : JsString) = 0 from rfl] at hk ⊢
      obtain rfl : k = 0 := by omega
      rw [hroot]
      rfl
    · obtain ⟨l₁, node, p, l₂, i, entry, hb, hi, hloop⟩ := lineStartLoop_eq ((k + 1 : Nat) : Int) T.root k 0 h.readable hroot
        (by rw [htext]; exact hk) (by rw [h.holds.items]; exact hcut)
      rw [h.holds.items] at hb
      rw [show ((k + 1 : Nat) : Int) = (k : Int) + 1 from rfl] at hloop ⊢
      rw [hloop, lineInNode]
      by_cases hlt : i < eolCount (content T.buffers p)
      · rw [if_pos hlt]
        exact hwhole hb hlt
      · rw [if_neg hlt]
        exact h.line_of_parts hcut hb (by omega) hcount

end Tree

end TongjiCode.PieceTree
