import TongjiCode.PieceTree.Invariant

/-!
# Piece tree: repair of `\r` and `\n`

Where a piece that ends with `\r` has come to stand in front of one that starts with `\n`, `fixCRLF` moves
the pair into a piece of its own (`fixCRLF_spec`).  `Repaired` is what both validations do: the text stays
and no pair is split any more.
-/

open List

namespace TongjiCode.PieceTree

open JsString

variable {bs : List StringBuffer}

section Fix

variable {T : PieceTreeBase} {l₁ l₂ : Nodes} {id : Nat} {p : Piece}

theorem PieceOk.lies_of_head? {c : UInt16} (h : PieceOk bs p) (hc : (content bs p).head? = some c) :
    ∃ b s e, Lies bs p b s e ∧ s < e ∧ b.buffer[s]? = some c := by
  have hpos : 0 < (content bs p).length := length_pos_of_mem (mem_of_head? hc)
  rw [h.length] at hpos
  obtain ⟨b, s, e, h⟩ := h
  rw [h.pieceAt.length] at hpos
  exact ⟨b, s, e, h, by omega, by rw [← h.head? (by omega), hc]⟩

theorem PieceOk.lies_of_getLast? {c : UInt16} (h : PieceOk bs p) (hc : (content bs p).getLast? = some c) :
    ∃ b s e, Lies bs p b s e ∧ s < e ∧ b.buffer[e - 1]? = some c := by
  have hpos : 0 < (content bs p).length := length_pos_of_mem (mem_of_getLast? hc)
  rw [h.length] at hpos
  obtain ⟨b, s, e, h⟩ := h
  rw [h.pieceAt.length] at hpos
  exact ⟨b, s, e, h, by omega, by rw [← h.getLast? (by omega), hc]⟩

theorem PieceOk.dropLF (h : PieceOk T.buffers p) (hlf : (content T.buffers p).head? = some lineFeed) :
    PieceOk T.buffers (T.dropLF p) ∧ content T.buffers p = lineFeed :: content T.buffers (T.dropLF p) ∧
      (T.dropLF p).metadata = p.metadata + (-1, -1) := by
  obtain ⟨b, s, e, h, hlt, hat⟩ := h.lies_of_head? hlf
  obtain ⟨h', hcnt⟩ := h.dropLF hlt hat
  have hlen := h.pieceAt.length
  have hlen' := h'.pieceAt.length
  refine ⟨⟨b, s + 1, e, h'⟩, ?_, ?_⟩
  · rw [h.content, h'.content, JsString.substring, JsString.substring, drop_eq_getElem?_toList_append,
      getElem?_take, if_pos hlt, hat]
    rfl
  · rw [Piece.metadata, Piece.metadata, Prod.mk_add_mk, Prod.mk.injEq]
    omega

theorem PieceOk.dropCR (h : PieceOk T.buffers p) (hcr : (content T.buffers p).getLast? = some carriageReturn) :
    PieceOk T.buffers (T.dropCR p) ∧ content T.buffers p = content T.buffers (T.dropCR p) ++ [carriageReturn] ∧
      (T.dropCR p).metadata = p.metadata + (-1, -1) := by
  obtain ⟨b, s, e, h, hlt, hat⟩ := h.lies_of_getLast? hcr
  obtain ⟨h', hcnt⟩ := h.dropCR hlt hat
  have hlen := h.pieceAt.length
  have hlen' := h'.pieceAt.length
  refine ⟨⟨b, s, e - 1, h'⟩, ?_, ?_⟩
  · have hcontent := h.content
    rw [substring_append b.buffer (show s ≤ e - 1 by omega) (Nat.sub_le e 1), ← h'.content] at hcontent
    have hone : (b.buffer.substring (e - 1) e).length = 1 := by
      rw [substring_length h.pieceAt.bound]
      omega
    obtain ⟨c, hc⟩ := length_eq_one_iff.mp hone
    obtain ⟨t, ht⟩ := getLast?_eq_some_iff.mp hcr
    rw [hc, ht] at hcontent
    obtain ⟨rfl, -⟩ := append_inj' hcontent rfl
    exact ht
  · rw [Piece.metadata, Piece.metadata, Prod.mk_add_mk, Prod.mk.injEq]
    omega

theorem Core.isTail_dropCR {L : Nodes} (h : Core T L) (hp : PieceOk T.buffers p)
    (hcr : (content T.buffers p).getLast? = some carriageReturn) :
    isTail T.lastChangeBufferPos (T.dropCR p) = true → isTail T.lastChangeBufferPos p = true := by
  intro htail
  obtain ⟨b, s, e, hp, hlt, hat⟩ := hp.lies_of_getLast? hcr
  obtain ⟨h', -⟩ := hp.dropCR hlt hat
  have he := ((h.buffers.isTail_iff h').mp htail).2
  have := hp.pieceAt.bound
  omega

end Fix

/-! ## The pair in a piece of its own -/

/-- A node, unless it is empty. -/
def cut (id : Nat) (p : Piece) : Nodes := if p.length = 0 then [] else [(id, p)]

variable {T : PieceTreeBase} {l₁ l₂ : Nodes} {id : Nat} {p : Piece}

theorem Core.cut (h : Core T (l₁ ++ (id, p) :: l₂)) :
    Core (if p.length = 0 then T.rbDelete id else T) (l₁ ++ (cut id p ++ l₂)) := by
  rw [PieceTree.cut]
  split
  · exact h.rbDelete
  · exact h

theorem cut_frame (T : PieceTreeBase) (id : Nat) (p : Piece) :
    Frame T (if p.length = 0 then T.rbDelete id else T) ∧
      (if p.length = 0 then T.rbDelete id else T).buffers = T.buffers := by
  split
  · exact ⟨rbDelete_frame T id, rfl⟩
  · exact ⟨Frame.refl T, rfl⟩

theorem docText_cut (h : PieceOk bs p) :
    docText bs (cut id p) = content bs p := by
  rw [cut]
  split
  · next hzero =>
    rw [← h.length] at hzero
    rw [length_eq_zero_iff.mp hzero]
    rfl
  · simp

structure Fixed (T : PieceTreeBase) (l₁ : Nodes) (i : Nat) (p : Piece) (j : Nat) (q : Piece) (l₂ : Nodes)
    (T' : PieceTreeBase) (p' q' r : Piece) : Prop where
  core : Core T' (l₁ ++ (cut i p' ++ (T.nextId, r) :: (cut j q' ++ l₂)))
  frame : Frame T T'
  grown : Grown T.buffers T'.buffers
  prev : PieceOk T.buffers p' ∧ content T.buffers p = content T.buffers p' ++ [carriageReturn]
  next : PieceOk T.buffers q' ∧ content T.buffers q = lineFeed :: content T.buffers q'
  pair : PieceOk T'.buffers r ∧ content T'.buffers r = [carriageReturn, lineFeed]

theorem insertPair_spec {i : Nat} (h : Core T (l₁ ++ (i, p) :: l₂)) (hcheck : T.shouldCheckCRLF = true) :
    let T₁ := (T.createNewPieces [carriageReturn, lineFeed]).1
    let pieces := (T.createNewPieces [carriageReturn, lineFeed]).2
    ∃ T' r, T' = (T₁.insertPiecesRight (some i) (pieces.take 1)).1 ∧ Core T' (l₁ ++ (i, p) :: (T.nextId, r) :: l₂) ∧ Frame T T' ∧ Grown T.buffers T'.buffers ∧
      PieceOk T'.buffers r ∧ content T'.buffers r = [carriageReturn, lineFeed] := by
  intro T₁ pieces
  obtain ⟨h1, hframe1, hid, hnew, htails⟩ := h.createNewPieces [carriageReturn, lineFeed] (by decide) (by
    intro hfalse
    exact Bool.noConfusion (hcheck.symm.trans hfalse))
  obtain ⟨r, hr⟩ := createNewPieces_small T (show ¬ [carriageReturn, lineFeed].length > averageBufferSize by decide)
  have hpieces : pieces.take 1 = [r] := by
    show List.take 1 (T.createNewPieces [carriageReturn, lineFeed]).2 = [r]
    rw [hr]
    rfl
  rw [hr] at hnew htails
  have h2 := h1.insertPiecesRight [r] (fun x hx => (hnew.valid x hx).1) htails
  obtain ⟨hframe2, hbuffers, -⟩ := insertPiecesRight_frame [r] T₁ (some i)
  refine ⟨_, r, rfl, ?_⟩
  rw [hpieces, hbuffers]
  refine ⟨?_, hframe1.trans hframe2, hnew.grown, (hnew.valid r mem_cons_self).1, ?_⟩
  · rw [hid] at h2
    exact h2
  · have hspells := hnew.spells
    simpa using hspells

theorem fixCRLF_spec {i j : Nat} {p q : Piece} (h : Core T (l₁ ++ (i, p) :: (j, q) :: l₂))
    (hcr : (content T.buffers p).getLast? = some carriageReturn) (hlf : (content T.buffers q).head? = some lineFeed)
    (hcheck : T.shouldCheckCRLF = true) :
    ∃ p' q' r, Fixed T l₁ i p j q l₂ (T.fixCRLF i j) p' q' r := by
  have hvalid := forall_mem_middle.mp h.valid
  have hp : PieceOk T.buffers p := hvalid.2.1
  have hq : PieceOk T.buffers q := (forall_mem_cons.mp hvalid.2.2).1
  obtain ⟨hp', hpcontent, hpdelta⟩ := hp.dropCR hcr
  obtain ⟨hq', hqcontent, hqdelta⟩ := hq.dropLF hlf
  -- the two pieces get shorter
  have h1 := h.replacePiece hp' hpdelta (h.isTail_dropCR hp hcr)
  have h1' : Core (T.replacePiece i (T.dropCR p) (-1) (-1)) ((l₁ ++ [(i, T.dropCR p)]) ++ (j, q) :: l₂) := by
    rw [append_assoc]
    exact h1
  have h2 := h1'.replacePiece (q := T.dropLF q) hq' hqdelta fun htail => htail
  rw [append_assoc] at h2
  -- the pair comes in between, and empty nodes go
  obtain ⟨T₃, r, hT3, h3, hframe, hgrown, hr⟩ := insertPair_spec h2 hcheck
  have heq : T.fixCRLF i j = if (T.dropLF q).length = 0
      then (if (T.dropCR p).length = 0 then T₃.rbDelete i else T₃).rbDelete j
      else if (T.dropCR p).length = 0 then T₃.rbDelete i else T₃ := by
    rw [hT3, PieceTreeBase.fixCRLF, h.pieceOf]
    rw [h1'.pieceOf]
    rfl
  have h4 : Core (if (T.dropCR p).length = 0 then T₃.rbDelete i else T₃)
      ((l₁ ++ cut i (T.dropCR p) ++ [(T.nextId, r)]) ++ (j, T.dropLF q) :: l₂) := by
    rw [append_assoc, append_assoc]
    exact h3.cut
  have h5 := h4.cut
  rw [append_assoc, append_assoc] at h5
  obtain ⟨hframe4, hbuffers4⟩ := cut_frame T₃ i (T.dropCR p)
  obtain ⟨hframe5, hbuffers5⟩ := cut_frame (if (T.dropCR p).length = 0 then T₃.rbDelete i else T₃) j (T.dropLF q)
  have hframe' := ((replacePiece_frame T i _ _ _).trans (replacePiece_frame _ j _ _ _)).trans hframe
  rw [← hbuffers4, ← hbuffers5] at hgrown hr
  refine ⟨T.dropCR p, T.dropLF q, r, ?_⟩
  rw [heq]
  exact ⟨h5, hframe'.trans (hframe4.trans hframe5), hgrown, ⟨hp', hpcontent⟩, ⟨hq', hqcontent⟩, hr⟩

/-! ## Validation -/

/-- What a validation between the nodes `A` and the nodes `B` does.  It replaces the last of `A` and the
first of `B` at most. -/
structure Repaired (T : PieceTreeBase) (A B : Nodes) (T' : PieceTreeBase) (front : Nodes) : Prop where
  core : Core T' (front ++ B.tail)
  positive : Positive A → Positive (B.take 1) → Positive front
  text : docText T'.buffers (front ++ B.tail) = docText T.buffers (A ++ B)
  joined : Joined none (texts T'.buffers (front ++ B.tail))
  frame : Frame T T'
  stays : ∀ n, n < T.nextId → B.head?.map Prod.fst ≠ some n → Stays (A ++ B) (front ++ B.tail) n

theorem repaired_self {A B : Nodes} (h : Core T (A ++ B)) (hA : Joined none (texts T.buffers A))
    (hB : Joined none (texts T.buffers B)) (hjoin : ¬ Junction (docText T.buffers A) (docText T.buffers B)) :
    Repaired T A B T (A ++ B.take 1) := by
  have hAB : A ++ B.take 1 ++ B.tail = A ++ B := by
    rw [append_assoc, ← drop_one, take_append_drop]
  refine ⟨?_, ?_, ?_, ?_, Frame.refl T, ?_⟩
  · rw [hAB]
    exact h
  · intro h1 h2
    exact positive_append.mpr ⟨h1, h2⟩
  · rw [hAB]
  · rw [hAB, texts_append]
    exact joined_append_iff.mpr ⟨hA, hB, hjoin⟩
  · intro n _ _
    rw [hAB]
    exact .inr rfl

theorem cut_length : totalLength (cut id p) = p.length := by
  rw [cut]
  split
  · next h => rw [h]; rfl
  · simp [totalLength]

theorem startOf_cut_ne {id n : Nat} (p : Piece) (h : id ≠ n) : startOf (cut id p) n = none := by
  rw [cut]
  split
  · rfl
  · rw [startOf, if_neg h]
    rfl

theorem positive_cut (id : Nat) (p : Piece) : Positive (cut id p) := by
  rw [cut]
  split
  · intro i hi
    cases hi
  · next h =>
    intro i hi
    rw [mem_singleton] at hi
    rw [hi]
    exact Nat.pos_of_ne_zero h

theorem joined_cut (bs : List StringBuffer) (id : Nat) (p : Piece) : Joined none (texts bs (cut id p)) := by
  rw [cut]
  split
  · trivial
  · exact ⟨by simp, trivial⟩

section Repair

variable {T T' : PieceTreeBase} {l₁ l₂ : Nodes} {i j : Nat} {p q p' q' r : Piece}

section

variable (h : Core T (l₁ ++ (i, p) :: (j, q) :: l₂)) (hfixed : Fixed T l₁ i p j q l₂ T' p' q' r)
include h hfixed

theorem Fixed.stays {n : Nat} (hn : n < T.nextId) (hj : j ≠ n) : Stays (l₁ ++ (i, p) :: (j, q) :: l₂)
      (l₁ ++ (cut i p' ++ (T.nextId, r) :: (cut j q' ++ l₂))) n := by
  have hvalid := forall_mem_middle.mp h.valid
  have hp : PieceOk T.buffers p := hvalid.2.1
  have hq : PieceOk T.buffers q := (forall_mem_cons.mp hvalid.2.2).1
  have hplen := congrArg List.length hfixed.prev.2
  have hqlen := congrArg List.length hfixed.next.2
  have hrlen := congrArg List.length hfixed.pair.2
  rw [hp.length, length_append, hfixed.prev.1.length] at hplen
  rw [hq.length, length_cons, hfixed.next.1.length] at hqlen
  rw [hfixed.pair.1.length] at hrlen
  simp only [length_cons, length_nil] at hplen hrlen
  rw [Stays, startOf_append, startOf_append l₁]
  cases hl1 : startOf l₁ n with
  | some o => exact .inr rfl
  | none =>
    rw [Option.none_or, Option.none_or, startOf, startOf, if_neg hj, startOf_append, startOf,
      if_neg (show T.nextId ≠ n by omega), startOf_append, startOf_cut_ne q' hj, Option.none_or, cut_length]
    by_cases hi : i = n
    · subst hi
      rw [if_pos rfl, cut]
      split
      · left
        have hnodup := h.holds.nodup
        have hl2 : startOf l₂ i = none := by
          rw [startOf_eq_none]
          intro hmem
          simp only [map_append, map_cons, nodup_append, nodup_cons, mem_cons] at hnodup
          exact hnodup.2.1.1 (.inr hmem)
        rw [hl2]
        rfl
      · right
        rw [startOf, if_pos rfl]
        rfl
    · right
      rw [if_neg hi, startOf_cut_ne p' hi, Option.none_or, cut_length]
      cases startOf l₂ n with
      | none => rfl
      | some o =>
        simp only [Option.map_some, Option.some.injEq]
        omega

section

variable (hA : Joined none (texts T.buffers (l₁ ++ [(i, p)]))) (hB : Joined none (texts T.buffers ((j, q) :: l₂)))
include hA hB

theorem Fixed.joined :
    Joined none (texts T'.buffers (l₁ ++ (cut i p' ++ (T.nextId, r) :: (cut j q' ++ l₂)))) := by
  have hvalid := forall_mem_middle.mp h.valid
  have hl2 := (forall_mem_cons.mp hvalid.2.2).2
  have hdoc2 : docText T'.buffers l₂ = docText T.buffers l₂ := congrArg _ (texts_grown hfixed.grown hl2)
  have hprev := (hfixed.grown _ hfixed.prev.1)
  have hnext := (hfixed.grown _ hfixed.next.1)
  obtain ⟨hA1, -, hA2⟩ := joined_texts_append.mp hA
  obtain ⟨hB1, hB2⟩ := joined_texts_cons.mp hB
  -- the parts, from the end
  have htail : Joined none (texts T'.buffers (cut j q' ++ l₂)) := by
    refine joined_texts_append.mpr ⟨joined_cut _ _ _, ?_, ?_⟩
    · rw [texts_grown hfixed.grown hl2]
      exact hB2
    · rw [docText_cut hnext.1, hnext.2, hdoc2]
      intro hjoin
      refine hB1 ?_
      rw [hfixed.next.2]
      have hne : content T.buffers q' ≠ [] := by
        intro hnil
        rw [hnil] at hjoin
        exact not_junction_nil_left _ hjoin
      exact (junction_append_left (a := [lineFeed]) hne).mpr hjoin
  have hpair : Joined none (texts T'.buffers ((T.nextId, r) :: (cut j q' ++ l₂))) := by
    refine joined_texts_cons.mpr ⟨?_, htail⟩
    rw [hfixed.pair.2]
    rintro ⟨hlast, -⟩
    exact absurd hlast (by decide)
  have hdoc : docText T'.buffers ((T.nextId, r) :: (cut j q' ++ l₂)) =
      [carriageReturn] ++ (lineFeed :: docText T'.buffers (cut j q' ++ l₂)) := by
    rw [docText_cons, hfixed.pair.2]
    rfl
  have hcut : Joined none (texts T'.buffers (cut i p' ++ (T.nextId, r) :: (cut j q' ++ l₂))) := by
    refine joined_texts_append.mpr ⟨joined_cut _ _ _, hpair, ?_⟩
    rw [hdoc]
    rintro ⟨-, hhead⟩
    exact absurd (Option.some.inj hhead) (by decide)
  refine joined_texts_append.mpr ⟨?_, hcut, ?_⟩
  · rw [texts_grown hfixed.grown hvalid.1]
    exact hA1
  · have hdoc1 : docText T'.buffers l₁ = docText T.buffers l₁ := congrArg _ (texts_grown hfixed.grown hvalid.1)
    rw [docText_append, hdoc, docText_cut hprev.1, hprev.2, hdoc1, ← append_assoc, ← hfixed.prev.2,
      junction_append_right (by rw [hfixed.prev.2]; simp)]
    simpa using hA2

omit hA hB in
theorem Fixed.text :
    docText T'.buffers (l₁ ++ (cut i p' ++ (T.nextId, r) :: (cut j q' ++ l₂))) =
      docText T.buffers (l₁ ++ (i, p) :: (j, q) :: l₂) := by
  have hvalid := forall_mem_middle.mp h.valid
  have hl2 := (forall_mem_cons.mp hvalid.2.2).2
  have hdoc1 : docText T'.buffers l₁ = docText T.buffers l₁ := congrArg _ (texts_grown hfixed.grown hvalid.1)
  have hdoc2 : docText T'.buffers l₂ = docText T.buffers l₂ := congrArg _ (texts_grown hfixed.grown hl2)
  have hprev := (hfixed.grown _ hfixed.prev.1)
  have hnext := (hfixed.grown _ hfixed.next.1)
  rw [docText_append, docText_append, docText_cons, docText_append, docText_cut hprev.1, docText_cut hnext.1,
    hprev.2, hnext.2, hfixed.pair.2, hdoc1, hdoc2, docText_append, docText_cons, docText_cons]
  rw [hfixed.prev.2, hfixed.next.2]
  simp

theorem Fixed.repaired :
    Repaired T (l₁ ++ [(i, p)]) ((j, q) :: l₂) T' (l₁ ++ (cut i p' ++ (T.nextId, r) :: cut j q')) := by
  have hlist : l₁ ++ (cut i p' ++ (T.nextId, r) :: cut j q') ++ ((j, q) :: l₂).tail =
      l₁ ++ (cut i p' ++ (T.nextId, r) :: (cut j q' ++ l₂)) := by simp
  have hold : l₁ ++ [(i, p)] ++ (j, q) :: l₂ = l₁ ++ (i, p) :: (j, q) :: l₂ := by simp
  have hrlen := congrArg List.length hfixed.pair.2
  rw [hfixed.pair.1.length] at hrlen
  constructor
  · rw [hlist]
    exact hfixed.core
  · intro hpos _
    refine positive_append.mpr ⟨(positive_append.mp hpos).1, positive_append.mpr ⟨positive_cut _ _, ?_⟩⟩
    refine positive_cons.mpr ⟨?_, positive_cut _ _⟩
    show 0 < r.length
    rw [hrlen]
    decide
  · rw [hlist, hold]
    exact hfixed.text h
  · rw [hlist]
    exact hfixed.joined h hA hB
  · exact hfixed.frame
  · intro n hn hj
    rw [hlist, hold]
    exact hfixed.stays h hn fun heq => hj (congrArg some heq)

end

end

end Repair

section Validate

variable {T : PieceTreeBase} {A B : Nodes}

/-- Where no check is made, no text holds a `\r`. -/
theorem Core.noCr_docText {L : Nodes} (h : Core T L) (hcheck : T.shouldCheckCRLF = false) :
    carriageReturn ∉ docText T.buffers L := by
  intro hmem
  obtain ⟨t, ht, hcr⟩ := mem_flatten.mp hmem
  obtain ⟨i, hi, rfl⟩ := mem_map.mp ht
  obtain ⟨b, s, e, hlies⟩ := h.valid i hi
  rw [hlies.content] at hcr
  exact h.noCr hcheck b (mem_of_getElem? hlies.buffer) (mem_of_mem_take (mem_of_mem_drop hcr))

section

variable (h : Core T (l₁ ++ (id, p) :: l₂))
include h

theorem Core.pieceOk : PieceOk T.buffers p :=
  (forall_mem_middle.mp h.valid).2.1

theorem Core.startWithLF (hpos : 0 < p.length) :
    T.startWithLF (some id) = true ↔ (content T.buffers p).head? = some lineFeed := by
  obtain ⟨b, s, e, hlies⟩ := h.pieceOk
  have hlen := hlies.pieceAt.length
  exact hlies.startWithLF h.pieceOf (by omega)

theorem Core.endWithCR (hpos : 0 < p.length) :
    T.endWithCR (some id) = true ↔ (content T.buffers p).getLast? = some carriageReturn := by
  obtain ⟨b, s, e, hlies⟩ := h.pieceOk
  have hlen := hlies.pieceAt.length
  exact hlies.endWithCR h.pieceOf (by omega)

end

theorem content_ne_nil (h : PieceOk bs p) (hpos : 0 < p.length) :
    content bs p ≠ [] := by
  rw [← length_pos_iff, h.length]
  exact hpos

variable {l₁ l₂ : Nodes} {i j : Nat} {p q : Piece}

section

variable (h : Core T (l₁ ++ (i, p) :: (j, q) :: l₂)) (hp : 0 < p.length) (hq : 0 < q.length)
include h hp hq

theorem Core.junction_iff :
    Junction (docText T.buffers (l₁ ++ [(i, p)])) (docText T.buffers ((j, q) :: l₂)) ↔
      T.endWithCR (some i) = true ∧ T.startWithLF (some j) = true := by
  have h' : Core T ((l₁ ++ [(i, p)]) ++ (j, q) :: l₂) := by
    rw [append_assoc]
    exact h
  rw [h.endWithCR hp, h'.startWithLF hq, docText_append, docText_cons, docText_cons, docText_nil, append_nil,
    junction_append_left (content_ne_nil h.pieceOk hp), junction_append_right (content_ne_nil h'.pieceOk hq)]
  rfl

theorem validate_pair (hA : Joined none (texts T.buffers (l₁ ++ [(i, p)])))
    (hB : Joined none (texts T.buffers ((j, q) :: l₂))) {T' : PieceTreeBase}
    (hT' : T' = if T.shouldCheckCRLF && T.endWithCR (some i) && T.startWithLF (some j) then T.fixCRLF i j else T) :
    ∃ front, Repaired T (l₁ ++ [(i, p)]) ((j, q) :: l₂) T' front := by
  have h' : Core T ((l₁ ++ [(i, p)]) ++ (j, q) :: l₂) := by
    rw [append_assoc]
    exact h
  by_cases hfix : (T.shouldCheckCRLF && T.endWithCR (some i) && T.startWithLF (some j)) = true
  · rw [if_pos hfix] at hT'
    rw [Bool.and_eq_true, Bool.and_eq_true] at hfix
    obtain ⟨⟨hcheck, hcr⟩, hlf⟩ := hfix
    obtain ⟨p', q', r, hfixed⟩ := fixCRLF_spec h ((h.endWithCR hp).mp hcr) ((h'.startWithLF hq).mp hlf) hcheck
    exact ⟨_, hT' ▸ hfixed.repaired h hA hB⟩
  · rw [if_neg hfix] at hT'
    rw [hT']
    refine ⟨_, repaired_self h' hA hB ?_⟩
    intro hjoin
    refine hfix ?_
    obtain ⟨hcr, hlf⟩ := (h.junction_iff hp hq).mp hjoin
    rw [hcr, hlf, Bool.and_true, Bool.and_true]
    cases hcheck : T.shouldCheckCRLF with
    | true => rfl
    | false =>
      refine (h'.noCr_docText hcheck ?_).elim
      rw [docText_append]
      exact mem_append_left _ (mem_of_getLast? hjoin.1)

end

section

variable (h : Core T (A ++ B)) (hlast : ∀ i, A.getLast? = some i → 0 < i.2.length)
variable (hhead : ∀ i, B.head? = some i → 0 < i.2.length) (hA : Joined none (texts T.buffers A))
variable (hB : Joined none (texts T.buffers B))
include h hlast hhead hA hB

theorem validateCRLFWithPrevNode_spec :
    ∃ front, Repaired T A B (T.validateCRLFWithPrevNode (B.head?.map Prod.fst)) front := by
  cases B with
  | nil => exact ⟨_, repaired_self h hA hB (not_junction_nil_right _)⟩
  | cons b l₂ =>
    obtain ⟨j, q⟩ := b
    have hprev := h.holds.prev
    rcases eq_nil_or_concat A with rfl | ⟨l₁, a, rfl⟩
    · have heq : T.validateCRLFWithPrevNode (some j) = T := by
        rw [PieceTreeBase.validateCRLFWithPrevNode, hprev]
        split <;> rfl
      refine ⟨[] ++ [(j, q)], ?_⟩
      show Repaired T [] ((j, q) :: l₂) (T.validateCRLFWithPrevNode (some j)) ([] ++ [(j, q)])
      rw [heq]
      exact repaired_self h hA hB (not_junction_nil_left _)
    · obtain ⟨i, p⟩ := a
      rw [concat_eq_append] at h hA hlast hprev ⊢
      refine validate_pair (by rwa [append_assoc] at h) (hlast (i, p) (by simp)) (hhead (j, q) rfl) hA hB ?_
      show T.validateCRLFWithPrevNode (some j) = _
      rw [PieceTreeBase.validateCRLFWithPrevNode, hprev]
      simp only [getLast?_append, getLast?_singleton, Option.some_or, Option.map_some]
      cases T.shouldCheckCRLF <;> cases T.startWithLF (some j) <;> cases T.endWithCR (some i) <;> rfl

theorem validateCRLFWithNextNode_spec :
    ∃ front, Repaired T A B (T.validateCRLFWithNextNode (A.getLast?.map Prod.fst)) front := by
  rcases eq_nil_or_concat A with rfl | ⟨l₁, a, rfl⟩
  · exact ⟨_, repaired_self h hA hB (not_junction_nil_left _)⟩
  · obtain ⟨i, p⟩ := a
    rw [concat_eq_append] at h hA hlast ⊢
    have hA' : (l₁ ++ [(i, p)]).getLast?.map Prod.fst = some i := by simp
    rw [hA']
    have h' : Core T (l₁ ++ (i, p) :: B) := by rwa [append_assoc] at h
    have hnext := h'.holds.next
    cases B with
    | nil =>
      have heq : T.validateCRLFWithNextNode (some i) = T := by
        rw [PieceTreeBase.validateCRLFWithNextNode, hnext]
        split <;> rfl
      rw [heq]
      exact ⟨_, repaired_self h hA hB (not_junction_nil_right _)⟩
    | cons b l₂ =>
      obtain ⟨j, q⟩ := b
      refine validate_pair h' (hlast (i, p) (by simp)) (hhead (j, q) rfl) hA hB ?_
      rw [PieceTreeBase.validateCRLFWithNextNode, hnext]
      simp only [head?_cons, Option.map_some]
      cases T.shouldCheckCRLF <;> cases T.startWithLF (some j) <;> cases T.endWithCR (some i) <;> rfl

end

end Validate

/-! ## A `\n` taken from the next node -/

section Adjust

variable {T : PieceTreeBase} {l₁ l₂ : Nodes} {i : Nat} {p : Piece} {value : JsString}

/-- A value and the nodes behind it, after the `\n` that belongs to the value has been taken from them. -/
structure Adjusted (T : PieceTreeBase) (value : JsString) (B : Nodes) (value' : JsString) (B' : Nodes) : Prop where
  positive : Positive B'
  joined : Joined none (texts T.buffers B')
  text : value' ++ docText T.buffers B' = value ++ docText T.buffers B
  noJunction : ¬ Junction value' (docText T.buffers B')
  ne_nil : value' ≠ []
  head : value'.head? = value.head?
  noCr : carriageReturn ∉ value → carriageReturn ∉ value'

theorem adjusted_self {B : Nodes} (hne : value ≠ []) (hpos : Positive B) (hB : Joined none (texts T.buffers B))
    (h : ¬ Junction value (docText T.buffers B)) : Adjusted T value B value B :=
  ⟨hpos, hB, rfl, h, hne, rfl, id⟩

theorem adjusted_drop {j : Nat} {q : Piece} (hne : value ≠ []) (hpos : Positive ((j, q) :: l₂))
    (hq : PieceOk T.buffers q) (hB : Joined none (texts T.buffers ((j, q) :: l₂)))
    (hlf : (content T.buffers q).head? = some lineFeed) :
    Adjusted T value ((j, q) :: l₂) (value ++ [lineFeed]) (cut j (T.dropLF q) ++ l₂) := by
  obtain ⟨hq', hcontent, -⟩ := hq.dropLF hlf
  obtain ⟨hB1, hB2⟩ := joined_texts_cons.mp hB
  refine ⟨positive_append.mpr ⟨positive_cut _ _, (positive_cons.mp hpos).2⟩, ?_, ?_, ?_, by simp, ?_, ?_⟩
  · refine joined_texts_append.mpr ⟨joined_cut _ _ _, hB2, ?_⟩
    rw [docText_cut hq']
    intro hjoin
    refine hB1 ?_
    have hne' : content T.buffers (T.dropLF q) ≠ [] := by
      intro hnil
      rw [hnil] at hjoin
      exact not_junction_nil_left _ hjoin
    rw [hcontent]
    exact (junction_append_left (a := [lineFeed]) hne').mpr hjoin
  · rw [docText_append, docText_cut hq', docText_cons, hcontent]
    simp
  · rintro ⟨hlast, -⟩
    rw [getLast?_concat] at hlast
    exact cr_ne_lf (Option.some.inj hlast).symm
  · rw [head?_append_of_ne_nil _ hne]
  · intro hcr
    rw [mem_append, not_or]
    exact ⟨hcr, by decide⟩

theorem adjustCarriageReturnFromNext_spec (h : Core T (l₁ ++ (i, p) :: l₂)) (hne : value ≠ []) (hpos : Positive l₂)
    (hB : Joined none (texts T.buffers l₂)) (hcr : T.shouldCheckCRLF = false → carriageReturn ∉ value) :
    ∃ T₁ moved l2', T.adjustCarriageReturnFromNext value i = (T₁, moved) ∧ Core T₁ (l₁ ++ (i, p) :: l2') ∧
      Frame T T₁ ∧ T₁.buffers = T.buffers ∧
      Adjusted T value l₂ (if moved then value ++ [lineFeed] else value) l2' := by
  have hnext := h.holds.next
  -- where the value and the next node do not split a pair, nothing is done
  have hself : ∀ {T₁ : PieceTreeBase × Bool}, T₁ = (T, false) → ¬ Junction value (docText T.buffers l₂) →
      ∃ T₂ moved l2', T₁ = (T₂, moved) ∧ Core T₂ (l₁ ++ (i, p) :: l2') ∧ Frame T T₂ ∧ T₂.buffers = T.buffers ∧
        Adjusted T value l₂ (if moved then value ++ [lineFeed] else value) l2' := by
    intro T₁ hT1 hjoin
    exact ⟨T, false, l₂, hT1, h, Frame.refl T, rfl, adjusted_self hne hpos hB hjoin⟩
  rw [PieceTreeBase.adjustCarriageReturnFromNext, hnext]
  split
  · next hend =>
    cases l₂ with
    | nil => exact hself rfl (not_junction_nil_right _)
    | cons b l₂ =>
      obtain ⟨j, q⟩ := b
      have h' : Core T ((l₁ ++ [(i, p)]) ++ (j, q) :: l₂) := by
        rw [append_assoc]
        exact h
      have hqpos := (positive_cons.mp hpos).1
      have hiff := h'.startWithLF hqpos
      simp only [head?_cons, Option.map_some]
      split
      · next hlf =>
        rw [hiff] at hlf
        obtain ⟨hq', -, hdelta⟩ := h'.pieceOk.dropLF hlf
        have hadjusted := adjusted_drop hne hpos h'.pieceOk hB hlf
        rw [h'.pieceOf]
        have hlen : (T.dropLF q).length = q.length - 1 := rfl
        split
        · next hone =>
          have hcut : cut j (T.dropLF q) = [] := by rw [cut, if_pos (by omega)]
          rw [hcut] at hadjusted
          refine ⟨_, true, l₂, rfl, ?_, rbDelete_frame T j, rfl, hadjusted⟩
          have := h'.rbDelete
          rw [append_assoc] at this
          exact this
        · next hone =>
          have hcut : cut j (T.dropLF q) = [(j, T.dropLF q)] := by
            rw [cut, if_neg (by dsimp only at hqpos; omega)]
          rw [hcut] at hadjusted
          refine ⟨_, true, (j, T.dropLF q) :: l₂, rfl, ?_, replacePiece_frame T j _ _ _, rfl, hadjusted⟩
          have := h'.replacePiece hq' hdelta fun htail => htail
          rw [append_assoc] at this
          exact this
      · next hlf =>
        refine hself rfl ?_
        rw [docText_cons, junction_append_right (content_ne_nil h'.pieceOk hqpos)]
        exact fun hjoin => hlf (hiff.mpr hjoin.2)
  · next hend =>
    refine hself rfl fun hjoin => hend ?_
    rw [Bool.and_eq_true, decide_eq_true_eq]
    refine ⟨?_, hjoin.1⟩
    cases hcheck : T.shouldCheckCRLF with
    | true => rfl
    | false => exact (hcr hcheck (mem_of_getLast? hjoin.1)).elim

end Adjust

end TongjiCode.PieceTree
