import TongjiCode.Tokens.Trimming

/-!
# Partial updates of the store

`setPartial` trims the pieces around a range and puts the new pieces in between.  When no piece that it trims has a gap at
its front, the store holds the former tokens that do not touch the range and those of the new pieces, in order.
-/

open List

namespace TongjiCode.Tokens

def tokensOf (pieces : List SparseMultilineTokens) : List AbsoluteToken := pieces.flatMap SparseMultilineTokens.absolute

/-- Pieces in document order.  A piece may have no tokens, but it starts above the tokens of those that follow. -/
structure Ordered (pieces : List SparseMultilineTokens) : Prop where
  wellFormed : ∀ piece ∈ pieces, piece.WellFormed
  endLineNumber : ∀ piece ∈ pieces,
    piece.endLineNumber = piece.startLineNumber + Storage.getMaxDeltaLine piece.tokens
  sorted : (tokensOf pieces).Pairwise AbsoluteToken.StartsBefore
  lines : pieces.Pairwise fun piece piece' => ∀ t ∈ piece'.absolute, piece.startLineNumber ≤ t.lineNumber

section Ordering

variable {range : Range} {piece : SparseMultilineTokens} {t : AbsoluteToken} {l r mid : List SparseMultilineTokens}

theorem tokensOf_append (l r : List SparseMultilineTokens) : tokensOf (l ++ r) = tokensOf l ++ tokensOf r :=
  flatMap_append

theorem tokensOf_cons (piece : SparseMultilineTokens) (r : List SparseMultilineTokens) :
    tokensOf (piece :: r) = piece.absolute ++ tokensOf r := rfl

theorem mem_tokensOf : t ∈ tokensOf l ↔ ∃ piece ∈ l, t ∈ piece.absolute := mem_flatMap

theorem startsBefore_lineNumber {a b : AbsoluteToken} (h : a.StartsBefore b) : a.lineNumber ≤ b.lineNumber := by
  unfold AbsoluteToken.StartsBefore at h
  omega

theorem wellFormed_of_lines (hproper : ∀ t ∈ piece.absolute, t.Proper)
    (hsorted : piece.absolute.Pairwise AbsoluteToken.StartsBefore)
    (hlines : ∀ t ∈ piece.absolute, piece.startLineNumber ≤ t.lineNumber) : piece.WellFormed := by
  refine wellFormed_iff.mpr ⟨fun token htoken => ?_, hproper, hsorted⟩
  have hline := hlines _ (mem_map_of_mem htoken)
  unfold Token.absolute at hline
  dsimp only at hline
  omega

theorem startsAtFirst_lines (hsorted : piece.absolute.Pairwise AbsoluteToken.StartsBefore) (hfirst : StartsAtFirst piece) :
    ∀ t ∈ piece.absolute, piece.startLineNumber ≤ t.lineNumber := by
  unfold StartsAtFirst at hfirst
  intro t ht
  cases htokens : piece.absolute with
  | nil =>
    rw [htokens] at ht
    cases ht
  | cons first rest =>
    rw [htokens] at ht hfirst hsorted
    rw [← hfirst first rfl]
    rcases mem_cons.mp ht with rfl | hmem
    · exact Int.le_refl _
    · exact startsBefore_lineNumber ((pairwise_cons.mp hsorted).1 t hmem)

section

variable (hwell : piece.WellFormed)
variable (hend : piece.endLineNumber = piece.startLineNumber + Storage.getMaxDeltaLine piece.tokens)
include hwell hend

theorem lineNumber_le (ht : t ∈ piece.absolute) :
    t.lineNumber ≤ piece.endLineNumber := by
  obtain ⟨token, htoken, rfl⟩ := mem_map.mp ht
  have hmax := deltaLine_le_max hwell.sorted htoken
  unfold Token.absolute
  dsimp only
  omega

omit hwell hend in
theorem getMaxDeltaLine_ge (hwell : piece.WellFormed) : -1 ≤ Storage.getMaxDeltaLine piece.tokens := by
  unfold Storage.getMaxDeltaLine
  cases hlast : piece.tokens.getLast? with
  | none => exact Int.le_refl _
  | some token =>
    have hdelta := (hwell.proper token (mem_of_getLast? hlast)).1
    show -1 ≤ token.deltaLine
    omega

theorem startLineNumber_le_end :
    piece.startLineNumber ≤ piece.endLineNumber + 1 := by
  have hmax := getMaxDeltaLine_ge hwell
  omega

end

theorem Ordered.replace (h : Ordered (l ++ piece :: r)) (hwell : ∀ piece' ∈ mid, piece'.WellFormed)
    (hend : ∀ piece' ∈ mid, piece'.endLineNumber = piece'.startLineNumber + Storage.getMaxDeltaLine piece'.tokens)
    (htokens : (tokensOf mid).Sublist piece.absolute)
    (hlines : mid.Pairwise fun piece piece' => ∀ t ∈ piece'.absolute, piece.startLineNumber ≤ t.lineNumber)
    (hstart : ∀ piece' ∈ mid, piece'.startLineNumber = piece.startLineNumber ∨
      ∃ t ∈ piece'.absolute, piece'.startLineNumber ≤ t.lineNumber) : Ordered (l ++ (mid ++ r)) := by
  obtain ⟨hwell', hend', hsorted, hlines'⟩ := h
  rw [pairwise_append, pairwise_cons] at hlines'
  obtain ⟨hl, ⟨hpiece, hr⟩, hcross⟩ := hlines'
  rw [tokensOf_append, tokensOf_cons] at hsorted
  have hbehind : ∀ t ∈ piece.absolute, ∀ t' ∈ tokensOf r, t.StartsBefore t' :=
    (pairwise_append.mp (pairwise_append.mp hsorted).2.1).2.2
  refine ⟨fun piece' hmem => ?_, fun piece' hmem => ?_, ?_, ?_⟩
  · rcases mem_append.mp hmem with hmem | hmem
    · exact hwell' piece' (mem_append_left _ hmem)
    · rcases mem_append.mp hmem with hmem | hmem
      · exact hwell piece' hmem
      · exact hwell' piece' (mem_append_right _ (mem_cons_of_mem _ hmem))
  · rcases mem_append.mp hmem with hmem | hmem
    · exact hend' piece' (mem_append_left _ hmem)
    · rcases mem_append.mp hmem with hmem | hmem
      · exact hend piece' hmem
      · exact hend' piece' (mem_append_right _ (mem_cons_of_mem _ hmem))
  · rw [tokensOf_append, tokensOf_append]
    exact hsorted.sublist ((htokens.append_right _).append_left _)
  · rw [pairwise_append, pairwise_append]
    refine ⟨hl, ⟨hlines, hr, fun piece' hmem piece'' hmem' t ht => ?_⟩, fun piece' hmem piece'' hmem' t ht => ?_⟩
    · rcases hstart piece' hmem with hsame | ⟨t', ht', hle⟩
      · rw [hsame]
        exact hpiece piece'' hmem' t ht
      · have hmem'' := htokens.subset (mem_tokensOf.mpr ⟨piece', hmem, ht'⟩)
        have := startsBefore_lineNumber (hbehind t' hmem'' t (mem_tokensOf.mpr ⟨piece'', hmem', ht⟩))
        omega
    · rcases mem_append.mp hmem' with hmem' | hmem'
      · exact hcross piece' hmem piece mem_cons_self t (htokens.subset (mem_tokensOf.mpr ⟨piece'', hmem', ht⟩))
      · exact hcross piece' hmem piece'' (mem_cons_of_mem _ hmem') t ht

end Ordering

/-! ## The loop -/

def front (done : List SparseMultilineTokens) (insertPosition : Option Nat) : List SparseMultilineTokens :=
  done.take (insertPosition.getD done.length)

def back (done : List SparseMultilineTokens) (insertPosition : Option Nat) : List SparseMultilineTokens :=
  done.drop (insertPosition.getD done.length)

/-- What is before the insert position is before the range, what is from there on is after it. -/
structure Placed (range : Range) (done : List SparseMultilineTokens) (insertPosition : Option Nat) : Prop where
  bound : insertPosition.getD done.length ≤ done.length
  before : ∀ t ∈ tokensOf (front done insertPosition), endsBefore range t
  lines : ∀ piece ∈ front done insertPosition, piece.startLineNumber ≤ range.startLineNumber
  after : ∀ t ∈ tokensOf (back done insertPosition), startsAfter range t

/-- The pieces that the loop trims have no gap at their front. -/
def AllSettled (range : Range) : List SparseMultilineTokens → Prop
  | [] => True
  | piece :: pieces =>
    if piece.endLineNumber < range.startLineNumber then AllSettled range pieces
    else piece.startLineNumber > range.endLineNumber ∨ Settled range piece ∧ AllSettled range pieces

variable {tokens : List AbsoluteToken} {pieces : List SparseMultilineTokens}

section Loop

variable {range : Range} {piece : SparseMultilineTokens} {t : AbsoluteToken} {done mid : List SparseMultilineTokens}
  {insertPosition : Option Nat}

theorem endsBefore_iff : endsBefore range t = true ↔ t.lineNumber < range.startLineNumber ∨
    t.lineNumber = range.startLineNumber ∧ t.endCharacter < range.startColumn - 1 := by
  unfold endsBefore
  simp only [Bool.or_eq_true, Bool.and_eq_true, decide_eq_true_eq]

theorem startsAfter_iff : startsAfter range t = true ↔ ¬(t.lineNumber < range.startLineNumber ∨
      t.lineNumber = range.startLineNumber ∧ t.endCharacter < range.startColumn - 1) ∧
    ¬(t.lineNumber < range.endLineNumber ∨
      t.lineNumber = range.endLineNumber ∧ t.startCharacter ≤ range.endColumn - 1) := by
  unfold startsAfter touches endsBefore
  simp only [Bool.and_eq_true, Bool.or_eq_true, Bool.not_eq_true', Bool.or_eq_false_iff, Bool.and_eq_false_iff,
    Bool.not_eq_false', decide_eq_true_eq, decide_eq_false_iff_not]
  omega

theorem startsAfter_of (hbefore : endsBefore range t = false) (htouch : touches range t = false) :
    startsAfter range t := by
  unfold startsAfter
  rw [hbefore, htouch]
  rfl

theorem not_touches_of_endsBefore (h : endsBefore range t = true) : touches range t = false := by
  unfold touches
  rw [h]
  rfl

theorem not_touches_of_startsAfter (h : startsAfter range t = true) : touches range t = false := by
  unfold startsAfter at h
  rw [Bool.and_eq_true, Bool.not_eq_true', Bool.not_eq_true'] at h
  exact h.2

theorem not_endsBefore_of_startsAfter (h : startsAfter range t = true) : endsBefore range t = false := by
  unfold startsAfter at h
  rw [Bool.and_eq_true, Bool.not_eq_true', Bool.not_eq_true'] at h
  exact h.1

theorem filter_untouched (h : ∀ t ∈ tokens, touches range t = false) :
    tokens.filter (fun t => !touches range t) = tokens := by
  rw [filter_eq_self]
  intro t ht
  rw [h t ht]
  rfl

theorem Placed.append_after (h : Placed range done insertPosition) (hmid : ∀ t ∈ tokensOf mid, startsAfter range t) :
    Placed range (done ++ mid) (some (insertPosition.getD done.length)) := by
  have hfront : front (done ++ mid) (some (insertPosition.getD done.length)) = front done insertPosition :=
    take_append_of_le_length h.bound
  have hback : back (done ++ mid) (some (insertPosition.getD done.length)) = back done insertPosition ++ mid :=
    drop_append_of_le_length h.bound
  refine ⟨?_, ?_, ?_, ?_⟩
  · have hbound := h.bound
    rw [Option.getD_some, length_append]
    omega
  · rw [hfront]
    exact h.before
  · rw [hfront]
    exact h.lines
  · rw [hback, tokensOf_append]
    intro t ht
    rcases mem_append.mp ht with ht | ht
    · exact h.after t ht
    · exact hmid t ht

theorem Placed.append_before (h : Placed range done none) (hmid : ∀ t ∈ tokensOf mid, endsBefore range t)
    (hlines : ∀ piece ∈ mid, piece.startLineNumber ≤ range.startLineNumber) : Placed range (done ++ mid) none := by
  have hfront : ∀ done : List SparseMultilineTokens, front done none = done := fun done => take_length
  have hback : ∀ done : List SparseMultilineTokens, back done none = [] := fun done => drop_length
  have hbefore := h.before
  have hlines' := h.lines
  rw [hfront] at hbefore hlines'
  refine ⟨Nat.le_refl _, ?_, ?_, ?_⟩
  · rw [hfront, tokensOf_append]
    intro t ht
    rcases mem_append.mp ht with ht | ht
    · exact hbefore t ht
    · exact hmid t ht
  · rw [hfront]
    intro piece hmem
    rcases mem_append.mp hmem with hmem | hmem
    · exact hlines' piece hmem
    · exact hlines piece hmem
  · rw [hback]
    intro t ht
    cases ht

theorem isEmpty_iff (piece : SparseMultilineTokens) : piece.isEmpty = true ↔ piece.absolute = [] := by
  unfold SparseMultilineTokens.isEmpty SparseMultilineTokens.absolute
  rw [List.isEmpty_iff, List.map_eq_nil_iff]

theorem removeTokens_wellFormed (hwell : piece.WellFormed) (hsettled : Settled range piece) :
    (piece.removeTokens range).WellFormed := by
  obtain ⟨habsolute, hfirst⟩ := removeTokens_absolute hsettled
  obtain ⟨-, hproper, hsorted⟩ := wellFormed_iff.mp hwell
  have hsorted' : (piece.removeTokens range).absolute.Pairwise AbsoluteToken.StartsBefore := by
    rw [habsolute]
    exact hsorted.filter _
  refine wellFormed_of_lines (fun t ht => ?_) hsorted' (startsAtFirst_lines hsorted' hfirst)
  rw [habsolute] at ht
  exact hproper t (mem_of_mem_filter ht)

theorem split_wellFormed (hwell : piece.WellFormed) (hrange : range.Valid)
    (huntouched : ∀ t ∈ piece.absolute, touches range t = false) :
    (piece.split range).1.WellFormed ∧ (piece.split range).2.WellFormed := by
  obtain ⟨hfront, hstart, hback, hfirst⟩ := split_absolute hwell hrange huntouched
  obtain ⟨-, hproper, hsorted⟩ := wellFormed_iff.mp hwell
  constructor
  · have hsorted' : (piece.split range).1.absolute.Pairwise AbsoluteToken.StartsBefore := by
      rw [hfront]
      exact hsorted.filter _
    refine wellFormed_of_lines (fun t ht => ?_) hsorted' (fun t ht => ?_)
    · rw [hfront] at ht
      exact hproper t (mem_of_mem_filter ht)
    · rw [hfront] at ht
      exact startLineNumber_le hwell (mem_of_mem_filter ht)
  · have hsorted' : (piece.split range).2.absolute.Pairwise AbsoluteToken.StartsBefore := by
      rw [hback]
      exact hsorted.filter _
    refine wellFormed_of_lines (fun t ht => ?_) hsorted' (startsAtFirst_lines hsorted' hfirst)
    rw [hback] at ht
    exact hproper t (mem_of_mem_filter ht)

theorem not_endsBefore_behind (hrange : range.Valid) (h : Ordered (done ++ piece :: pieces)) {x : AbsoluteToken}
    (hx : x ∈ piece.absolute) (hafter : startsAfter range x) :
    ∀ t ∈ tokensOf pieces, endsBefore range t = false := by
  intro t ht
  have hsorted := h.sorted
  rw [tokensOf_append, tokensOf_cons] at hsorted
  have hbefore := (pairwise_append.mp (pairwise_append.mp hsorted).2.1).2.2 x hx t ht
  obtain ⟨piece', hmem, ht'⟩ := mem_tokensOf.mp ht
  have hwell := h.wellFormed piece' (mem_append_right _ (mem_cons_of_mem _ hmem))
  have hproper := (wellFormed_iff.mp hwell).2.1 t ht'
  exact not_endsBefore_of_startsAfter (startsAfter_of_startsBefore hrange hproper hbefore hafter)

theorem filter_append_filter (hrange : range.Valid) (hsorted : tokens.Pairwise AbsoluteToken.StartsBefore)
    (hproper : ∀ t ∈ tokens, t.Proper) (huntouched : ∀ t ∈ tokens, touches range t = false) :
    tokens.filter (endsBefore range) ++ tokens.filter (startsAfter range) = tokens := by
  induction tokens with
  | nil => rfl
  | cons t tokens ih =>
    obtain ⟨hfirst, hsorted⟩ := pairwise_cons.mp hsorted
    have ih := ih hsorted (fun t' h' => hproper t' (mem_cons_of_mem _ h'))
      (fun t' h' => huntouched t' (mem_cons_of_mem _ h'))
    cases hbefore : endsBefore range t with
    | true =>
      have hnot : ¬startsAfter range t = true := fun h => by
        rw [not_endsBefore_of_startsAfter h] at hbefore
        cases hbefore
      rw [filter_cons_of_pos hbefore, filter_cons_of_neg hnot, cons_append, ih]
    | false =>
      have hafter : ∀ t' ∈ t :: tokens, startsAfter range t' = true := by
        have ht := startsAfter_of hbefore (huntouched t mem_cons_self)
        intro t' h'
        rcases mem_cons.mp h' with rfl | hmem
        · exact ht
        · exact startsAfter_of_startsBefore hrange (hproper t' h') (hfirst t' hmem) ht
      have hnone : (t :: tokens).filter (endsBefore range) = [] := by
        rw [filter_eq_nil_iff]
        intro t' h'
        rw [not_endsBefore_of_startsAfter (hafter t' h')]
        exact Bool.false_ne_true
      rw [hnone, nil_append, filter_eq_self]
      exact hafter

theorem Placed.keep (h : Placed range done insertPosition)
    (hpos : insertPosition ≠ none → ∀ t ∈ piece.absolute, endsBefore range t = false)
    (hbefore : ∀ t ∈ piece.absolute, endsBefore range t) (hline : piece.startLineNumber ≤ range.startLineNumber) :
    Placed range (done ++ [piece]) insertPosition := by
  have htokens : tokensOf [piece] = piece.absolute := append_nil _
  cases insertPosition with
  | none =>
    refine h.append_before (fun t ht => ?_) (fun piece' hmem => ?_)
    · rw [htokens] at ht
      exact hbefore t ht
    · rw [mem_singleton.mp hmem]
      exact hline
  | some k =>
    refine h.append_after fun t ht => ?_
    rw [htokens] at ht
    have hnot := hpos (by simp) t ht
    rw [hbefore t ht] at hnot
    cases hnot

/-- What one turn of the loop does with a piece: it gives way to the pieces `mid` with the tokens that are left of it. -/
structure Turn (range : Range) (done : List SparseMultilineTokens) (insertPosition : Option Nat)
    (piece : SparseMultilineTokens) (mid : List SparseMultilineTokens) (insertPosition' : Option Nat) : Prop where
  tokens : tokensOf mid = piece.absolute.filter fun t => !touches range t
  wellFormed : ∀ piece' ∈ mid, piece'.WellFormed
  endLineNumber : ∀ piece' ∈ mid,
    piece'.endLineNumber = piece'.startLineNumber + Storage.getMaxDeltaLine piece'.tokens
  lines : mid.Pairwise fun piece piece' => ∀ t ∈ piece'.absolute, piece.startLineNumber ≤ t.lineNumber
  start : ∀ piece' ∈ mid, piece'.startLineNumber = piece.startLineNumber ∨ piece'.absolute ≠ []
  placed : Placed range (done ++ mid) insertPosition'
  moved : insertPosition' ≠ none → insertPosition ≠ none ∨ ∃ x ∈ piece.absolute, startsAfter range x = true

theorem Turn.ordered {insertPosition' : Option Nat} (h : Turn range done insertPosition piece mid insertPosition')
    (hordered : Ordered (done ++ piece :: pieces)) :
    Ordered ((done ++ mid) ++ pieces) := by
  rw [append_assoc]
  refine hordered.replace h.wellFormed h.endLineNumber ?_ h.lines fun piece' hmem => ?_
  · rw [h.tokens]
    exact filter_sublist
  · rcases h.start piece' hmem with hsame | hne
    · exact .inl hsame
    · obtain ⟨t, ht⟩ := exists_mem_of_ne_nil _ hne
      exact .inr ⟨t, ht, startLineNumber_le (h.wellFormed piece' hmem) ht⟩

section Turns

variable (hplaced : Placed range done insertPosition)
  (hpos : insertPosition ≠ none → ∀ t ∈ piece.absolute, endsBefore range t = false)

include hplaced hpos

theorem turn_before (hwell : piece.WellFormed)
    (hend : piece.endLineNumber = piece.startLineNumber + Storage.getMaxDeltaLine piece.tokens)
    (hbefore : piece.endLineNumber < range.startLineNumber) :
    Turn range done insertPosition piece [piece] insertPosition := by
  have hall : ∀ t ∈ piece.absolute, endsBefore range t := by
    intro t ht
    have := lineNumber_le hwell hend ht
    exact endsBefore_iff.mpr (by omega)
  have hstart := startLineNumber_le_end hwell hend
  refine ⟨?_, by simpa using hwell, by simpa using hend, pairwise_singleton _ _, by simp,
    hplaced.keep hpos hall (by omega), .inl⟩
  rw [filter_untouched fun t ht => not_touches_of_endsBefore (hall t ht)]
  exact append_nil _

theorem turn_trimmed (hrange : range.Valid) (hwell : piece.WellFormed) (hsettled : Settled range piece)
    (hne : (piece.removeTokens range).isEmpty = false) (pieces : List SparseMultilineTokens)
    (hbefore : ¬piece.endLineNumber < range.startLineNumber) (hafter : ¬piece.startLineNumber > range.endLineNumber) :
    ∃ mid insertPosition', Turn range done insertPosition piece mid insertPosition' ∧
      SparseTokensStore.setPartialLoop range done insertPosition (piece :: pieces) =
        SparseTokensStore.setPartialLoop range (done ++ mid) insertPosition' pieces := by
  obtain ⟨habsolute, -⟩ := removeTokens_absolute hsettled
  have hwell' := removeTokens_wellFormed hwell hsettled
  have hend' := @removeTokens_endLineNumber piece range
  rw [SparseTokensStore.setPartialLoop, if_neg hbefore, if_neg hafter]
  dsimp only
  generalize piece.removeTokens range = kept at *
  rw [hne]
  have huntouched : ∀ t ∈ kept.absolute, touches range t = false := by
    intro t ht
    rw [habsolute, mem_filter] at ht
    simpa using ht.2
  have hmem : ∀ t ∈ kept.absolute, t ∈ piece.absolute := by
    intro t ht
    rw [habsolute] at ht
    exact mem_of_mem_filter ht
  have hkept : insertPosition ≠ none → ∀ t ∈ kept.absolute, endsBefore range t = false :=
    fun hsome t ht => hpos hsome t (hmem t ht)
  have hne : kept.absolute ≠ [] := fun h => by
    rw [(isEmpty_iff kept).mpr h] at hne
    cases hne
  -- the piece in one, before the range or after it
  have hone : ∀ insertPosition', Placed range (done ++ [kept]) insertPosition' →
      (insertPosition' ≠ none → insertPosition ≠ none ∨ ∃ x ∈ piece.absolute, startsAfter range x = true) →
      Turn range done insertPosition piece [kept] insertPosition' := fun insertPosition' hplaced' hmoved =>
    ⟨(append_nil _).trans habsolute, by simpa using hwell', by simpa using hend', pairwise_singleton _ _,
      by simpa using .inr hne, hplaced', hmoved⟩
  have honeBefore : (∀ t ∈ kept.absolute, endsBefore range t) → kept.startLineNumber ≤ range.startLineNumber →
      Turn range done insertPosition piece [kept] insertPosition := fun hall hline =>
    hone _ (hplaced.keep hkept hall hline) .inl
  have honeAfter : (∀ t ∈ kept.absolute, startsAfter range t) →
      Turn range done insertPosition piece [kept] (some (insertPosition.getD done.length)) := fun hall => by
    obtain ⟨x, hx⟩ := exists_mem_of_ne_nil _ hne
    exact hone _ (hplaced.append_after fun t ht => hall t (by simpa [tokensOf] using ht))
      fun _ => .inr ⟨x, hmem x hx, hall x hx⟩
  by_cases hbefore' : kept.endLineNumber < range.startLineNumber
  · rw [if_pos hbefore']
    refine ⟨_, _, honeBefore (fun t ht => ?_) ?_, rfl⟩
    · have := lineNumber_le hwell' hend' ht
      exact endsBefore_iff.mpr (by omega)
    · have := startLineNumber_le_end hwell' hend'
      omega
  rw [if_neg hbefore']
  by_cases hafter' : kept.startLineNumber > range.endLineNumber
  · rw [if_pos hafter']
    refine ⟨_, _, honeAfter fun t ht => ?_, rfl⟩
    have hvalid := hrange.ordered
    have := startLineNumber_le hwell' ht
    exact startsAfter_iff.mpr (by omega)
  rw [if_neg hafter']
  obtain ⟨hfront, hstart, hback, -⟩ := split_absolute hwell' hrange huntouched
  obtain ⟨hwellA, hwellB⟩ := split_wellFormed hwell' hrange huntouched
  have hjoin := filter_append_filter hrange (wellFormed_iff.mp hwell').2.2 (wellFormed_iff.mp hwell').2.1 huntouched
  rw [← hfront, ← hback] at hjoin
  have hendA : (kept.split range).1.endLineNumber = (kept.split range).1.startLineNumber +
      Storage.getMaxDeltaLine (kept.split range).1.tokens := rfl
  have hendB : (kept.split range).2.endLineNumber = (kept.split range).2.startLineNumber +
      Storage.getMaxDeltaLine (kept.split range).2.tokens := rfl
  generalize kept.split range = halves at *
  obtain ⟨a, b⟩ := halves
  dsimp only at *
  have hallA : ∀ t ∈ a.absolute, endsBefore range t := fun t ht => by
    rw [hfront] at ht
    exact (mem_filter.mp ht).2
  have hallB : ∀ t ∈ b.absolute, startsAfter range t := fun t ht => by
    rw [hback] at ht
    exact (mem_filter.mp ht).2
  cases hemptyA : a.isEmpty with
  | true =>
    rw [(isEmpty_iff a).mp hemptyA, nil_append] at hjoin
    rw [hjoin] at hallB
    exact ⟨_, _, honeAfter hallB, rfl⟩
  | false =>
    have hneA : a.absolute ≠ [] := fun h => by
      rw [(isEmpty_iff a).mpr h] at hemptyA
      cases hemptyA
    obtain ⟨y, hy⟩ := exists_mem_of_ne_nil _ hneA
    have hyKept : y ∈ kept.absolute := by
      rw [← hjoin]
      exact mem_append_left _ hy
    have hline : kept.startLineNumber ≤ range.startLineNumber := by
      have := startLineNumber_le hwell' hyKept
      have := endsBefore_iff.mp (hallA y hy)
      omega
    cases hemptyB : b.isEmpty with
    | true =>
      rw [(isEmpty_iff b).mp hemptyB, append_nil] at hjoin
      rw [hjoin] at hallA
      exact ⟨_, _, honeBefore hallA hline, rfl⟩
    | false =>
      have hneB : b.absolute ≠ [] := fun h => by
        rw [(isEmpty_iff b).mpr h] at hemptyB
        cases hemptyB
      obtain ⟨z, hz⟩ := exists_mem_of_ne_nil _ hneB
      have hlinesB : ∀ t ∈ b.absolute, a.startLineNumber ≤ t.lineNumber := by
        intro t ht
        rw [hstart]
        apply startLineNumber_le hwell'
        rw [← hjoin]
        exact mem_append_right _ ht
      -- tokens before the range leave no insert position before them
      have hposNone : insertPosition = none := by
        by_contra hsome
        have hnot := hkept hsome y hyKept
        rw [hallA y hy] at hnot
        cases hnot
      subst hposNone
      have hplacedA : Placed range (done ++ [a]) none := hplaced.keep (by simp) hallA (by omega)
      have hplacedB := hplacedA.append_after fun t (ht : t ∈ tokensOf [b]) => hallB t (by simpa [tokensOf] using ht)
      rw [append_assoc, Option.getD_none, length_append] at hplacedB
      refine ⟨[a, b], some (done.length + 1), ⟨?_, by simpa using ⟨hwellA, hwellB⟩, by simpa using ⟨hendA, hendB⟩,
        pairwise_pair.mpr hlinesB, by simpa using ⟨.inr hneA, .inr hneB⟩, hplacedB, fun _ => .inr ⟨z, ?_, hallB z hz⟩⟩,
        rfl⟩
      · rw [← habsolute, ← hjoin]
        show a.absolute ++ (b.absolute ++ []) = _
        rw [append_nil]
      · apply hmem
        rw [← hjoin]
        exact mem_append_right _ hz

end Turns

/-- The loop keeps the pieces in order and takes exactly the tokens out that touch the range. -/
theorem setPartialLoop_spec (hrange : range.Valid) (pieces : List SparseMultilineTokens) :
    ∀ (done : List SparseMultilineTokens) (insertPosition : Option Nat), Ordered (done ++ pieces) →
      Placed range done insertPosition →
      (insertPosition ≠ none → ∀ t ∈ tokensOf pieces, endsBefore range t = false) → AllSettled range pieces →
      Ordered (SparseTokensStore.setPartialLoop range done insertPosition pieces).1 ∧
        Placed range (SparseTokensStore.setPartialLoop range done insertPosition pieces).1
          (SparseTokensStore.setPartialLoop range done insertPosition pieces).2 ∧
        tokensOf (SparseTokensStore.setPartialLoop range done insertPosition pieces).1 =
          tokensOf done ++ (tokensOf pieces).filter fun t => !touches range t := by
  induction pieces with
  | nil =>
    intro done insertPosition hordered hplaced _ _
    rw [append_nil] at hordered
    exact ⟨hordered, hplaced, (append_nil _).symm⟩
  | cons piece pieces ih =>
    intro done insertPosition hordered hplaced hpos hsettled
    have hwell := hordered.wellFormed piece (mem_append_right _ mem_cons_self)
    have hend := hordered.endLineNumber piece (mem_append_right _ mem_cons_self)
    have hposPiece : insertPosition ≠ none → ∀ t ∈ piece.absolute, endsBefore range t = false :=
      fun hne t ht => hpos hne t (mem_append_left _ ht)
    -- after a turn, the rest of the loop does the rest
    have hnext : ∀ mid insertPosition', Turn range done insertPosition piece mid insertPosition' →
        AllSettled range pieces →
        Ordered (SparseTokensStore.setPartialLoop range (done ++ mid) insertPosition' pieces).1 ∧
          Placed range (SparseTokensStore.setPartialLoop range (done ++ mid) insertPosition' pieces).1
            (SparseTokensStore.setPartialLoop range (done ++ mid) insertPosition' pieces).2 ∧
          tokensOf (SparseTokensStore.setPartialLoop range (done ++ mid) insertPosition' pieces).1 =
            tokensOf done ++ (tokensOf (piece :: pieces)).filter fun t => !touches range t := by
      intro mid insertPosition' hturn hsettled'
      have hpos' : insertPosition' ≠ none → ∀ t ∈ tokensOf pieces, endsBefore range t = false := by
        intro hsome
        rcases hturn.moved hsome with hold | ⟨x, hx, hafter⟩
        · exact fun t ht => hpos hold t (mem_append_right _ ht)
        · exact not_endsBefore_behind hrange hordered hx hafter
      obtain ⟨h1, h2, h3⟩ := ih (done ++ mid) insertPosition' (hturn.ordered hordered) hturn.placed hpos' hsettled'
      refine ⟨h1, h2, h3.trans ?_⟩
      rw [tokensOf_append, hturn.tokens, tokensOf_cons, filter_append, append_assoc]
    unfold AllSettled at hsettled
    by_cases hbefore : piece.endLineNumber < range.startLineNumber
    · rw [if_pos hbefore] at hsettled
      unfold SparseTokensStore.setPartialLoop
      rw [if_pos hbefore]
      exact hnext [piece] insertPosition (turn_before hplaced hposPiece hwell hend hbefore) hsettled
    rw [if_neg hbefore] at hsettled
    by_cases hafter : piece.startLineNumber > range.endLineNumber
    · unfold SparseTokensStore.setPartialLoop
      rw [if_neg hbefore, if_pos hafter]
      have hall : ∀ t ∈ tokensOf (piece :: pieces), startsAfter range t := by
        have hvalid := hrange.ordered
        intro t ht
        have hline : piece.startLineNumber ≤ t.lineNumber := by
          rcases mem_append.mp ht with ht | ht
          · exact startLineNumber_le hwell ht
          · obtain ⟨piece', hmem, ht'⟩ := mem_tokensOf.mp ht
            exact (pairwise_cons.mp (pairwise_append.mp hordered.lines).2.1).1 piece' hmem t ht'
        exact startsAfter_iff.mpr (by omega)
      refine ⟨hordered, hplaced.append_after hall, ?_⟩
      rw [filter_untouched fun t ht => not_touches_of_startsAfter (hall t ht), tokensOf_append]
    obtain ⟨hsettledPiece, hsettled⟩ := hsettled.resolve_left hafter
    cases hempty : (piece.removeTokens range).isEmpty with
    | true =>
      obtain ⟨habsolute, -⟩ := removeTokens_absolute hsettledPiece
      rw [(isEmpty_iff _).mp hempty] at habsolute
      have hturn : Turn range done insertPosition piece [] insertPosition := by
        refine ⟨habsolute, by simp, by simp, List.Pairwise.nil, by simp, ?_, .inl⟩
        rw [append_nil]
        exact hplaced
      have hrest := hnext [] insertPosition hturn hsettled
      rw [append_nil] at hrest
      unfold SparseTokensStore.setPartialLoop
      rw [if_neg hbefore, if_neg hafter]
      dsimp only
      rw [hempty]
      exact hrest
    | false =>
      obtain ⟨mid, insertPosition', hturn, hloop⟩ :=
        turn_trimmed hplaced hposPiece hrange hwell hsettledPiece hempty pieces hbefore hafter
      rw [hloop]
      exact hnext mid insertPosition' hturn hsettled

end Loop

/-! ## The new pieces -/

section NewPieces

variable {range : Range} {pieces : List SparseMultilineTokens}

theorem plusRange_start (a b : Range) :
    (a.plusRange b).startLineNumber ≤ a.startLineNumber ∧ (a.plusRange b).startLineNumber ≤ b.startLineNumber ∧
      ((a.plusRange b).startLineNumber = a.startLineNumber → (a.plusRange b).startColumn ≤ a.startColumn) ∧
      ((a.plusRange b).startLineNumber = b.startLineNumber → (a.plusRange b).startColumn ≤ b.startColumn) := by
  unfold Range.plusRange
  dsimp only
  split_ifs <;> omega

theorem plusRange_end (a b : Range) :
    a.endLineNumber ≤ (a.plusRange b).endLineNumber ∧ b.endLineNumber ≤ (a.plusRange b).endLineNumber ∧
      ((a.plusRange b).endLineNumber = a.endLineNumber → a.endColumn ≤ (a.plusRange b).endColumn) ∧
      ((a.plusRange b).endLineNumber = b.endLineNumber → b.endColumn ≤ (a.plusRange b).endColumn) := by
  unfold Range.plusRange
  dsimp only
  split_ifs <;> omega

theorem plusRange_valid {a b : Range} (ha : a.Valid) (hb : b.Valid) : (a.plusRange b).Valid := by
  have hstart := plusRange_start a b
  have hend := plusRange_end a b
  obtain ⟨ha1, ha2, ha3, ha4⟩ := ha
  obtain ⟨hb1, hb2, hb3, hb4⟩ := hb
  refine ⟨?_, ?_, ?_, by omega⟩
  · unfold Range.plusRange
    split_ifs <;> omega
  · unfold Range.plusRange
    dsimp only
    split_ifs <;> omega
  · unfold Range.plusRange
    dsimp only
    split_ifs <;> omega

/-- Pieces as they are given to the store: in order, and each one with tokens. -/
structure Deliverable (pieces : List SparseMultilineTokens) : Prop where
  ordered : Ordered pieces
  lineNumber : ∀ piece ∈ pieces, 1 ≤ piece.startLineNumber
  nonempty : ∀ piece ∈ pieces, piece.absolute ≠ []

theorem getRange_eq {piece : SparseMultilineTokens} (hne : piece.absolute ≠ []) :
    ∃ first last pieceRange, piece.absolute.head? = some first ∧ piece.absolute.getLast? = some last ∧
      piece.getRange = some pieceRange ∧ pieceRange.startLineNumber = piece.startLineNumber ∧
      pieceRange.startColumn = first.startCharacter + 1 ∧ pieceRange.endLineNumber = last.lineNumber ∧
      pieceRange.endColumn = last.endCharacter + 1 := by
  unfold SparseMultilineTokens.absolute at *
  have hne' : piece.tokens ≠ [] := fun h => hne (by rw [h]; rfl)
  have hfirst := head?_eq_some_head hne'
  have hlast := getLast?_eq_some_getLast hne'
  unfold SparseMultilineTokens.getRange Storage.getRange
  rw [head?_map, getLast?_map, hfirst, hlast]
  exact ⟨_, _, _, rfl, rfl, rfl, Int.add_zero _, rfl, rfl, rfl⟩

theorem startsBefore_refl (t : AbsoluteToken) : t.StartsBefore t := .inr ⟨rfl, Int.le_refl _⟩

theorem head_startsBefore (hsorted : tokens.Pairwise AbsoluteToken.StartsBefore) {first t : AbsoluteToken}
    (hfirst : tokens.head? = some first) (ht : t ∈ tokens) : first.StartsBefore t := by
  cases tokens with
  | nil => cases ht
  | cons t' tokens =>
    cases hfirst
    rcases mem_cons.mp ht with rfl | hmem
    · exact startsBefore_refl _
    · exact (pairwise_cons.mp hsorted).1 t hmem

theorem startsBefore_last (hsorted : tokens.Pairwise AbsoluteToken.StartsBefore) {last t : AbsoluteToken}
    (hlast : tokens.getLast? = some last) (ht : t ∈ tokens) : t.StartsBefore last := by
  obtain ⟨tokens', rfl⟩ := getLast?_eq_some_iff.mp hlast
  rcases mem_append.mp ht with hmem | hmem
  · exact (pairwise_append.mp hsorted).2.2 t hmem last mem_cons_self
  · rw [mem_singleton.mp hmem]
    exact startsBefore_refl _

theorem getRange_valid {piece : SparseMultilineTokens} (hwell : piece.WellFormed) (hline : 1 ≤ piece.startLineNumber)
    (hne : piece.absolute ≠ []) {pieceRange : Range} (h : piece.getRange = some pieceRange) : pieceRange.Valid := by
  obtain ⟨first, last, pieceRange', hfirst, hlast, heq, h1, h2, h3, h4⟩ := getRange_eq hne
  have hsame : pieceRange' = pieceRange := Option.some.inj (heq.symm.trans h)
  subst hsame
  obtain ⟨-, hproper, hsorted⟩ := wellFormed_iff.mp hwell
  have hfirst' := mem_of_mem_head? hfirst
  have hlast' := mem_of_getLast? hlast
  have hproperFirst := hproper first hfirst'
  have hproperLast := hproper last hlast'
  have hlineFirst := startLineNumber_le hwell hfirst'
  have hbefore := head_startsBefore hsorted hfirst hlast'
  unfold AbsoluteToken.Proper at hproperFirst hproperLast
  unfold AbsoluteToken.StartsBefore at hbefore
  refine ⟨?_, ?_, ?_, ?_⟩ <;> omega

/-- The range of `setPartial` holds the starts of all new tokens. -/
theorem partialRange_covers (hpieces : Deliverable pieces) (hrange : range.Valid) :
    ∃ range', SparseTokensStore.partialRange range pieces = some range' ∧ range'.Valid ∧
      ∀ t ∈ tokensOf pieces,
        (range'.startLineNumber < t.lineNumber ∨
          range'.startLineNumber = t.lineNumber ∧ range'.startColumn - 1 ≤ t.startCharacter) ∧
        (t.lineNumber < range'.endLineNumber ∨
          t.lineNumber = range'.endLineNumber ∧ t.startCharacter < range'.endColumn - 1) := by
  unfold SparseTokensStore.partialRange
  by_cases hnil : pieces = []
  · subst hnil
    exact ⟨range, rfl, hrange, fun t ht => by cases ht⟩
  have hfirstPiece := head?_eq_some_head hnil
  have hlastPiece := getLast?_eq_some_getLast hnil
  generalize pieces.head hnil = firstPiece at hfirstPiece
  generalize pieces.getLast hnil = lastPiece at hlastPiece
  have hfirstMem := mem_of_mem_head? hfirstPiece
  have hlastMem := mem_of_getLast? hlastPiece
  obtain ⟨first, _, firstRange, hfirst, -, hfirstRange, hf1, hf2, -, -⟩ := getRange_eq (hpieces.nonempty firstPiece hfirstMem)
  obtain ⟨_, last, lastRange, -, hlast, hlastRange, -, -, hl3, hl4⟩ := getRange_eq (hpieces.nonempty lastPiece hlastMem)
  have hvalidFirst := getRange_valid (hpieces.ordered.wellFormed firstPiece hfirstMem)
    (hpieces.lineNumber firstPiece hfirstMem) (hpieces.nonempty firstPiece hfirstMem) hfirstRange
  have hvalidLast := getRange_valid (hpieces.ordered.wellFormed lastPiece hlastMem)
    (hpieces.lineNumber lastPiece hlastMem) (hpieces.nonempty lastPiece hlastMem) hlastRange
  rw [hfirstPiece, hlastPiece]
  dsimp only
  rw [hfirstRange, hlastRange]
  refine ⟨_, rfl, plusRange_valid (plusRange_valid hrange hvalidFirst) hvalidLast, fun t ht => ?_⟩
  have hsorted := hpieces.ordered.sorted
  have hfirstToken : (tokensOf pieces).head? = some first := by
    obtain ⟨rest, rfl⟩ := head?_eq_some_iff.mp hfirstPiece
    rw [tokensOf_cons, head?_append, hfirst, Option.some_or]
  have hlastToken : (tokensOf pieces).getLast? = some last := by
    obtain ⟨rest, rfl⟩ := getLast?_eq_some_iff.mp hlastPiece
    have hone : tokensOf [lastPiece] = lastPiece.absolute := append_nil _
    rw [tokensOf_append, hone, getLast?_append, hlast, Option.some_or]
  have hafter := head_startsBefore hsorted hfirstToken ht
  have hbefore := startsBefore_last hsorted hlastToken ht
  have hline := startLineNumber_le (hpieces.ordered.wellFormed firstPiece hfirstMem) (mem_of_mem_head? hfirst)
  have hproper := (wellFormed_iff.mp (hpieces.ordered.wellFormed lastPiece hlastMem)).2.1 last (mem_of_getLast? hlast)
  have hstart := plusRange_start range firstRange
  have hstart' := plusRange_start (range.plusRange firstRange) lastRange
  have hend := plusRange_end (range.plusRange firstRange) lastRange
  constructor
  · -- the start of the range is at or before the first token
    have hfirst : NotAfter (((range.plusRange firstRange).plusRange lastRange).startLineNumber,
        ((range.plusRange firstRange).plusRange lastRange).startColumn - 1) (first.lineNumber, first.startCharacter) := by
      obtain ⟨hline', -, hcolumn', -⟩ := hstart'
      unfold NotAfter
      omega
    exact hfirst.trans (show NotAfter (first.lineNumber, first.startCharacter) (t.lineNumber, t.startCharacter) from hafter)
  · -- the end of the range is behind the start of the last token
    have hlast' : last.lineNumber < ((range.plusRange firstRange).plusRange lastRange).endLineNumber ∨
        last.lineNumber = ((range.plusRange firstRange).plusRange lastRange).endLineNumber ∧
          last.startCharacter < ((range.plusRange firstRange).plusRange lastRange).endColumn - 1 := by
      obtain ⟨-, hne⟩ := hproper
      omega
    unfold AbsoluteToken.StartsBefore at hbefore
    clear hstart hstart' hafter hend hproper hline hf1 hf2 hl3 hl4
    omega

/-- Pieces can be put between others where they belong. -/
theorem Ordered.insert {l mid r : List SparseMultilineTokens} (h : Ordered (l ++ r)) (hmid : Ordered mid)
    (hbefore : ∀ t ∈ tokensOf l, ∀ t' ∈ tokensOf mid, t.StartsBefore t')
    (hafter : ∀ t ∈ tokensOf mid, ∀ t' ∈ tokensOf r, t.StartsBefore t')
    (hlines : ∀ piece ∈ l, ∀ t ∈ tokensOf mid, piece.startLineNumber ≤ t.lineNumber)
    (hlines' : ∀ piece ∈ mid, ∀ t ∈ tokensOf r, piece.startLineNumber ≤ t.lineNumber) : Ordered (l ++ (mid ++ r)) := by
  have hmem : ∀ piece ∈ l ++ (mid ++ r), piece ∈ l ++ r ∨ piece ∈ mid := by
    intro piece hmem
    rw [mem_append, mem_append] at hmem
    rw [mem_append]
    rcases hmem with hmem | hmem | hmem
    · exact .inl (.inl hmem)
    · exact .inr hmem
    · exact .inl (.inr hmem)
  have hsorted := h.sorted
  have hpairs := h.lines
  rw [tokensOf_append, pairwise_append] at hsorted
  rw [pairwise_append] at hpairs
  obtain ⟨hsortedL, hsortedR, hsortedLR⟩ := hsorted
  obtain ⟨hpairsL, hpairsR, hpairsLR⟩ := hpairs
  refine ⟨fun piece hpiece => ?_, fun piece hpiece => ?_, ?_, ?_⟩
  · exact (hmem piece hpiece).elim (h.wellFormed piece) (hmid.wellFormed piece)
  · exact (hmem piece hpiece).elim (h.endLineNumber piece) (hmid.endLineNumber piece)
  · rw [tokensOf_append, tokensOf_append, pairwise_append, pairwise_append]
    refine ⟨hsortedL, ⟨hmid.sorted, hsortedR, hafter⟩, fun t ht t' ht' => ?_⟩
    rcases mem_append.mp ht' with ht' | ht'
    · exact hbefore t ht t' ht'
    · exact hsortedLR t ht t' ht'
  · rw [pairwise_append, pairwise_append]
    refine ⟨hpairsL, ⟨hmid.lines, hpairsR, fun piece hpiece piece' hpiece' t ht => ?_⟩,
      fun piece hpiece piece' hpiece' t ht => ?_⟩
    · exact hlines' piece hpiece t (mem_tokensOf.mpr ⟨piece', hpiece', ht⟩)
    · rcases mem_append.mp hpiece' with hpiece' | hpiece'
      · exact hlines piece hpiece t (mem_tokensOf.mpr ⟨piece', hpiece', ht⟩)
      · exact hpairsLR piece hpiece piece' hpiece' t ht

theorem Ordered.proper (h : Ordered pieces) {t : AbsoluteToken} (ht : t ∈ tokensOf pieces) : t.Proper := by
  obtain ⟨piece, hmem, ht'⟩ := mem_tokensOf.mp ht
  exact (wellFormed_iff.mp (h.wellFormed piece hmem)).2.1 t ht'

/-- The store afterwards has the former tokens that do not touch the range and the new ones, in order. -/
theorem setPartial_spec {s : SparseTokensStore} (h : Ordered s.pieces) (hpieces : Deliverable pieces) (hrange : range.Valid)
    (hsettled : ∀ range', SparseTokensStore.partialRange range pieces = some range' → AllSettled range' s.pieces) :
    Ordered (s.setPartial range pieces).2.pieces ∧
      ∀ t, t ∈ tokensOf (s.setPartial range pieces).2.pieces ↔
        t ∈ tokensOf s.pieces ∧ touches (s.setPartial range pieces).1 t = false ∨ t ∈ tokensOf pieces := by
  obtain ⟨range', heq, hvalid, hcovers⟩ := partialRange_covers hpieces hrange
  have hplaced : Placed range' [] none := by
    refine ⟨Nat.le_refl _, ?_, ?_, ?_⟩ <;> exact fun _ hmem => by cases hmem
  obtain ⟨hordered, hplaced, htokens⟩ :=
    setPartialLoop_spec hvalid s.pieces [] none h hplaced (by simp) (hsettled range' heq)
  unfold SparseTokensStore.setPartial
  rw [heq]
  dsimp only
  generalize SparseTokensStore.setPartialLoop range' [] none s.pieces = out at *
  obtain ⟨done, insertPosition⟩ := out
  have hif : (if pieces.length > 0 then done.take (insertPosition.getD done.length) ++ pieces ++
      done.drop (insertPosition.getD done.length) else done) =
      front done insertPosition ++ (pieces ++ back done insertPosition) := by
    have hdone : front done insertPosition ++ back done insertPosition = done := take_append_drop _ _
    split
    · exact append_assoc _ _ _
    · next hnil =>
      have hnil : pieces = [] := length_eq_zero_iff.mp (by omega)
      rw [hnil]
      exact hdone.symm
  rw [hif]
  have hdone : front done insertPosition ++ back done insertPosition = done := take_append_drop _ _
  rw [← hdone] at hordered
  refine ⟨hordered.insert hpieces.ordered (fun t ht t' ht' => ?_) (fun t ht t' ht' => ?_) (fun piece hpiece t ht => ?_)
    fun piece hpiece t ht => ?_, fun t => ?_⟩
  · have hbefore := endsBefore_iff.mp (hplaced.before t ht)
    have hproper : t.Proper := hordered.proper (by rw [tokensOf_append]; exact mem_append_left _ ht)
    have hcover := (hcovers t' ht').1
    unfold AbsoluteToken.Proper at hproper
    unfold AbsoluteToken.StartsBefore
    omega
  · have hafter := startsAfter_iff.mp (hplaced.after t' ht')
    have hcover := (hcovers t ht).2
    unfold AbsoluteToken.StartsBefore
    omega
  · have hline := hplaced.lines piece hpiece
    have hcover := (hcovers t ht).1
    omega
  · obtain ⟨t', ht'⟩ := exists_mem_of_ne_nil _ (hpieces.nonempty piece hpiece)
    have hline := startLineNumber_le (hpieces.ordered.wellFormed piece hpiece) ht'
    have hcover := (hcovers t' (mem_tokensOf.mpr ⟨piece, hpiece, ht'⟩)).2
    have hafter := startsAfter_iff.mp (hplaced.after t ht)
    omega
  · have hparts : t ∈ tokensOf done ↔ t ∈ tokensOf (front done insertPosition) ∨ t ∈ tokensOf (back done insertPosition) := by
      rw [← hdone, tokensOf_append, mem_append, hdone]
    rw [tokensOf_append, tokensOf_append, mem_append, mem_append]
    have hfiltered : t ∈ tokensOf done ↔ t ∈ tokensOf s.pieces ∧ touches range' t = false := by
      rw [htokens]
      refine mem_filter.trans (and_congr_right fun _ => ?_)
      rw [Bool.not_eq_true']
    rw [hfiltered] at hparts
    rw [hparts]
    constructor
    · rintro (hfront | hnew | hback)
      · exact .inl (.inl hfront)
      · exact .inr hnew
      · exact .inl (.inr hback)
    · rintro ((hfront | hback) | hnew)
      · exact .inl hfront
      · exact .inr (.inr hback)
      · exact .inr (.inl hnew)

end NewPieces

end TongjiCode.Tokens
