import TongjiCode.Lib.Lists
import TongjiCode.Tokens.PartialUpdates

/-!
# Runs of the store

Edits and partial updates one after the other.  An edit keeps the pieces in order unless it leaves tokens of a piece below
its first line in a wrong column (`Strays`).
-/

open List

namespace TongjiCode.Tokens

/-- The edit starts above the piece and not in the first column, and leaves a token of the piece on the line where it
starts; there the right column is known only for tokens behind the first column of the start line of the piece. -/
def Strays (range : Range) (piece : SparseMultilineTokens) : Prop :=
  range.startLineNumber < piece.startLineNumber ∧ 1 < range.startColumn ∧
    ∃ t ∈ piece.absolute, t.lineNumber = range.endLineNumber ∧ range.endColumn - 1 < t.endCharacter ∧
      ¬(range.endLineNumber = piece.startLineNumber ∧ range.endColumn - 1 ≤ t.startCharacter ∧ 0 < t.startCharacter)

section Edits

variable {range : Range} {text : Inserted} {piece : SparseMultilineTokens} {t t' : AbsoluteToken}

theorem deleteFate_level (hrange : range.Valid) (hstray : ¬Strays range piece) (hwell : piece.WellFormed)
    (ht : t ∈ piece.absolute) :
    deleteFate range piece.startLineNumber t = deleteFate range range.startLineNumber t := by
  have hproper := (wellFormed_iff.mp hwell).2.1 t ht
  have hnot : ¬(range.startLineNumber < piece.startLineNumber ∧ 1 < range.startColumn ∧
      t.lineNumber = range.endLineNumber ∧ range.endColumn - 1 < t.endCharacter ∧
      ¬(range.endLineNumber = piece.startLineNumber ∧ range.endColumn - 1 ≤ t.startCharacter ∧ 0 < t.startCharacter)) :=
    fun ⟨h1, h2, h3⟩ => hstray ⟨h1, h2, t, ht, h3⟩
  obtain ⟨-, hcolumn, hcolumn', -⟩ := hrange
  unfold AbsoluteToken.Proper at hproper
  have hirrefl : ¬range.startLineNumber < range.startLineNumber := Int.lt_irrefl _
  unfold deleteFate
  by_cases hbefore : t.lineNumber < range.startLineNumber ∨
      t.lineNumber = range.startLineNumber ∧ t.endCharacter ≤ range.startColumn - 1
  · simp only [if_pos hbefore]
  by_cases hat : t.lineNumber = range.startLineNumber ∧ t.startCharacter ≤ range.startColumn - 1
  · simp only [if_neg hbefore, if_pos hat]
  by_cases hinside : t.lineNumber < range.endLineNumber ∨
      t.lineNumber = range.endLineNumber ∧ t.startCharacter < range.endColumn - 1
  · by_cases hend : t.lineNumber = range.endLineNumber ∧ t.endCharacter > range.endColumn - 1
    · have hlanding : (if range.startLineNumber < piece.startLineNumber then 0 else range.startColumn - 1) =
          range.startColumn - 1 := by
        split_ifs <;> omega
      simp only [if_neg hbefore, if_neg hat, if_pos hinside, if_pos hend, hlanding, if_neg hirrefl]
    · simp only [if_neg hbefore, if_neg hat, if_pos hinside, if_neg hend]
  by_cases hbelow : t.lineNumber > range.endLineNumber
  · simp only [if_neg hbefore, if_neg hat, if_neg hinside, if_pos hbelow]
  · have hlanding : (if range.startLineNumber < piece.startLineNumber ∧
        ¬(range.endLineNumber = piece.startLineNumber ∧ 0 < t.startCharacter) then 0 else range.startColumn - 1) =
        range.startColumn - 1 := by
      split_ifs <;> omega
    simp only [if_neg hbefore, if_neg hat, if_neg hinside, if_neg hbelow, hlanding, hirrefl, false_and, if_false]

variable {blockStart : Int}

/-- For pieces that start where the edit does or above, it makes no difference either. -/
theorem deleteFate_of_le (h : blockStart ≤ range.startLineNumber) (t : AbsoluteToken) :
    deleteFate range blockStart t = deleteFate range range.startLineNumber t := by
  have hirrefl : ¬range.startLineNumber < range.startLineNumber := Int.lt_irrefl _
  have hnot : ¬range.startLineNumber < blockStart := by omega
  unfold deleteFate
  simp only [hirrefl, hnot, false_and, if_false]

theorem fate_startsBefore {a b a' b' : AbsoluteToken} (hrange : range.Valid) (htext : text.Valid) (ha : a.Proper)
    (hb : b.Proper) (hab : a.StartsBefore b) (ha' : fate range text range.startLineNumber a = some a')
    (hb' : fate range text range.startLineNumber b = some b') : a'.StartsBefore b' := by
  obtain ⟨a'', hdelete, rfl⟩ := Option.map_eq_some_iff.mp ha'
  obtain ⟨b'', hdelete', rfl⟩ := Option.map_eq_some_iff.mp hb'
  -- seen from a block that starts above everything
  obtain ⟨blockStart, h1, h2, h3⟩ : ∃ blockStart, blockStart ≤ range.startLineNumber ∧ blockStart ≤ a.lineNumber ∧
      blockStart ≤ b.lineNumber := ⟨min range.startLineNumber (min a.lineNumber b.lineNumber), by omega, by omega, by omega⟩
  rw [← deleteFate_of_le h1] at hdelete hdelete'
  have hdeleted := deleteFate_deleted hdelete
  have hdeleted' := deleteFate_deleted hdelete'
  have horder := hdeleted.startsBefore hrange ha hb h2 h3 hab hdeleted'
  exact (insertFate_pushed _ _ text a'').startsBefore htext (hdeleted.proper hrange ha) (hdeleted'.proper hrange hb) horder
    (insertFate_pushed _ _ text b'')

/-! ### Where a piece starts after an edit -/

variable {piece' : SparseMultilineTokens}

theorem acceptDeleteRange_start (hrange : range.Valid) (hwell : piece.WellFormed)
    (h : piece.acceptDeleteRange range = some piece') (hline : piece.startLineNumber ≤ t.lineNumber)
    (ht : Deleted range blockStart t t') : piece'.startLineNumber ≤ t'.lineNumber := by
  obtain ⟨hone, hcolumn, hcolumn', hordered⟩ := hrange
  have hmax := getMaxDeltaLine_ge hwell
  have hstart : piece'.startLineNumber = piece.startLineNumber ∧ (piece.startLineNumber ≤ range.startLineNumber ∨
        range.startLineNumber = range.endLineNumber ∧ range.startColumn = range.endColumn) ∨
      piece'.startLineNumber = piece.startLineNumber - (range.endLineNumber - range.startLineNumber) ∧
        range.endLineNumber < piece.startLineNumber ∨
      piece'.startLineNumber ≤ range.startLineNumber ∧ range.startLineNumber < piece.startLineNumber ∧
        piece.startLineNumber ≤ range.endLineNumber := by
    unfold SparseMultilineTokens.acceptDeleteRange at h
    dsimp only at h
    split_ifs at h with h1 h2 h3 h4 h5
    · cases h
      exact .inl ⟨rfl, .inr h1⟩
    · cases h
      dsimp only
      omega
    · cases h
      exact .inl ⟨rfl, .inl (by omega)⟩
    · cases h
      dsimp only
      omega
    · obtain ⟨tokens, -, rfl⟩ := Option.map_eq_some_iff.mp h
      dsimp only
      omega
    · obtain ⟨tokens, -, rfl⟩ := Option.map_eq_some_iff.mp h
      dsimp only
      omega
  cases ht <;> (try dsimp only) <;> omega

theorem acceptInsertText_start (htext : text.Valid) (lineNumber column : Int) (hline : piece.startLineNumber ≤ t.lineNumber)
    (ht : Pushed lineNumber (column - 1) text t t') :
    (piece.acceptInsertText lineNumber column text).startLineNumber ≤ t'.lineNumber := by
  have heol := htext.eolCount
  unfold SparseMultilineTokens.acceptInsertText
  dsimp only
  split_ifs <;> cases ht <;> (try dsimp only) <;> omega

theorem acceptEdit_start (hrange : range.Valid) (htext : text.Valid) (hwell : piece.WellFormed)
    (h : piece.acceptEdit range text = some piece') (hline : piece.startLineNumber ≤ t.lineNumber)
    (ht : fate range text blockStart t = some t') : piece'.startLineNumber ≤ t'.lineNumber := by
  obtain ⟨deleted, hdelete, rfl⟩ := Option.map_eq_some_iff.mp h
  obtain ⟨t'', hfate, rfl⟩ := Option.map_eq_some_iff.mp ht
  have hle := acceptDeleteRange_start hrange hwell hdelete hline (deleteFate_deleted hfate)
  exact acceptInsertText_start htext _ _ hle (insertFate_pushed _ _ text t'')

/-! ### Edits of the store -/

/-- What an edit makes of a piece. -/
structure Edited (range : Range) (text : Inserted) (piece piece' : SparseMultilineTokens) : Prop where
  wellFormed : piece'.WellFormed
  endLineNumber : piece'.endLineNumber = piece'.startLineNumber + Storage.getMaxDeltaLine piece'.tokens
  tokens : piece'.absolute = piece.absolute.filterMap (fate range text range.startLineNumber)
  start : ∀ t t', piece.startLineNumber ≤ t.lineNumber → fate range text range.startLineNumber t = some t' →
    piece'.startLineNumber ≤ t'.lineNumber

theorem acceptEdit_edited (hrange : range.Valid) (htext : text.Valid) (hwell : piece.WellFormed)
    (hstray : ¬Strays range piece) : ∃ piece', piece.acceptEdit range text = some piece' ∧ Edited range text piece piece' := by
  obtain ⟨piece', heq, htokens, hwell', hend⟩ := acceptEdit_absolute hwell hrange htext
  refine ⟨piece', heq, hwell', hend, htokens.trans ?_, fun t t' => acceptEdit_start hrange htext hwell heq⟩
  apply filterMap_congr
  intro t ht
  unfold fate
  rw [deleteFate_level hrange hstray hwell ht]

theorem mapM_edited (hrange : range.Valid) (htext : text.Valid) (pieces : List SparseMultilineTokens)
    (hwell : ∀ piece ∈ pieces, piece.WellFormed) (hstray : ∀ piece ∈ pieces, ¬Strays range piece) :
    ∃ pieces', (pieces.mapM fun (piece : SparseMultilineTokens) => piece.acceptEdit range text) = some pieces' ∧
      List.Forall₂ (Edited range text) pieces pieces' := by
  induction pieces with
  | nil => exact ⟨[], rfl, .nil⟩
  | cons piece pieces ih =>
    obtain ⟨piece', heq, hedited⟩ :=
      acceptEdit_edited hrange htext (hwell piece mem_cons_self) (hstray piece mem_cons_self)
    obtain ⟨pieces', heq', hedited'⟩ := ih (fun p hp => hwell p (mem_cons_of_mem _ hp))
      (fun p hp => hstray p (mem_cons_of_mem _ hp))
    refine ⟨piece' :: pieces', ?_, .cons hedited hedited'⟩
    rw [mapM_cons, heq, heq']
    rfl

variable {pieces pieces' : List SparseMultilineTokens}

theorem tokensOf_edited (h : List.Forall₂ (Edited range text) pieces pieces') :
    tokensOf pieces' = (tokensOf pieces).filterMap (fate range text range.startLineNumber) := by
  induction h with
  | nil => rfl
  | cons hedited _ ih => rw [tokensOf_cons, tokensOf_cons, filterMap_append, ih, hedited.tokens]

theorem lines_edited (h : List.Forall₂ (Edited range text) pieces pieces')
    (hlines : pieces.Pairwise fun piece piece' => ∀ t ∈ piece'.absolute, piece.startLineNumber ≤ t.lineNumber) :
    pieces'.Pairwise fun piece piece' => ∀ t ∈ piece'.absolute, piece.startLineNumber ≤ t.lineNumber := by
  induction h with
  | nil => exact List.Pairwise.nil
  | @cons piece piece' pieces pieces' hedited hrest ih =>
    obtain ⟨hfirst, hlines⟩ := pairwise_cons.mp hlines
    refine pairwise_cons.mpr ⟨fun p hp t' ht' => ?_, ih hlines⟩
    have hmem : t' ∈ tokensOf pieces' := mem_tokensOf.mpr ⟨p, hp, ht'⟩
    rw [tokensOf_edited hrest] at hmem
    obtain ⟨t, ht, hfate⟩ := mem_filterMap.mp hmem
    obtain ⟨p0, hp0, ht0⟩ := mem_tokensOf.mp ht
    exact hedited.start t t' (hfirst p0 hp0 t ht0) hfate

/-- An edit without strays keeps the pieces in order. -/
theorem acceptEdit_ordered {s : SparseTokensStore} (h : Ordered s.pieces) (hrange : range.Valid) (htext : text.Valid)
    (hstray : ∀ piece ∈ s.pieces, ¬Strays range piece) :
    ∃ s', s.acceptEdit range text = some s' ∧ Ordered s'.pieces := by
  obtain ⟨pieces', heq, hedited⟩ := mapM_edited hrange htext s.pieces h.wellFormed hstray
  refine ⟨{ s with pieces := pieces' }, ?_, fun p hp => ?_, fun p hp => ?_, ?_, lines_edited hedited h.lines⟩
  · unfold SparseTokensStore.acceptEdit
    rw [heq]
    rfl
  · obtain ⟨piece, -, hpiece⟩ := forall₂_mem hedited p hp
    exact hpiece.wellFormed
  · obtain ⟨piece, -, hpiece⟩ := forall₂_mem hedited p hp
    exact hpiece.endLineNumber
  · rw [tokensOf_edited hedited, pairwise_filterMap]
    exact h.sorted.imp_of_mem fun {a b} ha hb hab a' ha' b' hb' =>
      fate_startsBefore hrange htext (h.proper ha) (h.proper hb) hab ha' hb'

end Edits

/-! ## Runs -/

inductive StoreOp where
  | set (pieces : Option (List SparseMultilineTokens)) (isComplete : Bool)
  | acceptEdit (range : Range) (text : JsString)
  | setPartial (range : Range) (pieces : List SparseMultilineTokens)

namespace StoreOp

/-- A call with pieces in document order and a range that ends where it starts or later. -/
def Valid : StoreOp → Prop
  | set pieces _ => Ordered (pieces.getD [])
  | acceptEdit range _ => range.Valid
  | setPartial range pieces => range.Valid ∧ Deliverable pieces

/-- An edit without strays, or a partial update that trims no piece with a gap at its front. -/
def Careful (s : SparseTokensStore) : StoreOp → Prop
  | set _ _ => True
  | acceptEdit range _ => ∀ piece ∈ s.pieces, ¬Strays range piece
  | setPartial range pieces =>
    ∀ range', SparseTokensStore.partialRange range pieces = some range' → AllSettled range' s.pieces

end StoreOp

namespace SparseTokensStore

def step (s : SparseTokensStore) : StoreOp → Option SparseTokensStore
  | .set pieces isComplete => some (s.set pieces isComplete)
  | .acceptEdit range text => s.acceptEdit range (Inserted.ofText text)
  | .setPartial range pieces => some (s.setPartial range pieces).2

def run (s : SparseTokensStore) : List StoreOp → Option SparseTokensStore
  | [] => some s
  | op :: ops => (s.step op).bind fun s' => s'.run ops

def CarefulRun (s : SparseTokensStore) : List StoreOp → Prop
  | [] => True
  | op :: ops => op.Careful s ∧ ∀ s', s.step op = some s' → s'.CarefulRun ops

theorem step_ordered {s : SparseTokensStore} (h : Ordered s.pieces) {op : StoreOp} (hvalid : op.Valid)
    (hcareful : op.Careful s) : ∃ s', s.step op = some s' ∧ Ordered s'.pieces := by
  cases op with
  | set pieces isComplete => exact ⟨_, rfl, hvalid⟩
  | acceptEdit range text => exact acceptEdit_ordered h hvalid (ofText_valid text) hcareful
  | setPartial range pieces => exact ⟨_, rfl, (setPartial_spec h hvalid.2 hvalid.1 hcareful).1⟩

theorem run_ordered (ops : List StoreOp) : ∀ {s : SparseTokensStore}, Ordered s.pieces → (∀ op ∈ ops, op.Valid) →
    s.CarefulRun ops → ∃ s', s.run ops = some s' ∧ Ordered s'.pieces := by
  induction ops with
  | nil => exact fun h _ _ => ⟨_, rfl, h⟩
  | cons op ops ih =>
    intro s h hvalid hcareful
    obtain ⟨s', hstep, hordered⟩ := step_ordered h (hvalid op mem_cons_self) hcareful.1
    obtain ⟨s'', hrun, hordered'⟩ :=
      ih hordered (fun op' hop' => hvalid op' (mem_cons_of_mem _ hop')) (hcareful.2 s' hstep)
    refine ⟨s'', ?_, hordered'⟩
    unfold run
    rw [hstep]
    exact hrun

end SparseTokensStore

open SparseTokensStore

theorem ordered_nil : Ordered [] := by
  refine ⟨?_, ?_, List.Pairwise.nil, List.Pairwise.nil⟩ <;> exact fun _ hmem => by cases hmem

/-- In every careful run a partial update keeps exactly the former tokens that do not touch its range, and the pieces stay
in document order. -/
theorem setPartial_keeps_the_rest (ops : List StoreOp) (hvalid : ∀ op ∈ ops, op.Valid)
    (hcareful : SparseTokensStore.CarefulRun {} ops) :
    ∃ s, SparseTokensStore.run {} ops = some s ∧ (tokensOf s.pieces).Pairwise AbsoluteToken.StartsBefore ∧
      ∀ range pieces, range.Valid → Deliverable pieces → (StoreOp.setPartial range pieces).Careful s →
        (∀ t, t ∈ tokensOf (s.setPartial range pieces).2.pieces ↔
          t ∈ tokensOf s.pieces ∧ touches (s.setPartial range pieces).1 t = false ∨ t ∈ tokensOf pieces) ∧
        (tokensOf (s.setPartial range pieces).2.pieces).Pairwise AbsoluteToken.StartsBefore := by
  obtain ⟨s, hrun, hordered⟩ := run_ordered ops ordered_nil hvalid hcareful
  refine ⟨s, hrun, hordered.sorted, fun range pieces hrange hpieces hcareful' => ?_⟩
  obtain ⟨hordered', htokens⟩ := setPartial_spec hordered hpieces hrange hcareful'
  exact ⟨htokens, hordered'.sorted⟩

theorem ordered_one (startLineNumber : Int) {token : Token} (h : token.Proper) :
    Ordered [SparseMultilineTokens.create startLineNumber [token]] := by
  refine ⟨fun piece hmem => ?_, fun piece hmem => ?_, pairwise_singleton _ _, pairwise_singleton _ _⟩
  · rw [mem_singleton.mp hmem]
    exact ⟨pairwise_singleton _ _, fun token' hmem' => by rw [mem_singleton.mp hmem']; exact h⟩
  · rw [mem_singleton.mp hmem]
    rfl

/-- A token, a line break above it, and then a token for the first line. -/
theorem setPartial_keeps_a_token_below :
    let ops : List StoreOp := [.set (some [SparseMultilineTokens.create 5 [⟨0, 2, 4, 1⟩]]) true,
      .acceptEdit { startLineNumber := 1, startColumn := 1, endLineNumber := 1, endColumn := 1 } [10]]
    ∃ s, SparseTokensStore.run {} ops = some s ∧
      ∀ t, t ∈ tokensOf (s.setPartial { startLineNumber := 1, startColumn := 1, endLineNumber := 2, endColumn := 1 }
          [SparseMultilineTokens.create 1 [⟨0, 0, 3, 2⟩]]).2.pieces ↔ t = ⟨6, 2, 4, 1⟩ ∨ t = ⟨1, 0, 3, 2⟩ := by
  intro ops
  have hvalid : ∀ op ∈ ops, op.Valid := by
    intro op hop
    rcases mem_cons.mp hop with rfl | hop
    · exact ordered_one 5 ⟨by decide, by decide, by decide⟩
    · rw [mem_singleton.mp hop]
      exact ⟨by decide, by decide, by decide, .inr ⟨rfl, by decide⟩⟩
  have hcareful : SparseTokensStore.CarefulRun {} ops := by
    refine ⟨trivial, fun s' hs' => ⟨fun piece hpiece hstray => ?_, fun s'' _ => trivial⟩⟩
    exact absurd hstray.2.1 (by decide)
  obtain ⟨s, hrun, -, hupdate⟩ := setPartial_keeps_the_rest ops hvalid hcareful
  have hs : s = { pieces := [SparseMultilineTokens.create 6 [⟨0, 2, 4, 1⟩]], isComplete := true } :=
    Option.some.inj (hrun.symm.trans rfl)
  refine ⟨s, hrun, fun t => ?_⟩
  have hdeliverable : Deliverable [SparseMultilineTokens.create 1 [⟨0, 0, 3, 2⟩]] :=
    ⟨ordered_one 1 ⟨by decide, by decide, by decide⟩, by decide, by decide⟩
  have htokens := (hupdate { startLineNumber := 1, startColumn := 1, endLineNumber := 2, endColumn := 1 } _
    ⟨by decide, by decide, by decide, .inl (by decide)⟩ hdeliverable ?_).1 t
  · rw [htokens, hs]
    constructor
    · rintro (⟨ht, -⟩ | ht)
      · exact .inl (mem_singleton.mp ht)
      · exact .inr (mem_singleton.mp ht)
    · rintro (rfl | rfl)
      · exact .inl ⟨mem_singleton.mpr rfl, by decide⟩
      · exact .inr (mem_singleton.mpr rfl)
  · intro range' heq
    cases heq
    rw [hs]
    exact .inl (by decide)

/-- A line break at the start of the line of a token moves it away from the start of its piece.  An update further right
on the new line then moves the token down by another line. -/
theorem setPartial_moves_a_token :
    let ops : List StoreOp := [.set (some [SparseMultilineTokens.create 5 [⟨0, 2, 4, 1⟩]]) true,
      .acceptEdit { startLineNumber := 5, startColumn := 1, endLineNumber := 5, endColumn := 1 } [10]]
    let range : Range := { startLineNumber := 6, startColumn := 10, endLineNumber := 6, endColumn := 11 }
    (∀ op ∈ ops, op.Valid) ∧ range.Valid ∧ Deliverable [SparseMultilineTokens.create 6 [⟨0, 9, 10, 2⟩]] ∧
      ∃ s, SparseTokensStore.run {} ops = some s ∧ ⟨6, 2, 4, 1⟩ ∈ tokensOf s.pieces ∧
        touches (s.setPartial range [SparseMultilineTokens.create 6 [⟨0, 9, 10, 2⟩]]).1 ⟨6, 2, 4, 1⟩ = false ∧
        tokensOf (s.setPartial range [SparseMultilineTokens.create 6 [⟨0, 9, 10, 2⟩]]).2.pieces =
          [⟨6, 9, 10, 2⟩, ⟨7, 2, 4, 1⟩] := by
  intro ops range
  refine ⟨fun op hop => ?_, ⟨by decide, by decide, by decide, .inr ⟨rfl, by decide⟩⟩, ?_, _, rfl, ?_⟩
  · rcases mem_cons.mp hop with rfl | hop
    · exact ordered_one 5 ⟨by decide, by decide, by decide⟩
    · rw [mem_singleton.mp hop]
      exact ⟨by decide, by decide, by decide, .inr ⟨rfl, by decide⟩⟩
  · refine ⟨ordered_one 6 ⟨by decide, by decide, by decide⟩, fun piece hmem => ?_, fun piece hmem => ?_⟩
    · rw [mem_singleton.mp hmem]
      decide
    · rw [mem_singleton.mp hmem]
      exact cons_ne_nil _ _
  · decide

end TongjiCode.Tokens
