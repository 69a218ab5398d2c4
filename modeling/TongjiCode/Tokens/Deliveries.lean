import TongjiCode.Tokens.Areas
import TongjiCode.Tokens.StoreRuns

/-!
# Deliveries and edits

After a delivery and any edits, a line is given all tokens that the pieces hold for it, as long as no edit joins lines of
two pieces (`Joins`) or empties a piece behind one that keeps tokens (`Empties`).
-/

open List

namespace TongjiCode.Tokens

/-- The edit joins a line of a piece with one of a later piece. -/
def Joins (range : Range) (piece piece' : SparseMultilineTokens) : Prop :=
  range.startLineNumber < range.endLineNumber ∧
    (∃ t ∈ piece.absolute, t.lineNumber = range.startLineNumber ∧ t.startCharacter < range.startColumn - 1) ∧
    ∃ t ∈ piece'.absolute, t.lineNumber = range.endLineNumber ∧ range.endColumn - 1 < t.endCharacter

/-- The edit deletes all tokens of a later piece, but not all of a piece. -/
def Empties (range : Range) (piece piece' : SparseMultilineTokens) : Prop :=
  (∃ t ∈ piece.absolute, ¬IsInside range t) ∧ ∀ t ∈ piece'.absolute, IsInside range t

section Edits

variable {range : Range} {text : Inserted} {piece piece' : SparseMultilineTokens} {t t' u u' : AbsoluteToken}

theorem fate_eq_none_iff (blockStart : Int) (hrange : range.Valid) (hproper : t.Proper) :
    fate range text blockStart t = none ↔ IsInside range t := by
  constructor
  · intro h
    have hordered := hrange.ordered
    have hdelete : deleteFate range blockStart t = none := Option.map_eq_none_iff.mp h
    unfold IsInside
    unfold deleteFate at hdelete
    dsimp only at hdelete
    split_ifs at hdelete <;> omega
  · exact fate_inside blockStart hproper

theorem fate_lineNumber_lt {blockStart blockStart' : Int} (hrange : range.Valid) (htext : text.Valid) (ht : t.Proper)
    (hlt : t.lineNumber < t'.lineNumber)
    (hjoin : ¬(range.startLineNumber < range.endLineNumber ∧
      (t.lineNumber = range.startLineNumber ∧ t.startCharacter < range.startColumn - 1) ∧
      t'.lineNumber = range.endLineNumber ∧ range.endColumn - 1 < t'.endCharacter)) (ht' : t'.Proper)
    (h : fate range text blockStart t = some u) (h' : fate range text blockStart' t' = some u') :
    u.lineNumber < u'.lineNumber := by
  obtain ⟨v, hdelete, rfl⟩ := Option.map_eq_some_iff.mp h
  obtain ⟨v', hdelete', rfl⟩ := Option.map_eq_some_iff.mp h'
  have hdeleted := deleteFate_deleted hdelete
  have hdeleted' := deleteFate_deleted hdelete'
  obtain ⟨-, -, -, hordered⟩ := hrange
  have hv : v.lineNumber < v'.lineNumber := by
    unfold AbsoluteToken.Proper at ht ht'
    cases hdeleted <;> cases hdeleted' <;> (try dsimp only) <;> omega
  have heol := htext.eolCount
  have hpushed := insertFate_pushed range.startLineNumber range.startColumn text v
  have hpushed' := insertFate_pushed range.startLineNumber range.startColumn text v'
  generalize insertFate range.startLineNumber range.startColumn text v = w at hpushed ⊢
  generalize insertFate range.startLineNumber range.startColumn text v' = w' at hpushed' ⊢
  cases hpushed <;> cases hpushed' <;> (try dsimp only) <;> omega

/-- Where a piece with tokens starts after an edit. -/
def movedStart (range : Range) (text : Inserted) (startLineNumber : Int) : Int :=
  if startLineNumber ≤ range.startLineNumber then startLineNumber
  else if startLineNumber ≤ range.endLineNumber then range.startLineNumber
  else startLineNumber - (range.endLineNumber - range.startLineNumber) + text.eolCount

theorem movedStart_mono (htext : text.Valid) {start start' : Int} (hle : start ≤ start') :
    movedStart range text start ≤ movedStart range text start' := by
  have heol := htext.eolCount
  unfold movedStart
  split_ifs <;> omega

theorem getMaxDeltaLine_nonneg (hwell : piece.WellFormed) (hne : piece.tokens ≠ []) :
    0 ≤ Storage.getMaxDeltaLine piece.tokens := by
  obtain ⟨token, hmem⟩ := exists_mem_of_ne_nil _ hne
  have hdelta := (hwell.proper token hmem).1
  have hmax := deltaLine_le_max hwell.sorted hmem
  omega

theorem acceptDeleteRange_startLineNumber (hrange : range.Valid) (hwell : piece.WellFormed)
    (h : piece.acceptDeleteRange range = some piece') (hne : piece.tokens ≠ []) (hne' : piece'.tokens ≠ []) :
    piece'.startLineNumber =
      if piece.startLineNumber ≤ range.startLineNumber then piece.startLineNumber
      else if piece.startLineNumber ≤ range.endLineNumber then range.startLineNumber
      else piece.startLineNumber - (range.endLineNumber - range.startLineNumber) := by
  have hordered := hrange.ordered
  have hmax := getMaxDeltaLine_nonneg hwell hne
  unfold SparseMultilineTokens.acceptDeleteRange at h
  dsimp only at h
  split_ifs at h with h1 h2 h3 h4 h5
  · cases h
    split_ifs <;> omega
  · cases h
    dsimp only
    split_ifs <;> omega
  · cases h
    split_ifs <;> omega
  · cases h
    exact absurd rfl hne'
  · obtain ⟨tokens, -, rfl⟩ := Option.map_eq_some_iff.mp h
    dsimp only
    split_ifs <;> omega
  · obtain ⟨tokens, -, rfl⟩ := Option.map_eq_some_iff.mp h
    dsimp only
    split_ifs <;> omega

theorem acceptInsertText_startLineNumber (piece : SparseMultilineTokens) (lineNumber column : Int) (text : Inserted) :
    (piece.acceptInsertText lineNumber column text).startLineNumber =
      if lineNumber < piece.startLineNumber then piece.startLineNumber + text.eolCount else piece.startLineNumber := by
  unfold SparseMultilineTokens.acceptInsertText
  dsimp only
  split_ifs <;> (try dsimp only) <;> omega

theorem acceptInsertText_eq_nil (piece : SparseMultilineTokens) (lineNumber column : Int) (text : Inserted)
    (hnil : piece.tokens = []) : (piece.acceptInsertText lineNumber column text).tokens = [] := by
  unfold SparseMultilineTokens.acceptInsertText Storage.acceptInsertText
  dsimp only
  rw [hnil]
  split_ifs <;> first | exact hnil | rfl

theorem acceptDeleteRange_eq_nil (hrange : range.Valid) (hwell : piece.WellFormed)
    (h : piece.acceptDeleteRange range = some piece') (hnil : piece.tokens = []) : piece'.tokens = [] := by
  obtain ⟨piece'', heq, habsolute, -⟩ := acceptDeleteRange_absolute hwell hrange
  rw [h] at heq
  cases heq
  have hnil' : piece.absolute = [] := map_eq_nil_iff.mpr hnil
  rw [hnil'] at habsolute
  exact map_eq_nil_iff.mp habsolute

theorem acceptEdit_startLineNumber (hrange : range.Valid) (hwell : piece.WellFormed)
    (h : piece.acceptEdit range text = some piece') (hne : piece'.absolute ≠ []) :
    piece'.startLineNumber = movedStart range text piece.startLineNumber := by
  obtain ⟨deleted, hdelete, rfl⟩ := Option.map_eq_some_iff.mp h
  have hne' : deleted.tokens ≠ [] := fun hnil => hne
    (map_eq_nil_iff.mpr (acceptInsertText_eq_nil deleted range.startLineNumber range.startColumn text hnil))
  have hne'' : piece.tokens ≠ [] := fun hnil => hne' (acceptDeleteRange_eq_nil hrange hwell hdelete hnil)
  have hstart := acceptDeleteRange_startLineNumber hrange hwell hdelete hne'' hne'
  show (deleted.acceptInsertText range.startLineNumber range.startColumn text).startLineNumber = _
  rw [acceptInsertText_startLineNumber]
  unfold movedStart
  split_ifs at hstart ⊢ <;> omega

/-- What an edit makes of a piece, whether it has strays or not. -/
structure Shifted (range : Range) (text : Inserted) (piece piece' : SparseMultilineTokens) : Prop where
  before : piece.WellFormed
  wellFormed : piece'.WellFormed
  endLineNumber : piece'.endLineNumber = piece'.startLineNumber + Storage.getMaxDeltaLine piece'.tokens
  tokens : piece'.absolute = piece.absolute.filterMap (fate range text piece.startLineNumber)
  lines : ∀ blockStart t t', piece.startLineNumber ≤ t.lineNumber → fate range text blockStart t = some t' →
    piece'.startLineNumber ≤ t'.lineNumber
  start : piece'.absolute ≠ [] → piece'.startLineNumber = movedStart range text piece.startLineNumber

theorem mapM_shifted (hrange : range.Valid) (htext : text.Valid) (pieces : List SparseMultilineTokens)
    (hwell : ∀ piece ∈ pieces, piece.WellFormed) :
    ∃ pieces', (pieces.mapM fun (piece : SparseMultilineTokens) => piece.acceptEdit range text) = some pieces' ∧
      List.Forall₂ (Shifted range text) pieces pieces' := by
  induction pieces with
  | nil => exact ⟨[], rfl, .nil⟩
  | cons piece pieces ih =>
    have hfirst := hwell piece mem_cons_self
    obtain ⟨piece', heq, htokens, hwell', hend⟩ := acceptEdit_absolute hfirst hrange htext
    obtain ⟨pieces', heq', hshifted⟩ := ih fun p hp => hwell p (mem_cons_of_mem _ hp)
    refine ⟨piece' :: pieces', ?_, .cons ⟨hfirst, hwell', hend, htokens, ?_, ?_⟩ hshifted⟩
    · rw [mapM_cons, heq, heq']
      rfl
    · exact fun blockStart t t' => acceptEdit_start hrange htext hfirst heq
    · exact acceptEdit_startLineNumber hrange hfirst heq

/-- A piece keeps tokens unless the edit deletes all of them. -/
theorem Shifted.ne_nil_iff (hrange : range.Valid) (h : Shifted range text piece piece') :
    piece'.absolute ≠ [] ↔ ∃ t ∈ piece.absolute, ¬IsInside range t := by
  have hproper := (wellFormed_iff.mp h.before).2.1
  rw [h.tokens, ne_eq, filterMap_eq_nil_iff]
  constructor
  · intro hne
    by_contra hall
    apply hne
    intro t ht
    refine (fate_eq_none_iff _ hrange (hproper t ht)).mpr (Classical.byContradiction fun hinside => hall ⟨t, ht, hinside⟩)
  · rintro ⟨t, ht, hinside⟩ hall
    exact hinside ((fate_eq_none_iff _ hrange (hproper t ht)).mp (hall t ht))

theorem acceptEdit_findable {s : SparseTokensStore} (h : Findable s.pieces) (hrange : range.Valid) (htext : text.Valid)
    (hjoins : s.pieces.Pairwise fun piece piece' => ¬Joins range piece piece')
    (hempties : s.pieces.Pairwise fun piece piece' => ¬Empties range piece piece') :
    ∃ s', s.acceptEdit range text = some s' ∧ Findable s'.pieces := by
  obtain ⟨pieces', heq, hshifted⟩ := mapM_shifted hrange htext s.pieces h.wellFormed
  have hfull : pieces'.Pairwise fun piece piece' => piece.absolute ≠ [] → piece'.absolute ≠ [] := by
    refine forall₂_pairwise (fun a a' b b' hab hab' hempty hne => ?_) hshifted hempties
    rw [hab'.ne_nil_iff hrange]
    by_contra hall
    refine hempty ⟨(hab.ne_nil_iff hrange).mp hne, fun t ht => ?_⟩
    exact Classical.byContradiction fun hinside => hall ⟨t, ht, hinside⟩
  refine ⟨{ s with pieces := pieces' }, ?_, fun p hp => ?_, fun p hp => ?_, ?_, ?_, hfull, ?_⟩
  · unfold SparseTokensStore.acceptEdit
    rw [heq]
    rfl
  · obtain ⟨piece, -, hpiece⟩ := forall₂_mem hshifted p hp
    exact hpiece.wellFormed
  · obtain ⟨piece, -, hpiece⟩ := forall₂_mem hshifted p hp
    exact hpiece.endLineNumber
  · refine forall₂_pairwise (fun a a' b b' hab hab' hlines t' ht' => ?_) hshifted h.lines
    rw [hab'.tokens] at ht'
    obtain ⟨t, ht, hfate⟩ := mem_filterMap.mp ht'
    exact hab.lines _ t t' (hlines t ht) hfate
  · refine forall₂_pairwise (fun a a' b b' hab hab' hboth u hu u' hu' => ?_) hshifted (h.separate.and hjoins)
    rw [hab.tokens] at hu
    rw [hab'.tokens] at hu'
    obtain ⟨t, ht, hfate⟩ := mem_filterMap.mp hu
    obtain ⟨t', ht', hfate'⟩ := mem_filterMap.mp hu'
    refine fate_lineNumber_lt hrange htext ((wellFormed_iff.mp hab.before).2.1 t ht) (hboth.1 t ht t' ht') ?_
      ((wellFormed_iff.mp hab'.before).2.1 t' ht') hfate hfate'
    exact fun hjoin => hboth.2 ⟨hjoin.1, ⟨t, ht, hjoin.2.1⟩, t', ht', hjoin.2.2⟩
  · -- a piece that keeps tokens had some
    have hstarts : pieces'.Pairwise fun piece piece' => piece.absolute ≠ [] → piece'.absolute ≠ [] →
        piece.startLineNumber ≤ piece'.startLineNumber := by
      refine forall₂_pairwise (fun a a' b b' hab hab' hstart hne hne' => ?_) hshifted h.starts
      rw [hab.start hne, hab'.start hne']
      obtain ⟨t, ht, -⟩ := (hab.ne_nil_iff hrange).mp hne
      exact movedStart_mono htext (hstart (ne_nil_of_mem ht))
    exact (hstarts.and hfull).imp fun hboth hne => hboth.1 hne (hboth.2 hne)

end Edits

/-! ## Runs -/

/-- An edit of the document: the range and the text that replaces it. -/
abbrev Edit := Range × JsString

namespace SparseTokensStore

/-- One edit after the other, `none` where one throws. -/
def acceptEdits (s : SparseTokensStore) : List Edit → Option SparseTokensStore
  | [] => some s
  | edit :: edits => (s.acceptEdit edit.1 (Inserted.ofText edit.2)).bind fun s' => s'.acceptEdits edits

/-- No edit joins lines of two pieces, or empties a piece behind one that keeps tokens. -/
def KeepsPieces (s : SparseTokensStore) : List Edit → Prop
  | [] => True
  | edit :: edits =>
    (s.pieces.Pairwise fun piece piece' => ¬Joins edit.1 piece piece' ∧ ¬Empties edit.1 piece piece') ∧
      ∀ s', s.acceptEdit edit.1 (Inserted.ofText edit.2) = some s' → s'.KeepsPieces edits

theorem acceptEdits_findable (edits : List Edit) : ∀ {s : SparseTokensStore}, Findable s.pieces →
    (∀ edit ∈ edits, edit.1.Valid) → s.KeepsPieces edits →
      ∃ s', s.acceptEdits edits = some s' ∧ Findable s'.pieces := by
  induction edits with
  | nil => exact fun h _ _ => ⟨_, rfl, h⟩
  | cons edit edits ih =>
    intro s h hvalid hkeeps
    obtain ⟨hpieces, hrest⟩ := hkeeps
    obtain ⟨s', heq, hfindable⟩ := acceptEdit_findable h (hvalid edit mem_cons_self) (ofText_valid edit.2)
      (hpieces.imp fun hboth => hboth.1) (hpieces.imp fun hboth => hboth.2)
    obtain ⟨s'', heq', hfindable'⟩ :=
      ih hfindable (fun edit' hmem => hvalid edit' (mem_cons_of_mem _ hmem)) (hrest s' heq)
    refine ⟨s'', ?_, hfindable'⟩
    unfold acceptEdits
    rw [heq]
    exact heq'

end SparseTokensStore

/-- After a delivery and edits that keep the pieces apart, the tokens used for a line are all that the pieces hold. -/
theorem delivered_tokens_are_found (styling : Styling) (data : List SemanticToken) (isComplete : Bool) (s : SparseTokensStore)
    (edits : List Edit) (hfits : Fits 1 0 data) (hshort : LastLineShort data) (hgaps : NoGaps styling (areas data))
    (hvalid : ∀ edit ∈ edits, edit.1.Valid)
    (hkeeps : (s.set (some (toMultilineTokens2 styling data)) isComplete).KeepsPieces edits) :
    ∃ s', (s.set (some (toMultilineTokens2 styling data)) isComplete).acceptEdits edits = some s' ∧
      ∀ lineNumber, ((s'.sparseLineTokens lineNumber).getD []).map Token.look =
        ((tokensOf s'.pieces).filter fun t => t.lineNumber = lineNumber).map AbsoluteToken.look := by
  have hfindable := @toMultilineTokens2_findable styling data hfits hshort hgaps
  obtain ⟨s', heq, hfindable'⟩ := SparseTokensStore.acceptEdits_findable edits hfindable hvalid hkeeps
  exact ⟨s', heq, sparseLineTokens_look hfindable'⟩

theorem replicate_fits {token : SemanticToken} (hline : token.deltaLine ≤ 1) (hcharacter : token.deltaCharacter ≤ 1)
    (hlength : token.length = 1) (n : Nat) : ∀ {lineNumber startCharacter : Int}, 0 ≤ startCharacter →
      lineNumber + n < 2 ^ 31 → startCharacter + n + 1 < 2 ^ 31 → Fits lineNumber startCharacter (List.replicate n token) := by
  induction n with
  | zero => exact fun _ _ _ => trivial
  | succ n ih =>
    intro lineNumber startCharacter hstart hlines hcharacters
    refine ⟨by omega, ?_, ih ?_ (by omega) ?_⟩ <;> split <;> omega

/-- A token on each of 401 lines, which are two areas, and a line break above them. -/
theorem delivered_token_is_found_below :
    let data : List SemanticToken := List.replicate 401 ⟨1, 0, 1, 0, 0⟩
    let edits : List Edit := [({ startLineNumber := 1, startColumn := 1, endLineNumber := 1, endColumn := 1 }, [10])]
    ∃ s', (SparseTokensStore.set {} (some (toMultilineTokens2 (fun _ _ => 1) data)) true).acceptEdits edits = some s' ∧
      ((s'.sparseLineTokens 403).getD []).map Token.look = [(0, 1, 1)] := by
  intro data edits
  have hareas : areas data = [List.replicate 400 ⟨1, 0, 1, 0, 0⟩, [⟨1, 0, 1, 0, 0⟩]] := by decide +kernel
  have hpieces : toMultilineTokens2 (fun _ _ => 1) data =
      [.create 2 ((List.range 400).map fun (i : Nat) => ⟨i, 0, 1, 1⟩), .create 402 [⟨0, 0, 1, 1⟩]] := by decide +kernel
  obtain ⟨s', heq, hfound⟩ := delivered_tokens_are_found (fun _ _ => 1) data true {} edits
    (replicate_fits (by decide) (by decide) rfl 401 (by decide) (by decide) (by decide))
    (.inr ⟨400, ⟨1, 0, 1, 0, 0⟩, by decide +kernel, by decide +kernel, by decide⟩)
    (by rw [hareas]; exact pairwise_pair.mpr fun _ => ⟨_, mem_cons_self, by decide, by decide⟩)
    (fun edit hmem => by
      rw [mem_singleton.mp hmem]
      exact ⟨by decide, by decide, by decide, .inr ⟨rfl, by decide⟩⟩)
    ⟨by
      rw [hpieces]
      exact pairwise_pair.mpr ⟨fun h => absurd h.1 (by decide), fun h =>
        absurd (h.2 ⟨402, 0, 1, 1⟩ (by decide)).2 (by decide : ¬((402 : Int) < 1 ∨ (402 : Int) = 1 ∧ (1 : Int) ≤ 0))⟩,
      fun _ _ => trivial⟩
  refine ⟨s', heq, ?_⟩
  have hs' : s' = ⟨[.create 3 ((List.range 400).map fun (i : Nat) => ⟨i, 0, 1, 1⟩), .create 403 [⟨0, 0, 1, 1⟩]], true⟩ := by
    rw [hpieces] at heq
    exact Option.some.inj (heq.symm.trans rfl)
  rw [hfound, hs']
  decide +kernel

/-! ## A line in two pieces -/

section LongLine

/-- A token right after the one before it. -/
def adjoining : SemanticToken := { deltaLine := 0, deltaCharacter := 1, length := 1, tokenTypeIndex := 0, tokenModifierSet := 0 }

theorem adjoining_piece {n : Nat} {startCharacter : Int} {rest : List SemanticToken} (hcharacter : 0 ≤ startCharacter)
    (hfits : Fits 1 startCharacter (List.replicate (n + 1) adjoining ++ rest)) {d : Decoder}
    (hd : decodeArea (fun _ _ => 1) 1 startCharacter (List.replicate (n + 1) adjoining) = d) :
    Decoding 1 d ∧ d.lastLineNumber = 1 ∧ Fits 1 d.lastStartCharacter rest ∧
      (SparseMultilineTokens.create d.areaLine d.destData).absolute ≠ [] := by
  have hne := (@foldl_destData_nil_iff (fun _ _ => 1) _ { lastLineNumber := 1, lastStartCharacter := startCharacter } _
    (Int.le_refl 1) hcharacter hfits rfl rfl).mpr ⟨adjoining, mem_cons_self, by decide, by decide⟩
  obtain ⟨hdecoding, hrest, hlast⟩ := @decodeArea_decoding (fun _ _ => 1) _ _ _ _ _ (Int.le_refl 1) hcharacter hfits
  rw [← replicate_succ, hd] at hdecoding hrest hlast
  have hlast' : d.lastLineNumber = 1 := by
    rw [hlast, map_replicate]
    show (1 : Int) + (0 : Nat) + ((List.replicate n 0).sum : Nat) = 1
    rw [sum_replicate_nat]
    omega
  rw [hlast'] at hrest
  refine ⟨hdecoding, hlast', hrest, fun hnil => hne ?_⟩
  have := map_eq_nil_iff.mp hnil
  rw [← hd] at this
  exact this

theorem tokenEnd_adjoining : tokenEnd (List.replicate 401 adjoining) 0 = 400 := by
  have hline : ∀ i, i < 401 → isOnLineOfPrevious (List.replicate 401 adjoining) i = true := fun i hi =>
    isOnLineOfPrevious_iff.mpr ⟨adjoining, by rw [getElem?_replicate, if_pos hi], rfl⟩
  obtain ⟨hpos, hle, -, hcut⟩ := @smallTokenEnd_spec (List.replicate 401 adjoining) 0 400 (by decide) (by
    rw [length_replicate]
    decide)
  have hsmall : smallTokenEnd (List.replicate 401 adjoining) 0 400 - 1 = 0 := by
    refine hcut.resolve_right ?_
    rw [hline _ (by omega)]
    exact Bool.noConfusion
  unfold tokenEnd
  rw [length_replicate]
  have harea : min (0 + tokensPerArea 401) 401 = 400 := by decide
  rw [harea, if_pos (by decide), if_pos hsmall]
  unfold bigTokenEnd
  rw [length_replicate]
  rfl

theorem adjoining_pieces : ∃ piece piece' : SparseMultilineTokens,
    toMultilineTokens2 (fun _ _ => 1) (List.replicate 401 adjoining) = [piece, piece'] ∧ piece.WellFormed ∧
      piece.endLineNumber = piece.startLineNumber + Storage.getMaxDeltaLine piece.tokens ∧
      (∀ t ∈ piece.absolute, t.lineNumber = 1) ∧ piece.absolute ≠ [] ∧ (∀ t ∈ piece'.absolute, t.lineNumber = 1) ∧
      piece'.absolute ≠ [] := by
  have hfits : Fits 1 0 (List.replicate (399 + 1) adjoining ++ List.replicate (0 + 1) adjoining) := by
    rw [replicate_append_replicate]
    exact replicate_fits (by decide) (by decide) rfl 401 (by decide) (by decide) (by decide)
  obtain ⟨d, hd⟩ : ∃ d, decodeArea (fun _ _ => 1) 1 0 (List.replicate (399 + 1) adjoining) = d := ⟨_, rfl⟩
  obtain ⟨hdecoding, hlast, hrest, hne⟩ := adjoining_piece (by decide) hfits hd
  obtain ⟨d', hd'⟩ : ∃ d', decodeArea (fun _ _ => 1) 1 d.lastStartCharacter (List.replicate (0 + 1) adjoining) = d' :=
    ⟨_, rfl⟩
  have hrest' : Fits 1 d.lastStartCharacter (List.replicate (0 + 1) adjoining ++ []) := by
    exact hrest
  obtain ⟨hdecoding', hlast', -, hne'⟩ := adjoining_piece hdecoding.lastStartCharacter hrest' hd'
  refine ⟨.create d.areaLine d.destData, .create d'.areaLine d'.destData, ?_, hdecoding.wellFormed, rfl, fun t ht => ?_, hne,
    fun t ht => ?_, hne'⟩
  · have hfirst : ((List.replicate 401 adjoining).take 400).drop 0 = List.replicate (399 + 1) adjoining := by
      rw [drop_zero, take_replicate]
      rfl
    have hsecond : ((List.replicate 401 adjoining).take 401).drop 400 = List.replicate (0 + 1) adjoining := by
      rfl
    have hend : tokenEnd (List.replicate 401 adjoining) 400 = 401 := by
      unfold tokenEnd
      rw [length_replicate]
      rfl
    have hlength : (List.replicate 401 adjoining).length = 399 + 1 + 1 := length_replicate
    have hend' := tokenEnd_adjoining
    unfold toMultilineTokens2
    rw [hlength]
    unfold toMultilineTokensLoop
    rw [if_pos (by omega)]
    dsimp only
    rw [hend', hfirst, hd, hlast]
    unfold toMultilineTokensLoop
    rw [if_pos (by omega)]
    dsimp only
    rw [hend, hsecond, hd']
    unfold toMultilineTokensLoop
    rw [if_neg (by omega)]
  · have := hdecoding.lineNumber ht
    omega
  · have := hdecoding'.lineNumber ht
    omega

end LongLine

/-- The last token of the line gets a piece of its own and is not found. -/
theorem delivered_tokens_of_a_long_line :
    let s := SparseTokensStore.set {} (some (toMultilineTokens2 (fun _ _ => 1) (List.replicate 401 adjoining))) true
    s.acceptEdits [] = some s ∧
      ((s.sparseLineTokens 1).getD []).map Token.look ≠
        ((tokensOf s.pieces).filter fun t => t.lineNumber = 1).map AbsoluteToken.look := by
  obtain ⟨piece, piece', hpieces, hwell, hend, hline, hne, hline', hne'⟩ := adjoining_pieces
  rw [hpieces]
  intro s
  refine ⟨rfl, fun hsame => ?_⟩
  obtain ⟨t, ht⟩ := exists_mem_of_ne_nil _ hne
  have hstart := startLineNumber_le hwell ht
  have hlast := lineNumber_le hwell hend ht
  rw [hline t ht] at hstart hlast
  -- the search looks at the first piece first
  have hfind : SparseTokensStore.findFirstPieceWithLine [piece, piece'] 1 = 0 := by
    show SparseTokensStore.findFirstPieceLoop [piece, piece'] 1 0 2 = 0
    rw [SparseTokensStore.findFirstPieceLoop, dif_pos (by decide)]
    dsimp only [Nat.add_one_sub_one, Nat.sub_zero, Nat.reduceDiv, Nat.add_zero, getElem?_cons_zero]
    rw [if_neg (by omega), if_neg (by omega)]
    rfl
  have hfilter : ∀ p : SparseMultilineTokens, (∀ t ∈ p.absolute, t.lineNumber = 1) →
      p.absolute.filter (fun t => t.lineNumber = 1) = p.absolute := by
    intro p hp
    rw [filter_eq_self]
    exact fun t ht => decide_eq_true (hp t ht)
  unfold SparseTokensStore.sparseLineTokens at hsame
  rw [show s.pieces = [piece, piece'] from rfl, hfind] at hsame
  dsimp only [getElem?_cons_zero] at hsame
  rw [getLineTokens_look hwell hend, tokensOf_cons, tokensOf_cons, filter_append, filter_append,
    hfilter piece hline, hfilter piece' hline'] at hsame
  have hlength := congrArg List.length hsame
  rw [length_map, length_map, length_append, length_append] at hlength
  have := length_pos_of_ne_nil hne'
  omega

end TongjiCode.Tokens
