import Mathlib.Data.List.Pairwise
import TongjiCode.Tokens.Fates
import TongjiCode.Tokens.Lines

/-!
# Tokens move with their text

An edit of the text acts on each token of a block alone (`acceptEdit_absolute`).  `MovesWithText` says what it should do:
leave the tokens before the edit, move those after it with their text and drop those inside the deleted range.  There are
two ways in which it does not (`StrayColumns`, `GrowIntoEachOther`).
-/

open List

namespace TongjiCode.Tokens

/-- What an edit makes of a token of a block that starts at the line `blockStart`. -/
def fate (range : Range) (text : Inserted) (blockStart : Int) (t : AbsoluteToken) : Option AbsoluteToken :=
  (deleteFate range blockStart t).map (insertFate range.startLineNumber range.startColumn text)

section Edits

variable {s : SparseMultilineTokens} {range : Range} {text : Inserted}

theorem wellFormed_iff : s.WellFormed ↔ (∀ token ∈ s.tokens, 0 ≤ token.deltaLine) ∧ (∀ t ∈ s.absolute, t.Proper) ∧
    s.absolute.Pairwise AbsoluteToken.StartsBefore := by
  have hpair : s.absolute.Pairwise AbsoluteToken.StartsBefore ↔ s.tokens.Pairwise Token.StartsBefore := by
    unfold SparseMultilineTokens.absolute
    rw [pairwise_map]
    unfold AbsoluteToken.StartsBefore Token.StartsBefore Token.absolute
    simp only [Int.add_lt_add_iff_left, Int.add_right_inj]
  constructor
  · intro h
    refine ⟨fun token htoken => (h.proper token htoken).1, fun t ht => ?_, hpair.mpr h.sorted⟩
    obtain ⟨token, htoken, rfl⟩ := mem_map.mp ht
    exact (h.proper token htoken).2
  · intro ⟨hdelta, hproper, hsorted⟩
    refine ⟨hpair.mp hsorted, fun token htoken => ⟨hdelta token htoken, ?_⟩⟩
    exact hproper _ (mem_map_of_mem htoken)

section

variable (h : s.WellFormed)
include h

theorem startLineNumber_le {t : AbsoluteToken} (ht : t ∈ s.absolute) :
    s.startLineNumber ≤ t.lineNumber := by
  obtain ⟨token, htoken, rfl⟩ := mem_map.mp ht
  have hdelta := (h.proper token htoken).1
  unfold Token.absolute
  dsimp only
  omega

theorem deleted_wellFormed {s' : SparseMultilineTokens} (hrange : range.Valid)
    (hs' : s'.absolute = s.absolute.filterMap (deleteFate range s.startLineNumber))
    (hdelta : ∀ token ∈ s'.tokens, 0 ≤ token.deltaLine) : s'.WellFormed := by
  obtain ⟨-, hproper, hsorted⟩ := wellFormed_iff.mp h
  rw [wellFormed_iff, hs']
  refine ⟨hdelta, fun t' ht' => ?_, ?_⟩
  · obtain ⟨t, ht, hfate⟩ := mem_filterMap.mp ht'
    exact (deleteFate_deleted hfate).proper hrange (hproper t ht)
  · rw [pairwise_filterMap]
    refine hsorted.imp_of_mem fun {a b} ha hb hab a' ha' b' hb' => ?_
    exact (deleteFate_deleted ha').startsBefore hrange (hproper a ha) (hproper b hb) (startLineNumber_le h ha)
      (startLineNumber_le h hb) hab (deleteFate_deleted hb')

theorem acceptInsertText_deltaLine (htext : text.Valid) (lineNumber column : Int) :
    ∀ token ∈ (s.acceptInsertText lineNumber column text).tokens, 0 ≤ token.deltaLine := by
  have hold : ∀ token ∈ s.tokens, 0 ≤ token.deltaLine := fun token htoken => (h.proper token htoken).1
  have heol := htext.eolCount
  unfold SparseMultilineTokens.acceptInsertText
  dsimp only
  split_ifs
  · exact hold
  · exact hold
  · exact hold
  · intro token' htoken'
    obtain ⟨token, htoken, rfl⟩ := mem_map.mp htoken'
    have hdelta := hold token htoken
    unfold Storage.insertToken
    split_ifs <;> (try dsimp only) <;> omega

theorem inserted_wellFormed (htext : text.Valid) (lineNumber : Int) {column : Int} (hcolumn : 1 ≤ column) :
    (s.acceptInsertText lineNumber column text).WellFormed := by
  obtain ⟨-, hproper, hsorted⟩ := wellFormed_iff.mp h
  rw [wellFormed_iff, acceptInsertText_absolute h]
  refine ⟨acceptInsertText_deltaLine h htext lineNumber column, fun t' ht' => ?_, ?_⟩
  · obtain ⟨t, ht, rfl⟩ := mem_map.mp ht'
    exact (insertFate_pushed lineNumber column text t).proper (by omega) htext (hproper t ht)
  · rw [pairwise_map]
    refine hsorted.imp_of_mem fun {a b} ha hb hab => ?_
    exact (insertFate_pushed lineNumber column text a).startsBefore htext (hproper a ha) (hproper b hb) hab
      (insertFate_pushed lineNumber column text b)

/-- An edit never throws, and acts on each token alone. -/
theorem acceptEdit_absolute (hrange : range.Valid) (htext : text.Valid) :
    ∃ s', s.acceptEdit range text = some s' ∧
      s'.absolute = s.absolute.filterMap (fate range text s.startLineNumber) ∧ s'.WellFormed ∧
      s'.endLineNumber = s'.startLineNumber + Storage.getMaxDeltaLine s'.tokens := by
  obtain ⟨s', heq, habsolute, hdelta⟩ := acceptDeleteRange_absolute h hrange
  have hwell := deleted_wellFormed h hrange habsolute hdelta
  have hinserted := inserted_wellFormed hwell htext range.startLineNumber hrange.startColumn
  unfold SparseMultilineTokens.acceptEdit
  rw [heq]
  refine ⟨_, rfl, ?_, ⟨hinserted.sorted, hinserted.proper⟩, rfl⟩
  refine (acceptInsertText_absolute hwell range.startLineNumber range.startColumn).trans ?_
  rw [habsolute, map_filterMap]
  rfl

end

end Edits

/-! ## What an edit should do -/

section Specification

variable (range : Range) (text : Inserted)

/-- A token that ends before the edit starts. -/
def IsBefore (t : AbsoluteToken) : Prop :=
  t.lineNumber < range.startLineNumber ∨
    t.lineNumber = range.startLineNumber ∧ t.endCharacter < range.startColumn - 1

/-- A token that ends where the edit starts. -/
def IsTouching (t : AbsoluteToken) : Prop :=
  t.lineNumber = range.startLineNumber ∧ t.endCharacter = range.startColumn - 1

/-- A token with at least one character between the deleted range and it. -/
def IsAfter (t : AbsoluteToken) : Prop :=
  range.endLineNumber < t.lineNumber ∨ t.lineNumber = range.endLineNumber ∧ range.endColumn - 1 < t.startCharacter

def IsInside (t : AbsoluteToken) : Prop :=
  (range.startLineNumber < t.lineNumber ∨
      range.startLineNumber = t.lineNumber ∧ range.startColumn - 1 ≤ t.startCharacter) ∧
    (t.lineNumber < range.endLineNumber ∨ t.lineNumber = range.endLineNumber ∧ t.endCharacter ≤ range.endColumn - 1)

/-- The line that a line after the edit becomes. -/
def movedLine (lineNumber : Int) : Int :=
  lineNumber - (range.endLineNumber - range.startLineNumber) + text.eolCount

/-- Where a character of a line after the edit goes in its line. -/
def movedCharacter (lineNumber character : Int) : Int :=
  if lineNumber = range.endLineNumber then
    (if text.eolCount = 0 then range.startColumn - 1 + text.firstLineLength else text.lastLineLength) +
      (character - (range.endColumn - 1))
  else character

/-- A token after the edit, moved with its text. -/
def moved (t : AbsoluteToken) : AbsoluteToken :=
  { t with
    lineNumber := movedLine range text t.lineNumber
    startCharacter := movedCharacter range text t.lineNumber t.startCharacter
    endCharacter := movedCharacter range text t.lineNumber t.endCharacter }

/-- The tokens after an edit are those before it, each one left, moved or dropped as its place demands, and they are in
order and apart.  A token that ends where one word character is typed grows with it. -/
structure MovesWithText (tokens tokens' : List AbsoluteToken) : Prop where
  apart : tokens'.Pairwise AbsoluteToken.Before
  fates : ∃ f : AbsoluteToken → Option AbsoluteToken, tokens' = tokens.filterMap f ∧ ∀ t ∈ tokens,
    (IsBefore range t → f t = some t) ∧
    (IsTouching range t → f t = some (if Storage.isInsertingPreciselyOneWordCharacter text then
      { t with endCharacter := t.endCharacter + 1 } else t)) ∧
    (IsAfter range t → f t = some (moved range text t)) ∧
    (IsInside range t → f t = none)

/-- The deletion starts above the block, and not in the first column, and a token follows it on a later line of the
block.  The block knows the column only for tokens on its first line. -/
def StrayColumns (s : SparseMultilineTokens) : Prop :=
  range.startLineNumber < s.startLineNumber ∧ s.startLineNumber < range.endLineNumber ∧ 1 < range.startColumn ∧
    ∃ t ∈ s.absolute, t.lineNumber = range.endLineNumber ∧ range.endColumn - 1 < t.startCharacter

/-- One word character comes between two tokens that touch each other there, or that the deletion brings together. -/
def GrowIntoEachOther (s : SparseMultilineTokens) : Prop :=
  Storage.isInsertingPreciselyOneWordCharacter text = true ∧ s.startLineNumber ≤ range.startLineNumber ∧
    ∃ a ∈ s.absolute, ∃ b ∈ s.absolute, a ≠ b ∧
      a.lineNumber = range.startLineNumber ∧ a.startCharacter < range.startColumn - 1 ∧
      range.startColumn - 1 ≤ a.endCharacter ∧
      b.lineNumber = range.endLineNumber ∧ b.startCharacter ≤ range.endColumn - 1 ∧ range.endColumn - 1 < b.endCharacter

end Specification

section Fates

variable {s : SparseMultilineTokens} {range : Range} {text : Inserted} {t : AbsoluteToken}

theorem ofText_valid (text : JsString) : (Inserted.ofText text).Valid := by
  unfold Inserted.ofText
  rw [countEOL_eq]
  refine ⟨Int.natCast_nonneg _, Int.natCast_nonneg _, Int.natCast_nonneg _, fun h => ?_⟩
  have hpos : 0 < (splitLines text).length := length_pos_iff.mpr (splitLines_ne_nil text)
  dsimp only at h ⊢
  have hone : (splitLines text).length = 1 := by omega
  rw [lastLength_of_one hone]

theorem fate_of_deleteFate {blockStart : Int} {t' : AbsoluteToken} (h : deleteFate range blockStart t = some t') :
    fate range text blockStart t = some (insertFate range.startLineNumber range.startColumn text t') := by
  unfold fate
  rw [h, Option.map_some]

theorem deleteFate_untouched (blockStart : Int) (h : t.lineNumber < range.startLineNumber ∨
    t.lineNumber = range.startLineNumber ∧ t.endCharacter ≤ range.startColumn - 1) :
    deleteFate range blockStart t = some t := by
  exact if_pos h

theorem fate_before (blockStart : Int) (h : IsBefore range t) : fate range text blockStart t = some t := by
  unfold IsBefore at h
  rw [fate_of_deleteFate (deleteFate_untouched blockStart (by omega))]
  unfold insertFate
  rw [if_pos h]

theorem fate_touching (blockStart : Int) (h : IsTouching range t) :
    fate range text blockStart t = some (if Storage.isInsertingPreciselyOneWordCharacter text then
      { t with endCharacter := t.endCharacter + 1 } else t) := by
  unfold IsTouching at h
  rw [fate_of_deleteFate (deleteFate_untouched blockStart (by omega))]
  unfold insertFate
  rw [if_neg (by omega), if_pos h]

theorem fate_inside (blockStart : Int) (hproper : t.Proper) (h : IsInside range t) :
    fate range text blockStart t = none := by
  unfold IsInside at h
  unfold AbsoluteToken.Proper at hproper
  have hdelete : deleteFate range blockStart t = none := by
    unfold deleteFate
    rw [if_neg (by omega)]
    by_cases hat : t.lineNumber = range.startLineNumber ∧ t.startCharacter ≤ range.startColumn - 1
    · rw [if_pos hat, if_neg (by omega), if_neg (by omega)]
    · rw [if_neg hat, if_pos (by omega), if_neg (by omega)]
  unfold fate
  rw [hdelete]
  rfl

theorem fate_below (blockStart : Int) (hrange : range.Valid) (h : range.endLineNumber < t.lineNumber) :
    fate range text blockStart t = some (moved range text t) := by
  have hordered := hrange.ordered
  have hdelete : deleteFate range blockStart t =
      some { t with lineNumber := t.lineNumber - (range.endLineNumber - range.startLineNumber) } := by
    unfold deleteFate
    rw [if_neg (by omega), if_neg (by omega), if_neg (by omega), if_pos h]
  rw [fate_of_deleteFate hdelete]
  unfold insertFate moved movedLine movedCharacter
  dsimp only
  rw [if_neg (by omega), if_neg (by omega), if_neg (by omega), if_neg (by omega), if_neg (by omega), if_neg (by omega),
    if_neg (by omega)]

/-- The column where the deletion puts what follows it on its last line. -/
def landing (range : Range) (blockStart : Int) : Int :=
  if range.startLineNumber < blockStart ∧ blockStart ≠ range.endLineNumber then 0 else range.startColumn - 1

section

variable (blockStart : Int) (hrange : range.Valid) (hproper : t.Proper) (hline : t.lineNumber = range.endLineNumber)
variable (hstart : range.endColumn - 1 < t.startCharacter)
include blockStart hrange hproper hline hstart

theorem deleteFate_same_line :
    deleteFate range blockStart t = some { t with
      lineNumber := range.startLineNumber
      startCharacter := landing range blockStart + (t.startCharacter - (range.endColumn - 1))
      endCharacter := landing range blockStart + (t.endCharacter - (range.endColumn - 1)) } := by
  obtain ⟨-, hcolumn, hcolumn', hordered⟩ := hrange
  unfold AbsoluteToken.Proper at hproper
  unfold deleteFate landing
  rw [if_neg (by omega), if_neg (by omega), if_neg (by omega), if_neg (by omega)]
  by_cases habove : range.startLineNumber < blockStart ∧ blockStart ≠ range.endLineNumber
  · rw [if_pos habove, if_pos (by omega)]
  · rw [if_neg habove, if_neg (by omega)]

theorem fate_same_line (hlanding : landing range blockStart = range.startColumn - 1) :
    fate range text blockStart t = some (moved range text t) := by
  rw [fate_of_deleteFate (deleteFate_same_line blockStart hrange hproper hline hstart), hlanding]
  unfold AbsoluteToken.Proper at hproper
  unfold insertFate moved movedLine movedCharacter
  dsimp only
  rw [if_neg (by omega), if_neg (by omega), if_neg (by omega), if_neg (by omega), if_pos rfl, if_pos hline, if_pos hline]
  simp only [Option.some.injEq, AbsoluteToken.mk.injEq, and_true]
  refine ⟨by omega, by omega, by omega⟩

end

/-- In a wrong column, nothing that is inserted can put a token right. -/
theorem fate_stray (blockStart : Int) (hrange : range.Valid) (htext : text.Valid) (hproper : t.Proper)
    (hline : t.lineNumber = range.endLineNumber) (hstart : range.endColumn - 1 < t.startCharacter)
    (hlanding : landing range blockStart = 0) (hcolumn : 1 < range.startColumn) :
    ∃ t', fate range text blockStart t = some t' ∧ t' ≠ moved range text t := by
  refine ⟨_, fate_of_deleteFate (deleteFate_same_line blockStart hrange hproper hline hstart), fun heq => ?_⟩
  obtain ⟨heol, hfirst, hlast, hone⟩ := htext
  rw [hlanding] at heq
  have hpushed := insertFate_pushed range.startLineNumber range.startColumn text { t with
    lineNumber := range.startLineNumber
    startCharacter := 0 + (t.startCharacter - (range.endColumn - 1))
    endCharacter := 0 + (t.endCharacter - (range.endColumn - 1)) }
  have hmovedLine : movedLine range text t.lineNumber = range.startLineNumber + text.eolCount := by
    unfold movedLine
    omega
  have hmovedStart : movedCharacter range text t.lineNumber t.startCharacter =
      (if text.eolCount = 0 then range.startColumn - 1 + text.firstLineLength else text.lastLineLength) +
        (t.startCharacter - (range.endColumn - 1)) := by
    unfold movedCharacter
    rw [if_pos hline]
  have hLine := congrArg AbsoluteToken.lineNumber heq
  have hStart := congrArg AbsoluteToken.startCharacter heq
  unfold moved at hLine hStart
  rw [hmovedStart] at hStart
  generalize insertFate _ _ _ _ = t' at hpushed hLine hStart
  cases hpushed <;> dsimp only at * <;> split_ifs at hStart <;> omega

theorem Deleted.ends_at {blockStart : Int} {a a' : AbsoluteToken} (hproper : a.Proper)
    (hblock : blockStart ≤ a.lineNumber) (h : Deleted range blockStart a a') (hline : a'.lineNumber = range.startLineNumber)
    (hend : a'.endCharacter = range.startColumn - 1) :
    (blockStart ≤ range.startLineNumber ∧ a.lineNumber = range.startLineNumber ∧
      a.startCharacter < range.startColumn - 1 ∧ range.startColumn - 1 ≤ a.endCharacter) ∨
    (range.startLineNumber < blockStart ∧ a.lineNumber = range.endLineNumber ∧ range.endColumn - 1 < a.endCharacter ∧
      1 < range.startColumn) := by
  obtain ⟨-, hne⟩ := hproper
  cases h with
  | untouched h =>
    left
    omega
  | cutEnd hline' hstart hend' hnot =>
    left
    exact ⟨hline' ▸ hblock, hline', hstart, Int.le_of_lt hend'⟩
  | cutOut hline' hstart hline'' hend' =>
    dsimp only at hend
    omega
  | cutStart hpast hline' hstart hend' landing hlanding =>
    dsimp only at hend
    rcases hlanding with ⟨habove, rfl⟩ | ⟨-, rfl⟩
    · right
      exact ⟨habove, hline', hend', by omega⟩
    · omega
  | below hline' =>
    dsimp only at hline
    omega
  | joined hpast hline' hstart landing hlanding =>
    dsimp only at hend
    rcases hlanding with ⟨⟨habove, -⟩, rfl⟩ | ⟨-, rfl⟩
    · right
      exact ⟨habove, hline', by omega, by omega⟩
    · omega

theorem Deleted.starts_at {blockStart : Int} {b b' : AbsoluteToken} (hrange : range.Valid) (hproper : b.Proper)
    (h : Deleted range blockStart b b') (hline : b'.lineNumber = range.startLineNumber)
    (hstart : b'.startCharacter = range.startColumn - 1) :
    b.lineNumber = range.endLineNumber ∧ range.endColumn - 1 < b.endCharacter ∧
      (b.startCharacter ≤ range.endColumn - 1 ∨
        range.startLineNumber < blockStart ∧ ¬(range.endLineNumber = blockStart ∧ 0 < b.startCharacter)) := by
  obtain ⟨-, -, -, hordered⟩ := hrange
  obtain ⟨-, hne⟩ := hproper
  cases h with
  | untouched h =>
    omega
  | cutEnd hline' hstart' hend hnot => exact absurd hstart (Int.ne_of_lt hstart')
  | cutOut hline' hstart' hline'' hend =>
    exact ⟨hline'', hend, .inl (by omega)⟩
  | cutStart hpast hline' hstart' hend landing hlanding => exact ⟨hline', hend, .inl (by omega)⟩
  | below hline' =>
    dsimp only at hline
    omega
  | joined hpast hline' hstart' landing hlanding =>
    dsimp only at hstart
    refine ⟨hline', by omega, ?_⟩
    rcases hlanding with ⟨hblock, -⟩ | ⟨-, rfl⟩
    · exact .inr hblock
    · exact .inl (by omega)

/-- Tokens that a word character makes overlap were brought together by the edit. -/
theorem grow_into_each_other {a b a' b' : AbsoluteToken} (h : s.WellFormed) (hrange : range.Valid) (ha : a ∈ s.absolute)
    (hb : b ∈ s.absolute) (hab : a.Before b) (hstray : ¬StrayColumns range s)
    (ha' : Deleted range s.startLineNumber a a') (hb' : Deleted range s.startLineNumber b b')
    (hword : Storage.isInsertingPreciselyOneWordCharacter text = true) (hline : a'.lineNumber = range.startLineNumber)
    (hline' : b'.lineNumber = range.startLineNumber) (hend : a'.endCharacter = range.startColumn - 1)
    (hstart : b'.startCharacter = range.startColumn - 1) : GrowIntoEachOther range text s := by
  have hproper := (wellFormed_iff.mp h).2.1 a ha
  have hproper' := (wellFormed_iff.mp h).2.1 b hb
  have hblock := startLineNumber_le h ha
  have hne : a ≠ b := by
    rintro rfl
    unfold AbsoluteToken.Before AbsoluteToken.Proper at *
    omega
  have hstray' : ¬(range.startLineNumber < s.startLineNumber ∧ s.startLineNumber < range.endLineNumber ∧
      1 < range.startColumn ∧ b.lineNumber = range.endLineNumber ∧ range.endColumn - 1 < b.startCharacter) :=
    fun ⟨h1, h2, h3, h4, h5⟩ => hstray ⟨h1, h2, h3, b, hb, h4, h5⟩
  obtain ⟨hline', hend', hstart'⟩ := hb'.starts_at hrange hproper' hline' hstart
  rcases ha'.ends_at hproper hblock hline hend with ⟨hwithin, hplaces⟩ | ⟨habove, hsame, hpast, hcolumn⟩
  · refine ⟨hword, hwithin, a, ha, b, hb, hne, hplaces.1, hplaces.2.1, hplaces.2.2, hline', ?_, hend'⟩
    rcases hstart' with hle | ⟨habove, -⟩
    · exact hle
    · omega
  · -- both tokens were behind the end of a deletion from above the block
    have hbehind : range.endColumn - 1 < b.startCharacter := by
      rcases hab with hlt | ⟨-, hle⟩
      · rw [hsame, hline'] at hlt
        omega
      · omega
    rcases hstart' with hle | ⟨-, hfirst⟩
    · omega
    · rw [hsame] at hblock
      rcases Int.lt_or_eq_of_le hblock with hlt | heq
      · exact absurd ⟨habove, hlt, hcolumn, hline', hbehind⟩ hstray'
      · have hcolumn' := hrange.endColumn
        exact absurd ⟨heq.symm, by omega⟩ hfirst

/-- Where two lists are made of the same list, what is last in both comes from the same places. -/
theorem filterMap_agree {α β : Type} {f g : α → Option β} {x : α} {l r : List α}
    (heq : (l ++ x :: r).filterMap f = (l ++ x :: r).filterMap g) (hf : ∀ y ∈ x :: r, (f y).isSome)
    (hg : ∀ y ∈ x :: r, (g y).isSome) : f x = g x := by
  rw [filterMap_append, filterMap_append] at heq
  have hlength := (filterMap_length_eq_length.mpr hf).trans (filterMap_length_eq_length.mpr hg).symm
  have hlast := (append_inj' heq hlength).2
  obtain ⟨y, hy⟩ := Option.isSome_iff_exists.mp (hf x mem_cons_self)
  obtain ⟨z, hz⟩ := Option.isSome_iff_exists.mp (hg x mem_cons_self)
  rw [filterMap_cons_some hy, filterMap_cons_some hz] at hlast
  rw [hy, hz, (List.cons.inj hlast).1]

section

variable (h : s.WellFormed) (happart : s.absolute.Pairwise AbsoluteToken.Before) (hrange : range.Valid)
variable (htext : text.Valid)
include h happart hrange htext

theorem movesWithText_of (hstray : ¬StrayColumns range s) (hgrow : ¬GrowIntoEachOther range text s) :
    MovesWithText range text s.absolute (s.absolute.filterMap (fate range text s.startLineNumber)) := by
  have hproper := (wellFormed_iff.mp h).2.1
  refine ⟨?_, fate range text s.startLineNumber, rfl, fun t ht => ⟨fate_before _, fate_touching _, fun hafter => ?_,
    fate_inside _ (hproper t ht)⟩⟩
  · rw [pairwise_filterMap]
    refine happart.imp_of_mem fun {a b} ha hb hab a'' ha'' b'' hb'' => ?_
    obtain ⟨a', ha', rfl⟩ := Option.map_eq_some_iff.mp ha''
    obtain ⟨b', hb', rfl⟩ := Option.map_eq_some_iff.mp hb''
    have ha' := deleteFate_deleted ha'
    have hb' := deleteFate_deleted hb'
    have hab' := ha'.keeps_before hrange (hproper a ha) (hproper b hb) (startLineNumber_le h ha)
      (startLineNumber_le h hb) hab hb'
    refine (insertFate_pushed _ _ text a').keeps_before htext (ha'.proper hrange (hproper a ha))
      (hb'.proper hrange (hproper b hb)) hab' ?_ (insertFate_pushed _ _ text b')
    rintro ⟨hword, hline, hline', hend, hstart⟩
    exact hgrow (grow_into_each_other h hrange ha hb hab hstray ha' hb' hword hline hline' hend hstart)
  · rcases hafter with hbelow | ⟨hline, hstart⟩
    · exact fate_below _ hrange hbelow
    · apply fate_same_line _ hrange (hproper t ht) hline hstart
      have hblock := startLineNumber_le h ht
      have hcolumn := hrange.startColumn
      have hstray' : ¬(range.startLineNumber < s.startLineNumber ∧ s.startLineNumber < range.endLineNumber ∧
          1 < range.startColumn) := fun ⟨h1, h2, h3⟩ => hstray ⟨h1, h2, h3, t, ht, hline, hstart⟩
      unfold landing
      split_ifs <;> omega

theorem not_movesWithText_of_stray {tokens' : List AbsoluteToken}
    (htokens : tokens' = s.absolute.filterMap (fate range text s.startLineNumber)) (hstray : StrayColumns range s) :
    ¬MovesWithText range text s.absolute tokens' := by
  rintro ⟨-, f, hf, hfates⟩
  have hproper := (wellFormed_iff.mp h).2.1
  obtain ⟨habove, hlast, hcolumn, t, ht, hline, hstart⟩ := hstray
  obtain ⟨l, r, hsplit⟩ := append_of_mem ht
  rw [htokens] at hf
  rw [hsplit] at hf happart hfates hproper
  -- the tokens after `t` are after the edit as well
  have hafter : ∀ t' ∈ t :: r, IsAfter range t' := by
    intro t' ht'
    rcases mem_cons.mp ht' with rfl | hmem
    · exact .inr ⟨hline, hstart⟩
    · have hbefore := (pairwise_cons.mp (pairwise_append.mp happart).2.1).1 t' hmem
      have hne := hproper t (mem_append_right _ mem_cons_self)
      unfold AbsoluteToken.Before at hbefore
      unfold AbsoluteToken.Proper at hne
      unfold IsAfter
      omega
  have hsome : ∀ t' ∈ t :: r, (f t').isSome := by
    intro t' ht'
    rw [(hfates t' (mem_append_right _ ht')).2.2.1 (hafter t' ht')]
    rfl
  have hlanding : landing range s.startLineNumber = 0 := if_pos ⟨habove, by omega⟩
  have hsome' : ∀ t' ∈ t :: r, (fate range text s.startLineNumber t').isSome := by
    intro t' ht'
    rcases hafter t' ht' with hbelow | ⟨hline', hstart'⟩
    · rw [fate_below _ hrange hbelow]
      rfl
    · obtain ⟨t'', hfate, -⟩ := fate_stray s.startLineNumber hrange htext
        (hproper t' (mem_append_right _ ht')) hline' hstart' hlanding hcolumn
      rw [hfate]
      rfl
  have hagree := filterMap_agree hf hsome' hsome
  obtain ⟨t', hfate, hne⟩ := fate_stray s.startLineNumber hrange htext
    (hproper t (mem_append_right _ mem_cons_self)) hline hstart hlanding hcolumn
  rw [hfate, (hfates t (mem_append_right _ mem_cons_self)).2.2.1 (.inr ⟨hline, hstart⟩)] at hagree
  exact hne (Option.some.inj hagree)

end

theorem pairwise_or {α : Type} {R : α → α → Prop} {l : List α} (h : l.Pairwise R) {a b : α} (ha : a ∈ l) (hb : b ∈ l)
    (hne : a ≠ b) : R a b ∨ R b a := by
  have hor : l.Pairwise fun a b => R a b ∨ R b a := h.imp fun hR => .inl hR
  have : Std.Symm fun a b => R a b ∨ R b a := ⟨fun _ _ hor => hor.symm⟩
  exact hor.forall ha hb hne

theorem not_apart_of_grow (happart : s.absolute.Pairwise AbsoluteToken.Before) (hrange : range.Valid)
    (hgrow : GrowIntoEachOther range text s) :
    ¬(s.absolute.filterMap (fate range text s.startLineNumber)).Pairwise AbsoluteToken.Before := by
  intro hresult
  obtain ⟨hword, hblock, a, ha, b, hb, hne, hline, hstart, hend, hline', hstart', hend'⟩ := hgrow
  have hordered := hrange.ordered
  have hab := pairwise_or happart ha hb hne
  rw [pairwise_filterMap] at hresult
  have hresult' := pairwise_or hresult ha hb hne
  unfold AbsoluteToken.Before at hab hresult'
  have hdelete : deleteFate range s.startLineNumber a = some { a with endCharacter := range.startColumn - 1 } := by
    unfold deleteFate
    by_cases htouch : a.endCharacter = range.startColumn - 1
    · rw [if_pos (by omega), ← htouch]
    · rw [if_neg (by omega), if_pos (by omega), if_neg (by omega), if_pos hstart]
  have hdelete' : deleteFate range s.startLineNumber b = some { b with
      lineNumber := range.startLineNumber
      startCharacter := range.startColumn - 1
      endCharacter := range.startColumn - 1 + (b.endCharacter - (range.endColumn - 1)) } := by
    unfold deleteFate
    rw [if_neg (by omega)]
    by_cases hat : b.lineNumber = range.startLineNumber ∧ b.startCharacter ≤ range.startColumn - 1
    · rw [if_pos hat, if_pos ⟨hline', hend'⟩]
      simp only [Option.some.injEq, AbsoluteToken.mk.injEq, and_true]
      omega
    rw [if_neg hat]
    by_cases hcut : b.startCharacter < range.endColumn - 1
    · rw [if_pos (by omega), if_pos ⟨hline', hend'⟩, if_neg (by omega)]
    · rw [if_neg (by omega), if_neg (by omega), if_neg (by omega)]
      simp only [Option.some.injEq, AbsoluteToken.mk.injEq, and_true, true_and]
      omega
  have hpush := @fate_of_deleteFate range text a _ _ hdelete
  have hpush' := @fate_of_deleteFate range text b _ _ hdelete'
  unfold insertFate at hpush hpush'
  dsimp only at hpush hpush'
  rw [if_neg (by omega), if_pos ⟨hline, rfl⟩, if_pos hword] at hpush
  rw [if_neg (by omega), if_neg (by omega), if_neg (by omega), if_pos ⟨⟨rfl, rfl⟩, hword⟩] at hpush'
  rcases hresult' with hbefore | hbefore
  · have := hbefore _ hpush _ hpush'
    dsimp only at this
    omega
  · have := hbefore _ hpush' _ hpush
    dsimp only at this
    omega

end Fates

theorem acceptEdit_moves_with_text_iff (s : SparseMultilineTokens) (range : Range) (text : JsString)
    (hproper : ∀ token ∈ s.tokens, token.Proper) (happart : s.absolute.Pairwise AbsoluteToken.Before)
    (hrange : range.Valid) :
    (∃ s', s.applyEdit range text = some s' ∧
        MovesWithText range (Inserted.ofText text) s.absolute s'.absolute) ↔
      ¬StrayColumns range s ∧ ¬GrowIntoEachOther range (Inserted.ofText text) s := by
  have htext := ofText_valid text
  have hwell : s.WellFormed := by
    rw [wellFormed_iff]
    have hproper' : ∀ t ∈ s.absolute, t.Proper := by
      intro t ht
      obtain ⟨token, htoken, rfl⟩ := mem_map.mp ht
      exact (hproper token htoken).2
    refine ⟨fun token htoken => (hproper token htoken).1, hproper', ?_⟩
    refine happart.imp_of_mem fun {a b} ha hb hab => ?_
    have hne := hproper' a ha
    unfold AbsoluteToken.Before at hab
    unfold AbsoluteToken.Proper at hne
    unfold AbsoluteToken.StartsBefore
    omega
  obtain ⟨s', heq, habsolute, -, -⟩ := acceptEdit_absolute hwell hrange htext
  constructor
  · rintro ⟨s'', heq', hmoves⟩
    have hsame : s' = s'' := Option.some.inj (heq.symm.trans heq')
    subst hsame
    refine ⟨fun hstray => not_movesWithText_of_stray hwell happart hrange htext habsolute hstray hmoves, fun hgrow => ?_⟩
    apply not_apart_of_grow happart hrange hgrow
    rw [← habsolute]
    exact hmoves.apart
  · rintro ⟨hstray, hgrow⟩
    refine ⟨s', heq, ?_⟩
    rw [habsolute]
    exact movesWithText_of hwell happart hrange htext hstray hgrow

/-- Two tokens on two lines, of which an edit that starts above them leaves the second one in its column. -/
theorem acceptEdit_moves_two_lines :
    let s := SparseMultilineTokens.create 5 [⟨0, 2, 4, 1⟩, ⟨1, 3, 6, 2⟩]
    let range : Range := { startLineNumber := 3, startColumn := 1, endLineNumber := 6, endColumn := 2 }
    ∃ s', s.applyEdit range [] = some s' ∧ MovesWithText range (Inserted.ofText []) s.absolute s'.absolute := by
  intro s range
  have happart : s.absolute.Pairwise AbsoluteToken.Before := by
    refine pairwise_cons.mpr ⟨?_, pairwise_singleton _ _⟩
    intro t ht
    rw [mem_singleton.mp ht]
    exact .inl (by decide)
  have hproper : ∀ token ∈ s.tokens, token.Proper := by
    intro token htoken
    rcases mem_cons.mp htoken with rfl | htoken
    · exact ⟨by decide, by decide, by decide⟩
    · rw [mem_singleton.mp htoken]
      exact ⟨by decide, by decide, by decide⟩
  refine (acceptEdit_moves_with_text_iff s range [] hproper happart
    ⟨by decide, by decide, by decide, .inl (by decide)⟩).mpr ⟨?_, ?_⟩
  · rintro ⟨-, -, hcolumn, -⟩
    exact absurd hcolumn (by decide)
  · rintro ⟨hword, -⟩
    exact absurd hword (by decide)

/-- The same deletion from the third column on: the second token loses two columns. -/
theorem acceptEdit_loses_columns :
    let s := SparseMultilineTokens.create 5 [⟨0, 2, 4, 1⟩, ⟨1, 3, 6, 2⟩]
    let range : Range := { startLineNumber := 3, startColumn := 3, endLineNumber := 6, endColumn := 2 }
    ((s.applyEdit range []).map SparseMultilineTokens.absolute = some [⟨3, 2, 5, 2⟩]) ∧
      moved range (Inserted.ofText []) ⟨6, 3, 6, 2⟩ = ⟨3, 4, 7, 2⟩ ∧
      ¬∃ s', s.applyEdit range [] = some s' ∧ MovesWithText range (Inserted.ofText []) s.absolute s'.absolute := by
  intro s range
  have hresult : (s.applyEdit range []).map SparseMultilineTokens.absolute = some [⟨3, 2, 5, 2⟩] := by decide
  refine ⟨hresult, by decide, ?_⟩
  rintro ⟨s', heq, -, f, hf, hfates⟩
  rw [heq, Option.map_some] at hresult
  rw [Option.some.inj hresult] at hf
  have hinside : f ⟨5, 2, 4, 1⟩ = none :=
    (hfates ⟨5, 2, 4, 1⟩ (by decide)).2.2.2 ⟨.inl (by decide), .inl (by decide)⟩
  have hafter : f ⟨6, 3, 6, 2⟩ = some ⟨3, 4, 7, 2⟩ :=
    (hfates ⟨6, 3, 6, 2⟩ (by decide)).2.2.1 (.inr ⟨rfl, by decide⟩)
  have htokens : s.absolute = [⟨5, 2, 4, 1⟩, ⟨6, 3, 6, 2⟩] := by decide
  rw [htokens, filterMap_cons_none hinside, filterMap_cons_some hafter] at hf
  exact absurd (List.cons.inj hf).1 (by decide)

end TongjiCode.Tokens
