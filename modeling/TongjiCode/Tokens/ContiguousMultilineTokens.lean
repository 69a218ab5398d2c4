import TongjiCode.Tokens.Painting

/-!
# Blocks of line tokens

The class `ContiguousMultilineTokens` of `contiguousMultilineTokens.ts`: the tokens of some lines that follow each other, and how
a block changes with edits of the text.  Its entries are compared with those of a `ContiguousTokensStore`, line by line.

* `entry_acceptDeleteRange`, `entry_acceptInsertText`: the store after an edit, line by line.
* `acceptInsertText_follows_iff`: when the lines of a block are still those of the store after an insertion into the block.
-/

open List

namespace TongjiCode.Tokens

open ContiguousTokensEditing

/-! ## Algorithm -/

structure ContiguousMultilineTokens where
  startLineNumber : Int
  tokens : List StoredTokens
deriving DecidableEq, Repr

namespace ContiguousMultilineTokens

def endLineNumber (s : ContiguousMultilineTokens) : Int := s.startLineNumber + s.tokens.length - 1

/-- `getLineTokens`, `none` where it is `undefined`. -/
def getLineTokens (s : ContiguousMultilineTokens) (lineNumber : Int) : Option StoredTokens :=
  if lineNumber < s.startLineNumber then none else s.tokens[(lineNumber - s.startLineNumber).toNat]?

def acceptDeleteRange (s : ContiguousMultilineTokens) (range : LineRange) : ContiguousMultilineTokens :=
  -- nothing to delete
  if range.startLineNumber = range.endLineNumber ∧ range.startColumn = range.endColumn then s
  else
    let firstLineIndex := (range.startLineNumber : Int) - s.startLineNumber
    let lastLineIndex := (range.endLineNumber : Int) - s.startLineNumber
    if lastLineIndex < 0 then
      -- this deletion occurs entirely before this block, so we only need to adjust line numbers
      { s with startLineNumber := s.startLineNumber - (lastLineIndex - firstLineIndex) }
    else if firstLineIndex ≥ s.tokens.length then s
    else if firstLineIndex < 0 ∧ lastLineIndex ≥ s.tokens.length then
      -- this deletion completely encompasses this block
      ⟨0, []⟩
    else
      let firstLine := ContiguousTokensStore.entry s.tokens firstLineIndex.toNat
      let lastLine := ContiguousTokensStore.entry s.tokens lastLineIndex.toNat
      if firstLineIndex = lastLineIndex then
        -- a delete on a single line
        { s with
          tokens := s.tokens.set firstLineIndex.toNat (delete firstLine (range.startColumn - 1) (range.endColumn - 1)) }
      else if firstLineIndex ≥ 0 then
        -- the first line survives
        let firstLineTokens := deleteEnding firstLine (range.startColumn - 1)
        if lastLineIndex < s.tokens.length then
          let tokens := s.tokens.set firstLineIndex.toNat
            (append firstLineTokens (deleteBeginning lastLine (range.endColumn - 1)))
          -- delete middle lines
          { s with tokens := tokens.take (firstLineIndex.toNat + 1) ++ tokens.drop (lastLineIndex.toNat + 1) }
        else
          let tokens := s.tokens.set firstLineIndex.toNat (append firstLineTokens .null)
          { s with tokens := tokens.take (firstLineIndex.toNat + 1) }
      else
        -- the first line does not survive
        let deletedBefore := -firstLineIndex
        { startLineNumber := s.startLineNumber - deletedBefore
          tokens :=
            (s.tokens.set lastLineIndex.toNat (deleteBeginning lastLine (range.endColumn - 1))).drop lastLineIndex.toNat }

def insertLines (s : ContiguousMultilineTokens) (insertIndex insertCount : Nat) : ContiguousMultilineTokens :=
  if insertCount = 0 then s
  else { s with tokens := s.tokens.take insertIndex ++ List.replicate insertCount .null ++ s.tokens.drop insertIndex }

def acceptInsertText (s : ContiguousMultilineTokens) (lineNumber column eolCount firstLineLength : Nat) :
    ContiguousMultilineTokens :=
  -- nothing to insert
  if eolCount = 0 ∧ firstLineLength = 0 then s
  else
    let lineIndex := (lineNumber : Int) - s.startLineNumber
    if lineIndex < 0 then
      -- this insertion occurs before this block, so we only need to adjust line numbers
      { s with startLineNumber := s.startLineNumber + eolCount }
    else if lineIndex ≥ s.tokens.length then s
    else
      let line := ContiguousTokensStore.entry s.tokens lineIndex.toNat
      if eolCount = 0 then
        -- inserting text on one line
        { s with tokens := s.tokens.set lineIndex.toNat (insert line (column - 1) firstLineLength) }
      else
        let tokens := s.tokens.set lineIndex.toNat (insert (deleteEnding line (column - 1)) (column - 1) firstLineLength)
        insertLines { s with tokens } lineNumber eolCount

def applyEdit (s : ContiguousMultilineTokens) (range : LineRange) (text : JsString) : ContiguousMultilineTokens :=
  let (eolCount, firstLineLength, _) := countEOL text
  (s.acceptDeleteRange range).acceptInsertText range.startLineNumber range.startColumn eolCount firstLineLength

end ContiguousMultilineTokens

/-! ## The store, line by line -/

variable {stored : StoredTokens}

section Store

open ContiguousTokensStore

variable {s : ContiguousTokensStore} {range : LineRange}

theorem entry_of_le (h : s.length ≤ i) : s.entry i = .null := by
  rw [entry, getElem?_eq_none h]
  rfl

theorem entry_of_getElem? (h : s[i]? = some stored) : s.entry i = stored := by
  rw [entry, h]
  rfl

theorem entry_set (s : ContiguousTokensStore) {i : Nat} (hi : i < s.length) (stored : StoredTokens) (k : Nat) :
    entry (s.set i stored) k = if k = i then stored else s.entry k := by
  unfold entry
  rw [getElem?_set]
  by_cases hk : k = i
  · rw [if_pos hk.symm, if_pos hi, if_pos hk]
    rfl
  · rw [if_neg (Ne.symm hk), if_neg hk]

theorem entry_deleteLines (s : ContiguousTokensStore) (start deleteCount k : Nat) :
    entry (s.deleteLines start deleteCount) k = if k < start then s.entry k else s.entry (k + deleteCount) := by
  unfold deleteLines entry
  rw [getElem?_append, length_take, getElem?_take, List.getElem?_drop]
  by_cases hk : k < start
  · simp only [if_pos hk]
    by_cases hlength : k < s.length
    · rw [if_pos (by omega)]
    · rw [if_neg (by omega), getElem?_eq_none (by omega), getElem?_eq_none (by omega)]
  · simp only [if_neg hk]
    rw [if_neg (by omega)]
    by_cases hlength : k + deleteCount < s.length
    · rw [if_neg (by omega)]
      congr 2
      omega
    · rw [getElem?_eq_none (by split <;> omega), getElem?_eq_none (by omega)]

theorem entry_insertLines (s : ContiguousTokensStore) (insertIndex insertCount k : Nat) :
    entry (s.insertLines insertIndex insertCount) k =
      if k < insertIndex then s.entry k else if k < insertIndex + insertCount then .null else s.entry (k - insertCount) := by
  unfold insertLines entry
  rw [append_assoc, getElem?_append, getElem?_append, length_take, length_replicate,
    getElem?_take, getElem?_replicate, List.getElem?_drop]
  by_cases hk : k < insertIndex
  · simp only [if_pos hk]
    by_cases hlength : k < s.length
    · rw [if_pos (by omega)]
    · rw [if_neg (by omega), getElem?_eq_none (by omega), getElem?_eq_none (by omega)]
      split <;> rfl
  · simp only [if_neg hk]
    rw [if_neg (by omega)]
    by_cases hinserted : k < insertIndex + insertCount
    · rw [if_pos hinserted]
      split
      · rfl
      · rw [getElem?_eq_none (by omega)]
        rfl
    · rw [if_neg hinserted]
      by_cases hlength : insertIndex ≤ s.length
      · rw [if_neg (by omega)]
        congr 2
        omega
      · rw [getElem?_eq_none (by omega), getElem?_eq_none (by omega)]
        split <;> rfl

def deletedLine (first last : StoredTokens) (range : LineRange) : StoredTokens :=
  if range.startLineNumber = range.endLineNumber then delete first (range.startColumn - 1) (range.endColumn - 1)
  else append (deleteEnding first (range.startColumn - 1)) (deleteBeginning last (range.endColumn - 1))

theorem deleteBeginning_null (toChIndex : Nat) : deleteBeginning .null toChIndex = .null := rfl

theorem deleteEnding_null (fromChIndex : Nat) : deleteEnding .null fromChIndex = .null := rfl

theorem append_null (stored : StoredTokens) : append stored .null = .null := by
  cases stored <;> rfl

theorem null_append (stored : StoredTokens) : append .null stored = .null := by
  cases stored <;> rfl

theorem delete_same (stored : StoredTokens) (chIndex : Nat) : delete stored chIndex chIndex = stored := by
  cases stored with
  | null => rfl
  | emptyLineTokens => rfl
  | tokens tokens => rw [delete, if_pos rfl]

theorem entry_acceptDeleteRange (s : ContiguousTokensStore) (hstart : 1 ≤ range.startLineNumber)
    (hordered : range.startLineNumber ≤ range.endLineNumber) (k : Nat) :
    entry (s.acceptDeleteRange range) k =
      if k < range.startLineNumber - 1 then s.entry k
      else if k = range.startLineNumber - 1 then
        deletedLine (s.entry (range.startLineNumber - 1)) (s.entry (range.endLineNumber - 1)) range
      else s.entry (k + (range.endLineNumber - range.startLineNumber)) := by
  unfold acceptDeleteRange deletedLine
  by_cases houtside : range.startLineNumber - 1 ≥ s.length
  · rw [if_pos houtside]
    by_cases hk : k < range.startLineNumber - 1
    · rw [if_pos hk]
    · rw [if_neg hk, entry_of_le (i := k) (by omega), entry_of_le (i := range.startLineNumber - 1) houtside,
        entry_of_le (i := range.endLineNumber - 1) (by omega), entry_of_le (by omega), deleteEnding_null, deleteBeginning_null,
        null_append]
      split
      · split <;> rfl
      · rfl
  · rw [if_neg houtside]
    by_cases hsame : range.startLineNumber = range.endLineNumber
    · have hzero : range.endLineNumber - range.startLineNumber = 0 := by omega
      rw [if_pos hsame, if_pos hsame, hzero]
      by_cases hcolumn : range.startColumn = range.endColumn
      · rw [if_pos hcolumn, hcolumn, delete_same]
        by_cases hk : k = range.startLineNumber - 1
        · rw [if_neg (by omega), if_pos hk, hk]
        · rw [if_neg hk, Nat.add_zero, ite_self]
      · rw [if_neg hcolumn, entry_set s (by omega), Nat.add_zero]
        by_cases hk : k = range.startLineNumber - 1
        · simp only [if_pos hk]
          rw [if_neg (by omega)]
        · simp only [if_neg hk]
          rw [ite_self]
    · rw [if_neg hsame, if_neg hsame, entry_deleteLines, entry_set s (by omega), entry_set s (by omega)]
      have hlast : (if range.endLineNumber - 1 < s.length then deleteBeginning (s.entry (range.endLineNumber - 1))
          (range.endColumn - 1) else .null) = deleteBeginning (s.entry (range.endLineNumber - 1)) (range.endColumn - 1) := by
        by_cases hlength : range.endLineNumber - 1 < s.length
        · rw [if_pos hlength]
        · rw [if_neg hlength, entry_of_le (by omega)]
          rfl
      rw [hlast]
      by_cases hk : k = range.startLineNumber - 1
      · rw [if_pos (by omega), if_pos hk, if_neg (by omega), if_pos hk]
      · by_cases hlow : k < range.startLineNumber - 1
        · rw [if_pos (by omega), if_neg hk, if_pos hlow]
        · rw [if_neg (by omega), if_neg (by omega), if_neg hlow, if_neg hk]

/-- What an insertion makes of the line that it is in. -/
def insertedLine (stored : StoredTokens) (column eolCount firstLineLength : Nat) : StoredTokens :=
  if eolCount = 0 ∧ firstLineLength = 0 then stored
  else if eolCount = 0 then insert stored (column - 1) firstLineLength
  else insert (deleteEnding stored (column - 1)) (column - 1) firstLineLength

theorem insertedLine_null (column eolCount firstLineLength : Nat) : insertedLine .null column eolCount firstLineLength = .null := by
  unfold insertedLine
  split
  · rfl
  · split <;> rfl

theorem entry_acceptInsertText (s : ContiguousTokensStore) {lineNumber : Nat} (hstart : 1 ≤ lineNumber)
    (column eolCount firstLineLength k : Nat) :
    entry (s.acceptInsertText lineNumber column eolCount firstLineLength) k =
      if k < lineNumber - 1 then s.entry k
      else if k = lineNumber - 1 then insertedLine (s.entry (lineNumber - 1)) column eolCount firstLineLength
      else if k < lineNumber + eolCount then .null
      else s.entry (k - eolCount) := by
  by_cases houtside : lineNumber - 1 ≥ s.length
  · have hsame : s.acceptInsertText lineNumber column eolCount firstLineLength = s := by
      unfold acceptInsertText
      rw [if_pos houtside, ite_self]
    rw [hsame]
    by_cases hk : k < lineNumber - 1
    · rw [if_pos hk]
    · rw [if_neg hk, entry_of_le (i := k) (by omega), entry_of_le (i := lineNumber - 1) houtside, insertedLine_null]
      by_cases hinserted : k < lineNumber + eolCount
      · rw [if_pos hinserted, ite_self]
      · rw [if_neg hinserted, entry_of_le (by omega), ite_self]
  · unfold acceptInsertText insertedLine
    by_cases hnothing : eolCount = 0 ∧ firstLineLength = 0
    · rw [if_pos hnothing, if_pos hnothing, hnothing.left, Nat.sub_zero, Nat.add_zero]
      by_cases hk : k = lineNumber - 1
      · rw [if_neg (by omega), if_pos hk, hk]
      · rw [if_neg hk]
        by_cases hlow : k < lineNumber - 1
        · rw [if_pos hlow]
        · rw [if_neg hlow, if_neg (by omega)]
    · rw [if_neg hnothing, if_neg hnothing, if_neg houtside]
      by_cases heol : eolCount = 0
      · rw [if_pos heol, if_pos heol, entry_set s (by omega), heol, Nat.sub_zero, Nat.add_zero]
        by_cases hk : k = lineNumber - 1
        · rw [if_pos hk, if_neg (by omega), if_pos hk]
        · rw [if_neg hk, if_neg hk]
          by_cases hlow : k < lineNumber - 1
          · rw [if_pos hlow]
          · rw [if_neg hlow, if_neg (by omega)]
      · rw [if_neg heol, if_neg heol, entry_insertLines, entry_set s (by omega), entry_set s (by omega)]
        by_cases hk : k = lineNumber - 1
        · rw [if_pos (by omega), if_pos hk, if_neg (by omega), if_pos hk]
        · by_cases hlow : k < lineNumber - 1
          · rw [if_pos (by omega), if_neg hk, if_pos hlow]
          · rw [if_neg (by omega), if_neg hlow, if_neg hk]
            by_cases hinserted : k < lineNumber + eolCount
            · rw [if_pos hinserted, if_pos hinserted]
            · rw [if_neg hinserted, if_neg hinserted, if_neg (by omega)]

end Store

/-! ## The block, line by line -/

namespace ContiguousMultilineTokens

variable {b : ContiguousMultilineTokens} {s : ContiguousTokensStore}

theorem getLineTokens_eq_some {lineNumber : Int} :
    b.getLineTokens lineNumber = some stored ↔ ∃ i : Nat, lineNumber = b.startLineNumber + i ∧ b.tokens[i]? = some stored := by
  unfold getLineTokens
  constructor
  · intro h
    by_cases hbefore : lineNumber < b.startLineNumber
    · rw [if_pos hbefore] at h
      cases h
    · rw [if_neg hbefore] at h
      exact ⟨(lineNumber - b.startLineNumber).toNat, by omega, h⟩
  · rintro ⟨i, rfl, h⟩
    have hindex : (b.startLineNumber + i - b.startLineNumber).toNat = i := by omega
    rw [if_neg (by omega), hindex]
    exact h

/-- Each line of the block has the tokens that the store has for it, or none. -/
def Follows (b : ContiguousMultilineTokens) (s : ContiguousTokensStore) : Prop :=
  ∀ (lineNumber : Nat) (stored : StoredTokens), b.getLineTokens lineNumber = some stored →
    stored = s.entry (lineNumber - 1) ∨ stored = .null

theorem insertedLine_eq_null {column eolCount firstLineLength : Nat} :
    insertedLine stored column eolCount firstLineLength = .null ↔ stored = .null := by
  constructor
  · intro h
    cases stored with
    | null => rfl
    | emptyLineTokens =>
      unfold insertedLine at h
      split at h
      · cases h
      · split at h <;> cases h
    | tokens tokens =>
      unfold insertedLine at h
      split at h
      · cases h
      · split at h
        · cases h
        · -- what is left of a line that has tokens is not unknown
          have hleft : deleteEnding (.tokens tokens) (column - 1) ≠ .null := by
            unfold deleteEnding delete
            dsimp only
            split_ifs <;> exact fun hnull => by cases hnull
          generalize deleteEnding (.tokens tokens) (column - 1) = left at h hleft
          cases left with
          | null => exact absurd rfl hleft
          | emptyLineTokens => cases h
          | tokens tokens => cases h
  · rintro rfl
    exact insertedLine_null column eolCount firstLineLength

/-- An insertion into the block: one line is edited, and lines come in at an index that is a line number. -/
theorem acceptInsertText_inside {k lineNumber : Nat} (hline : (lineNumber : Int) = b.startLineNumber + k)
    (hstored : b.tokens[k]? = some stored) (column eolCount firstLineLength : Nat) :
    b.acceptInsertText lineNumber column eolCount firstLineLength =
      { b with tokens := (b.tokens.set k (insertedLine stored column eolCount firstLineLength)).take lineNumber ++
          (List.replicate eolCount .null ++
            (b.tokens.set k (insertedLine stored column eolCount firstLineLength)).drop lineNumber) } := by
  obtain ⟨hk, hget⟩ := List.getElem?_eq_some_iff.mp hstored
  have hindex : (lineNumber : Int) - b.startLineNumber = k := by omega
  have hentry : ContiguousTokensStore.entry b.tokens k = stored := entry_of_getElem? hstored
  unfold acceptInsertText insertedLine
  dsimp only
  rw [hindex, Int.toNat_natCast, hentry]
  by_cases hnothing : eolCount = 0 ∧ firstLineLength = 0
  · rw [if_pos hnothing, if_pos hnothing, hnothing.left, replicate_zero, nil_append, take_append_drop, ← hget,
      set_getElem_self]
  · rw [if_neg hnothing, if_neg hnothing, if_neg (by omega), if_neg (by omega)]
    by_cases heol : eolCount = 0
    · rw [if_pos heol, if_pos heol, heol, replicate_zero, nil_append, take_append_drop]
    · rw [if_neg heol, if_neg heol, insertLines, if_neg heol, append_assoc]

theorem getElem?_inserted {tokens : List StoredTokens} {insertIndex insertCount i : Nat}
    (h : (tokens.take insertIndex ++ (List.replicate insertCount .null ++ tokens.drop insertIndex))[i]? = some stored) :
    i < insertIndex ∧ tokens[i]? = some stored ∨ stored = .null ∨
      insertIndex + insertCount ≤ i ∧ tokens[i - insertCount]? = some stored := by
  rw [getElem?_append, getElem?_append, length_take, length_replicate] at h
  split_ifs at h with hfront hmiddle
  · rw [getElem?_take] at h
    split_ifs at h with hlt
    exact Or.inl ⟨hlt, h⟩
  · rw [getElem?_replicate] at h
    split_ifs at h
    exact Or.inr (Or.inl (Option.some.inj h).symm)
  · rw [List.getElem?_drop] at h
    obtain ⟨hlt, -⟩ := List.getElem?_eq_some_iff.mp h
    refine Or.inr (Or.inr ⟨by omega, ?_⟩)
    rw [← h]
    congr 1
    omega

/-- An insertion into a block whose lines, but for the one of the insertion, are those of the store. -/
theorem acceptInsertText_follows_iff {k lineNumber : Nat} (hstart : 1 ≤ b.startLineNumber)
    (hline : (lineNumber : Int) = b.startLineNumber + k) (hstored : b.tokens[k]? = some stored)
    (hagree : ∀ (i : Nat) (t : StoredTokens), i ≠ k → b.tokens[i]? = some t → t = s.entry (b.startLineNumber + i - 1).toNat)
    (column eolCount firstLineLength : Nat) :
    Follows (b.acceptInsertText lineNumber column eolCount firstLineLength)
        (s.acceptInsertText lineNumber column eolCount firstLineLength) ↔
      (insertedLine stored column eolCount firstLineLength =
          insertedLine (s.entry (lineNumber - 1)) column eolCount firstLineLength ∨ stored = .null) ∧
        (eolCount = 0 ∨ ∀ (i : Nat) (t : StoredTokens), k < i → i < lineNumber → b.tokens[i]? = some t → t = .null) := by
  obtain ⟨hk, -⟩ := List.getElem?_eq_some_iff.mp hstored
  rw [acceptInsertText_inside hline hstored]
  generalize hedited : insertedLine stored column eolCount firstLineLength = edited
  have hentry := entry_acceptInsertText s (show 1 ≤ lineNumber by omega) column eolCount firstLineLength
  have hset : ∀ i, i ≠ k → (b.tokens.set k edited)[i]? = b.tokens[i]? := fun i hi => getElem?_set_ne (Ne.symm hi)
  have hfront : ∀ (i : Nat) (t : StoredTokens), i < lineNumber → (b.tokens.set k edited)[i]? = some t →
      ((b.tokens.set k edited).take lineNumber ++
        (List.replicate eolCount .null ++ (b.tokens.set k edited).drop lineNumber))[i]? = some t := by
    intro i t hi ht
    obtain ⟨hlength, -⟩ := List.getElem?_eq_some_iff.mp ht
    rw [getElem?_append_left (by rw [length_take]; omega), getElem?_take, if_pos hi, ht]
  constructor
  · intro h
    constructor
    · have hfollows := h lineNumber edited
        (getLineTokens_eq_some.mpr ⟨k, hline, hfront k edited (by omega) (getElem?_set_self hk)⟩)
      rw [hentry, if_neg (by omega), if_pos rfl] at hfollows
      refine hfollows.imp id fun hnull => ?_
      rw [hnull] at hedited
      exact insertedLine_eq_null.mp hedited
    · by_cases heol : eolCount = 0
      · exact Or.inl heol
      · right
        intro i
        -- a line that stays where it was is unknown, or is what was `eolCount` lines above
        induction i using Nat.strongRecOn with
        | _ i ih =>
          intro t hki hi ht
          have hstay := hfront i t hi (by rw [hset i (by omega)]; exact ht)
          have hfollows := h (b.startLineNumber + i).toNat t (getLineTokens_eq_some.mpr ⟨i, by dsimp only; omega, hstay⟩)
          rcases hfollows with heq | hnull
          · rw [hentry, if_neg (by omega), if_neg (by omega)] at heq
            by_cases hinserted : (b.startLineNumber + i).toNat - 1 < lineNumber + eolCount
            · rw [if_pos hinserted] at heq
              exact heq
            · rw [if_neg hinserted] at heq
              obtain ⟨hlength, -⟩ := List.getElem?_eq_some_iff.mp ht
              have habove := getElem?_eq_getElem (show i - eolCount < b.tokens.length by omega)
              have hnull := ih (i - eolCount) (by omega) _ (by omega) (by omega) habove
              have hsame := hagree (i - eolCount) _ (by omega) habove
              have hindex : (b.startLineNumber + ((i - eolCount : Nat) : Int) - 1).toNat =
                  (b.startLineNumber + i).toNat - 1 - eolCount := by omega
              rw [hindex, ← heq, hnull] at hsame
              exact hsame.symm
          · exact hnull
  · rintro ⟨hat, hbelow⟩ n t ht
    obtain ⟨i, hn, hget⟩ := getLineTokens_eq_some.mp ht
    dsimp only at hn hget
    rw [hentry]
    rcases getElem?_inserted hget with ⟨hi, hget⟩ | hnull | ⟨hi, hget⟩
    · by_cases hik : i = k
      · rw [hik, getElem?_set_self hk] at hget
        obtain rfl := Option.some.inj hget
        rw [if_neg (by omega), if_pos (by omega)]
        refine hat.imp id ?_
        rintro rfl
        rw [← hedited, insertedLine_null]
      · rw [hset i hik] at hget
        have hsame := hagree i t hik hget
        have hindex : (b.startLineNumber + i - 1).toNat = n - 1 := by omega
        rw [hindex] at hsame
        by_cases hbefore : i < k
        · rw [if_pos (by omega)]
          exact Or.inl hsame
        · rcases hbelow with heol | hbelow
          · rw [if_neg (by omega), if_neg (by omega), if_neg (by omega), heol, Nat.sub_zero]
            exact Or.inl hsame
          · exact Or.inr (hbelow i t (by omega) hi hget)
    · exact Or.inr hnull
    · rw [hset (i - eolCount) (by omega)] at hget
      have hsame := hagree (i - eolCount) t (by omega) hget
      have hindex : (b.startLineNumber + ((i - eolCount : Nat) : Int) - 1).toNat = n - 1 - eolCount := by omega
      rw [hindex] at hsame
      rw [if_neg (by omega), if_neg (by omega), if_neg (by omega)]
      exact Or.inl hsame

end ContiguousMultilineTokens

end TongjiCode.Tokens
