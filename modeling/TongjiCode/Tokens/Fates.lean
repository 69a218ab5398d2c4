import TongjiCode.Tokens.DeleteRange

/-!
# What an edit makes of each token

A block is taken as the list of its tokens with their line numbers.  An edit acts on each of them alone (`fate`), although
the code works on deltas and has four ways to place the deletion relative to the block (`acceptEdit_absolute`).
-/

open List

namespace TongjiCode.Tokens

/-- A token with its line number. -/
structure AbsoluteToken where
  lineNumber : Int
  startCharacter : Int
  endCharacter : Int
  metadata : Nat
deriving DecidableEq, Repr

def Token.absolute (startLineNumber : Int) (token : Token) : AbsoluteToken :=
  { lineNumber := startLineNumber + token.deltaLine
    startCharacter := token.startCharacter
    endCharacter := token.endCharacter
    metadata := token.metadata }

/-- The tokens of a block with their line numbers. -/
def SparseMultilineTokens.absolute (s : SparseMultilineTokens) : List AbsoluteToken :=
  s.tokens.map (Token.absolute s.startLineNumber)

/-- A range that ends where it starts or later. -/
structure Range.Valid (range : Range) : Prop where
  startLineNumber : 1 ≤ range.startLineNumber
  startColumn : 1 ≤ range.startColumn
  endColumn : 1 ≤ range.endColumn
  ordered : range.startLineNumber < range.endLineNumber ∨
    range.startLineNumber = range.endLineNumber ∧ range.startColumn ≤ range.endColumn

/-! ## Blocks -/

/-- A block with tokens in order.  Tokens may overlap. -/
structure SparseMultilineTokens.WellFormed (s : SparseMultilineTokens) : Prop where
  sorted : s.tokens.Pairwise Token.StartsBefore
  proper : ∀ token ∈ s.tokens, token.Proper

/-- What the deletion of a range makes of a token of a block that starts at the line `blockStart`.  When the deletion
starts above the block, a token that is cut at its start lands in the first column, and so do those after the deletion
that are neither on the first line of the block nor behind its first column. -/
def deleteFate (range : Range) (blockStart : Int) (t : AbsoluteToken) : Option AbsoluteToken :=
  let startCharacter := range.startColumn - 1
  let endCharacter := range.endColumn - 1
  if t.lineNumber < range.startLineNumber ∨ t.lineNumber = range.startLineNumber ∧ t.endCharacter ≤ startCharacter then
    some t
  else if t.lineNumber = range.startLineNumber ∧ t.startCharacter ≤ startCharacter then
    if t.lineNumber = range.endLineNumber ∧ t.endCharacter > endCharacter then
      some { t with endCharacter := t.endCharacter - (endCharacter - startCharacter) }
    else if t.startCharacter < startCharacter then some { t with endCharacter := startCharacter }
    else none
  else if t.lineNumber < range.endLineNumber ∨ t.lineNumber = range.endLineNumber ∧ t.startCharacter < endCharacter then
    if t.lineNumber = range.endLineNumber ∧ t.endCharacter > endCharacter then
      let landing := if range.startLineNumber < blockStart then 0 else startCharacter
      some { t with
        lineNumber := range.startLineNumber
        startCharacter := landing
        endCharacter := landing + (t.endCharacter - endCharacter) }
    else none
  else if t.lineNumber > range.endLineNumber then
    some { t with lineNumber := t.lineNumber - (range.endLineNumber - range.startLineNumber) }
  else
    let landing :=
      if range.startLineNumber < blockStart ∧ ¬(range.endLineNumber = blockStart ∧ 0 < t.startCharacter) then 0
      else startCharacter
    some { t with
      lineNumber := range.startLineNumber
      startCharacter := landing + (t.startCharacter - endCharacter)
      endCharacter := landing + (t.endCharacter - endCharacter) }

def insertFate (lineNumber column : Int) (text : Inserted) (t : AbsoluteToken) : AbsoluteToken :=
  let character := column - 1
  let isWord := Storage.isInsertingPreciselyOneWordCharacter text
  if t.lineNumber < lineNumber ∨ t.lineNumber = lineNumber ∧ t.endCharacter < character then t
  else if t.lineNumber = lineNumber ∧ t.endCharacter = character then
    if isWord then { t with endCharacter := t.endCharacter + 1 } else t
  else if t.lineNumber = lineNumber ∧ t.startCharacter < character then
    if text.eolCount = 0 then { t with endCharacter := t.endCharacter + text.firstLineLength }
    else { t with endCharacter := character }
  else if (t.lineNumber = lineNumber ∧ t.startCharacter = character) ∧ isWord then t
  else if t.lineNumber = lineNumber then
    let landing := if text.eolCount = 0 then character + text.firstLineLength else text.lastLineLength
    { t with
      lineNumber := t.lineNumber + text.eolCount
      startCharacter := landing + (t.startCharacter - character)
      endCharacter := landing + (t.endCharacter - character) }
  else { t with lineNumber := t.lineNumber + text.eolCount }

section Blocks

variable {s : SparseMultilineTokens} {range : Range} {text : Inserted}

theorem absolute_filterMap (tokens : List Token) (start start' : Int) (f : Token → Option Token)
    (g : AbsoluteToken → Option AbsoluteToken)
    (h : ∀ token ∈ tokens, (f token).map (Token.absolute start') = g (token.absolute start)) :
    (tokens.filterMap f).map (Token.absolute start') = (tokens.map (Token.absolute start)).filterMap g := by
  rw [map_filterMap, filterMap_map]
  exact filterMap_congr h

theorem absolute_filterMap_some (tokens : List Token) (start start' : Int) (g : AbsoluteToken → Option AbsoluteToken)
    (h : ∀ token ∈ tokens, some (token.absolute start') = g (token.absolute start)) :
    tokens.map (Token.absolute start') = (tokens.map (Token.absolute start)).filterMap g := by
  have hsome := absolute_filterMap tokens start start' some g h
  rw [filterMap_some] at hsome
  exact hsome

theorem deltaLine_le_max (hsorted : s.tokens.Pairwise Token.StartsBefore) {token : Token} (h : token ∈ s.tokens) :
    token.deltaLine ≤ Storage.getMaxDeltaLine s.tokens := by
  unfold Storage.getMaxDeltaLine
  rcases eq_nil_or_concat s.tokens with hnil | ⟨tokens, last, heq⟩
  · rw [hnil] at h
    cases h
  · rw [heq] at h hsorted ⊢
    rw [concat_eq_append] at *
    rw [getLast?_append_of_ne_nil _ (cons_ne_nil _ _)]
    show token.deltaLine ≤ last.deltaLine
    rcases mem_append.mp h with hmem | hlast
    · have hbefore := (pairwise_append.mp hsorted).2.2 token hmem last mem_cons_self
      unfold Token.StartsBefore at hbefore
      omega
    · obtain rfl := mem_singleton.mp hlast
      exact Int.le_refl _

theorem deleteFate_empty {t : AbsoluteToken} {start : Int}
    (hempty : range.startLineNumber = range.endLineNumber ∧ range.startColumn = range.endColumn)
    (hwithin : start ≤ t.lineNumber) (hne : t.startCharacter < t.endCharacter) : deleteFate range start t = some t := by
  obtain ⟨lineNumber, startCharacter, endCharacter, metadata⟩ := t
  dsimp only at hwithin hne
  unfold deleteFate
  dsimp only
  rw [← hempty.1, ← hempty.2]
  by_cases hbefore : lineNumber < range.startLineNumber ∨
      lineNumber = range.startLineNumber ∧ endCharacter ≤ range.startColumn - 1
  · rw [if_pos hbefore]
  rw [if_neg hbefore]
  by_cases hat : lineNumber = range.startLineNumber ∧ startCharacter ≤ range.startColumn - 1
  · rw [if_pos hat, if_pos (by omega), Int.sub_self, Int.sub_zero]
  rw [if_neg hat, if_neg (by omega), Int.sub_self]
  by_cases hbelow : lineNumber > range.startLineNumber
  · rw [if_pos hbelow, Int.sub_zero]
  rw [if_neg hbelow, if_neg (by omega)]
  simp only [Option.some.injEq, AbsoluteToken.mk.injEq, and_true]
  omega

theorem deleteToken_within {token : Token} (start : Int) (hwithin : start ≤ range.startLineNumber) :
    (deleteToken 0 (range.startLineNumber - start) (range.startColumn - 1) (range.endLineNumber - start)
      (range.endColumn - 1) token).map (Token.absolute start) = deleteFate range start (token.absolute start) := by
  have hnot : ¬range.startLineNumber < start := by omega
  unfold deleteToken
  simp only [ite_self]
  split_ifs with h1 h2 h3 h4 h5 h6 h7 h8
  · unfold deleteFate Token.absolute
    dsimp only
    rw [if_pos (by omega)]
    rfl
  · unfold deleteFate Token.absolute
    dsimp only
    rw [if_neg (by omega), if_pos (by omega), if_pos (by omega)]
    rfl
  · unfold deleteFate Token.absolute
    dsimp only
    rw [if_neg (by omega), if_pos (by omega), if_neg (by omega), if_pos (by omega)]
    rfl
  · unfold deleteFate Token.absolute
    dsimp only
    rw [if_neg (by omega), if_pos (by omega), if_pos (by omega)]
    rfl
  · unfold deleteFate Token.absolute
    dsimp only
    rw [if_neg (by omega), if_pos (by omega), if_neg (by omega), if_neg (by omega)]
    rfl
  · unfold deleteFate Token.absolute
    dsimp only
    rw [if_neg (by omega), if_neg (by omega), if_pos (by omega), if_pos (by omega), if_neg hnot]
    simp only [Option.map_some, Option.some.injEq, AbsoluteToken.mk.injEq, and_true]
    omega
  · unfold deleteFate Token.absolute
    dsimp only
    rw [if_neg (by omega), if_neg (by omega), if_pos (by omega), if_neg (by omega)]
    rfl
  · unfold deleteFate Token.absolute
    dsimp only
    rw [if_neg (by omega), if_neg (by omega), if_neg (by omega), if_pos (by omega)]
    simp only [Option.map_some, Option.some.injEq, AbsoluteToken.mk.injEq, and_true]
    omega
  · unfold deleteFate Token.absolute
    dsimp only
    rw [if_neg (by omega), if_neg (by omega), if_neg (by omega), if_neg (by omega), if_neg (fun h => hnot h.1)]
    simp only [Option.map_some, Option.some.injEq, AbsoluteToken.mk.injEq, and_true]
    omega

theorem deleteToken_above {token : Token} (start : Int) (hproper : token.Proper) (hcolumn : 1 ≤ range.endColumn)
    (habove : range.startLineNumber < start) (hend : start ≤ range.endLineNumber) :
    (deleteToken (range.startColumn - 1) 0 0 (range.endLineNumber - start) (range.endColumn - 1) token).map
      (Token.absolute range.startLineNumber) = deleteFate range start (token.absolute start) := by
  obtain ⟨hdelta, hstart, hne⟩ := hproper
  unfold deleteToken deleteFate Token.absolute
  dsimp only
  have hone : ¬(token.deltaLine < 0 ∨ token.deltaLine = 0 ∧ token.endCharacter ≤ 0) := by omega
  have htwo : ¬(token.deltaLine = 0 ∧ token.startCharacter < 0) := by omega
  have hone' : ¬(start + token.deltaLine < range.startLineNumber ∨
      start + token.deltaLine = range.startLineNumber ∧ token.endCharacter ≤ range.startColumn - 1) := by omega
  have htwo' : ¬(start + token.deltaLine = range.startLineNumber ∧ token.startCharacter ≤ range.startColumn - 1) := by
    omega
  rw [if_neg hone, if_neg htwo, if_neg hone', if_neg htwo']
  by_cases hfirst : token.deltaLine = 0 ∧ token.startCharacter = 0
  · rw [if_pos hfirst]
    by_cases hend : token.deltaLine = range.endLineNumber - start ∧ token.endCharacter > range.endColumn - 1
    · rw [if_pos hend]
      by_cases hinside : token.startCharacter < range.endColumn - 1
      · rw [if_pos (by omega), if_pos (by omega), if_pos habove]
        simp only [Option.map_some, Option.some.injEq, AbsoluteToken.mk.injEq, and_true]
        omega
      · rw [if_neg (by omega), if_neg (by omega), if_pos ⟨habove, by omega⟩]
        simp only [Option.map_some, Option.some.injEq, AbsoluteToken.mk.injEq, and_true]
        omega
    · rw [if_neg hend, if_pos (by omega), if_neg (by omega)]
      rfl
  rw [if_neg hfirst]
  by_cases hinside : token.deltaLine < range.endLineNumber - start ∨
      token.deltaLine = range.endLineNumber - start ∧ token.startCharacter < range.endColumn - 1
  · rw [if_pos hinside]
    by_cases hend : token.deltaLine = range.endLineNumber - start ∧ token.endCharacter > range.endColumn - 1
    · rw [if_pos hend, if_pos (by omega), if_pos (by omega), if_pos habove]
      simp only [Option.map_some, Option.some.injEq, AbsoluteToken.mk.injEq, and_true]
      omega
    · rw [if_neg hend, if_pos (by omega), if_neg (by omega)]
      rfl
  rw [if_neg hinside]
  by_cases hbelow : token.deltaLine > range.endLineNumber - start
  · rw [if_pos hbelow, if_neg (by omega), if_pos (by omega)]
    simp only [Option.map_some, Option.some.injEq, AbsoluteToken.mk.injEq, and_true]
    omega
  rw [if_neg hbelow, if_neg (by omega : ¬(_ ∨ _)), if_neg (by omega : ¬_ > _)]
  simp only [Option.map_some, Option.some.injEq, AbsoluteToken.mk.injEq, and_true]
  by_cases hline : token.deltaLine = 0
  · rw [if_pos hline, if_neg (by omega)]
    omega
  · rw [if_neg hline, if_pos ⟨habove, by omega⟩]
    omega

theorem deleteToken_deltaLine {horizontalShift startDeltaLine startCharacter endDeltaLine endCharacter : Int}
    {token token' : Token} (hproper : token.Proper) (hline : 0 ≤ startDeltaLine)
    (h : deleteToken horizontalShift startDeltaLine startCharacter endDeltaLine endCharacter token = some token') :
    0 ≤ token'.deltaLine := by
  obtain ⟨hdelta, -, -⟩ := hproper
  unfold deleteToken at h
  split_ifs at h <;> cases h <;> first | omega | (dsimp only; omega)

/-- A deletion never throws, and acts on each token alone. -/
theorem acceptDeleteRange_absolute (h : s.WellFormed) (hrange : range.Valid) :
    ∃ s', s.acceptDeleteRange range = some s' ∧
      s'.absolute = s.absolute.filterMap (deleteFate range s.startLineNumber) ∧
      ∀ token ∈ s'.tokens, 0 ≤ token.deltaLine := by
  obtain ⟨-, hcolumn, hcolumn', hordered⟩ := hrange
  unfold SparseMultilineTokens.acceptDeleteRange
  by_cases hempty : range.startLineNumber = range.endLineNumber ∧ range.startColumn = range.endColumn
  · rw [if_pos hempty]
    refine ⟨s, rfl, ?_, fun token htoken => (h.proper token htoken).1⟩
    apply absolute_filterMap_some
    intro token htoken
    obtain ⟨hdelta, hstart, hne⟩ := h.proper token htoken
    have hwithin : s.startLineNumber ≤ (token.absolute s.startLineNumber).lineNumber := by
      unfold Token.absolute
      dsimp only
      omega
    exact (deleteFate_empty hempty hwithin hne).symm
  rw [if_neg hempty]
  by_cases hbefore : range.endLineNumber - s.startLineNumber < 0
  · rw [if_pos hbefore]
    refine ⟨_, rfl, ?_, fun token htoken => (h.proper token htoken).1⟩
    apply absolute_filterMap_some
    intro token htoken
    obtain ⟨hdelta, hstart, hne⟩ := h.proper token htoken
    unfold deleteFate Token.absolute
    dsimp only
    rw [if_neg (by omega), if_neg (by omega), if_neg (by omega), if_pos (by omega)]
    congr 2
    omega
  rw [if_neg hbefore]
  by_cases hafter : range.startLineNumber - s.startLineNumber ≥ Storage.getMaxDeltaLine s.tokens + 1
  · rw [if_pos hafter]
    refine ⟨s, rfl, ?_, fun token htoken => (h.proper token htoken).1⟩
    apply absolute_filterMap_some
    intro token htoken
    have hmax := deltaLine_le_max h.sorted htoken
    unfold deleteFate Token.absolute
    dsimp only
    rw [if_pos (by omega)]
  rw [if_neg hafter]
  by_cases hall : range.startLineNumber - s.startLineNumber < 0 ∧
      range.endLineNumber - s.startLineNumber ≥ Storage.getMaxDeltaLine s.tokens + 1
  · rw [if_pos hall]
    refine ⟨_, rfl, ?_, fun token htoken => by cases htoken⟩
    show [] = _
    symm
    rw [filterMap_eq_nil_iff]
    intro t ht
    obtain ⟨token, htoken, rfl⟩ := mem_map.mp ht
    have hmax := deltaLine_le_max h.sorted htoken
    obtain ⟨hdelta, hstart, hne⟩ := h.proper token htoken
    unfold deleteFate Token.absolute
    dsimp only
    rw [if_neg (by omega), if_neg (by omega), if_pos (by omega), if_neg (by omega)]
  rw [if_neg hall]
  by_cases habove : range.startLineNumber - s.startLineNumber < 0
  · rw [if_pos habove, acceptDeleteRange_eq h.sorted h.proper]
    refine ⟨_, rfl, ?_, fun token htoken => ?_⟩
    · apply absolute_filterMap
      intro token htoken
      have hfate := deleteToken_above s.startLineNumber (h.proper token htoken) hcolumn' (by omega) (by omega)
      have hline : s.startLineNumber - -(range.startLineNumber - s.startLineNumber) = range.startLineNumber := by omega
      rw [← hfate]
      rw [hline]
    · obtain ⟨token', htoken', heq⟩ := mem_filterMap.mp htoken
      exact deleteToken_deltaLine (h.proper token' htoken') (Int.le_refl _) heq
  · rw [if_neg habove, acceptDeleteRange_eq h.sorted h.proper]
    refine ⟨_, rfl, ?_, fun token htoken => ?_⟩
    · apply absolute_filterMap
      exact fun _ _ => deleteToken_within s.startLineNumber (by omega)
    · obtain ⟨token', htoken', heq⟩ := mem_filterMap.mp htoken
      exact deleteToken_deltaLine (h.proper token' htoken') (by omega) heq

theorem insertToken_absolute (start : Int) {token : Token} {lineNumber column : Int} :
    (Storage.insertToken (lineNumber - start) (column - 1) text token).absolute start =
      insertFate lineNumber column text (token.absolute start) := by
  unfold Storage.insertToken
  split_ifs with h1 h2 h3 h4 h5 h6 h7 h8
  · unfold insertFate Token.absolute
    dsimp only
    rw [if_pos (by omega)]
  · unfold insertFate Token.absolute
    dsimp only
    rw [if_neg (by omega), if_pos (by omega), if_pos h3]
  · unfold insertFate Token.absolute
    dsimp only
    rw [if_neg (by omega), if_pos (by omega), if_neg h3]
  · unfold insertFate Token.absolute
    dsimp only
    rw [if_neg (by omega), if_neg (by omega), if_pos (by omega), if_pos h5]
  · unfold insertFate Token.absolute
    dsimp only
    rw [if_neg (by omega), if_neg (by omega), if_pos (by omega), if_neg h5]
  · unfold insertFate Token.absolute
    dsimp only
    rw [if_neg (by omega), if_neg (by omega), if_neg (by omega), if_pos ⟨by omega, h6.2⟩]
  · have hat : start + token.deltaLine = lineNumber := by omega
    unfold insertFate Token.absolute
    dsimp only
    rw [if_neg (by omega), if_neg (by omega), if_neg (by omega), if_neg (fun h => h6 ⟨by omega, h.2⟩), if_pos hat,
      if_pos h8]
    simp only [AbsoluteToken.mk.injEq, and_true]
    omega
  · have hat : start + token.deltaLine = lineNumber := by omega
    unfold insertFate Token.absolute
    dsimp only
    rw [if_neg (by omega), if_neg (by omega), if_neg (by omega), if_neg (fun h => h6 ⟨by omega, h.2⟩), if_pos hat,
      if_neg h8]
    simp only [AbsoluteToken.mk.injEq, and_true, true_and]
    omega
  · unfold insertFate Token.absolute
    dsimp only
    rw [if_neg (by omega), if_neg (by omega), if_neg (by omega), if_neg (fun h => h6 ⟨by omega, h.2⟩),
      if_neg (by omega)]
    simp only [AbsoluteToken.mk.injEq, and_true]
    omega

theorem insertFate_nothing {t : AbsoluteToken} (lineNumber column : Int) (h : text.eolCount = 0 ∧ text.firstLineLength = 0) :
    insertFate lineNumber column text t = t := by
  have hword : Storage.isInsertingPreciselyOneWordCharacter text = false := by
    unfold Storage.isInsertingPreciselyOneWordCharacter
    simp [h.2]
  obtain ⟨line, startCharacter, endCharacter, metadata⟩ := t
  unfold insertFate
  dsimp only
  have hback : ∀ a b : Int, a + (b - a) = b := fun a b => by omega
  split_ifs <;> simp_all

theorem acceptInsertText_absolute (h : s.WellFormed) (lineNumber column : Int) :
    (s.acceptInsertText lineNumber column text).absolute = s.absolute.map (insertFate lineNumber column text) := by
  have hmap : ∀ start', (∀ token ∈ s.tokens,
      token.absolute start' = insertFate lineNumber column text (token.absolute s.startLineNumber)) →
      s.tokens.map (Token.absolute start') = s.absolute.map (insertFate lineNumber column text) := by
    intro start' heq
    unfold SparseMultilineTokens.absolute
    rw [map_map]
    exact map_congr_left heq
  unfold SparseMultilineTokens.acceptInsertText
  by_cases hnothing : text.eolCount = 0 ∧ text.firstLineLength = 0
  · rw [if_pos hnothing]
    exact hmap _ fun token _ => (insertFate_nothing lineNumber column hnothing).symm
  rw [if_neg hnothing]
  by_cases habove : lineNumber - s.startLineNumber < 0
  · rw [if_pos habove]
    refine hmap _ fun token htoken => ?_
    have hdelta := (h.proper token htoken).1
    unfold insertFate Token.absolute
    dsimp only
    rw [if_neg (by omega), if_neg (by omega), if_neg (by omega), if_neg (by omega), if_neg (by omega)]
    simp only [AbsoluteToken.mk.injEq, and_true]
    omega
  rw [if_neg habove]
  by_cases hbelow : lineNumber - s.startLineNumber ≥ Storage.getMaxDeltaLine s.tokens + 1
  · rw [if_pos hbelow]
    refine hmap _ fun token htoken => ?_
    have hmax := deltaLine_le_max h.sorted htoken
    unfold insertFate Token.absolute
    dsimp only
    rw [if_pos (by omega)]
  · rw [if_neg hbelow]
    unfold SparseMultilineTokens.absolute Storage.acceptInsertText
    rw [map_map, map_map]
    exact map_congr_left fun _ _ => insertToken_absolute s.startLineNumber

end Blocks

/-! ## Order -/

def AbsoluteToken.Proper (t : AbsoluteToken) : Prop := 0 ≤ t.startCharacter ∧ t.startCharacter < t.endCharacter

/-- One token ends before the other one begins. -/
def AbsoluteToken.Before (a b : AbsoluteToken) : Prop :=
  a.lineNumber < b.lineNumber ∨ a.lineNumber = b.lineNumber ∧ a.endCharacter ≤ b.startCharacter

def AbsoluteToken.StartsBefore (a b : AbsoluteToken) : Prop :=
  a.lineNumber < b.lineNumber ∨ a.lineNumber = b.lineNumber ∧ a.startCharacter ≤ b.startCharacter

/-- All that a deletion can make of a token that it does not delete. -/
inductive Deleted (range : Range) (blockStart : Int) (t : AbsoluteToken) : AbsoluteToken → Prop
  | untouched (h : t.lineNumber < range.startLineNumber ∨
      t.lineNumber = range.startLineNumber ∧ t.endCharacter ≤ range.startColumn - 1) : Deleted range blockStart t t
  | cutEnd (hline : t.lineNumber = range.startLineNumber) (hstart : t.startCharacter < range.startColumn - 1)
      (hend : range.startColumn - 1 < t.endCharacter)
      (hnot : ¬(t.lineNumber = range.endLineNumber ∧ range.endColumn - 1 < t.endCharacter)) :
      Deleted range blockStart t { t with endCharacter := range.startColumn - 1 }
  | cutOut (hline : t.lineNumber = range.startLineNumber) (hstart : t.startCharacter ≤ range.startColumn - 1)
      (hline' : t.lineNumber = range.endLineNumber) (hend : range.endColumn - 1 < t.endCharacter) :
      Deleted range blockStart t
        { t with endCharacter := t.endCharacter - (range.endColumn - 1 - (range.startColumn - 1)) }
  | cutStart (hpast : range.startLineNumber < t.lineNumber ∨
        range.startLineNumber = t.lineNumber ∧ range.startColumn - 1 < t.startCharacter)
      (hline : t.lineNumber = range.endLineNumber) (hstart : t.startCharacter < range.endColumn - 1)
      (hend : range.endColumn - 1 < t.endCharacter) (landing : Int)
      (hlanding : range.startLineNumber < blockStart ∧ landing = 0 ∨
        blockStart ≤ range.startLineNumber ∧ landing = range.startColumn - 1) :
      Deleted range blockStart t
        { t with
          lineNumber := range.startLineNumber
          startCharacter := landing
          endCharacter := landing + (t.endCharacter - (range.endColumn - 1)) }
  | below (hline : range.endLineNumber < t.lineNumber) :
      Deleted range blockStart t
        { t with lineNumber := t.lineNumber - (range.endLineNumber - range.startLineNumber) }
  | joined (hpast : range.startLineNumber < t.lineNumber ∨
        range.startLineNumber = t.lineNumber ∧ range.startColumn - 1 < t.startCharacter)
      (hline : t.lineNumber = range.endLineNumber) (hstart : range.endColumn - 1 ≤ t.startCharacter) (landing : Int)
      (hlanding : (range.startLineNumber < blockStart ∧ ¬(range.endLineNumber = blockStart ∧ 0 < t.startCharacter)) ∧
          landing = 0 ∨
        (blockStart ≤ range.startLineNumber ∨ range.endLineNumber = blockStart ∧ 0 < t.startCharacter) ∧
          landing = range.startColumn - 1) :
      Deleted range blockStart t
        { t with
          lineNumber := range.startLineNumber
          startCharacter := landing + (t.startCharacter - (range.endColumn - 1))
          endCharacter := landing + (t.endCharacter - (range.endColumn - 1)) }

section Order

variable {range : Range} {text : Inserted} {blockStart : Int} {t t' a a' b b' : AbsoluteToken}

theorem deleteFate_deleted (h : deleteFate range blockStart t = some t') :
    Deleted range blockStart t t' := by
  unfold deleteFate at h
  dsimp only at h
  split_ifs at h with h1 h2 h3 h4 h5 h6 h7 h8 h9 <;> cases h
  · exact .untouched h1
  · exact .cutOut h2.1 h2.2 h3.1 h3.2
  · exact .cutEnd h2.1 h4 (by omega) h3
  · exact .cutStart (by omega) h6.1 (by omega) h6.2 0 (by omega)
  · exact .cutStart (by omega) h6.1 (by omega) h6.2 _ (by omega)
  · exact .below h8
  · exact .joined (by omega) (by omega) (by omega) 0 (by omega)
  · exact .joined (by omega) (by omega) (by omega) _ (by omega)

theorem Deleted.proper (hrange : range.Valid) (ht : t.Proper) (h : Deleted range blockStart t t') : t'.Proper := by
  obtain ⟨-, hcolumn, hcolumn', hordered⟩ := hrange
  unfold AbsoluteToken.Proper at *
  cases h with
  | untouched h => exact ht
  | cutEnd hline hstart hend hnot =>
    dsimp only
    omega
  | cutOut hline hstart hline' hend =>
    dsimp only
    omega
  | cutStart hpast hline hstart hend landing hlanding =>
    dsimp only
    omega
  | below hline => exact ht
  | joined hpast hline hstart landing hlanding =>
    dsimp only
    omega

def deletedPosition (range : Range) (blockStart line character : Int) : Int × Int :=
  if range.endLineNumber < line then (line - (range.endLineNumber - range.startLineNumber), character)
  else if range.startLineNumber < blockStart then
    if line = range.endLineNumber ∧ range.endColumn - 1 ≤ character then
      (range.startLineNumber, (if range.endLineNumber = blockStart ∧ 0 < character then range.startColumn - 1 else 0) +
        (character - (range.endColumn - 1)))
    else (range.startLineNumber, 0)
  else if line < range.startLineNumber ∨ line = range.startLineNumber ∧ character ≤ range.startColumn - 1 then
    (line, character)
  else if line = range.endLineNumber ∧ range.endColumn - 1 ≤ character then
    (range.startLineNumber, range.startColumn - 1 + (character - (range.endColumn - 1)))
  else (range.startLineNumber, range.startColumn - 1)

/-- One position is at or before the other one. -/
def NotAfter (p q : Int × Int) : Prop := p.1 < q.1 ∨ p.1 = q.1 ∧ p.2 ≤ q.2

theorem NotAfter.refl (p : Int × Int) : NotAfter p p := .inr ⟨rfl, Int.le_refl _⟩

theorem NotAfter.trans {p q r : Int × Int} (hpq : NotAfter p q) (hqr : NotAfter q r) : NotAfter p r := by
  unfold NotAfter at *
  omega

section

variable (hrange : range.Valid)
include hrange

theorem deletedPosition_mono {line line' character character' : Int} (hline : blockStart ≤ line)
    (hcharacter : 0 ≤ character) (h : NotAfter (line, character) (line', character')) :
    NotAfter (deletedPosition range blockStart line character) (deletedPosition range blockStart line' character') := by
  obtain ⟨-, hcolumn, -, hordered⟩ := hrange
  unfold NotAfter at *
  unfold deletedPosition
  by_cases habove : range.startLineNumber < blockStart
  · simp only [if_pos habove]
    split_ifs <;> dsimp only <;> omega
  · simp only [if_neg habove]
    split_ifs <;> dsimp only <;> omega

section

variable (ht : t.Proper) (hline : blockStart ≤ t.lineNumber) (h : Deleted range blockStart t t')
include ht hline h

theorem Deleted.start_eq :
    (t'.lineNumber, t'.startCharacter) = deletedPosition range blockStart t.lineNumber t.startCharacter := by
  obtain ⟨-, -, -, hordered⟩ := hrange
  obtain ⟨-, hne⟩ := ht
  unfold deletedPosition
  cases h with
  | untouched h => rw [if_neg (by omega), if_neg (by omega), if_pos (by omega)]
  | cutEnd hline' hstart hend hnot => rw [if_neg (by omega), if_neg (by omega), if_pos (by omega)]
  | cutOut hline' hstart hline'' hend => rw [if_neg (by omega), if_neg (by omega), if_pos (by omega)]
  | cutStart hpast hline' hstart hend landing hlanding =>
    rw [if_neg (by omega)]
    rcases hlanding with ⟨habove, rfl⟩ | ⟨hwithin, rfl⟩
    · rw [if_pos habove, if_neg (by omega)]
    · rw [if_neg (by omega), if_neg (by omega), if_neg (by omega)]
  | below hline' => rw [if_pos hline']
  | joined hpast hline' hstart landing hlanding =>
    rw [if_neg (by omega)]
    rcases hlanding with ⟨⟨habove, hnot⟩, rfl⟩ | ⟨hwithin, rfl⟩
    · rw [if_pos habove, if_pos ⟨hline', hstart⟩, if_neg hnot]
    · by_cases habove : range.startLineNumber < blockStart
      · rw [if_pos habove, if_pos ⟨hline', hstart⟩, if_pos (by omega)]
      · rw [if_neg habove, if_neg (by omega), if_pos ⟨hline', hstart⟩]

theorem Deleted.end_le :
    NotAfter (t'.lineNumber, t'.endCharacter) (deletedPosition range blockStart t.lineNumber t.endCharacter) := by
  obtain ⟨-, hcolumn, hcolumn', hordered⟩ := hrange
  obtain ⟨hpos, hne⟩ := ht
  unfold deletedPosition
  cases h with
  | untouched h =>
    rw [if_neg (by omega), if_neg (by omega), if_pos (by omega)]
    exact .refl _
  | cutEnd hline' hstart hend hnot =>
    rw [if_neg (by omega), if_neg (by omega), if_neg (by omega)]
    rw [hline']
    refine .inr ⟨?_, ?_⟩
    · split <;> rfl
    · split
      · dsimp only
        omega
      · exact Int.le_refl _
  | cutOut hline' hstart hline'' hend =>
    rw [if_neg (by omega), if_neg (by omega), if_neg (by omega), if_pos ⟨hline'', by omega⟩]
    exact .inr ⟨hline', by dsimp only; omega⟩
  | cutStart hpast hline' hstart hend landing hlanding =>
    rw [if_neg (by omega)]
    rcases hlanding with ⟨habove, rfl⟩ | ⟨hwithin, rfl⟩
    · rw [if_pos habove, if_pos ⟨hline', Int.le_of_lt hend⟩]
      refine .inr ⟨rfl, ?_⟩
      dsimp only
      split <;> omega
    · rw [if_neg (by omega), if_neg (by omega), if_pos ⟨hline', Int.le_of_lt hend⟩]
      exact .refl _
  | below hline' =>
    rw [if_pos hline']
    exact .refl _
  | joined hpast hline' hstart landing hlanding =>
    rw [if_neg (by omega)]
    have hend : range.endColumn - 1 ≤ t.endCharacter := by omega
    rcases hlanding with ⟨⟨habove, hnot⟩, rfl⟩ | ⟨hwithin, rfl⟩
    · rw [if_pos habove, if_pos ⟨hline', hend⟩]
      refine .inr ⟨rfl, ?_⟩
      dsimp only
      split <;> omega
    · by_cases habove : range.startLineNumber < blockStart
      · rw [if_pos habove, if_pos ⟨hline', hend⟩, if_pos (by omega)]
        exact .refl _
      · rw [if_neg habove, if_neg (by omega), if_pos ⟨hline', hend⟩]
        exact .refl _

end

section

variable (ha : a.Proper) (hb : b.Proper) (hline : blockStart ≤ a.lineNumber) (hline' : blockStart ≤ b.lineNumber)
include ha hb hline hline'

theorem Deleted.startsBefore (hab : a.StartsBefore b) (ha' : Deleted range blockStart a a')
    (hb' : Deleted range blockStart b b') : a'.StartsBefore b' := by
  show NotAfter (a'.lineNumber, a'.startCharacter) (b'.lineNumber, b'.startCharacter)
  rw [ha'.start_eq hrange ha hline, hb'.start_eq hrange hb hline']
  exact deletedPosition_mono hrange hline ha.1 hab

theorem Deleted.keeps_before (hab : a.Before b) (ha' : Deleted range blockStart a a')
    (hb' : Deleted range blockStart b b') : a'.Before b' := by
  show NotAfter (a'.lineNumber, a'.endCharacter) (b'.lineNumber, b'.startCharacter)
  rw [hb'.start_eq hrange hb hline']
  exact (ha'.end_le hrange ha hline).trans
    (deletedPosition_mono hrange hline (Int.le_of_lt (Int.lt_of_le_of_lt ha.1 ha.2)) hab)

end

end

end Order

/-- The text of an insertion, as `countEOL` describes it. -/
structure Inserted.Valid (text : Inserted) : Prop where
  eolCount : 0 ≤ text.eolCount
  firstLineLength : 0 ≤ text.firstLineLength
  lastLineLength : 0 ≤ text.lastLineLength
  one : text.eolCount = 0 → text.lastLineLength = text.firstLineLength

/-- All that an insertion can make of a token. -/
inductive Pushed (lineNumber character : Int) (text : Inserted) (t : AbsoluteToken) : AbsoluteToken → Prop
  | untouched (h : t.lineNumber < lineNumber ∨ t.lineNumber = lineNumber ∧ t.endCharacter < character) :
      Pushed lineNumber character text t t
  | touched (hline : t.lineNumber = lineNumber) (hend : t.endCharacter = character)
      (hword : Storage.isInsertingPreciselyOneWordCharacter text = false) : Pushed lineNumber character text t t
  | grown (hline : t.lineNumber = lineNumber) (hend : t.endCharacter = character)
      (hword : Storage.isInsertingPreciselyOneWordCharacter text = true)
      (hlength : text.eolCount = 0 ∧ text.firstLineLength = 1) :
      Pushed lineNumber character text t { t with endCharacter := t.endCharacter + 1 }
  | widened (hline : t.lineNumber = lineNumber) (hstart : t.startCharacter < character)
      (hend : character < t.endCharacter) (heol : text.eolCount = 0) :
      Pushed lineNumber character text t { t with endCharacter := t.endCharacter + text.firstLineLength }
  | cut (hline : t.lineNumber = lineNumber) (hstart : t.startCharacter < character)
      (hend : character < t.endCharacter) (heol : text.eolCount ≠ 0) :
      Pushed lineNumber character text t { t with endCharacter := character }
  | held (hline : t.lineNumber = lineNumber) (hstart : t.startCharacter = character)
      (hword : Storage.isInsertingPreciselyOneWordCharacter text = true)
      (hlength : text.eolCount = 0 ∧ text.firstLineLength = 1) : Pushed lineNumber character text t t
  | moved (hline : t.lineNumber = lineNumber) (hstart : character ≤ t.startCharacter)
      (hword : t.startCharacter = character → Storage.isInsertingPreciselyOneWordCharacter text = false) (landing : Int)
      (hlanding : text.eolCount = 0 ∧ landing = character + text.firstLineLength ∨
        text.eolCount ≠ 0 ∧ landing = text.lastLineLength) :
      Pushed lineNumber character text t
        { t with
          lineNumber := t.lineNumber + text.eolCount
          startCharacter := landing + (t.startCharacter - character)
          endCharacter := landing + (t.endCharacter - character) }
  | below (hline : lineNumber < t.lineNumber) :
      Pushed lineNumber character text t { t with lineNumber := t.lineNumber + text.eolCount }

section Insertion

variable {lineNumber column character : Int} {text : Inserted} {t t' a a' b b' : AbsoluteToken}

theorem isWord_length (h : Storage.isInsertingPreciselyOneWordCharacter text = true) :
    text.eolCount = 0 ∧ text.firstLineLength = 1 := by
  unfold Storage.isInsertingPreciselyOneWordCharacter at h
  simp only [Bool.and_eq_true, decide_eq_true_eq] at h
  exact h.1

theorem insertFate_pushed (lineNumber column : Int) (text : Inserted) (t : AbsoluteToken) :
    Pushed lineNumber (column - 1) text t (insertFate lineNumber column text t) := by
  unfold insertFate
  dsimp only
  split_ifs with h1 h2 h3 h4 h5 h6 h7 h8
  · exact .untouched h1
  · exact .grown h2.1 h2.2 h3 (isWord_length h3)
  · exact .touched h2.1 h2.2 (Bool.eq_false_iff.mpr h3)
  · exact .widened h4.1 h4.2 (by omega) h5
  · exact .cut h4.1 h4.2 (by omega) h5
  · exact .held h6.1.1 h6.1.2 h6.2 (isWord_length h6.2)
  · exact .moved h7 (by omega) (fun h => Bool.eq_false_iff.mpr fun hword => h6 ⟨⟨h7, h⟩, hword⟩) _ (.inl ⟨h8, rfl⟩)
  · exact .moved h7 (by omega) (fun h => Bool.eq_false_iff.mpr fun hword => h6 ⟨⟨h7, h⟩, hword⟩) _ (.inr ⟨h8, rfl⟩)
  · exact .below (by omega)

theorem Pushed.proper (hcharacter : 0 ≤ character) (htext : text.Valid) (ht : t.Proper)
    (h : Pushed lineNumber character text t t') : t'.Proper := by
  obtain ⟨heol, hfirst, hlast, hone⟩ := htext
  unfold AbsoluteToken.Proper at *
  cases h <;> (try dsimp only) <;> omega

def pushedPosition (lineNumber character : Int) (text : Inserted) (line ch : Int) : Int × Int :=
  if line = lineNumber ∧ (character < ch ∨
      ch = character ∧ Storage.isInsertingPreciselyOneWordCharacter text = false) then
    (line + text.eolCount,
      (if text.eolCount = 0 then character + text.firstLineLength else text.lastLineLength) + (ch - character))
  else if lineNumber < line then (line + text.eolCount, ch)
  else (line, ch)

theorem pushedPosition_mono (htext : text.Valid) {line line' ch ch' : Int} (h : NotAfter (line, ch) (line', ch')) :
    NotAfter (pushedPosition lineNumber character text line ch) (pushedPosition lineNumber character text line' ch') := by
  obtain ⟨heol, hfirst, -, -⟩ := htext
  unfold NotAfter at *
  unfold pushedPosition
  generalize Storage.isInsertingPreciselyOneWordCharacter text = isWord
  cases isWord with
  | false =>
    simp only [and_true]
    split_ifs <;> dsimp only <;> omega
  | true =>
    simp only [Bool.true_eq_false, and_false, or_false]
    split_ifs <;> dsimp only <;> omega

theorem Pushed.start_eq (ht : t.Proper) (h : Pushed lineNumber character text t t') :
    (t'.lineNumber, t'.startCharacter) = pushedPosition lineNumber character text t.lineNumber t.startCharacter := by
  obtain ⟨-, hne⟩ := ht
  unfold pushedPosition
  cases h with
  | untouched h => rw [if_neg (by omega), if_neg (by omega)]
  | touched hline hend hword => rw [if_neg (by omega), if_neg (by omega)]
  | grown hline hend hword hlength => rw [if_neg (by omega), if_neg (by omega)]
  | widened hline hstart hend heol => rw [if_neg (by omega), if_neg (by omega)]
  | cut hline hstart hend heol => rw [if_neg (by omega), if_neg (by omega)]
  | held hline hstart hword hlength =>
    rw [hword, if_neg (by simp [hstart]), if_neg (by omega)]
  | moved hline hstart hword landing hlanding =>
    rw [if_pos]
    · rcases hlanding with ⟨heol, rfl⟩ | ⟨heol, rfl⟩
      · rw [if_pos heol]
      · rw [if_neg heol]
    · refine ⟨hline, ?_⟩
      rcases Int.lt_or_eq_of_le hstart with hlt | heq
      · exact .inl hlt
      · exact .inr ⟨heq.symm, hword heq.symm⟩
  | below hline => rw [if_neg (by omega), if_pos hline]

/-- Unless it grows by a word character, a token ends at or before the place its end is moved to. -/
theorem Pushed.end_le (htext : text.Valid) (ht : t.Proper) (h : Pushed lineNumber character text t t')
    (hnot : ¬(Storage.isInsertingPreciselyOneWordCharacter text = true ∧ t.lineNumber = lineNumber ∧
      t.endCharacter = character)) :
    NotAfter (t'.lineNumber, t'.endCharacter) (pushedPosition lineNumber character text t.lineNumber t.endCharacter) := by
  obtain ⟨heol, hfirst, hlast, -⟩ := htext
  obtain ⟨-, hne⟩ := ht
  unfold pushedPosition
  cases h with
  | untouched h =>
    rw [if_neg (by omega), if_neg (by omega)]
    exact .refl _
  | touched hline hend hword =>
    rw [if_pos ⟨hline, .inr ⟨hend, hword⟩⟩]
    unfold NotAfter
    split <;> omega
  | grown hline hend hword hlength => exact absurd ⟨hword, hline, hend⟩ hnot
  | widened hline hstart hend heol' =>
    rw [if_pos ⟨hline, .inl hend⟩, if_pos heol']
    unfold NotAfter
    dsimp only
    omega
  | cut hline hstart hend heol' =>
    rw [if_pos ⟨hline, .inl hend⟩]
    refine .inl ?_
    dsimp only
    omega
  | held hline hstart hword hlength =>
    rw [if_pos ⟨hline, .inl (hstart ▸ hne)⟩, if_pos hlength.1]
    unfold NotAfter
    omega
  | moved hline hstart hword landing hlanding =>
    rw [if_pos ⟨hline, .inl (by omega)⟩]
    rcases hlanding with ⟨heol, rfl⟩ | ⟨heol, rfl⟩
    · rw [if_pos heol]
      exact .refl _
    · rw [if_neg heol]
      exact .refl _
  | below hline =>
    rw [if_neg (by omega), if_pos hline]
    exact .refl _

theorem Pushed.startsBefore (htext : text.Valid) (ha : a.Proper) (hb : b.Proper) (hab : a.StartsBefore b)
    (ha' : Pushed lineNumber character text a a') (hb' : Pushed lineNumber character text b b') : a'.StartsBefore b' := by
  show NotAfter (a'.lineNumber, a'.startCharacter) (b'.lineNumber, b'.startCharacter)
  rw [ha'.start_eq ha, hb'.start_eq hb]
  exact pushedPosition_mono htext hab

/-- Tokens keep apart, unless both grow towards each other. -/
theorem Pushed.keeps_before (htext : text.Valid) (ha : a.Proper) (hb : b.Proper) (hab : a.Before b)
    (hapart : ¬(Storage.isInsertingPreciselyOneWordCharacter text = true ∧ a.lineNumber = lineNumber ∧
      b.lineNumber = lineNumber ∧ a.endCharacter = character ∧ b.startCharacter = character))
    (ha' : Pushed lineNumber character text a a') (hb' : Pushed lineNumber character text b b') : a'.Before b' := by
  show NotAfter (a'.lineNumber, a'.endCharacter) (b'.lineNumber, b'.startCharacter)
  rw [hb'.start_eq hb]
  by_cases hgrows : Storage.isInsertingPreciselyOneWordCharacter text = true ∧ a.lineNumber = lineNumber ∧
      a.endCharacter = character
  · -- the token in front grows by one character, and the other one starts behind that place
    obtain ⟨hword, hline, hend⟩ := hgrows
    obtain ⟨-, hfirst⟩ := isWord_length hword
    obtain ⟨heol, -, -, -⟩ := htext
    have hpast : lineNumber < b.lineNumber ∨ b.lineNumber = lineNumber ∧ character < b.startCharacter := by
      rcases hab with hlt | ⟨heq, hle⟩
      · exact .inl (hline ▸ hlt)
      · refine .inr ⟨heq ▸ hline, ?_⟩
        have hne : b.startCharacter ≠ character := fun h => hapart ⟨hword, hline, heq ▸ hline, hend, h⟩
        omega
    have hend' : (a'.lineNumber, a'.endCharacter) = (lineNumber, character + 1) := by
      cases ha' with
      | grown => rw [hline, hend]
      | untouched h => omega
      | touched h1 h2 h3 =>
        rw [hword] at h3
        cases h3
      | widened => omega
      | cut => omega
      | held _ hstart =>
        have := ha.2
        omega
      | moved =>
        have := ha.2
        omega
      | below => omega
    rw [hend']
    unfold pushedPosition NotAfter
    rcases hpast with hlt | ⟨heq, hlt⟩
    · rw [if_neg (by omega), if_pos hlt]
      exact .inl (by dsimp only; omega)
    · rw [if_pos ⟨heq, .inl hlt⟩, if_pos (isWord_length hword).1]
      omega
  · exact (ha'.end_le htext ha hgrows).trans (pushedPosition_mono htext hab)

end Insertion

end TongjiCode.Tokens
