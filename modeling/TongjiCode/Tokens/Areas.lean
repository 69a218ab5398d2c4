import TongjiCode.Tokens.SemanticTokens
import TongjiCode.Tokens.Lookup

/-!
# The pieces of a delivery

What `toMultilineTokens2` makes of the tokens of a provider.  The areas end at the end of a line unless the last line alone
is as long as an area, and each area with a token to show is a piece that starts at its first token.
-/

open List

namespace TongjiCode.Tokens

/-! ## Conditions on the data -/

section Data

variable (styling : Styling) (data : List SemanticToken)

def Fits (lineNumber startCharacter : Int) : List SemanticToken → Prop
  | [] => True
  | token :: tokens =>
    let lineNumber := lineNumber + token.deltaLine
    let startCharacter :=
      if token.deltaLine = 0 then startCharacter + token.deltaCharacter else (token.deltaCharacter : Int)
    lineNumber < 2 ^ 31 ∧ startCharacter + token.length < 2 ^ 31 ∧ Fits lineNumber startCharacter tokens

/-- A token that is not empty and has a style. -/
def SemanticToken.IsShown (token : SemanticToken) : Prop :=
  0 < token.length ∧ styling token.tokenTypeIndex token.tokenModifierSet ≠ noStyling

def areasFrom (tokenIndex : Nat) : Nat → List (List SemanticToken)
  | 0 => []
  | turns + 1 =>
    if tokenIndex < data.length then
      (data.take (tokenEnd data tokenIndex)).drop tokenIndex :: areasFrom (tokenEnd data tokenIndex) turns
    else []

def areas : List (List SemanticToken) := areasFrom data 0 data.length

/-- All tokens are in one area, or the last line has fewer tokens than an area. -/
def LastLineShort : Prop :=
  data.length ≤ tokensPerArea data.length ∨
    ∃ i token, data.length < i + tokensPerArea data.length ∧ data[i]? = some token ∧ token.deltaLine ≠ 0

/-- An area after one with something to show has something to show. -/
def NoGaps (areas : List (List SemanticToken)) : Prop :=
  areas.Pairwise fun area area' => (∃ token ∈ area, token.IsShown styling) → ∃ token ∈ area', token.IsShown styling

end Data

/-! ## Where an area ends -/

section Cuts

variable {data : List SemanticToken} {tokenStartIndex : Nat}

theorem isOnLineOfPrevious_iff {i : Nat} : isOnLineOfPrevious data i = true ↔
    ∃ token, data[i]? = some token ∧ token.deltaLine = 0 := by
  unfold isOnLineOfPrevious
  cases data[i]? with
  | none => simp
  | some token => simp

theorem smallTokenEnd_spec (i : Nat) : tokenStartIndex < i → i < data.length →
    tokenStartIndex < smallTokenEnd data tokenStartIndex i ∧ smallTokenEnd data tokenStartIndex i ≤ i ∧
      (∀ j, smallTokenEnd data tokenStartIndex i < j → j ≤ i → isOnLineOfPrevious data j) ∧
      (smallTokenEnd data tokenStartIndex i - 1 = tokenStartIndex ∨
        isOnLineOfPrevious data (smallTokenEnd data tokenStartIndex i) = false) := by
  induction i with
  | zero => omega
  | succ i ih =>
    intro hstart hlen
    unfold smallTokenEnd
    by_cases hdown : (i > tokenStartIndex && isOnLineOfPrevious data (i + 1)) = true
    · rw [if_pos hdown]
      rw [Bool.and_eq_true, decide_eq_true_eq] at hdown
      obtain ⟨hlt, hle, hline, hcut⟩ := ih hdown.1 (by omega)
      refine ⟨hlt, by omega, fun j hj hji => ?_, hcut⟩
      rcases Nat.lt_or_eq_of_le hji with hlt' | rfl
      · exact hline j hj (by omega)
      · exact hdown.2
    · rw [if_neg hdown]
      refine ⟨hstart, Nat.le_refl _, fun j hj hji => by omega, ?_⟩
      by_cases hat : i = tokenStartIndex
      · exact .inl hat
      · rw [Bool.and_eq_true, decide_eq_true_eq, not_and, Bool.not_eq_true] at hdown
        exact .inr (hdown (by omega))

theorem bigTokenEnd_spec (turns : Nat) : ∀ i, i < data.length → data.length ≤ i + turns →
    i ≤ bigTokenEnd data i turns ∧ bigTokenEnd data i turns < data.length ∧
      (∀ j, i ≤ j → j < bigTokenEnd data i turns → isOnLineOfPrevious data j) ∧
      (bigTokenEnd data i turns + 1 = data.length ∨ isOnLineOfPrevious data (bigTokenEnd data i turns) = false) := by
  induction turns with
  | zero => omega
  | succ turns ih =>
    intro i hlen hturns
    unfold bigTokenEnd
    by_cases hup : (i + 1 < data.length && isOnLineOfPrevious data i) = true
    · rw [if_pos hup]
      rw [Bool.and_eq_true, decide_eq_true_eq] at hup
      obtain ⟨hle, hlt, hline, hcut⟩ := ih (i + 1) hup.1 (by omega)
      refine ⟨by omega, hlt, fun j hj hji => ?_, hcut⟩
      rcases Nat.lt_or_eq_of_le hj with hlt' | rfl
      · exact hline j hlt' hji
      · exact hup.2
    · rw [if_neg hup]
      refine ⟨Nat.le_refl _, hlen, fun j hj hji => by omega, ?_⟩
      by_cases hat : i + 1 < data.length
      · rw [Bool.and_eq_true, decide_eq_true_eq, not_and, Bool.not_eq_true] at hup
        exact .inr (hup hat)
      · exact .inl (by omega)

theorem tokensPerArea_pos (tokenCount : Nat) : 0 < tokensPerArea tokenCount := by
  unfold tokensPerArea
  omega

theorem tokenEnd_spec (hshort : LastLineShort data) (hlen : tokenStartIndex < data.length) :
    tokenStartIndex < tokenEnd data tokenStartIndex ∧ tokenEnd data tokenStartIndex ≤ data.length ∧
      isOnLineOfPrevious data (tokenEnd data tokenStartIndex) = false := by
  have hpos := tokensPerArea_pos data.length
  have hend : isOnLineOfPrevious data data.length = false := by
    unfold isOnLineOfPrevious
    rw [getElem?_eq_none (Nat.le_refl _)]
    rfl
  unfold tokenEnd
  by_cases hall : min (tokenStartIndex + tokensPerArea data.length) data.length < data.length
  · rw [if_pos hall]
    have hmin : min (tokenStartIndex + tokensPerArea data.length) data.length =
        tokenStartIndex + tokensPerArea data.length := by omega
    rw [hmin] at hall ⊢
    obtain ⟨hlt, hle, hline, hcut⟩ :=
      @smallTokenEnd_spec data tokenStartIndex (tokenStartIndex + tokensPerArea data.length) (by omega) hall
    by_cases hsmall :
        smallTokenEnd data tokenStartIndex (tokenStartIndex + tokensPerArea data.length) - 1 = tokenStartIndex
    · rw [if_pos hsmall]
      obtain ⟨hle', hlt', hline', hcut'⟩ := bigTokenEnd_spec data.length _ hall (by omega)
      refine ⟨by omega, by omega, ?_⟩
      rcases hcut' with hlast | hcut'
      · -- the area would end before the last token, so the last line begins in front of all of these
        rcases hshort with hone | ⟨i, token, hi, htoken, hdelta⟩
        · omega
        by_contra honline
        rw [Bool.not_eq_false] at honline
        have hilen : i < data.length := (List.getElem?_eq_some_iff.mp htoken).1
        have hi' : isOnLineOfPrevious data i = true := by
          by_cases h1 : i ≤ tokenStartIndex + tokensPerArea data.length
          · exact hline i (by omega) h1
          by_cases h2 : i < bigTokenEnd data (tokenStartIndex + tokensPerArea data.length) data.length
          · exact hline' i (by omega) h2
          · have hat : i = bigTokenEnd data (tokenStartIndex + tokensPerArea data.length) data.length := by omega
            rw [hat]
            exact honline
        obtain ⟨token', htoken', hzero⟩ := isOnLineOfPrevious_iff.mp hi'
        rw [htoken] at htoken'
        rw [← Option.some.inj htoken'] at hzero
        exact hdelta hzero
      · exact hcut'
    · rw [if_neg hsmall]
      exact ⟨hlt, by omega, hcut.resolve_left hsmall⟩
  · rw [if_neg hall]
    have hmin : min (tokenStartIndex + tokensPerArea data.length) data.length = data.length := by omega
    rw [hmin]
    exact ⟨hlen, Nat.le_refl _, hend⟩

end Cuts

/-! ## The tokens of an area -/

section Decoding

variable {styling : Styling} {d : Decoder} {token : SemanticToken} {low : Int}

/-- What is decoded so far, with no line above `low`. -/
structure Decoding (low : Int) (d : Decoder) : Prop where
  start : d.destData = [] ∧ d.areaLine = 0 ∨ 1 ≤ d.areaLine ∧ ∃ first, d.destData.head? = some first ∧ first.deltaLine = 0
  proper : ∀ token ∈ d.destData, token.Proper
  sorted : d.destData.Pairwise Token.StartsBefore
  low : ∀ token ∈ d.destData, low ≤ d.areaLine + token.deltaLine
  last : ∀ token ∈ d.destData, d.areaLine + token.deltaLine < d.lastLineNumber ∨
    d.areaLine + token.deltaLine = d.lastLineNumber ∧ token.startCharacter ≤ d.lastStartCharacter
  lastLineNumber : 1 ≤ d.lastLineNumber
  lastStartCharacter : 0 ≤ d.lastStartCharacter

/-- The position of a token that fits is not changed by `| 0`. -/
theorem fits_toInt32 {lineNumber startCharacter : Int} {tokens : List SemanticToken} (hline : 1 ≤ lineNumber)
    (hcharacter : 0 ≤ startCharacter) (hfits : Fits lineNumber startCharacter (token :: tokens)) :
    toInt32 (lineNumber + token.deltaLine) = lineNumber + token.deltaLine ∧
      (if token.deltaLine = 0 then toInt32 (startCharacter + token.deltaCharacter) else (token.deltaCharacter : Int)) =
        if token.deltaLine = 0 then startCharacter + token.deltaCharacter else (token.deltaCharacter : Int) := by
  obtain ⟨hfit, hend, -⟩ := hfits
  refine ⟨toInt32_eq ⟨by omega, hfit⟩, ?_⟩
  by_cases hzero : token.deltaLine = 0
  · rw [if_pos hzero] at hend
    rw [if_pos hzero, if_pos hzero]
    exact toInt32_eq ⟨by omega, by omega⟩
  · rw [if_neg hzero, if_neg hzero]

theorem next_position (hline : 1 ≤ d.lastLineNumber) (hcharacter : 0 ≤ d.lastStartCharacter) {tokens : List SemanticToken}
    (hfits : Fits d.lastLineNumber d.lastStartCharacter (token :: tokens)) :
    (d.next styling token).lastLineNumber = d.lastLineNumber + token.deltaLine ∧
      0 ≤ (d.next styling token).lastStartCharacter ∧
      (token.deltaLine = 0 → d.lastStartCharacter ≤ (d.next styling token).lastStartCharacter) ∧
      Fits (d.next styling token).lastLineNumber (d.next styling token).lastStartCharacter tokens := by
  obtain ⟨hlineNumber, hstart⟩ := fits_toInt32 hline hcharacter hfits
  have hproj : (d.next styling token).lastLineNumber = d.lastLineNumber + token.deltaLine ∧
      (d.next styling token).lastStartCharacter =
        if token.deltaLine = 0 then d.lastStartCharacter + token.deltaCharacter else (token.deltaCharacter : Int) := by
    unfold Decoder.next
    dsimp only
    rw [hlineNumber, hstart]
    split_ifs <;> exact ⟨rfl, rfl⟩
  rw [hproj.1, hproj.2]
  refine ⟨rfl, ?_, fun hzero => ?_, hfits.2.2⟩
  · split_ifs <;> omega
  · rw [if_pos hzero]
    omega

theorem next_destData (styling : Styling) (d : Decoder) (token : SemanticToken) :
    (d.next styling token).destData = d.destData ∧ (d.next styling token).areaLine = d.areaLine ∨
      ∃ new : Token, (d.next styling token).destData = d.destData ++ [new] ∧
        (d.next styling token).areaLine =
          (if d.areaLine = 0 then (d.next styling token).lastLineNumber else d.areaLine) ∧
        (d.next styling token).areaLine + new.deltaLine = (d.next styling token).lastLineNumber ∧
        new.startCharacter = (d.next styling token).lastStartCharacter ∧ new.startCharacter < new.endCharacter := by
  unfold Decoder.next
  dsimp only
  generalize toInt32 (d.lastLineNumber + token.deltaLine) = lineNumber
  generalize (if token.deltaLine = 0 then toInt32 (d.lastStartCharacter + token.deltaCharacter) else
      (token.deltaCharacter : Int)) = startCharacter
  generalize toInt32 (startCharacter + token.length) = endCharacter
  by_cases hempty : endCharacter ≤ startCharacter
  · rw [if_pos hempty]
    exact .inl ⟨rfl, rfl⟩
  rw [if_neg hempty]
  by_cases hoverlap : d.prevLineNumber = lineNumber ∧ d.prevEndCharacter > startCharacter
  · rw [if_pos hoverlap]
    exact .inl ⟨rfl, rfl⟩
  rw [if_neg hoverlap]
  by_cases hstyle : styling token.tokenTypeIndex token.tokenModifierSet ≠ noStyling
  · rw [if_pos hstyle]
    refine .inr ⟨_, rfl, rfl, ?_, rfl, by dsimp only; omega⟩
    dsimp only
    omega
  · rw [if_neg hstyle]
    exact .inl ⟨rfl, rfl⟩

theorem Decoding.next (h : Decoding low d) {tokens : List SemanticToken}
    (hfits : Fits d.lastLineNumber d.lastStartCharacter (token :: tokens))
    (hlow : low ≤ d.lastLineNumber + token.deltaLine) : Decoding low (d.next styling token) := by
  obtain ⟨hline, hcharacter, hsame, -⟩ := @next_position styling d token h.lastLineNumber h.lastStartCharacter tokens hfits
  have hone := h.lastLineNumber
  -- the tokens so far are at the new position or before it
  have hlast : ∀ t ∈ d.destData, d.areaLine + t.deltaLine < (d.next styling token).lastLineNumber ∨
      d.areaLine + t.deltaLine = (d.next styling token).lastLineNumber ∧
        t.startCharacter ≤ (d.next styling token).lastStartCharacter := by
    intro t ht
    have := h.last t ht
    by_cases hzero : token.deltaLine = 0
    · have := hsame hzero
      omega
    · omega
  rcases next_destData styling d token with ⟨hdest, harea⟩ | ⟨new, hdest, harea, hdelta, hstart, hend⟩
  · refine ⟨?_, ?_, ?_, ?_, ?_, by omega, hcharacter⟩ <;> rw [hdest]
    · rw [harea]
      exact h.start
    · exact h.proper
    · exact h.sorted
    · rw [harea]
      exact h.low
    · rw [harea]
      exact hlast
  · have harea' : (d.next styling token).areaLine = d.areaLine ∧ 1 ≤ d.areaLine ∨
        (d.next styling token).areaLine = (d.next styling token).lastLineNumber ∧ d.destData = [] := by
      rcases h.start with ⟨hnil, hzero⟩ | ⟨hpos, -⟩
      · rw [if_pos hzero] at harea
        exact .inr ⟨harea, hnil⟩
      · rw [if_neg (by omega)] at harea
        exact .inl ⟨harea, hpos⟩
    have hsame : ∀ t ∈ d.destData, (d.next styling token).areaLine = d.areaLine := by
      intro t ht
      rcases harea' with ⟨heq, -⟩ | ⟨-, hnil⟩
      · exact heq
      · rw [hnil] at ht
        cases ht
    have hdelta' : 0 ≤ new.deltaLine := by
      rcases harea' with ⟨heq, hpos⟩ | ⟨heq, -⟩
      · rcases h.start with ⟨-, hzero⟩ | ⟨-, first, hfirst, hzero⟩
        · omega
        · have := hlast first (mem_of_head? hfirst)
          omega
      · omega
    refine ⟨.inr ?_, ?_, ?_, ?_, ?_, by omega, hcharacter⟩ <;> rw [hdest]
    · rcases harea' with ⟨heq, hpos⟩ | ⟨heq, hnil⟩
      · rcases h.start with ⟨-, hzero⟩ | ⟨-, first, hfirst, hzero⟩
        · omega
        · refine ⟨by omega, first, ?_, hzero⟩
          rw [head?_append, hfirst]
          rfl
      · rw [hnil]
        exact ⟨by omega, new, rfl, by omega⟩
    · intro t ht
      rcases mem_append.mp ht with ht | ht
      · exact h.proper t ht
      · rw [mem_singleton.mp ht]
        exact ⟨hdelta', by omega, hend⟩
    · refine pairwise_append.mpr ⟨h.sorted, pairwise_singleton _ _, fun a ha b hb => ?_⟩
      rw [mem_singleton.mp hb]
      have := hlast a ha
      have := hsame a ha
      unfold Token.StartsBefore
      omega
    · intro t ht
      rcases mem_append.mp ht with ht | ht
      · have := h.low t ht
        omega
      · rw [mem_singleton.mp ht]
        omega
    · intro t ht
      rcases mem_append.mp ht with ht | ht
      · have := hlast t ht
        have := hsame t ht
        omega
      · rw [mem_singleton.mp ht]
        omega

theorem Decoding.foldl (tokens : List SemanticToken) : ∀ {d : Decoder} {rest : List SemanticToken}, Decoding low d →
    Fits d.lastLineNumber d.lastStartCharacter (tokens ++ rest) → low ≤ d.lastLineNumber →
      Decoding low (tokens.foldl (Decoder.next styling) d) ∧
      (tokens.foldl (Decoder.next styling) d).lastLineNumber =
        d.lastLineNumber + (tokens.map SemanticToken.deltaLine).sum ∧
      Fits (tokens.foldl (Decoder.next styling) d).lastLineNumber
        (tokens.foldl (Decoder.next styling) d).lastStartCharacter rest := by
  induction tokens with
  | nil => exact fun h hfits hlow => ⟨h, (Int.add_zero _).symm, hfits⟩
  | cons token tokens ih =>
    intro d rest h hfits hlow
    obtain ⟨hline, -, -, hfits'⟩ := @next_position styling d token h.lastLineNumber h.lastStartCharacter _ hfits
    obtain ⟨hdecoding, hsum, hrest⟩ := ih (h.next hfits (by omega)) hfits' (by omega)
    refine ⟨hdecoding, ?_, hrest⟩
    rw [foldl_cons, hsum, hline, map_cons, sum_cons]
    omega

end Decoding

/-! ## The pieces -/

section Pieces

variable {styling : Styling} {data : List SemanticToken} {lastLineNumber lastStartCharacter : Int}

theorem decoding_start (low : Int) (hline : 1 ≤ lastLineNumber) (hcharacter : 0 ≤ lastStartCharacter) :
    Decoding low { lastLineNumber, lastStartCharacter } where
  start := .inl ⟨rfl, rfl⟩
  proper := fun _ hmem => nomatch hmem
  sorted := List.Pairwise.nil
  low := fun _ hmem => nomatch hmem
  last := fun _ hmem => nomatch hmem
  lastLineNumber := hline
  lastStartCharacter := hcharacter

theorem decodeArea_decoding {first : SemanticToken} {tokens rest : List SemanticToken}
    (hline : 1 ≤ lastLineNumber) (hcharacter : 0 ≤ lastStartCharacter)
    (hfits : Fits lastLineNumber lastStartCharacter (first :: tokens ++ rest)) :
    Decoding (lastLineNumber + first.deltaLine) (decodeArea styling lastLineNumber lastStartCharacter (first :: tokens)) ∧
      Fits (decodeArea styling lastLineNumber lastStartCharacter (first :: tokens)).lastLineNumber
        (decodeArea styling lastLineNumber lastStartCharacter (first :: tokens)).lastStartCharacter rest ∧
      (decodeArea styling lastLineNumber lastStartCharacter (first :: tokens)).lastLineNumber =
        lastLineNumber + first.deltaLine + (tokens.map SemanticToken.deltaLine).sum := by
  have hstart := decoding_start (lastLineNumber + first.deltaLine) hline hcharacter
  obtain ⟨hposition, -, -, hfits'⟩ :=
    @next_position styling { lastLineNumber, lastStartCharacter } first hline hcharacter _ hfits
  have hfirst := @Decoding.next styling _ first _ hstart _ hfits (Int.le_refl _)
  obtain ⟨h, hsum, hrest⟩ := Decoding.foldl tokens hfirst hfits' (Int.le_of_eq hposition.symm)
  rw [hposition] at hsum
  exact ⟨h, hrest, hsum⟩

theorem next_destData_nil {d : Decoder} {token : SemanticToken} {tokens : List SemanticToken} (hline : 1 ≤ d.lastLineNumber)
    (hcharacter : 0 ≤ d.lastStartCharacter) (hfits : Fits d.lastLineNumber d.lastStartCharacter (token :: tokens))
    (hprev : d.prevLineNumber = 0) (hnil : d.destData = []) :
    (token.IsShown styling → (d.next styling token).destData ≠ []) ∧
      (¬token.IsShown styling → (d.next styling token).destData = [] ∧ (d.next styling token).prevLineNumber = 0) := by
  obtain ⟨hlineNumber, hstart⟩ := fits_toInt32 hline hcharacter hfits
  obtain ⟨-, hend, -⟩ := hfits
  have hpos : 0 ≤ (if token.deltaLine = 0 then d.lastStartCharacter + token.deltaCharacter else
      (token.deltaCharacter : Int)) := by split_ifs <;> omega
  unfold Decoder.next SemanticToken.IsShown
  dsimp only
  rw [hlineNumber, hstart]
  generalize (if token.deltaLine = 0 then d.lastStartCharacter + token.deltaCharacter else
      (token.deltaCharacter : Int)) = startCharacter at hend hpos ⊢
  rw [toInt32_eq ⟨by omega, hend⟩]
  by_cases hempty : startCharacter + token.length ≤ startCharacter
  · rw [if_pos hempty]
    exact ⟨fun hshown => by omega, fun _ => ⟨hnil, hprev⟩⟩
  rw [if_neg hempty, if_neg (by omega)]
  by_cases hstyle : styling token.tokenTypeIndex token.tokenModifierSet ≠ noStyling
  · rw [if_pos hstyle]
    exact ⟨fun _ => append_ne_nil_of_right_ne_nil _ (cons_ne_nil _ _),
      fun h => absurd ⟨by omega, hstyle⟩ h⟩
  · rw [if_neg hstyle]
    exact ⟨fun hshown => absurd hshown.2 hstyle, fun _ => ⟨hnil, hprev⟩⟩

theorem foldl_destData_ne_nil (tokens : List SemanticToken) : ∀ {d : Decoder}, d.destData ≠ [] →
    (tokens.foldl (Decoder.next styling) d).destData ≠ [] := by
  induction tokens with
  | nil => exact fun h => h
  | cons token tokens ih =>
    intro d h
    apply ih
    rcases next_destData styling d token with ⟨hdest, -⟩ | ⟨new, hdest, -⟩
    · rw [hdest]
      exact h
    · rw [hdest]
      exact append_ne_nil_of_left_ne_nil h _

theorem foldl_destData_nil_iff (tokens : List SemanticToken) : ∀ {d : Decoder} {rest : List SemanticToken},
    1 ≤ d.lastLineNumber → 0 ≤ d.lastStartCharacter → Fits d.lastLineNumber d.lastStartCharacter (tokens ++ rest) →
      d.prevLineNumber = 0 → d.destData = [] →
      ((tokens.foldl (Decoder.next styling) d).destData ≠ [] ↔ ∃ token ∈ tokens, token.IsShown styling) := by
  induction tokens with
  | nil =>
    intro d rest _ _ _ _ hnil
    constructor
    · exact fun h => absurd hnil h
    · rintro ⟨_, hmem, _⟩
      cases hmem
  | cons token tokens ih =>
    intro d rest hline hcharacter hfits hprev hnil
    obtain ⟨hline', hcharacter', -, hfits'⟩ := @next_position styling d token hline hcharacter _ hfits
    obtain ⟨htaken, hleft⟩ := @next_destData_nil styling d token _ hline hcharacter hfits hprev hnil
    rw [foldl_cons, exists_mem_cons_iff]
    by_cases hshown : token.IsShown styling
    · exact ⟨fun _ => .inl hshown, fun _ => foldl_destData_ne_nil tokens (htaken hshown)⟩
    · obtain ⟨hnil', hprev'⟩ := hleft hshown
      rw [ih (by omega) hcharacter' hfits' hprev' hnil']
      exact ⟨fun h => .inr h, fun h => h.resolve_left hshown⟩

/-- What is delivered: pieces that start at their first token, or at 0 if they have none, each with lines of its own. -/
structure Delivered (pieces : List SparseMultilineTokens) : Prop where
  wellFormed : ∀ piece ∈ pieces, piece.WellFormed
  endLineNumber : ∀ piece ∈ pieces,
    piece.endLineNumber = piece.startLineNumber + Storage.getMaxDeltaLine piece.tokens
  start : ∀ piece ∈ pieces, piece.absolute = [] ∧ piece.startLineNumber = 0 ∨
    ∃ t ∈ piece.absolute, t.lineNumber = piece.startLineNumber
  lineNumber : ∀ t ∈ tokensOf pieces, 1 ≤ t.lineNumber
  separate : pieces.Pairwise fun piece piece' =>
    ∀ t ∈ piece.absolute, ∀ t' ∈ piece'.absolute, t.lineNumber < t'.lineNumber

theorem delivered_nil : Delivered [] where
  wellFormed := fun _ hmem => nomatch hmem
  endLineNumber := fun _ hmem => nomatch hmem
  start := fun _ hmem => nomatch hmem
  lineNumber := fun _ hmem => nomatch hmem
  separate := List.Pairwise.nil

section Piece

variable {d : Decoder} {low : Int}

theorem Decoding.wellFormed (h : Decoding low d) : (SparseMultilineTokens.create d.areaLine d.destData).WellFormed :=
  ⟨h.sorted, h.proper⟩

theorem Decoding.lineNumber (h : Decoding low d) {t : AbsoluteToken}
    (ht : t ∈ (SparseMultilineTokens.create d.areaLine d.destData).absolute) :
    low ≤ t.lineNumber ∧ t.lineNumber ≤ d.lastLineNumber := by
  obtain ⟨token, htoken, rfl⟩ := mem_map.mp ht
  have hlow := h.low token htoken
  have hlast := h.last token htoken
  show low ≤ d.areaLine + token.deltaLine ∧ d.areaLine + token.deltaLine ≤ d.lastLineNumber
  omega

theorem Decoding.startLineNumber (h : Decoding low d) :
    (SparseMultilineTokens.create d.areaLine d.destData).absolute = [] ∧ d.areaLine = 0 ∨
      ∃ t ∈ (SparseMultilineTokens.create d.areaLine d.destData).absolute, t.lineNumber = d.areaLine := by
  rcases h.start with ⟨hnil, hzero⟩ | ⟨-, first, hfirst, hdelta⟩
  · exact .inl ⟨map_eq_nil_iff.mpr hnil, hzero⟩
  · refine .inr ⟨first.absolute d.areaLine, mem_map_of_mem (mem_of_head? hfirst), ?_⟩
    show d.areaLine + first.deltaLine = d.areaLine
    omega

theorem Delivered.cons {pieces : List SparseMultilineTokens} (hpieces : Delivered pieces) (h : Decoding low d) (hlow : 1 ≤ low)
    (hlines : ∀ t ∈ tokensOf pieces, d.lastLineNumber < t.lineNumber) :
    Delivered (SparseMultilineTokens.create d.areaLine d.destData :: pieces) where
  wellFormed := forall_mem_cons.mpr ⟨h.wellFormed, hpieces.wellFormed⟩
  endLineNumber := forall_mem_cons.mpr ⟨rfl, hpieces.endLineNumber⟩
  start := forall_mem_cons.mpr ⟨h.startLineNumber, hpieces.start⟩
  lineNumber := by
    intro t ht
    rcases mem_append.mp ht with ht | ht
    · have := h.lineNumber ht
      omega
    · exact hpieces.lineNumber t ht
  separate := by
    refine pairwise_cons.mpr ⟨fun piece hpiece t ht t' ht' => ?_, hpieces.separate⟩
    have hle := (h.lineNumber ht).2
    have hlt := hlines t' (mem_tokensOf.mpr ⟨piece, hpiece, ht'⟩)
    omega

end Piece

theorem toMultilineTokensLoop_spec (hshort : LastLineShort data) (turns : Nat) :
    ∀ {tokenIndex : Nat} {lastLineNumber lastStartCharacter : Int}, 1 ≤ lastLineNumber → 0 ≤ lastStartCharacter →
      Fits lastLineNumber lastStartCharacter (data.drop tokenIndex) →
      Delivered (toMultilineTokensLoop styling data tokenIndex lastLineNumber lastStartCharacter turns) ∧
      List.Forall₂ (fun area piece => piece.absolute ≠ [] ↔ ∃ token ∈ area, token.IsShown styling)
        (areasFrom data tokenIndex turns)
        (toMultilineTokensLoop styling data tokenIndex lastLineNumber lastStartCharacter turns) ∧
      ∀ t ∈ tokensOf (toMultilineTokensLoop styling data tokenIndex lastLineNumber lastStartCharacter turns),
        ∃ first, data[tokenIndex]? = some first ∧ lastLineNumber + first.deltaLine ≤ t.lineNumber := by
  induction turns with
  | zero => exact fun _ _ _ => ⟨delivered_nil, .nil, fun _ h => nomatch h⟩
  | succ turns ih =>
    intro tokenIndex lastLineNumber lastStartCharacter hline hcharacter hfits
    unfold toMultilineTokensLoop areasFrom
    by_cases hlen : tokenIndex < data.length
    swap
    · rw [if_neg hlen, if_neg hlen]
      exact ⟨delivered_nil, .nil, fun _ h => nomatch h⟩
    rw [if_pos hlen, if_pos hlen]
    dsimp only
    obtain ⟨hlt, hle, hcut⟩ := tokenEnd_spec hshort hlen
    generalize tokenEnd data tokenIndex = tokenEndIndex at hlt hle hcut ⊢
    have hsplit : data.drop tokenIndex = (data.take tokenEndIndex).drop tokenIndex ++ data.drop tokenEndIndex := by
      conv_lhs => rw [← take_append_drop tokenEndIndex data]
      rw [drop_append_of_le_length (by rw [length_take]; omega)]
    have hfirst : ((data.take tokenEndIndex).drop tokenIndex).head? = some data[tokenIndex] := by
      rw [head?_drop, getElem?_take, if_pos hlt, getElem?_eq_getElem hlen]
    obtain ⟨tokens, harea⟩ := head?_eq_some_iff.mp hfirst
    rw [hsplit, harea] at hfits
    obtain ⟨hdecoding, hfits', hlow⟩ := @decodeArea_decoding styling _ _ _ _ _ hline hcharacter hfits
    have hshown := @foldl_destData_nil_iff styling (data[tokenIndex] :: tokens) { lastLineNumber, lastStartCharacter } _
      hline hcharacter hfits rfl rfl
    rw [harea]
    obtain ⟨hpieces, hareas, hlines⟩ := ih hdecoding.lastLineNumber hdecoding.lastStartCharacter hfits'
    -- the next area starts on a line of its own
    have hbelow : ∀ t ∈ tokensOf (toMultilineTokensLoop styling data tokenEndIndex
        (decodeArea styling lastLineNumber lastStartCharacter (data[tokenIndex] :: tokens)).lastLineNumber
        (decodeArea styling lastLineNumber lastStartCharacter (data[tokenIndex] :: tokens)).lastStartCharacter turns),
        (decodeArea styling lastLineNumber lastStartCharacter (data[tokenIndex] :: tokens)).lastLineNumber < t.lineNumber := by
      intro t ht
      obtain ⟨first, hsome, hle'⟩ := hlines t ht
      have hdelta : first.deltaLine ≠ 0 := by
        intro hzero
        rw [isOnLineOfPrevious_iff.mpr ⟨first, hsome, hzero⟩] at hcut
        cases hcut
      omega
    refine ⟨hpieces.cons hdecoding (by omega) hbelow, .cons ?_ hareas, fun t ht => ⟨data[tokenIndex], getElem?_eq_getElem hlen, ?_⟩⟩
    · exact Iff.trans (not_congr map_eq_nil_iff) hshown
    · rw [tokensOf_cons] at ht
      rcases mem_append.mp ht with ht | ht
      · exact (hdecoding.lineNumber ht).1
      · have := hbelow t ht
        omega

theorem toMultilineTokens2_findable (hfits : Fits 1 0 data) (hshort : LastLineShort data)
    (hgaps : NoGaps styling (areas data)) : Findable (toMultilineTokens2 styling data) := by
  obtain ⟨hdelivered, hareas, -⟩ := @toMultilineTokensLoop_spec styling data hshort data.length 0 1 0 (by omega) (by omega) hfits
  have hfull : (toMultilineTokens2 styling data).Pairwise fun piece piece' => piece.absolute ≠ [] → piece'.absolute ≠ [] :=
    forall₂_pairwise (fun _ _ _ _ h h' himp hne => h'.mpr (himp (h.mp hne))) hareas hgaps
  refine ⟨hdelivered.wellFormed, hdelivered.endLineNumber, ?_, hdelivered.separate, hfull, ?_⟩
  · refine hdelivered.separate.imp_of_mem fun {piece piece'} hpiece hpiece' hsep t' ht' => ?_
    rcases hdelivered.start piece hpiece with ⟨-, hzero⟩ | ⟨t, ht, hline⟩
    · have := hdelivered.lineNumber t' (mem_tokensOf.mpr ⟨piece', hpiece', ht'⟩)
      omega
    · have := hsep t ht t' ht'
      omega
  · refine (hdelivered.separate.and hfull).imp_of_mem fun {piece piece'} hpiece hpiece' hboth hne => ?_
    obtain ⟨t, ht, hline⟩ := (hdelivered.start piece hpiece).resolve_left fun h => hne h.1
    obtain ⟨t', ht', hline'⟩ := (hdelivered.start piece' hpiece').resolve_left fun h => hboth.2 hne h.1
    have := hboth.1 t ht t' ht'
    omega

end Pieces

end TongjiCode.Tokens
