import TongjiCode.Tokens.Painting
import TongjiCode.Tokens.SparseTokensStore

/-!
# Semantic tokens over the tokens of a line

The rest of `addSparseTokens` of `sparseTokensStore.ts`: the sparse tokens of a line are laid over its tokens, each with a mask
that says which bits of the metadata it replaces.

* `mergeTokens_spec`: every character has the metadata that it had, with the masked bits of the sparse token on it.

The result's metadata are 32-bit numbers, into which the typed array turns them at the end.
-/

open List

namespace TongjiCode.Tokens

/-! ## Algorithm -/

namespace MetadataConsts

def FOREGROUND_MASK : Nat := 0b00000000111111111000000000000000
def BACKGROUND_MASK : Nat := 0b11111111000000000000000000000000
def ITALIC_MASK : Nat := 0b00000000000000000000100000000000
def BOLD_MASK : Nat := 0b00000000000000000001000000000000
def UNDERLINE_MASK : Nat := 0b00000000000000000010000000000000
def STRIKETHROUGH_MASK : Nat := 0b00000000000000000100000000000000
def SEMANTIC_USE_ITALIC : Nat := 0b00000000000000000000000000000001
def SEMANTIC_USE_BOLD : Nat := 0b00000000000000000000000000000010
def SEMANTIC_USE_UNDERLINE : Nat := 0b00000000000000000000000000000100
def SEMANTIC_USE_STRIKETHROUGH : Nat := 0b00000000000000000000000000001000
def SEMANTIC_USE_FOREGROUND : Nat := 0b00000000000000000000000000010000
def SEMANTIC_USE_BACKGROUND : Nat := 0b00000000000000000000000000100000

end MetadataConsts

structure LineTokens where
  tokens : List LineToken
  text : JsString

namespace SparseTokensStore

open MetadataConsts

/-- `(metadata & use) ? mask : 0`. -/
def maskIf (metadata use mask : Nat) : Nat := if metadata &&& use ≠ 0 then mask else 0

def bMask (bMetadata : Nat) : Nat :=
  maskIf bMetadata SEMANTIC_USE_ITALIC ITALIC_MASK ||| maskIf bMetadata SEMANTIC_USE_BOLD BOLD_MASK |||
    maskIf bMetadata SEMANTIC_USE_UNDERLINE UNDERLINE_MASK ||| maskIf bMetadata SEMANTIC_USE_STRIKETHROUGH STRIKETHROUGH_MASK |||
    maskIf bMetadata SEMANTIC_USE_FOREGROUND FOREGROUND_MASK ||| maskIf bMetadata SEMANTIC_USE_BACKGROUND BACKGROUND_MASK

/-- `(~bMask) >>> 0`. -/
def aMask (bMetadata : Nat) : Nat := (2 ^ 32 - 1) ^^^ bMask bMetadata

/-- `(aMetadata & aMask) | (bMetadata & bMask)`. -/
def mix (bMetadata aMetadata : Nat) : Nat := (aMetadata &&& aMask bMetadata) ||| (bMetadata &&& bMask bMetadata)

/-- The variables of `addSparseTokens`: the token before `aIndex`, the tokens from there on, and what has been emitted. -/
structure Merging where
  previous : Option LineToken
  rest : List LineToken
  result : List LineToken
  lastEndOffset : Nat

namespace Merging

def emitToken (s : Merging) (endOffset metadata : Nat) : Merging :=
  if endOffset = s.lastEndOffset then s
  else { s with lastEndOffset := endOffset, result := s.result ++ [⟨endOffset, metadata⟩] }

/-- `aTokens.getStartOffset(aIndex)`. -/
def startOffset (s : Merging) : Nat := (s.previous.map LineToken.endOffset).getD 0

/-- A loop that emits tokens of `a` as long as their end offset is in question. -/
def pushWhile (condition : Nat → Bool) (metadata : Nat → Nat) : List LineToken → Merging → Merging
  | [], s => s
  | token :: rest, s =>
    if condition token.endOffset then
      pushWhile condition metadata rest
        { s.emitToken token.endOffset (metadata token.metadata) with previous := some token, rest }
    else s

/-- The body of the loop over the sparse tokens. -/
def addToken (s : Merging) (b : Token) : Merging :=
  let bStartCharacter := b.startCharacter.toNat
  let bEndCharacter := b.endCharacter.toNat
  -- push any token from `a` that is before `b`
  let s := pushWhile (fun endOffset => endOffset ≤ bStartCharacter) id s.rest s
  -- push the token from `a` if it intersects the token from `b`
  let s :=
    match s.rest with
    | [] => s
    | token :: _ => if s.startOffset < bStartCharacter then s.emitToken bStartCharacter token.metadata else s
  -- skip any tokens from `a` that are contained inside `b`
  let s := pushWhile (fun endOffset => endOffset < bEndCharacter) (mix b.metadata) s.rest s
  match s.rest with
  | token :: rest =>
    let s := s.emitToken bEndCharacter (mix b.metadata token.metadata)
    if token.endOffset = bEndCharacter then { s with previous := some token, rest } else s
  | [] => s.emitToken bEndCharacter (mix b.metadata ((s.previous.map LineToken.metadata).getD 0))

end Merging

/-- The loops of `addSparseTokens`. -/
def mergeTokens (aTokens : List LineToken) (bTokens : List Token) : List LineToken :=
  let s := bTokens.foldl Merging.addToken ⟨none, aTokens, [], 0⟩
  -- push the remaining tokens from `a`
  (Merging.pushWhile (fun _ => true) id s.rest s).result

def addSparseTokens (s : SparseTokensStore) (lineNumber : Int) (aTokens : LineTokens) : LineTokens :=
  if aTokens.text.length = 0 then aTokens
  else
    match s.sparseLineTokens lineNumber with
    | none => aTokens
    | some bTokens => { aTokens with tokens := mergeTokens aTokens.tokens bTokens }

/-! ## Masks -/

theorem testBit_mix (b a : Nat) {i : Nat} (hi : i < 32) :
    (mix b a).testBit i = if (bMask b).testBit i then b.testBit i else a.testBit i := by
  have hall : (2 ^ 32 - 1).testBit i = true := by
    rw [Nat.testBit_two_pow_sub_one]
    exact decide_eq_true hi
  rw [mix, aMask, Nat.testBit_or, Nat.testBit_and, Nat.testBit_and, Nat.testBit_xor, hall]
  cases (bMask b).testBit i <;> simp

theorem maskIf_lt (metadata use : Nat) {mask : Nat} (h : mask < 2 ^ 32) : maskIf metadata use mask < 2 ^ 32 := by
  unfold maskIf
  split
  · exact h
  · decide

theorem bMask_lt (b : Nat) : bMask b < 2 ^ 32 := by
  refine Nat.or_lt_two_pow (Nat.or_lt_two_pow (Nat.or_lt_two_pow (Nat.or_lt_two_pow (Nat.or_lt_two_pow ?_ ?_) ?_) ?_) ?_) ?_ <;>
    exact maskIf_lt _ _ (by decide)

/-! ## Emissions -/

variable {a rest passed : List LineToken} {token : LineToken} {expected : List Nat} {s : Merging}

theorem colors_at (ha : Increasing a) (hsplit : a = passed ++ token :: rest) {i : Nat} (hlow : lastEnd 0 passed ≤ i)
    (hhigh : i < token.endOffset) : (colors 0 a)[i]? = some token.metadata := by
  subst hsplit
  have hpassed := length_colors_zero (pairwise_append.mp ha).left
  rw [colors_append, getElem?_append_right (by omega), colors,
    getElem?_append_left (by rw [length_replicate]; omega), getElem?_replicate, if_pos (by omega)]

/-- What has been emitted says of its characters what is expected. -/
structure Emitted (expected : List Nat) (s : Merging) : Prop where
  increasing : Increasing s.result
  last : lastEnd 0 s.result = s.lastEndOffset
  colors : colors 0 s.result = expected.take s.lastEndOffset

theorem emitToken_emitted (h : Emitted expected s) {endOffset metadata : Nat} (hle : s.lastEndOffset ≤ endOffset)
    (hcolor : ∀ i, s.lastEndOffset ≤ i → i < endOffset → expected[i]? = some metadata) :
    Emitted expected (s.emitToken endOffset metadata) ∧ (s.emitToken endOffset metadata).lastEndOffset = endOffset ∧
      (s.emitToken endOffset metadata).rest = s.rest ∧ (s.emitToken endOffset metadata).previous = s.previous := by
  unfold Merging.emitToken
  by_cases hsame : endOffset = s.lastEndOffset
  · rw [if_pos hsame]
    exact ⟨h, hsame.symm, rfl, rfl⟩
  · rw [if_neg hsame]
    have hstretch : (expected.drop s.lastEndOffset).take (endOffset - s.lastEndOffset) =
        List.replicate (endOffset - s.lastEndOffset) metadata := by
      refine ext_getElem? fun i => ?_
      rw [getElem?_take, getElem?_replicate, getElem?_drop]
      by_cases hi : i < endOffset - s.lastEndOffset
      · rw [if_pos hi, if_pos hi, hcolor _ (by omega) (by omega)]
      · rw [if_neg hi, if_neg hi]
    refine ⟨⟨?_, lastEnd_concat 0 _ _, ?_⟩, rfl, rfl, rfl⟩
    · refine pairwise_append.mpr ⟨h.increasing, pairwise_singleton _ _, fun t ht t' ht' => ?_⟩
      have hlast := endOffset_le_lastEnd h.increasing ht 0
      rw [h.last] at hlast
      rw [mem_singleton.mp ht']
      show t.endOffset < endOffset
      omega
    · show colors 0 (s.result ++ [⟨endOffset, metadata⟩]) = expected.take endOffset
      have hsum : endOffset = s.lastEndOffset + (endOffset - s.lastEndOffset) := by omega
      rw [colors_append, h.colors, h.last, colors, colors, append_nil, ← hstretch]
      conv => rhs; rw [hsum, take_add]

/-- The loops are at `s`, behind the tokens `passed` of `a`. -/
structure Progress (a : List LineToken) (expected : List Nat) (passed : List LineToken) (s : Merging) : Prop where
  split : a = passed ++ s.rest
  previous : s.previous = passed.getLast?
  behind : lastEnd 0 passed ≤ s.lastEndOffset
  ahead : ∀ t ∈ s.rest, s.lastEndOffset ≤ t.endOffset
  emitted : Emitted expected s

/-- The next token of `a` is emitted up to its end. -/
theorem Progress.next (ha : Increasing a) (h : Progress a expected passed s)
    (hrest : s.rest = token :: rest) {metadata : Nat}
    (hcolor : ∀ i, s.lastEndOffset ≤ i → i < token.endOffset → expected[i]? = some metadata) :
    Progress a expected (passed ++ [token])
        { s.emitToken token.endOffset metadata with previous := some token, rest := rest } ∧
      (s.emitToken token.endOffset metadata).lastEndOffset = token.endOffset ∧ s.lastEndOffset ≤ token.endOffset := by
  have hsplit := h.split
  rw [hrest] at hsplit
  have hle := h.ahead token (by rw [hrest]; exact mem_cons_self)
  obtain ⟨hemitted, hlast, -, -⟩ := emitToken_emitted h.emitted hle hcolor
  refine ⟨⟨?_, ?_, ?_, fun t ht => ?_, hemitted.increasing, hemitted.last, hemitted.colors⟩, hlast, hle⟩
  · rw [hsplit]
    simp
  · simp
  · rw [lastEnd_concat]
    exact Nat.le_of_eq hlast.symm
  · have hincreasing : Increasing (token :: rest) := by
      rw [hsplit] at ha
      exact (pairwise_append.mp ha).right.left
    have hlt := (pairwise_cons.mp hincreasing).left t ht
    show (s.emitToken token.endOffset metadata).lastEndOffset ≤ t.endOffset
    omega

/-- Where a loop over the tokens of `a` has come to. -/
structure Pushed (condition : Nat → Bool) (a : List LineToken) (expected : List Nat) (s s' : Merging) : Prop where
  progress : ∃ passed', Progress a expected passed' s'
  le : s.lastEndOffset ≤ s'.lastEndOffset
  last : s'.lastEndOffset = s.lastEndOffset ∨ condition s'.lastEndOffset = true
  stop : ∀ t ∈ s'.rest.head?, condition t.endOffset = false

theorem pushWhile_pushed (ha : Increasing a) {condition : Nat → Bool}
    {metadata : Nat → Nat} (rest : List LineToken) : ∀ {passed : List LineToken} {s : Merging}, Progress a expected passed s →
    s.rest = rest → (∀ i m, s.lastEndOffset ≤ i → (∀ e, i < e → condition e = true → (colors 0 a)[i]? = some m →
      expected[i]? = some (metadata m))) → Pushed condition a expected s (Merging.pushWhile condition metadata rest s) := by
  induction rest with
  | nil =>
    intro passed s h hrest hcolor
    refine ⟨⟨passed, h⟩, Nat.le_refl _, Or.inl rfl, fun t ht => ?_⟩
    rw [Merging.pushWhile, hrest] at ht
    cases ht
  | cons token rest ih =>
    intro passed s h hrest hcolor
    rw [Merging.pushWhile]
    by_cases hcondition : condition token.endOffset = true
    · rw [if_pos hcondition]
      have hsplit := h.split
      rw [hrest] at hsplit
      obtain ⟨hnext, hlast, hle⟩ := h.next ha hrest fun i hi hlt =>
        hcolor i token.metadata hi token.endOffset hlt hcondition
          (colors_at ha hsplit (Nat.le_trans h.behind hi) hlt)
      have hpushed := ih hnext rfl fun i m hi e hlt he hm => hcolor i m (by dsimp only at hi; omega) e hlt he hm
      refine ⟨hpushed.progress, Nat.le_trans ?_ hpushed.le, ?_, hpushed.stop⟩
      · dsimp only
        omega
      · rcases hpushed.last with hsame | htrue
        · right
          rw [hsame]
          rw [hlast]
          exact hcondition
        · exact Or.inr htrue
    · rw [if_neg hcondition]
      refine ⟨⟨passed, h⟩, Nat.le_refl _, Or.inl rfl, fun t ht => ?_⟩
      rw [hrest] at ht
      obtain rfl : token = t := Option.some.inj ht
      exact Bool.eq_false_iff.mpr hcondition

/-! ## One sparse token -/

/-- As long as there are characters ahead, there is a token ahead. -/
theorem Progress.exists_rest (h : Progress a expected passed s) {bound : Nat} (hbound : bound ≤ lastEnd 0 a)
    (hlt : s.lastEndOffset < bound) : ∃ token rest, s.rest = token :: rest := by
  cases hrest : s.rest with
  | nil =>
    have hsplit := h.split
    rw [hrest, append_nil] at hsplit
    have hbehind := h.behind
    rw [← hsplit] at hbehind
    omega
  | cons token rest => exact ⟨token, rest, rfl⟩

theorem Progress.startOffset_eq (h : Progress a expected passed s) : s.startOffset = lastEnd 0 passed := by
  rw [Merging.startOffset, h.previous]
  rcases eq_nil_or_concat passed with rfl | ⟨front, token, rfl⟩
  · rfl
  · rw [concat_eq_append, lastEnd_concat]
    simp

theorem Progress.upTo (ha : Increasing a) (h : Progress a expected passed s) (hrest : s.rest = token :: rest)
    {endOffset metadata : Nat} (hle : s.lastEndOffset ≤ endOffset) (hinside : endOffset ≤ token.endOffset)
    (hcolor : ∀ i, s.lastEndOffset ≤ i → i < endOffset → expected[i]? = some metadata) :
    Progress a expected passed (s.emitToken endOffset metadata) ∧ (s.emitToken endOffset metadata).lastEndOffset = endOffset ∧
      (s.emitToken endOffset metadata).rest = token :: rest := by
  have hsplit := h.split
  have hbehind := h.behind
  obtain ⟨hemitted, hlast, hsame, hprevious⟩ := emitToken_emitted h.emitted hle hcolor
  refine ⟨⟨by rw [hsame]; exact hsplit, by rw [hprevious]; exact h.previous, by omega, fun t ht => ?_, hemitted⟩, hlast,
    by rw [hsame, hrest]⟩
  rw [hsame, hrest] at ht
  rw [hsplit, hrest] at ha
  rcases mem_cons.mp ht with rfl | ht
  · omega
  · have hlt := (pairwise_cons.mp (pairwise_append.mp ha).right.left).left t ht
    omega

theorem addToken_progress (ha : Increasing a) (h : Progress a expected passed s) {b : Token}
    (hstart : s.lastEndOffset ≤ b.startCharacter.toNat) (hlt : b.startCharacter.toNat < b.endCharacter.toNat)
    (hend : b.endCharacter.toNat ≤ lastEnd 0 a)
    (hgap : ∀ i m, s.lastEndOffset ≤ i → i < b.startCharacter.toNat → (colors 0 a)[i]? = some m → expected[i]? = some m)
    (hcover : ∀ i m, b.startCharacter.toNat ≤ i → i < b.endCharacter.toNat → (colors 0 a)[i]? = some m →
      expected[i]? = some (mix b.metadata m)) :
    ∃ passed', Progress a expected passed' (s.addToken b) ∧ (s.addToken b).lastEndOffset = b.endCharacter.toNat := by
  unfold Merging.addToken
  generalize b.startCharacter.toNat = bStart at *
  generalize b.endCharacter.toNat = bEnd at *
  dsimp only
  -- the tokens before `b`
  have hfirst : Pushed (fun endOffset => decide (endOffset ≤ bStart)) a expected s
      (Merging.pushWhile (fun endOffset => decide (endOffset ≤ bStart)) id s.rest s) :=
    pushWhile_pushed ha s.rest h rfl fun i m hi e hie he hm => hgap i m hi (Nat.lt_of_lt_of_le hie (of_decide_eq_true he)) hm
  generalize Merging.pushWhile (fun endOffset => decide (endOffset ≤ bStart)) id s.rest s = s1 at hfirst ⊢
  obtain ⟨passed1, h1⟩ := hfirst.progress
  have hlast1 : s1.lastEndOffset ≤ bStart := by
    rcases hfirst.last with hsame | htrue
    · omega
    · exact of_decide_eq_true htrue
  obtain ⟨token1, rest1, hrest1⟩ := h1.exists_rest hend (by omega)
  have hnot1 : ¬ token1.endOffset ≤ bStart := of_decide_eq_false (hfirst.stop token1 (by rw [hrest1]; rfl))
  -- the part of a token before `b`
  have hsecond : ∃ s2 : Merging, (match s1.rest with
      | [] => s1
      | token :: _ => if s1.startOffset < bStart then s1.emitToken bStart token.metadata else s1) = s2 ∧
      Progress a expected passed1 s2 ∧ s2.lastEndOffset = bStart := by
    refine ⟨_, rfl, ?_⟩
    rw [hrest1]
    dsimp only
    rw [h1.startOffset_eq]
    by_cases hinside : lastEnd 0 passed1 < bStart
    · rw [if_pos hinside]
      have hsplit1 := h1.split
      have hbehind1 := h1.behind
      rw [hrest1] at hsplit1
      obtain ⟨h2, hlast2, -⟩ := h1.upTo ha hrest1 hlast1 (by omega) fun i hi hi' =>
        hgap i token1.metadata (Nat.le_trans hfirst.le hi) hi' (colors_at ha hsplit1 (by omega) (by omega))
      exact ⟨h2, hlast2⟩
    · rw [if_neg hinside]
      have hbehind1 := h1.behind
      exact ⟨h1, by omega⟩
  obtain ⟨s2, heq2, h2, hlast2⟩ := hsecond
  rw [heq2]
  -- the tokens inside `b`
  have hthird : Pushed (fun endOffset => decide (endOffset < bEnd)) a expected s2
      (Merging.pushWhile (fun endOffset => decide (endOffset < bEnd)) (mix b.metadata) s2.rest s2) :=
    pushWhile_pushed ha s2.rest h2 rfl fun i m hi e hie he hm =>
      hcover i m (by omega) (Nat.lt_trans hie (of_decide_eq_true he)) hm
  generalize Merging.pushWhile (fun endOffset => decide (endOffset < bEnd)) (mix b.metadata) s2.rest s2 = s3 at hthird ⊢
  obtain ⟨passed3, h3⟩ := hthird.progress
  have hle3 := hthird.le
  have hlast3 : s3.lastEndOffset < bEnd := by
    rcases hthird.last with hsame | htrue
    · omega
    · exact of_decide_eq_true htrue
  obtain ⟨token3, rest3, hrest3⟩ := h3.exists_rest hend hlast3
  have hnot3 : ¬ token3.endOffset < bEnd := of_decide_eq_false (hthird.stop token3 (by rw [hrest3]; rfl))
  have hsplit3 := h3.split
  have hbehind3 := h3.behind
  rw [hrest3] at hsplit3
  have hcolor3 : ∀ i, s3.lastEndOffset ≤ i → i < bEnd → expected[i]? = some (mix b.metadata token3.metadata) := fun i hi hi' =>
    hcover i token3.metadata (by omega) hi' (colors_at ha hsplit3 (by omega) (by omega))
  -- the end of `b`
  rw [hrest3]
  dsimp only
  by_cases hends : token3.endOffset = bEnd
  · rw [if_pos hends]
    rw [← hends] at hcolor3 ⊢
    obtain ⟨hnext, hlast, -⟩ := h3.next ha hrest3 hcolor3
    exact ⟨_, hnext, hlast⟩
  · rw [if_neg hends]
    obtain ⟨h4, hlast4, -⟩ := h3.upTo ha hrest3 (by omega) (by omega) hcolor3
    exact ⟨passed3, h4, hlast4⟩

/-! ## All sparse tokens -/

/-- The sparse tokens of a line: not empty, inside it and one behind the other. -/
structure OnLine (bTokens : List Token) (lineLength : Nat) : Prop where
  nonempty : ∀ b ∈ bTokens, 0 ≤ b.startCharacter ∧ b.startCharacter < b.endCharacter ∧ b.endCharacter ≤ lineLength
  apart : bTokens.Pairwise fun b b' => b.endCharacter ≤ b'.startCharacter

def covering (bTokens : List Token) (i : Nat) : Option Token :=
  bTokens.find? fun b => decide (b.startCharacter ≤ (i : Int) ∧ (i : Int) < b.endCharacter)

def mixed (bTokens : List Token) (i metadata : Nat) : Nat :=
  match covering bTokens i with
  | none => metadata
  | some b => mix b.metadata metadata

theorem covering_append {done todo : List Token} {i : Nat} (hdone : ∀ b ∈ done, b.endCharacter ≤ i) :
    covering (done ++ todo) i = covering todo i := by
  have hnone : done.find? (fun b => decide (b.startCharacter ≤ (i : Int) ∧ (i : Int) < b.endCharacter)) = none := by
    refine find?_eq_none.mpr fun b hb => ?_
    have := hdone b hb
    simp only [decide_eq_true_eq]
    omega
  rw [covering, find?_append, hnone, Option.none_or]
  rfl

theorem covering_behind {todo : List Token} {i : Nat} (htodo : ∀ b ∈ todo, (i : Int) < b.startCharacter) :
    covering todo i = none := by
  refine find?_eq_none.mpr fun b hb => ?_
  have := htodo b hb
  simp only [decide_eq_true_eq]
  omega

theorem foldl_addToken {lineLength : Nat} (ha : Increasing a) (hlength : lastEnd 0 a = lineLength) (todo : List Token) :
    ∀ {done : List Token} {passed : List LineToken} {s : Merging}, OnLine (done ++ todo) lineLength →
    Progress a ((colors 0 a).mapIdx (mixed (done ++ todo))) passed s → (∀ b ∈ done, b.endCharacter ≤ s.lastEndOffset) →
    (∀ b ∈ todo, (s.lastEndOffset : Int) ≤ b.startCharacter) →
    ∃ passed', Progress a ((colors 0 a).mapIdx (mixed (done ++ todo))) passed' (todo.foldl Merging.addToken s) ∧
      ∀ b ∈ done ++ todo, b.endCharacter ≤ (todo.foldl Merging.addToken s).lastEndOffset := by
  induction todo with
  | nil =>
    intro done passed s _ h hdone _
    refine ⟨passed, h, fun b hb => hdone b ?_⟩
    rwa [append_nil] at hb
  | cons b todo ih =>
    intro done passed s hline h hdone htodo
    obtain ⟨hpos, hlt, hend⟩ := hline.nonempty b (by simp)
    have hstart := htodo b mem_cons_self
    have hapart := (pairwise_cons.mp (pairwise_append.mp hline.apart).right.left).left
    have hmixed : ∀ i m, s.lastEndOffset ≤ i → (colors 0 a)[i]? = some m →
        ((colors 0 a).mapIdx (mixed (done ++ b :: todo)))[i]? = some (mixed (b :: todo) i m) := by
      intro i m hi hm
      rw [getElem?_mapIdx, hm, Option.map_some, mixed, covering_append fun b' hb' => ?_]
      · rfl
      · have := hdone b' hb'
        omega
    have hgap : ∀ i m, s.lastEndOffset ≤ i → i < b.startCharacter.toNat → (colors 0 a)[i]? = some m →
        ((colors 0 a).mapIdx (mixed (done ++ b :: todo)))[i]? = some m := by
      intro i m hi hi' hm
      have hnone : covering (b :: todo) i = none := by
        refine covering_behind fun b' hb' => ?_
        rcases mem_cons.mp hb' with rfl | hb'
        · omega
        · have := hapart b' hb'
          omega
      rw [hmixed i m hi hm, mixed, hnone]
    have hcover : ∀ i m, b.startCharacter.toNat ≤ i → i < b.endCharacter.toNat → (colors 0 a)[i]? = some m →
        ((colors 0 a).mapIdx (mixed (done ++ b :: todo)))[i]? = some (mix b.metadata m) := by
      intro i m hi hi' hm
      have hsome : covering (b :: todo) i = some b := find?_cons_of_pos (decide_eq_true ⟨by omega, by omega⟩)
      rw [hmixed i m (by omega) hm, mixed, hsome]
    obtain ⟨passed', hprogress, hlast⟩ := addToken_progress ha h (by omega) (by omega) (by omega) hgap hcover
    have hassoc : (done ++ [b]) ++ todo = done ++ b :: todo := by simp
    rw [← hassoc] at hline hprogress ⊢
    refine ih hline hprogress (fun b' hb' => ?_) fun b' hb' => ?_
    · rcases mem_append.mp hb' with hb' | hb'
      · have := hdone b' hb'
        omega
      · rw [mem_singleton.mp hb']
        omega
    · have := hapart b' hb'
      omega

/-- The merged tokens say of each character what its tokens and the sparse token on it say. -/
theorem mergeTokens_spec {bTokens : List Token} (ha : Increasing a) (hline : OnLine bTokens (lastEnd 0 a)) :
    Increasing (mergeTokens a bTokens) ∧ lastEnd 0 (mergeTokens a bTokens) = lastEnd 0 a ∧
      colors 0 (mergeTokens a bTokens) = (colors 0 a).mapIdx (mixed bTokens) := by
  have hstart : Progress a ((colors 0 a).mapIdx (mixed ([] ++ bTokens))) [] ⟨none, a, [], 0⟩ :=
    ⟨rfl, rfl, Nat.le_refl 0, fun t _ => Nat.zero_le _, List.Pairwise.nil, rfl, rfl⟩
  have hall : OnLine ([] ++ bTokens) (lastEnd 0 a) := hline
  obtain ⟨passed, h, hdone⟩ := foldl_addToken ha rfl bTokens hall hstart (fun b hb => (nomatch hb)) fun b hb =>
    (hline.nonempty b hb).left
  unfold mergeTokens
  dsimp only
  generalize bTokens.foldl Merging.addToken ⟨none, a, [], 0⟩ = s at h hdone ⊢
  have hpushed : Pushed (fun _ => true) a ((colors 0 a).mapIdx (mixed bTokens)) s
      (Merging.pushWhile (fun _ => true) id s.rest s) := by
    refine pushWhile_pushed ha s.rest h rfl fun i m hi e _ _ hm => ?_
    have hnone : covering bTokens i = none := by
      have happend : covering (bTokens ++ []) i = none := covering_append fun b hb => by
        have := hdone b hb
        omega
      rwa [append_nil] at happend
    rw [getElem?_mapIdx, hm, Option.map_some, mixed, hnone]
    rfl
  generalize Merging.pushWhile (fun _ => true) id s.rest s = s' at hpushed ⊢
  obtain ⟨passed', h'⟩ := hpushed.progress
  have hrest : s'.rest = [] := by
    cases hrest : s'.rest with
    | nil => rfl
    | cons t rest => exact absurd (hpushed.stop t (by rw [hrest]; rfl)) (by decide)
  have hall := h'.split
  rw [hrest, append_nil] at hall
  have hbehind := h'.behind
  have hlength := length_colors_zero ha
  have hlast : s'.lastEndOffset = lastEnd 0 a := by
    have hle : s'.lastEndOffset ≤ lastEnd 0 a := by
      have hcolors := congrArg List.length h'.emitted.colors
      rw [length_colors_zero h'.emitted.increasing, h'.emitted.last, length_take, length_mapIdx] at hcolors
      omega
    rw [← hall] at hbehind
    omega
  refine ⟨h'.emitted.increasing, h'.emitted.last.trans hlast, ?_⟩
  rw [h'.emitted.colors, hlast]
  exact take_of_length_le (by rw [length_mapIdx]; omega)

end SparseTokensStore

end TongjiCode.Tokens
