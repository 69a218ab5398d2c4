import TongjiCode.Tokens.AddSparseTokens

/-!
# Texts inserted into a line with tokens

`LineTokens.withInserted` of `lineTokens.ts`, and what it and `addSparseTokens` say of every character of a line.

* `merged_tokens_pointwise`: both functions, character by character.
-/

open List

namespace TongjiCode.Tokens

/-! ## Algorithm -/

structure InsertToken where
  offset : Nat
  text : JsString
  tokenMetadata : Nat

namespace LineTokens

/-- The variables of `withInserted` besides the two indices. -/
structure Inserting where
  originalEndOffset : Nat
  text : JsString
  newTokens : List LineToken

def pushOriginal (text : JsString) (s : Inserting) (endOffset metadata : Nat) : Inserting :=
  let newText := s.text ++ text.substring s.originalEndOffset endOffset
  ⟨endOffset, newText, s.newTokens ++ [⟨newText.length, metadata⟩]⟩

def pushInserted (text : JsString) (s : Inserting) (metadata : Nat) (nextInsertToken : InsertToken) : Inserting :=
  -- insert token is in the middle of the next token
  let s := if nextInsertToken.offset > s.originalEndOffset then pushOriginal text s nextInsertToken.offset metadata else s
  let newText := s.text ++ nextInsertToken.text
  ⟨s.originalEndOffset, newText, s.newTokens ++ [⟨newText.length, nextInsertToken.tokenMetadata⟩]⟩

/-- The loop of `withInserted`.  Behind the last token there is no metadata; the typed array makes 0 of it. -/
def insertLoop (text : JsString) (original : List LineToken) (insertTokens : List InsertToken) (s : Inserting) : Inserting :=
  match original, insertTokens with
  | [], [] => s
  | token :: original, [] => insertLoop text original [] (pushOriginal text s token.endOffset token.metadata)
  | [], insertToken :: insertTokens => insertLoop text [] insertTokens (pushInserted text s 0 insertToken)
  | token :: original, insertToken :: insertTokens =>
    if token.endOffset ≤ insertToken.offset then
      -- original token ends before next insert token
      insertLoop text original (insertToken :: insertTokens) (pushOriginal text s token.endOffset token.metadata)
    else insertLoop text (token :: original) insertTokens (pushInserted text s token.metadata insertToken)
termination_by original.length + insertTokens.length

def withInserted (a : LineTokens) (insertTokens : List InsertToken) : LineTokens :=
  if insertTokens.length = 0 then a
  else
    let s := insertLoop a.text a.tokens insertTokens ⟨0, [], []⟩
    ⟨s.newTokens, s.text⟩

/-! ## Splicing -/

/-- The lists inserted into the list, whose first element is at `pos`. -/
def splice {β : Type} (l : List β) (pos : Nat) : List (Nat × List β) → List β
  | [] => l
  | (offset, x) :: inserts => l.take (offset - pos) ++ (x ++ splice (l.drop (offset - pos)) offset inserts)

theorem splice_advance {β : Type} (l : List β) (pos k : Nat) (inserts : List (Nat × List β))
    (h : ∀ i ∈ inserts, pos + k ≤ i.1) : splice l pos inserts = l.take k ++ splice (l.drop k) (pos + k) inserts := by
  cases inserts with
  | nil => exact (take_append_drop k l).symm
  | cons i inserts =>
    obtain ⟨offset, x⟩ := i
    have hle := h (offset, x) mem_cons_self
    have hsum : offset - pos = k + (offset - (pos + k)) := by omega
    rw [splice, splice, drop_drop, ← append_assoc, ← append_assoc, ← hsum, hsum, take_add]
    simp

def texts (insertTokens : List InsertToken) : List (Nat × JsString) := insertTokens.map fun i => (i.offset, i.text)

def metadatas (insertTokens : List InsertToken) : List (Nat × List Nat) :=
  insertTokens.map fun i => (i.offset, List.replicate i.text.length i.tokenMetadata)

theorem texts_cons (i : InsertToken) (insertTokens : List InsertToken) :
    texts (i :: insertTokens) = (i.offset, i.text) :: texts insertTokens := rfl

theorem metadatas_cons (i : InsertToken) (insertTokens : List InsertToken) :
    metadatas (i :: insertTokens) = (i.offset, List.replicate i.text.length i.tokenMetadata) :: metadatas insertTokens := rfl

/-- The tokens end one behind the other, the last one at the end of the text. -/
structure Ends (tokens : List LineToken) (text : JsString) : Prop where
  ordered : tokens.Pairwise fun t t' => t.endOffset ≤ t'.endOffset
  le : ∀ t ∈ tokens, t.endOffset ≤ text.length
  last : lastEnd 0 tokens = text.length

variable {a original passed : List LineToken} {token : LineToken} {text : JsString} {s : Inserting}

theorem Ends.push {tokens : List LineToken} (h : Ends tokens text) (more : JsString) (metadata : Nat) :
    Ends (tokens ++ [⟨(text ++ more).length, metadata⟩]) (text ++ more) ∧
      colors 0 (tokens ++ [⟨(text ++ more).length, metadata⟩]) = colors 0 tokens ++ List.replicate more.length metadata := by
  refine ⟨⟨?_, fun t ht => ?_, lastEnd_concat 0 _ _⟩, ?_⟩
  · refine pairwise_append.mpr ⟨h.ordered, pairwise_singleton _ _, fun t ht t' ht' => ?_⟩
    have := h.le t ht
    rw [mem_singleton.mp ht', length_append]
    dsimp only
    omega
  · rcases mem_append.mp ht with ht | ht
    · have := h.le t ht
      rw [length_append]
      omega
    · exact Nat.le_of_eq (congrArg LineToken.endOffset (mem_singleton.mp ht))
  · rw [colors_append, h.last, colors, colors, append_nil, length_append, Nat.add_sub_cancel_left]

/-- The original tokens ahead, of which the first one may have been begun. -/
structure Ahead (a : List LineToken) (text : JsString) (original : List LineToken) (s : Inserting) : Prop where
  split : ∃ passed, a = passed ++ original ∧ lastEnd 0 passed ≤ s.originalEndOffset
  ahead : ∀ t ∈ original, s.originalEndOffset ≤ t.endOffset
  le : s.originalEndOffset ≤ text.length
  ends : Ends s.newTokens s.text

theorem pushOriginal_spec (ha : Increasing a) (hlast : lastEnd 0 a = text.length)
    (h : Ahead a text (token :: original) s) {endOffset : Nat} (hle : s.originalEndOffset ≤ endOffset)
    (hinside : endOffset ≤ token.endOffset) :
    Ends (pushOriginal text s endOffset token.metadata).newTokens (pushOriginal text s endOffset token.metadata).text ∧
      (pushOriginal text s endOffset token.metadata).text =
        s.text ++ (text.drop s.originalEndOffset).take (endOffset - s.originalEndOffset) ∧
      colors 0 (pushOriginal text s endOffset token.metadata).newTokens = colors 0 s.newTokens ++
        ((colors 0 a).drop s.originalEndOffset).take (endOffset - s.originalEndOffset) := by
  obtain ⟨passed, hsplit, hbehind⟩ := h.split
  have hmem : token ∈ a := by
    rw [hsplit]
    simp
  have hend := endOffset_le_lastEnd ha hmem 0
  have hsubstring : text.substring s.originalEndOffset endOffset =
      (text.drop s.originalEndOffset).take (endOffset - s.originalEndOffset) := by
    rw [JsString.substring, drop_take]
  have hlength : (text.substring s.originalEndOffset endOffset).length = endOffset - s.originalEndOffset :=
    JsString.substring_length (by omega)
  have hcolors : ((colors 0 a).drop s.originalEndOffset).take (endOffset - s.originalEndOffset) =
      List.replicate (endOffset - s.originalEndOffset) token.metadata := by
    refine ext_getElem? fun i => ?_
    rw [getElem?_take, getElem?_replicate, getElem?_drop]
    by_cases hi : i < endOffset - s.originalEndOffset
    · rw [if_pos hi, if_pos hi, SparseTokensStore.colors_at ha hsplit (by omega) (by omega)]
    · rw [if_neg hi, if_neg hi]
  obtain ⟨hends, hpushed⟩ := h.ends.push (text.substring s.originalEndOffset endOffset) token.metadata
  refine ⟨hends, ?_, ?_⟩
  · rw [← hsubstring]
    rfl
  · rw [hcolors, ← hlength]
    exact hpushed

/-- What comes out of the loop: the rest of the text and of the metadata, spliced. -/
def Splices (a : List LineToken) (text : JsString) (insertTokens : List InsertToken) (s s' : Inserting) : Prop :=
  Ends s'.newTokens s'.text ∧
    s'.text = s.text ++ splice (text.drop s.originalEndOffset) s.originalEndOffset (texts insertTokens) ∧
    colors 0 s'.newTokens = colors 0 s.newTokens ++
      splice ((colors 0 a).drop s.originalEndOffset) s.originalEndOffset (metadatas insertTokens)

variable {insertTokens : List InsertToken}

theorem Splices.advance {s1 s' : Inserting} {k : Nat} (h : Splices a text insertTokens s1 s')
    (hoffset : s1.originalEndOffset = s.originalEndOffset + k)
    (htext : s1.text = s.text ++ (text.drop s.originalEndOffset).take k)
    (hcolors : colors 0 s1.newTokens = colors 0 s.newTokens ++ ((colors 0 a).drop s.originalEndOffset).take k)
    (hinserts : ∀ i ∈ insertTokens, s.originalEndOffset + k ≤ i.offset) : Splices a text insertTokens s s' := by
  obtain ⟨hends, htext', hcolors'⟩ := h
  have htexts : ∀ i ∈ texts insertTokens, s.originalEndOffset + k ≤ i.1 := by
    intro i hi
    obtain ⟨token, htoken, rfl⟩ := mem_map.mp hi
    exact hinserts token htoken
  have hmetadatas : ∀ i ∈ metadatas insertTokens, s.originalEndOffset + k ≤ i.1 := by
    intro i hi
    obtain ⟨token, htoken, rfl⟩ := mem_map.mp hi
    exact hinserts token htoken
  refine ⟨hends, ?_, ?_⟩
  · rw [htext', htext, hoffset, splice_advance (text.drop s.originalEndOffset) s.originalEndOffset k _ htexts, drop_drop,
      append_assoc]
  · rw [hcolors', hcolors, hoffset, splice_advance ((colors 0 a).drop s.originalEndOffset) s.originalEndOffset k _ hmetadatas,
      drop_drop, append_assoc]

variable {s' : Inserting}

theorem Splices.insert {insertToken : InsertToken} (hat : s.originalEndOffset = insertToken.offset)
    {tokens : List LineToken}
    (hcolors : colors 0 tokens = colors 0 s.newTokens ++ List.replicate insertToken.text.length insertToken.tokenMetadata)
    (h : Splices a text insertTokens ⟨s.originalEndOffset, s.text ++ insertToken.text, tokens⟩ s') :
    Splices a text (insertToken :: insertTokens) s s' := by
  obtain ⟨hends, htext', hcolors'⟩ := h
  refine ⟨hends, ?_, ?_⟩
  · rw [htext', texts_cons, splice, hat, Nat.sub_self, take_zero, drop_zero, nil_append]
    exact append_assoc _ _ _
  · rw [hcolors', hcolors, metadatas_cons, splice, hat, Nat.sub_self, take_zero, drop_zero, nil_append]
    exact append_assoc _ _ _

theorem Ahead.at_end (hlast : lastEnd 0 a = text.length) (h : Ahead a text [] s) : s.originalEndOffset = text.length := by
  obtain ⟨passed, hsplit, hbehind⟩ := h.split
  have hle := h.le
  rw [append_nil] at hsplit
  rw [← hsplit, hlast] at hbehind
  omega

section

variable (ha : Increasing a) (hlast : lastEnd 0 a = text.length)
include ha hlast

theorem pushInserted_splices {insertToken : InsertToken} {metadata : Nat} (h : Ahead a text original s)
    (hle : s.originalEndOffset ≤ insertToken.offset) (hlength : insertToken.offset ≤ text.length)
    (hinside : ∀ t ∈ original.head?, metadata = t.metadata ∧ insertToken.offset ≤ t.endOffset)
    (hsorted : ∀ i ∈ insertTokens, insertToken.offset ≤ i.offset) :
    Ahead a text original (pushInserted text s metadata insertToken) ∧
      (pushInserted text s metadata insertToken).originalEndOffset = insertToken.offset ∧
      (Splices a text insertTokens (pushInserted text s metadata insertToken) s' →
        Splices a text (insertToken :: insertTokens) s s') := by
  have hahead : ∀ t ∈ original, insertToken.offset ≤ t.endOffset := by
    obtain ⟨passed, hsplit, -⟩ := h.split
    cases original with
    | nil => exact fun t ht => (nomatch ht)
    | cons token original =>
      have hfirst := (hinside token rfl).right
      rw [hsplit] at ha
      intro t ht
      rcases mem_cons.mp ht with rfl | ht
      · exact hfirst
      · have := (pairwise_cons.mp (pairwise_append.mp ha).right.left).left t ht
        omega
  -- where the text is inserted
  obtain ⟨s1, heq, h1, hoffset, hsplices⟩ : ∃ s1 : Inserting,
      (if insertToken.offset > s.originalEndOffset then pushOriginal text s insertToken.offset metadata else s) = s1 ∧
      Ahead a text original s1 ∧ s1.originalEndOffset = insertToken.offset ∧
      (Splices a text (insertToken :: insertTokens) s1 s' → Splices a text (insertToken :: insertTokens) s s') := by
    by_cases hgt : insertToken.offset > s.originalEndOffset
    · rw [if_pos hgt]
      cases original with
      | nil => exact absurd (h.at_end hlast) (by omega)
      | cons token original =>
        obtain ⟨hmetadata, hbefore⟩ := hinside token rfl
        obtain ⟨passed, hsplit, hbehind⟩ := h.split
        rw [hmetadata]
        obtain ⟨hends, htext, hcolors⟩ := pushOriginal_spec ha hlast h hle hbefore
        refine ⟨_, rfl, ⟨⟨passed, hsplit, Nat.le_trans hbehind hle⟩, hahead, hlength, hends⟩, rfl, fun hsplices => ?_⟩
        refine hsplices.advance (by show insertToken.offset = _; omega) htext hcolors fun i hi => ?_
        rcases mem_cons.mp hi with rfl | hi
        · omega
        · have := hsorted i hi
          omega
    · rw [if_neg hgt]
      exact ⟨s, rfl, h, by omega, id⟩
  have hpush : pushInserted text s metadata insertToken = ⟨s1.originalEndOffset, s1.text ++ insertToken.text,
      s1.newTokens ++ [⟨(s1.text ++ insertToken.text).length, insertToken.tokenMetadata⟩]⟩ := by
    rw [pushInserted, heq]
  obtain ⟨hends, hcolors⟩ := h1.ends.push insertToken.text insertToken.tokenMetadata
  rw [hpush]
  exact ⟨⟨h1.split, h1.ahead, h1.le, hends⟩, hoffset, fun h => hsplices (Splices.insert hoffset hcolors h)⟩

theorem pushOriginal_splices (h : Ahead a text (token :: original) s)
    (hinserts : ∀ i ∈ insertTokens, token.endOffset ≤ i.offset) :
    Ahead a text original (pushOriginal text s token.endOffset token.metadata) ∧
      (Splices a text insertTokens (pushOriginal text s token.endOffset token.metadata) s' →
        Splices a text insertTokens s s') := by
  obtain ⟨passed, hsplit, hbehind⟩ := h.split
  have hle := h.ahead token mem_cons_self
  have hmem : token ∈ a := by
    rw [hsplit]
    simp
  have hend := endOffset_le_lastEnd ha hmem 0
  obtain ⟨hends, htext, hcolors⟩ := pushOriginal_spec ha hlast h hle (Nat.le_refl _)
  refine ⟨⟨⟨passed ++ [token], by rw [hsplit]; simp, ?_⟩, fun t ht => ?_, ?_, hends⟩, fun hsplices => ?_⟩
  · rw [lastEnd_concat]
    exact Nat.le_refl _
  · rw [hsplit] at ha
    exact Nat.le_of_lt ((pairwise_cons.mp (pairwise_append.mp ha).right.left).left t ht)
  · show token.endOffset ≤ text.length
    omega
  · refine hsplices.advance (by show token.endOffset = _; omega) htext hcolors fun i hi => ?_
    have := hinserts i hi
    omega

theorem insertLoop_splices (insertTokens : List InsertToken) (h : Ahead a text original s)
    (hsorted : insertTokens.Pairwise fun i j => i.offset ≤ j.offset)
    (hbounds : ∀ i ∈ insertTokens, s.originalEndOffset ≤ i.offset ∧ i.offset ≤ text.length) :
    Splices a text insertTokens s (insertLoop text original insertTokens s) := by
  fun_induction insertLoop text original insertTokens s with
  | case1 s =>
    have hend := h.at_end hlast
    refine ⟨h.ends, ?_, ?_⟩
    · rw [texts, map_nil, splice, drop_eq_nil_of_le (by omega), append_nil]
    · rw [metadatas, map_nil, splice, drop_eq_nil_of_le (by rw [length_colors_zero ha]; omega), append_nil]
  | case2 s token original ih =>
    have hnone : ∀ i ∈ ([] : List InsertToken), token.endOffset ≤ i.offset := fun i hi => (nomatch hi)
    obtain ⟨hnext, hsplices⟩ := pushOriginal_splices ha hlast h hnone
    exact hsplices (ih hnext hsorted fun i hi => (nomatch hi))
  | case3 s insertToken insertTokens ih =>
    obtain ⟨hfirst, hsorted⟩ := pairwise_cons.mp hsorted
    obtain ⟨hlow, hhigh⟩ := hbounds insertToken mem_cons_self
    obtain ⟨hnext, hoffset, hsplices⟩ := pushInserted_splices ha hlast h hlow hhigh (fun t ht => by cases ht) hfirst
    exact hsplices (ih hnext hsorted fun i hi =>
      ⟨by rw [hoffset]; exact hfirst i hi, (hbounds i (mem_cons_of_mem _ hi)).right⟩)
  | case4 s token original insertToken insertTokens hbefore ih =>
    have hinserts : ∀ i ∈ insertToken :: insertTokens, token.endOffset ≤ i.offset := by
      intro i hi
      rcases mem_cons.mp hi with rfl | hi
      · exact hbefore
      · exact Nat.le_trans hbefore ((pairwise_cons.mp hsorted).left i hi)
    obtain ⟨hnext, hsplices⟩ := pushOriginal_splices ha hlast h hinserts
    exact hsplices (ih hnext hsorted fun i hi => ⟨hinserts i hi, (hbounds i hi).right⟩)
  | case5 s token original insertToken insertTokens hbefore ih =>
    obtain ⟨hfirst, hsorted⟩ := pairwise_cons.mp hsorted
    obtain ⟨hlow, hhigh⟩ := hbounds insertToken mem_cons_self
    obtain ⟨hnext, hoffset, hsplices⟩ := pushInserted_splices ha hlast h hlow hhigh (fun t ht => by
      obtain rfl : token = t := Option.some.inj ht
      exact ⟨rfl, by omega⟩) hfirst
    exact hsplices (ih hnext hsorted fun i hi =>
      ⟨by rw [hoffset]; exact hfirst i hi, (hbounds i (mem_cons_of_mem _ hi)).right⟩)

end

theorem withInserted_spec (a : LineTokens) (insertTokens : List InsertToken) (ha : Increasing a.tokens)
    (hlast : lastEnd 0 a.tokens = a.text.length) (hsorted : insertTokens.Pairwise fun i j => i.offset ≤ j.offset)
    (hbounds : ∀ i ∈ insertTokens, i.offset ≤ a.text.length) :
    (a.withInserted insertTokens).text = splice a.text 0 (texts insertTokens) ∧
      colors 0 (a.withInserted insertTokens).tokens = splice (colors 0 a.tokens) 0 (metadatas insertTokens) ∧
      Ends (a.withInserted insertTokens).tokens (a.withInserted insertTokens).text := by
  unfold withInserted
  by_cases hempty : insertTokens.length = 0
  · rw [if_pos hempty, length_eq_zero_iff.mp hempty]
    refine ⟨rfl, rfl, ha.imp Nat.le_of_lt, fun t ht => ?_, hlast⟩
    rw [← hlast]
    exact endOffset_le_lastEnd ha ht 0
  · rw [if_neg hempty]
    have hstart : Ahead a.tokens a.text a.tokens ⟨0, [], []⟩ :=
      ⟨⟨[], rfl, Nat.le_refl 0⟩, fun t _ => Nat.zero_le _, Nat.zero_le _, List.Pairwise.nil, fun t ht => (nomatch ht), rfl⟩
    obtain ⟨hends, htext, hcolors⟩ := insertLoop_splices ha hlast insertTokens hstart hsorted fun i hi =>
      ⟨Nat.zero_le _, hbounds i hi⟩
    exact ⟨htext, hcolors, hends⟩

end LineTokens

/-! ## Both functions -/

namespace SparseTokensStore

theorem mix_lt (b : Nat) (hb : b < 2 ^ 32) (a : Nat) : mix b a < 2 ^ 32 := by
  have hmask : aMask b < 2 ^ 32 := Nat.xor_lt_two_pow (by decide) (bMask_lt b)
  exact Nat.or_lt_two_pow (Nat.and_lt_two_pow _ hmask) (Nat.lt_of_le_of_lt Nat.and_le_left hb)

theorem addSparseTokens_spec (s : SparseTokensStore) (lineNumber : Int) (a : LineTokens) (ha : Increasing a.tokens)
    (hlast : lastEnd 0 a.tokens = a.text.length)
    (hline : ∀ bTokens, s.sparseLineTokens lineNumber = some bTokens → OnLine bTokens a.text.length) :
    (s.addSparseTokens lineNumber a).text = a.text ∧ Increasing (s.addSparseTokens lineNumber a).tokens ∧
      lastEnd 0 (s.addSparseTokens lineNumber a).tokens = a.text.length ∧
      colors 0 (s.addSparseTokens lineNumber a).tokens =
        (colors 0 a.tokens).mapIdx (mixed ((s.sparseLineTokens lineNumber).getD [])) := by
  have hsame : (colors 0 a.tokens).mapIdx (mixed []) = colors 0 a.tokens :=
    ext_getElem (length_mapIdx) fun i _ _ => getElem_mapIdx
  unfold addSparseTokens
  by_cases hempty : a.text.length = 0
  · rw [if_pos hempty]
    refine ⟨rfl, ha, hlast, ?_⟩
    have hnil : colors 0 a.tokens = [] := length_eq_zero_iff.mp (by rw [length_colors_zero ha]; omega)
    rw [hnil]
    rfl
  · rw [if_neg hempty]
    cases hsparse : s.sparseLineTokens lineNumber with
    | none => exact ⟨rfl, ha, hlast, hsame.symm⟩
    | some bTokens =>
      have hon := hline bTokens hsparse
      rw [← hlast] at hon
      obtain ⟨hincreasing, hend, hcolors⟩ := mergeTokens_spec ha hon
      exact ⟨rfl, hincreasing, hend.trans hlast, hcolors⟩

end SparseTokensStore

open SparseTokensStore in
/-- Each character of a line has its metadata, with exactly the masked bits from the sparse token on it; and the line with
texts inserted is the line with these texts and their metadata spliced in. -/
theorem merged_tokens_pointwise :
    (∀ (s : SparseTokensStore) (lineNumber : Int) (a : LineTokens), Increasing a.tokens →
      lastEnd 0 a.tokens = a.text.length → 0 < a.text.length →
      (∀ bTokens, s.sparseLineTokens lineNumber = some bTokens →
        OnLine bTokens a.text.length ∧ ∀ b ∈ bTokens, b.metadata < 2 ^ 32) →
      (s.addSparseTokens lineNumber a).text = a.text ∧ Increasing (s.addSparseTokens lineNumber a).tokens ∧
        lastEnd 0 (s.addSparseTokens lineNumber a).tokens = a.text.length ∧
        ∀ i < a.text.length, ∃ metadata metadata', LineTokens.metadataAt a.tokens i = some metadata ∧
          LineTokens.metadataAt (s.addSparseTokens lineNumber a).tokens i = some metadata' ∧
          match covering ((s.sparseLineTokens lineNumber).getD []) i with
          | none => metadata' = metadata
          | some b => metadata' < 2 ^ 32 ∧ ∀ bit < 32,
              metadata'.testBit bit = if (bMask b.metadata).testBit bit then b.metadata.testBit bit else metadata.testBit bit) ∧
    ∀ (a : LineTokens) (insertTokens : List InsertToken), Increasing a.tokens → lastEnd 0 a.tokens = a.text.length →
      insertTokens.Pairwise (fun i j => i.offset ≤ j.offset) → (∀ i ∈ insertTokens, i.offset ≤ a.text.length) →
      (a.withInserted insertTokens).text = LineTokens.splice a.text 0 (LineTokens.texts insertTokens) ∧
        colors 0 (a.withInserted insertTokens).tokens =
          LineTokens.splice (colors 0 a.tokens) 0 (LineTokens.metadatas insertTokens) ∧
        LineTokens.Ends (a.withInserted insertTokens).tokens (a.withInserted insertTokens).text := by
  refine ⟨fun s lineNumber a ha hlast hpos hline => ?_, LineTokens.withInserted_spec⟩
  obtain ⟨htext, hincreasing, hend, hcolors⟩ :=
    addSparseTokens_spec s lineNumber a ha hlast fun bTokens hsome => (hline bTokens hsome).left
  refine ⟨htext, hincreasing, hend, fun i hi => ?_⟩
  have hlength : (colors 0 a.tokens).length = a.text.length := (length_colors_zero ha).trans hlast
  have hi' : i < (colors 0 a.tokens).length := by omega
  have hpainted : ContiguousTokensEditing.Painted a.tokens (colors 0 a.tokens) := ⟨fun hnil => by
    rw [hnil] at hi'
    exact absurd hi' (Nat.not_lt_zero i), ha, rfl⟩
  have hmixed : i < (colors 0 (s.addSparseTokens lineNumber a).tokens).length := by
    rw [hcolors, length_mapIdx]
    exact hi'
  have hpainted' : ContiguousTokensEditing.Painted (s.addSparseTokens lineNumber a).tokens
      (colors 0 (s.addSparseTokens lineNumber a).tokens) :=
    ⟨fun hnil => by
      rw [hnil] at hmixed
      exact absurd hmixed (Nat.not_lt_zero i), hincreasing, rfl⟩
  refine ⟨(colors 0 a.tokens)[i], mixed ((s.sparseLineTokens lineNumber).getD []) i (colors 0 a.tokens)[i], ?_, ?_, ?_⟩
  · rw [ContiguousTokensEditing.metadataAt_eq hpainted hi', getElem?_eq_getElem hi']
  · rw [ContiguousTokensEditing.metadataAt_eq hpainted' hmixed, hcolors, getElem?_mapIdx, getElem?_eq_getElem hi']
    rfl
  · rw [mixed]
    cases hcovering : covering ((s.sparseLineTokens lineNumber).getD []) i with
    | none => rfl
    | some b =>
      refine ⟨mix_lt b.metadata ?_ _, fun bit hbit => testBit_mix _ _ hbit⟩
      cases hsparse : s.sparseLineTokens lineNumber with
      | none =>
        rw [hsparse] at hcovering
        cases hcovering
      | some bTokens =>
        rw [hsparse] at hcovering
        exact (hline bTokens hsparse).right b (mem_of_find?_eq_some hcovering)

section Example

def twoTokenLine : LineTokens := ⟨[⟨2, 5⟩, ⟨4, 7⟩], [97, 98, 99, 100]⟩

/-- A token that makes two characters italic. -/
def italicStore : SparseTokensStore := { pieces := [⟨1, 1, [⟨0, 1, 3, 0b100000000001⟩]⟩] }

theorem italicStore_line : italicStore.sparseLineTokens 1 = some [⟨0, 1, 3, 0b100000000001⟩] := by
  simp [SparseTokensStore.sparseLineTokens, SparseTokensStore.findFirstPieceWithLine, SparseTokensStore.findFirstPieceLoop,
    italicStore, SparseMultilineTokens.getLineTokens, Storage.getLineTokens, Storage.getLineTokensLoop]

theorem twoTokenLine_increasing : Increasing twoTokenLine.tokens := by
  unfold Increasing twoTokenLine
  decide

theorem merged_tokens_pointwise_italic :
    (italicStore.addSparseTokens 1 twoTokenLine).text = [97, 98, 99, 100] ∧
      colors 0 (twoTokenLine.withInserted [⟨3, [120, 121], 9⟩]).tokens = [5, 5, 7, 9, 9, 7] := by
  have hstore := merged_tokens_pointwise.left italicStore 1 twoTokenLine twoTokenLine_increasing rfl (by decide)
    fun bTokens hsome => by
      rw [italicStore_line] at hsome
      obtain rfl := Option.some.inj hsome
      exact ⟨⟨by decide, by decide⟩, by decide⟩
  have hinserted := merged_tokens_pointwise.right twoTokenLine [⟨3, [120, 121], 9⟩] twoTokenLine_increasing rfl (by decide)
    (by decide)
  exact ⟨hstore.left, hinserted.right.left⟩

end Example

end TongjiCode.Tokens
