import TongjiCode.Lib.Lists
import TongjiCode.Tokens.PartialUpdates

/-!
# Looking up the tokens of a line

The binary searches of `getLineTokens` and `_findFirstPieceWithLine`.  The first one finds all tokens that a piece holds
for a line.  The second one finds the piece of a line when each line is in one piece and no piece without tokens follows
one with tokens (`Findable`).
-/

open List

namespace TongjiCode.Tokens

/-! ## In a piece -/

section Line

variable {tokens : List Token} {deltaLine : Int}

theorem isOnLine_iff {i : Nat} : Storage.isOnLine tokens deltaLine i = true ↔
    ∃ token, tokens[i]? = some token ∧ token.deltaLine = deltaLine := by
  unfold Storage.isOnLine
  cases tokens[i]? with
  | none => simp
  | some token => simp

theorem filter_eq_stretch {a b : Nat} (hab : a ≤ b) (hlow : ∀ i token, i < a → tokens[i]? = some token → token.deltaLine < deltaLine)
    (hmid : ∀ i token, a ≤ i → i < b → tokens[i]? = some token → token.deltaLine = deltaLine)
    (hhigh : ∀ i token, b ≤ i → tokens[i]? = some token → deltaLine < token.deltaLine) :
    tokens.filter (fun token => token.deltaLine = deltaLine) = (tokens.take b).drop a := by
  have hsplit : tokens = tokens.take a ++ ((tokens.take b).drop a ++ tokens.drop b) := by
    have htake : tokens.take a = (tokens.take b).take a := by rw [take_take, Nat.min_eq_left hab]
    rw [htake, ← append_assoc, take_append_drop, take_append_drop]
  have hfront : (tokens.take a).filter (fun token => token.deltaLine = deltaLine) = [] := by
    rw [filter_eq_nil_iff]
    intro token htoken
    obtain ⟨i, hi⟩ := List.getElem?_of_mem htoken
    rw [getElem?_take] at hi
    split at hi
    · next hlt =>
      have := hlow i token hlt hi
      simp
      omega
    · cases hi
  have hback : (tokens.drop b).filter (fun token => token.deltaLine = deltaLine) = [] := by
    rw [filter_eq_nil_iff]
    intro token htoken
    obtain ⟨i, hi⟩ := List.getElem?_of_mem htoken
    rw [getElem?_drop] at hi
    have := hhigh (b + i) token (by omega) hi
    simp
    omega
  have hline : ((tokens.take b).drop a).filter (fun token => token.deltaLine = deltaLine) = (tokens.take b).drop a := by
    rw [filter_eq_self]
    intro token htoken
    obtain ⟨i, hi⟩ := List.getElem?_of_mem htoken
    rw [getElem?_drop, getElem?_take] at hi
    split at hi
    · next hlt => exact decide_eq_true (hmid (a + i) token (by omega) hlt hi)
    · cases hi
  conv_lhs => rw [hsplit]
  rw [filter_append, filter_append, hfront, hback, hline, nil_append, append_nil]

def LinesSorted (tokens : List Token) : Prop := tokens.Pairwise fun a b => a.deltaLine ≤ b.deltaLine

section

variable (h : LinesSorted tokens)
include h

theorem LinesSorted.le {i j : Nat} {a b : Token} (hij : i ≤ j) (ha : tokens[i]? = some a) (hb : tokens[j]? = some b) :
    a.deltaLine ≤ b.deltaLine := by
  obtain ⟨hi, rfl⟩ := List.getElem?_eq_some_iff.mp ha
  obtain ⟨hj, rfl⟩ := List.getElem?_eq_some_iff.mp hb
  rcases Nat.lt_or_eq_of_le hij with hlt | rfl
  · exact pairwise_iff_getElem.mp h i j hi hj hlt
  · exact Int.le_refl _

theorem lineStart_spec {low : Nat} (hlow : ∀ i token, i < low → tokens[i]? = some token → token.deltaLine < deltaLine)
    (mid : Nat) :
    low ≤ mid → Storage.isOnLine tokens deltaLine mid →
      low ≤ Storage.lineStart tokens deltaLine low mid ∧ Storage.lineStart tokens deltaLine low mid ≤ mid ∧
      (∀ i token, i < Storage.lineStart tokens deltaLine low mid → tokens[i]? = some token → token.deltaLine < deltaLine) ∧
      ∀ i token, Storage.lineStart tokens deltaLine low mid ≤ i → i ≤ mid → tokens[i]? = some token →
        token.deltaLine = deltaLine := by
  induction mid with
  | zero =>
    intro hle hon
    unfold Storage.lineStart
    refine ⟨hle, Nat.le_refl _, fun i token hi => by omega, fun i token _ hi htoken => ?_⟩
    obtain ⟨token', htoken', hline⟩ := isOnLine_iff.mp hon
    have hzero : i = 0 := by omega
    subst hzero
    rw [htoken] at htoken'
    rw [Option.some.inj htoken']
    exact hline
  | succ mid ih =>
    intro hle hon
    obtain ⟨token', htoken', hline⟩ := isOnLine_iff.mp hon
    unfold Storage.lineStart
    by_cases hback : (decide (mid + 1 > low) && Storage.isOnLine tokens deltaLine mid) = true
    · rw [if_pos hback]
      rw [Bool.and_eq_true, decide_eq_true_eq] at hback
      obtain ⟨h1, h2, h3, h4⟩ := ih (by omega) hback.2
      refine ⟨h1, by omega, h3, fun i token hi hi' htoken => ?_⟩
      rcases Nat.lt_or_eq_of_le hi' with hlt | rfl
      · exact h4 i token hi (by omega) htoken
      · rw [htoken] at htoken'
        rw [Option.some.inj htoken']
        exact hline
    · rw [if_neg hback]
      refine ⟨hle, Nat.le_refl _, fun i token hi htoken => ?_, fun i token hi hi' htoken => ?_⟩
      · by_cases hbelow : i < low
        · exact hlow i token hbelow htoken
        · -- the token before is on an earlier line, and all that are before it too
          obtain ⟨prev, hprev⟩ : ∃ prev, tokens[mid]? = some prev := by
            obtain ⟨hlt, -⟩ := List.getElem?_eq_some_iff.mp htoken'
            exact ⟨_, List.getElem?_eq_getElem (by omega)⟩
          have hle1 := h.le (by omega : i ≤ mid) htoken hprev
          have hle2 := h.le (by omega : mid ≤ mid + 1) hprev htoken'
          have hne : prev.deltaLine ≠ deltaLine := fun heq => hback (by
            rw [Bool.and_eq_true, decide_eq_true_eq]
            exact ⟨by omega, isOnLine_iff.mpr ⟨prev, hprev, heq⟩⟩)
          omega
      · have heq : i = mid + 1 := by omega
        subst heq
        rw [htoken] at htoken'
        rw [Option.some.inj htoken']
        exact hline

theorem lineEnd_spec (count : Nat) : ∀ mid, Storage.isOnLine tokens deltaLine mid →
    (∀ i token, mid + count < i → tokens[i]? = some token → deltaLine < token.deltaLine) →
      mid ≤ Storage.lineEnd tokens deltaLine mid count ∧
      (∀ i token, mid ≤ i → i ≤ Storage.lineEnd tokens deltaLine mid count → tokens[i]? = some token →
        token.deltaLine = deltaLine) ∧
      ∀ i token, Storage.lineEnd tokens deltaLine mid count < i → tokens[i]? = some token →
        deltaLine < token.deltaLine := by
  have hself : ∀ mid, Storage.isOnLine tokens deltaLine mid → ∀ token, tokens[mid]? = some token →
      token.deltaLine = deltaLine := by
    intro mid hon token htoken
    obtain ⟨token', htoken', hline⟩ := isOnLine_iff.mp hon
    rw [htoken] at htoken'
    rw [Option.some.inj htoken']
    exact hline
  induction count with
  | zero =>
    intro mid hon hhigh
    refine ⟨Nat.le_refl _, fun i token hi hi' htoken => ?_, hhigh⟩
    have heq : i = mid := Nat.le_antisymm hi' hi
    subst heq
    exact hself i hon token htoken
  | succ count ih =>
    intro mid hon hhigh
    unfold Storage.lineEnd
    by_cases hnext : Storage.isOnLine tokens deltaLine (mid + 1) = true
    · rw [if_pos hnext]
      obtain ⟨h1, h2, h3⟩ := ih (mid + 1) hnext fun i token hi => hhigh i token (by omega)
      refine ⟨by omega, fun i token hi hi' htoken => ?_, h3⟩
      rcases Nat.lt_or_eq_of_le hi with hlt | rfl
      · exact h2 i token hlt hi' htoken
      · exact hself mid hon token htoken
    · rw [if_neg hnext]
      refine ⟨Nat.le_refl _, fun i token hi hi' htoken => ?_, fun i token hi htoken => ?_⟩
      · have heq : i = mid := Nat.le_antisymm hi' hi
        subst heq
        exact hself i hon token htoken
      · -- the next token is on a later line, and all that follow too
        obtain ⟨token', htoken', hline⟩ := isOnLine_iff.mp hon
        obtain ⟨next, hnext'⟩ : ∃ next, tokens[mid + 1]? = some next := by
          obtain ⟨hlt, -⟩ := List.getElem?_eq_some_iff.mp htoken
          exact ⟨_, List.getElem?_eq_getElem (by omega)⟩
        have hle1 := h.le (by omega : mid ≤ mid + 1) htoken' hnext'
        have hle2 := h.le (by omega : mid + 1 ≤ i) hnext' htoken
        have hne : next.deltaLine ≠ deltaLine := fun heq => hnext (isOnLine_iff.mpr ⟨next, hnext', heq⟩)
        omega

theorem getLineTokensLoop_spec (low high : Nat) (hbound : high ≤ tokens.length)
    (hlow : ∀ i token, i < low → tokens[i]? = some token → token.deltaLine < deltaLine)
    (hhigh : ∀ i token, high ≤ i → tokens[i]? = some token → deltaLine < token.deltaLine) :
    Storage.getLineTokensLoop tokens deltaLine low high =
      if tokens.filter (fun token => token.deltaLine = deltaLine) = [] then none
      else some (tokens.filter fun token => token.deltaLine = deltaLine) := by
  induction low, high using Storage.getLineTokensLoop.induct tokens deltaLine with
  | case1 low high hlt mid hnone =>
    have := getElem?_eq_none_iff.mp hnone
    omega
  | case2 low high hlt mid token htoken hless ih =>
    have hrec : Storage.getLineTokensLoop tokens deltaLine low high =
        Storage.getLineTokensLoop tokens deltaLine (mid + 1) high := by
      rw [Storage.getLineTokensLoop, dif_pos hlt]
      simp only [mid] at htoken ⊢
      rw [htoken]
      exact if_pos hless
    rw [hrec]
    refine ih hbound (fun i token' hi htoken' => ?_) hhigh
    have := h.le (by omega : i ≤ mid) htoken' htoken
    omega
  | case3 low high hlt mid token htoken hless hgreater ih =>
    have hrec : Storage.getLineTokensLoop tokens deltaLine low high =
        Storage.getLineTokensLoop tokens deltaLine low mid := by
      rw [Storage.getLineTokensLoop, dif_pos hlt]
      simp only [mid] at htoken ⊢
      rw [htoken]
      dsimp only
      rw [if_neg hless, if_pos hgreater]
    rw [hrec]
    refine ih (by omega) hlow (fun i token' hi htoken' => ?_)
    have := h.le (by omega : mid ≤ i) htoken htoken'
    omega
  | case4 low high hlt mid token htoken hless hgreater =>
    have hfound : Storage.getLineTokensLoop tokens deltaLine low high =
        some ((tokens.take (Storage.lineEnd tokens deltaLine mid (high - 1 - mid) + 1)).drop
          (Storage.lineStart tokens deltaLine low mid)) := by
      rw [Storage.getLineTokensLoop, dif_pos hlt]
      simp only [mid] at htoken ⊢
      rw [htoken]
      dsimp only
      rw [if_neg hless, if_neg hgreater]
    have hon : Storage.isOnLine tokens deltaLine mid := isOnLine_iff.mpr ⟨token, htoken, by omega⟩
    obtain ⟨hs1, hs2, hs3, hs4⟩ := lineStart_spec h hlow mid (by omega) hon
    obtain ⟨he1, he2, he3⟩ := lineEnd_spec h (high - 1 - mid) mid hon fun i token' hi => hhigh i token' (by omega)
    have hfilter := filter_eq_stretch (by omega) hs3
      (fun i token' hi hi' htoken' => by
        by_cases hbefore : i ≤ mid
        · exact hs4 i token' hi hbefore htoken'
        · exact he2 i token' (by omega) (Nat.lt_succ_iff.mp hi') htoken')
      (fun i token' hi htoken' => he3 i token' hi htoken')
    have hne : tokens.filter (fun token => token.deltaLine = deltaLine) ≠ [] := by
      apply ne_nil_of_mem
      exact mem_filter.mpr ⟨mem_of_getElem? htoken, decide_eq_true (by omega : token.deltaLine = deltaLine)⟩
    rw [hfound, if_neg hne, hfilter]
  | case5 low high hlt hnone =>
    have hlen := getElem?_eq_none_iff.mp hnone
    have hempty : tokens.filter (fun token => token.deltaLine = deltaLine) = [] := by
      rw [filter_eq_nil_iff]
      intro token htoken
      obtain ⟨i, hi⟩ := List.getElem?_of_mem htoken
      obtain ⟨hi', -⟩ := List.getElem?_eq_some_iff.mp hi
      have := hlow i token (by omega) hi
      simp
      omega
    rw [Storage.getLineTokensLoop, dif_neg hlt, hnone, if_pos hempty]
  | case6 low high hlt token htoken hline =>
    have hfilter := filter_eq_stretch (by omega : low ≤ low + 1) hlow
      (fun i token' hi hi' htoken' => by
        have heq : i = low := by omega
        subst heq
        rw [htoken] at htoken'
        rw [← Option.some.inj htoken']
        exact hline)
      (fun i token' hi htoken' => hhigh i token' (by omega) htoken')
    obtain ⟨hlen, hget⟩ := List.getElem?_eq_some_iff.mp htoken
    have hone : (tokens.take (low + 1)).drop low = [token] := by
      rw [List.take_add_one, htoken, List.drop_append_of_le_length (by rw [List.length_take]; omega)]
      simp
    rw [hone] at hfilter
    rw [Storage.getLineTokensLoop, dif_neg hlt, htoken, hfilter]
    dsimp only
    rw [if_pos hline, if_neg (cons_ne_nil _ _)]
  | case7 low high hlt token htoken hline =>
    have hempty : tokens.filter (fun token => token.deltaLine = deltaLine) = [] := by
      rw [filter_eq_nil_iff]
      intro token' htoken'
      obtain ⟨i, hi⟩ := List.getElem?_of_mem htoken'
      rw [decide_eq_true_eq]
      by_cases hbefore : i < low
      · have := hlow i token' hbefore hi
        omega
      · by_cases hsame : i = low
        · subst hsame
          rw [htoken] at hi
          rw [← Option.some.inj hi]
          exact hline
        · have := hhigh i token' (by omega) hi
          omega
    rw [Storage.getLineTokensLoop, dif_neg hlt, htoken, if_pos hempty]
    exact if_neg hline

end

end Line

/-! ## In the store -/

/-- What a line needs to know of a token. -/
def Token.look (token : Token) : Int × Int × Nat := (token.startCharacter, token.endCharacter, token.metadata)

def AbsoluteToken.look (t : AbsoluteToken) : Int × Int × Nat := (t.startCharacter, t.endCharacter, t.metadata)

/-- Pieces in document order, with each line in one of them.  Pieces without tokens come first. -/
structure Findable (pieces : List SparseMultilineTokens) : Prop where
  wellFormed : ∀ piece ∈ pieces, piece.WellFormed
  endLineNumber : ∀ piece ∈ pieces,
    piece.endLineNumber = piece.startLineNumber + Storage.getMaxDeltaLine piece.tokens
  lines : pieces.Pairwise fun piece piece' => ∀ t ∈ piece'.absolute, piece.startLineNumber ≤ t.lineNumber
  separate : pieces.Pairwise fun piece piece' =>
    ∀ t ∈ piece.absolute, ∀ t' ∈ piece'.absolute, t.lineNumber < t'.lineNumber
  full : pieces.Pairwise fun piece piece' => piece.absolute ≠ [] → piece'.absolute ≠ []
  starts : pieces.Pairwise fun piece piece' => piece.absolute ≠ [] → piece.startLineNumber ≤ piece'.startLineNumber

section Store

variable {pieces : List SparseMultilineTokens} {piece : SparseMultilineTokens} {lineNumber : Int}

theorem linesSorted (h : piece.WellFormed) : LinesSorted piece.tokens := by
  refine h.sorted.imp fun {a b} hab => ?_
  unfold Token.StartsBefore at hab
  omega

theorem getLineTokens_look (hwell : piece.WellFormed)
    (hend : piece.endLineNumber = piece.startLineNumber + Storage.getMaxDeltaLine piece.tokens) (lineNumber : Int) :
    ((piece.getLineTokens lineNumber).getD []).map Token.look =
      (piece.absolute.filter fun t => t.lineNumber = lineNumber).map AbsoluteToken.look := by
  have hfilter : (piece.absolute.filter fun t => t.lineNumber = lineNumber).map AbsoluteToken.look =
      (piece.tokens.filter fun token => token.deltaLine = lineNumber - piece.startLineNumber).map Token.look := by
    unfold SparseMultilineTokens.absolute
    rw [filter_map, map_map]
    have hsame : piece.tokens.filter ((fun t : AbsoluteToken => decide (t.lineNumber = lineNumber)) ∘
        Token.absolute piece.startLineNumber) =
        piece.tokens.filter fun token => token.deltaLine = lineNumber - piece.startLineNumber := by
      apply filter_congr
      intro token _
      unfold Token.absolute
      simp only [Function.comp_apply, decide_eq_decide]
      omega
    rw [hsame]
    rfl
  rw [hfilter]
  congr 1
  unfold SparseMultilineTokens.getLineTokens
  by_cases hline : piece.startLineNumber ≤ lineNumber ∧ lineNumber ≤ piece.endLineNumber
  · rw [if_pos hline]
    unfold Storage.getLineTokens
    rw [getLineTokensLoop_spec (linesSorted hwell) 0 piece.tokens.length (Nat.le_refl _) (fun i _ hi => by omega)
      (fun i token hi htoken => by
        have := getElem?_eq_none_iff.mpr hi
        rw [htoken] at this
        cases this)]
    split
    · next hempty => exact hempty.symm
    · rfl
  · rw [if_neg hline]
    symm
    rw [Option.getD_none, filter_eq_nil_iff]
    intro token htoken
    have hdelta := (hwell.proper token htoken).1
    have hmax := deltaLine_le_max hwell.sorted htoken
    rw [decide_eq_true_eq]
    omega

variable {piece' : SparseMultilineTokens} {t : AbsoluteToken}

theorem Findable.before {k m : Nat} (h : Findable pieces) (hk : pieces[k]? = some piece) (ht : t ∈ piece.absolute)
    (hm : pieces[m]? = some piece') (hmk : m < k) :
    piece'.endLineNumber < t.lineNumber := by
  have hmem := mem_of_getElem? hm
  have hend := h.endLineNumber piece' hmem
  have hstart := pairwise_getElem? h.lines hmk hm hk t ht
  cases hlast : piece'.tokens.getLast? with
  | none =>
    unfold Storage.getMaxDeltaLine at hend
    rw [hlast] at hend
    dsimp only at hend
    omega
  | some last =>
    have hlt := pairwise_getElem? h.separate hmk hm hk (last.absolute piece'.startLineNumber)
      (mem_map_of_mem (mem_of_getLast? hlast)) t ht
    unfold Storage.getMaxDeltaLine at hend
    rw [hlast] at hend
    unfold Token.absolute at hlt
    dsimp only at hend hlt
    omega

theorem Findable.after {k m : Nat} (h : Findable pieces) (hk : pieces[k]? = some piece) (ht : t ∈ piece.absolute)
    (hm : pieces[m]? = some piece') (hkm : k < m) :
    t.lineNumber < piece'.endLineNumber := by
  have hmem := mem_of_getElem? hm
  have hne := pairwise_getElem? h.full hkm hk hm (ne_nil_of_mem ht)
  obtain ⟨t', ht'⟩ := exists_mem_of_ne_nil _ hne
  have hlt := pairwise_getElem? h.separate hkm hk hm t ht t' ht'
  have hle := lineNumber_le (h.wellFormed piece' hmem) (h.endLineNumber piece' hmem) ht'
  omega

theorem firstPieceBack_eq (h : Findable pieces) {k : Nat} (hk : pieces[k]? = some piece) (ht : t ∈ piece.absolute)
    {low : Nat} (hlow : low ≤ k) (mid : Nat) : k ≤ mid →
    (∀ piece', pieces[mid]? = some piece' → piece'.startLineNumber ≤ t.lineNumber) → mid < pieces.length →
      SparseTokensStore.firstPieceBack pieces t.lineNumber low mid = k := by
  induction mid with
  | zero =>
    intro hle _ _
    unfold SparseTokensStore.firstPieceBack
    omega
  | succ mid ih =>
    intro hle hstart hlen
    obtain ⟨piece', hmid⟩ : ∃ piece', pieces[mid]? = some piece' := ⟨_, List.getElem?_eq_getElem (by omega)⟩
    obtain ⟨next, hnext⟩ : ∃ next, pieces[mid + 1]? = some next := ⟨_, List.getElem?_eq_getElem hlen⟩
    unfold SparseTokensStore.firstPieceBack
    rw [hmid]
    dsimp only
    by_cases hat : k = mid + 1
    · -- the piece before ends above the line
      have hend := h.before hk ht hmid (by omega)
      rw [if_neg (by omega)]
      exact hat.symm
    · have hcontains : piece'.startLineNumber ≤ t.lineNumber ∧ t.lineNumber ≤ piece'.endLineNumber := by
        rcases Nat.lt_or_eq_of_le (by omega : k ≤ mid) with hlt | rfl
        · have hne := pairwise_getElem? h.full hlt hk hmid (ne_nil_of_mem ht)
          have hle' := pairwise_getElem? h.starts (by omega) hmid hnext hne
          have hstart' := hstart next hnext
          exact ⟨by omega, Int.le_of_lt (h.after hk ht hmid hlt)⟩
        · rw [hk] at hmid
          rw [← Option.some.inj hmid]
          have hmem := mem_of_getElem? hk
          exact ⟨startLineNumber_le (h.wellFormed piece hmem) ht,
            lineNumber_le (h.wellFormed piece hmem) (h.endLineNumber piece hmem) ht⟩
      rw [if_pos ⟨by omega, hcontains⟩]
      apply ih (by omega) _ (by omega)
      intro piece'' hpiece''
      rw [hmid] at hpiece''
      rw [← Option.some.inj hpiece'']
      exact hcontains.1

theorem findFirstPieceLoop_eq (h : Findable pieces) {k : Nat} (hk : pieces[k]? = some piece) (ht : t ∈ piece.absolute)
    (low high : Nat) (hlow : low ≤ k) (hhigh : k < high) (hbound : high ≤ pieces.length) :
    SparseTokensStore.findFirstPieceLoop pieces t.lineNumber low high = k := by
  have hmem := mem_of_getElem? hk
  have hstart := startLineNumber_le (h.wellFormed piece hmem) ht
  have hend := lineNumber_le (h.wellFormed piece hmem) (h.endLineNumber piece hmem) ht
  have hself : pieces[k]? = some piece → ∀ m piece', pieces[m]? = some piece' → m = k → piece' = piece := by
    rintro hk m piece' hm rfl
    rw [hk] at hm
    exact (Option.some.inj hm).symm
  induction low, high using SparseTokensStore.findFirstPieceLoop.induct pieces t.lineNumber with
  | case1 low high hlt mid hnone =>
    have := getElem?_eq_none_iff.mp hnone
    omega
  | case2 low high hlt mid piece' hmid hless ih =>
    have hbefore : mid < k := by
      rcases Nat.lt_trichotomy mid k with hlt' | heq | hgt
      · exact hlt'
      · have := hself hk mid piece' hmid heq
        subst this
        omega
      · have := h.after hk ht hmid hgt
        omega
    rw [SparseTokensStore.findFirstPieceLoop, dif_pos hlt]
    simp only [mid] at hmid ⊢
    rw [hmid]
    dsimp only
    rw [if_pos hless]
    exact ih (by omega) hhigh hbound
  | case3 low high hlt mid piece' hmid hless hgreater ih =>
    have hafter : k < mid := by
      rcases Nat.lt_trichotomy mid k with hlt' | heq | hgt
      · have := pairwise_getElem? h.lines hlt' hmid hk t ht
        omega
      · have := hself hk mid piece' hmid heq
        subst this
        omega
      · exact hgt
    rw [SparseTokensStore.findFirstPieceLoop, dif_pos hlt]
    simp only [mid] at hmid ⊢
    rw [hmid]
    dsimp only
    rw [if_neg hless, if_pos hgreater]
    exact ih hlow hafter (by omega)
  | case4 low high hlt mid piece' hmid hless hgreater =>
    have hle : k ≤ mid := by
      by_contra hbefore
      have := h.before hk ht hmid (by omega)
      omega
    rw [SparseTokensStore.findFirstPieceLoop, dif_pos hlt]
    simp only [mid] at hmid ⊢
    rw [hmid]
    dsimp only
    rw [if_neg hless, if_neg hgreater]
    refine firstPieceBack_eq h hk ht hlow _ hle (fun piece'' hpiece'' => ?_) (by omega)
    rw [hmid] at hpiece''
    rw [← Option.some.inj hpiece'']
    omega
  | case5 low high hlt =>
    rw [SparseTokensStore.findFirstPieceLoop, dif_neg hlt]
    omega

theorem sparseLineTokens_look {s : SparseTokensStore} (h : Findable s.pieces) (lineNumber : Int) :
    ((s.sparseLineTokens lineNumber).getD []).map Token.look =
      ((tokensOf s.pieces).filter fun t => t.lineNumber = lineNumber).map AbsoluteToken.look := by
  unfold SparseTokensStore.sparseLineTokens
  by_cases hnone : (tokensOf s.pieces).filter (fun t => t.lineNumber = lineNumber) = []
  · rw [hnone]
    cases hpiece : s.pieces[SparseTokensStore.findFirstPieceWithLine s.pieces lineNumber]? with
    | none => rfl
    | some piece =>
      have hmem := mem_of_getElem? hpiece
      rw [getLineTokens_look (h.wellFormed piece hmem) (h.endLineNumber piece hmem)]
      have hempty : piece.absolute.filter (fun t => t.lineNumber = lineNumber) = [] := by
        rw [filter_eq_nil_iff] at hnone ⊢
        exact fun t ht => hnone t (mem_tokensOf.mpr ⟨piece, hmem, ht⟩)
      rw [hempty]
  · obtain ⟨t, ht⟩ := exists_mem_of_ne_nil _ hnone
    rw [mem_filter, decide_eq_true_eq] at ht
    obtain ⟨ht, rfl⟩ := ht
    obtain ⟨piece, hmem, ht'⟩ := mem_tokensOf.mp ht
    obtain ⟨k, hk⟩ := List.getElem?_of_mem hmem
    obtain ⟨hlen, -⟩ := List.getElem?_eq_some_iff.mp hk
    have hfind : SparseTokensStore.findFirstPieceWithLine s.pieces t.lineNumber = k :=
      findFirstPieceLoop_eq h hk ht' 0 s.pieces.length (Nat.zero_le _) hlen (Nat.le_refl _)
    rw [hfind, hk]
    rw [getLineTokens_look (h.wellFormed piece hmem) (h.endLineNumber piece hmem)]
    congr 1
    -- the other pieces have nothing on the line
    obtain ⟨l, r, hsplit⟩ := append_of_mem hmem
    have hseparate := h.separate
    rw [hsplit, pairwise_append, pairwise_cons] at hseparate
    obtain ⟨-, ⟨hafter, -⟩, hbefore⟩ := hseparate
    have hl : (tokensOf l).filter (fun t' => t'.lineNumber = t.lineNumber) = [] := by
      rw [filter_eq_nil_iff]
      intro t' ht''
      obtain ⟨piece', hmem', htoken⟩ := mem_tokensOf.mp ht''
      have := hbefore piece' hmem' piece mem_cons_self t' htoken t ht'
      rw [decide_eq_true_eq]
      omega
    have hr : (tokensOf r).filter (fun t' => t'.lineNumber = t.lineNumber) = [] := by
      rw [filter_eq_nil_iff]
      intro t' ht''
      obtain ⟨piece', hmem', htoken⟩ := mem_tokensOf.mp ht''
      have := hafter piece' hmem' t ht' t' htoken
      rw [decide_eq_true_eq]
      omega
    rw [hsplit, tokensOf_append, tokensOf_cons, filter_append, filter_append, hl, hr, nil_append,
      append_nil]

end Store

end TongjiCode.Tokens
