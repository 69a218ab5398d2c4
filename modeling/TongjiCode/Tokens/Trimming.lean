import TongjiCode.Tokens.AcceptEdit
import TongjiCode.Tokens.SparseTokensStore

/-!
# Trimming a piece

What `removeTokens` and `split` do to a piece: the first one takes the tokens that touch the range out, the second one
parts what is left.  `removeTokens` moves the start of the piece to the first token that is left, but rewrites only the
tokens behind one that it takes out; it is right when there is no such gap at the front (`Settled`).
-/

open List

namespace TongjiCode.Tokens

section Trimming

variable {s : SparseMultilineTokens} {range : Range}

def endsBefore (range : Range) (t : AbsoluteToken) : Bool :=
  t.lineNumber < range.startLineNumber ||
    (t.lineNumber = range.startLineNumber && t.endCharacter < range.startColumn - 1)

def touches (range : Range) (t : AbsoluteToken) : Bool :=
  !endsBefore range t &&
    (t.lineNumber < range.endLineNumber ||
      (t.lineNumber = range.endLineNumber && t.startCharacter ≤ range.endColumn - 1))

def startsAfter (range : Range) (t : AbsoluteToken) : Bool := !endsBefore range t && !touches range t

theorem isTouching_eq (start : Int) (token : Token) :
    Storage.isTouching (range.startLineNumber - start) (range.startColumn - 1) (range.endLineNumber - start)
      (range.endColumn - 1) token = touches range (token.absolute start) := by
  have hiff : Storage.isTouching (range.startLineNumber - start) (range.startColumn - 1) (range.endLineNumber - start)
      (range.endColumn - 1) token = true ↔ touches range (token.absolute start) = true := by
    unfold Storage.isTouching touches endsBefore Token.absolute
    simp only [Bool.and_eq_true, Bool.or_eq_true, Bool.not_eq_true', Bool.or_eq_false_iff, Bool.and_eq_false_iff,
      decide_eq_true_eq, decide_eq_false_iff_not]
    omega
  exact Bool.eq_iff_iff.mpr hiff

def rebase (delta : Int) (token : Token) : Token := { token with deltaLine := token.deltaLine - delta }

theorem rebase_zero : rebase 0 = id := by
  funext token
  unfold rebase
  rw [Int.sub_zero]
  rfl

theorem absolute_rebase (start delta : Int) (token : Token) :
    (rebase delta token).absolute (start + delta) = token.absolute start := by
  unfold rebase Token.absolute
  simp only [AbsoluteToken.mk.injEq, and_true]
  omega

variable {startDeltaLine startChar endDeltaLine endChar : Int}

theorem removeLoop_behind (tokens : List Token) (delta : Int) :
    Storage.removeLoop startDeltaLine startChar endDeltaLine endChar true (some delta) tokens =
      ((tokens.filter fun token => !Storage.isTouching startDeltaLine startChar endDeltaLine endChar token).map
        (rebase delta), delta) := by
  induction tokens with
  | nil => rfl
  | cons token tokens ih =>
    unfold Storage.removeLoop
    cases htouch : Storage.isTouching startDeltaLine startChar endDeltaLine endChar token with
    | true =>
      rw [filter_cons_of_neg (by simp [htouch])]
      exact ih
    | false =>
      rw [filter_cons_of_pos (by simp [htouch])]
      simp only [Bool.false_eq_true, if_false, Option.getD_some, ih, if_true, map_cons]
      rfl

theorem removeLoop_gap (tokens : List Token) :
    Storage.removeLoop startDeltaLine startChar endDeltaLine endChar true none tokens =
      match tokens.filter fun token => !Storage.isTouching startDeltaLine startChar endDeltaLine endChar token with
      | [] => ([], 0)
      | first :: rest => ((first :: rest).map (rebase first.deltaLine), first.deltaLine) := by
  induction tokens with
  | nil => rfl
  | cons token tokens ih =>
    unfold Storage.removeLoop
    cases htouch : Storage.isTouching startDeltaLine startChar endDeltaLine endChar token with
    | true =>
      rw [filter_cons_of_neg (by simp [htouch])]
      exact ih
    | false =>
      rw [filter_cons_of_pos (by simp [htouch])]
      simp only [Bool.false_eq_true, if_false, Option.getD_none, removeLoop_behind, if_true, map_cons]
      rfl

theorem removeLoop_front (tokens : List Token) :
    Storage.removeLoop startDeltaLine startChar endDeltaLine endChar false (some 0) tokens =
      (tokens.filter fun token => !Storage.isTouching startDeltaLine startChar endDeltaLine endChar token, 0) := by
  induction tokens with
  | nil => rfl
  | cons token tokens ih =>
    unfold Storage.removeLoop
    cases htouch : Storage.isTouching startDeltaLine startChar endDeltaLine endChar token with
    | true =>
      rw [filter_cons_of_neg (by simp [htouch])]
      simp only [if_true]
      rw [removeLoop_behind, rebase_zero, List.map_id]
    | false =>
      rw [filter_cons_of_pos (by simp [htouch])]
      simp only [Bool.false_eq_true, if_false, Option.getD_some, ih]

/-- The first token of a piece is on the start line of the piece, or it touches the range. -/
def Settled (range : Range) (s : SparseMultilineTokens) : Prop :=
  ∀ token, s.tokens.head? = some token → token.deltaLine = 0 ∨ touches range (token.absolute s.startLineNumber)

def StartsAtFirst (s : SparseMultilineTokens) : Prop := ∀ t, s.absolute.head? = some t → t.lineNumber = s.startLineNumber

/-- Without a gap at the front, exactly the tokens that touch the range go. -/
theorem removeTokens_absolute (h : Settled range s) :
    (s.removeTokens range).absolute = s.absolute.filter (fun t => !touches range t) ∧
      StartsAtFirst (s.removeTokens range) := by
  have hfilter : ∀ tokens : List Token,
      (tokens.map (Token.absolute s.startLineNumber)).filter (fun t => !touches range t) =
        (tokens.filter fun token => !Storage.isTouching (range.startLineNumber - s.startLineNumber)
          (range.startColumn - 1) (range.endLineNumber - s.startLineNumber) (range.endColumn - 1) token).map
          (Token.absolute s.startLineNumber) := by
    intro tokens
    rw [filter_map]
    congr 1
    apply filter_congr
    intro token _
    rw [isTouching_eq]
    rfl
  unfold SparseMultilineTokens.removeTokens Storage.removeTokens StartsAtFirst
  unfold SparseMultilineTokens.absolute SparseMultilineTokens.updateEndLineNumber
  dsimp only
  rw [hfilter]
  cases htokens : s.tokens with
  | nil =>
    refine ⟨rfl, fun t ht => ?_⟩
    cases ht
  | cons token tokens =>
    unfold Storage.removeLoop
    cases htouch : Storage.isTouching (range.startLineNumber - s.startLineNumber) (range.startColumn - 1)
        (range.endLineNumber - s.startLineNumber) (range.endColumn - 1) token with
    | true =>
      rw [filter_cons_of_neg (by simp [htouch])]
      simp only [if_true]
      rw [removeLoop_gap]
      generalize tokens.filter _ = kept
      cases kept with
      | nil =>
        refine ⟨rfl, fun t ht => ?_⟩
        cases ht
      | cons first rest =>
        dsimp only
        rw [map_map]
        refine ⟨map_congr_left fun token _ => absolute_rebase s.startLineNumber first.deltaLine token,
          fun t ht => ?_⟩
        rw [← Option.some.inj ht]
        show s.startLineNumber + first.deltaLine + (first.deltaLine - first.deltaLine) = _
        omega
    | false =>
      rw [filter_cons_of_pos (by simp [htouch])]
      have hdelta : token.deltaLine = 0 := by
        rcases h token (by rw [htokens]; rfl) with hzero | htouches
        · exact hzero
        · rw [← isTouching_eq, htouch] at htouches
          cases htouches
      simp only [Bool.false_eq_true, if_false, Option.getD_none, hdelta, removeLoop_front, Int.add_zero, true_and]
      intro t ht
      rw [← Option.some.inj ht]
      show s.startLineNumber + token.deltaLine = _
      omega

theorem removeTokens_endLineNumber :
    (s.removeTokens range).endLineNumber =
      (s.removeTokens range).startLineNumber + Storage.getMaxDeltaLine (s.removeTokens range).tokens := rfl

/-! ## Splitting -/

theorem startsAfter_of_startsBefore (hrange : range.Valid) {a b : AbsoluteToken} (hb : b.Proper)
    (hab : a.StartsBefore b) (h : startsAfter range a) : startsAfter range b := by
  obtain ⟨-, -, -, hordered⟩ := hrange
  unfold AbsoluteToken.Proper at hb
  unfold AbsoluteToken.StartsBefore at hab
  unfold startsAfter touches endsBefore at *
  simp only [Bool.and_eq_true, Bool.or_eq_true, Bool.not_eq_true', Bool.or_eq_false_iff, Bool.and_eq_false_iff,
    Bool.not_eq_false', decide_eq_true_eq, decide_eq_false_iff_not] at *
  omega

/-- The first half of the test in `split`. -/
def isPastStart (startDeltaLine startChar : Int) (token : Token) : Bool :=
  token.deltaLine > startDeltaLine || (token.deltaLine = startDeltaLine && token.endCharacter ≥ startChar)

theorem splitLoop_after (tokens aTokens bTokens : List Token) (first : Int)
    (h : ∀ token ∈ tokens, Storage.isTouching startDeltaLine startChar endDeltaLine endChar token = false) :
    Storage.splitLoop startDeltaLine startChar endDeltaLine endChar aTokens bTokens (some first) tokens =
      (aTokens, bTokens ++ tokens.map (rebase first), first) := by
  induction tokens generalizing bTokens with
  | nil =>
    rw [map_nil, append_nil]
    rfl
  | cons token tokens ih =>
    unfold Storage.splitLoop
    rw [h token mem_cons_self]
    simp only [Bool.false_eq_true, if_false, Option.getD_some, ite_self]
    rw [ih _ fun token' h' => h token' (mem_cons_of_mem _ h'), append_assoc, map_cons]
    rfl

/-- Tokens that do not touch the range are parted where they begin to be after it. -/
theorem splitLoop_eq (tokens aTokens : List Token)
    (h : ∀ token ∈ tokens, Storage.isTouching startDeltaLine startChar endDeltaLine endChar token = false)
    (hsorted : tokens.Pairwise fun a b => isPastStart startDeltaLine startChar a → isPastStart startDeltaLine startChar b) :
    Storage.splitLoop startDeltaLine startChar endDeltaLine endChar aTokens [] none tokens =
      (aTokens ++ tokens.filter (fun token => !isPastStart startDeltaLine startChar token),
        (tokens.filter (isPastStart startDeltaLine startChar)).map
          (rebase (((tokens.filter (isPastStart startDeltaLine startChar)).head?.map Token.deltaLine).getD 0)),
        ((tokens.filter (isPastStart startDeltaLine startChar)).head?.map Token.deltaLine).getD 0) := by
  induction tokens generalizing aTokens with
  | nil =>
    unfold Storage.splitLoop
    simp
  | cons token tokens ih =>
    obtain ⟨hfirst, hsorted⟩ := pairwise_cons.mp hsorted
    have h' : ∀ token' ∈ tokens, Storage.isTouching startDeltaLine startChar endDeltaLine endChar token' = false :=
      fun token' hmem => h token' (mem_cons_of_mem _ hmem)
    unfold Storage.splitLoop
    rw [h token mem_cons_self]
    simp only [Bool.false_eq_true, if_false]
    cases hpast : isPastStart startDeltaLine startChar token with
    | true =>
      have hall : ∀ token' ∈ tokens, isPastStart startDeltaLine startChar token' = true :=
        fun token' hmem => hfirst token' hmem hpast
      have hfilter : (token :: tokens).filter (isPastStart startDeltaLine startChar) = token :: tokens := by
        rw [filter_eq_self]
        intro token' hmem
        rcases mem_cons.mp hmem with rfl | hmem
        · exact hpast
        · exact hall token' hmem
      have hnone : (token :: tokens).filter (fun token => !isPastStart startDeltaLine startChar token) = [] := by
        rw [filter_eq_nil_iff]
        intro token' hmem
        rcases mem_cons.mp hmem with rfl | hmem
        · simp [hpast]
        · simp [hall token' hmem]
      rw [hfilter, hnone, append_nil]
      unfold isPastStart at hpast
      rw [if_pos hpast]
      dsimp only [Option.getD_none]
      rw [splitLoop_after _ _ _ _ h']
      rfl
    | false =>
      have hfilter : (token :: tokens).filter (isPastStart startDeltaLine startChar) =
          tokens.filter (isPastStart startDeltaLine startChar) := filter_cons_of_neg (by simp [hpast])
      have hfront : (token :: tokens).filter (fun token => !isPastStart startDeltaLine startChar token) =
          token :: tokens.filter (fun token => !isPastStart startDeltaLine startChar token) :=
        filter_cons_of_pos (by simp [hpast])
      rw [hfilter, hfront]
      unfold isPastStart at hpast
      rw [if_neg (by simp [hpast])]
      rw [ih (aTokens ++ [token]) h' hsorted, append_assoc]
      rfl

theorem isPastStart_eq (start : Int) (token : Token) :
    isPastStart (range.startLineNumber - start) (range.startColumn - 1) token =
      !endsBefore range (token.absolute start) := by
  have hiff : isPastStart (range.startLineNumber - start) (range.startColumn - 1) token = true ↔
      (!endsBefore range (token.absolute start)) = true := by
    unfold isPastStart endsBefore Token.absolute
    simp only [Bool.and_eq_true, Bool.or_eq_true, Bool.not_eq_true', Bool.or_eq_false_iff, Bool.and_eq_false_iff,
      decide_eq_true_eq, decide_eq_false_iff_not]
    omega
  exact Bool.eq_iff_iff.mpr hiff

/-- A piece without tokens that touch the range is parted into those before it and those after it. -/
theorem split_absolute (h : s.WellFormed) (hrange : range.Valid) (huntouched : ∀ t ∈ s.absolute, touches range t = false) :
    (s.split range).1.absolute = s.absolute.filter (endsBefore range) ∧
      (s.split range).1.startLineNumber = s.startLineNumber ∧
      (s.split range).2.absolute = s.absolute.filter (startsAfter range) ∧ StartsAtFirst (s.split range).2 := by
  have htouch : ∀ token ∈ s.tokens, Storage.isTouching (range.startLineNumber - s.startLineNumber)
      (range.startColumn - 1) (range.endLineNumber - s.startLineNumber) (range.endColumn - 1) token = false := by
    intro token htoken
    rw [isTouching_eq]
    exact huntouched _ (mem_map_of_mem htoken)
  have hafter : ∀ token ∈ s.tokens, isPastStart (range.startLineNumber - s.startLineNumber) (range.startColumn - 1) token =
      startsAfter range (token.absolute s.startLineNumber) := by
    intro token htoken
    rw [isPastStart_eq]
    unfold startsAfter
    rw [huntouched _ (mem_map_of_mem htoken), Bool.not_false, Bool.and_true]
  have hsorted : s.tokens.Pairwise fun a b =>
      isPastStart (range.startLineNumber - s.startLineNumber) (range.startColumn - 1) a →
        isPastStart (range.startLineNumber - s.startLineNumber) (range.startColumn - 1) b := by
    have habsolute := (wellFormed_iff.mp h).2.2
    unfold SparseMultilineTokens.absolute at habsolute
    rw [pairwise_map] at habsolute
    refine habsolute.imp_of_mem fun {a b} ha hb hab hpast => ?_
    rw [hafter a ha] at hpast
    rw [hafter b hb]
    exact startsAfter_of_startsBefore hrange (h.proper b hb).2 hab hpast
  have hfront : s.absolute.filter (endsBefore range) = (s.tokens.filter fun token => !isPastStart
      (range.startLineNumber - s.startLineNumber) (range.startColumn - 1) token).map
      (Token.absolute s.startLineNumber) := by
    unfold SparseMultilineTokens.absolute
    rw [filter_map]
    congr 1
    apply filter_congr
    intro token _
    rw [isPastStart_eq, Bool.not_not]
    rfl
  have hback : s.absolute.filter (startsAfter range) = (s.tokens.filter (isPastStart
      (range.startLineNumber - s.startLineNumber) (range.startColumn - 1))).map (Token.absolute s.startLineNumber) := by
    unfold SparseMultilineTokens.absolute
    rw [filter_map]
    congr 1
    apply filter_congr
    intro token htoken
    exact (hafter token htoken).symm
  unfold SparseMultilineTokens.split Storage.split
  dsimp only
  rw [splitLoop_eq s.tokens [] htouch hsorted, hfront, hback]
  generalize s.tokens.filter (isPastStart _ _) = after
  refine ⟨rfl, rfl, ?_, fun t ht => ?_⟩
  · show (after.map (rebase _)).map (Token.absolute _) = _
    rw [map_map]
    exact map_congr_left fun token _ => absolute_rebase s.startLineNumber _ token
  · cases after with
    | nil => cases ht
    | cons first rest =>
      cases ht
      show s.startLineNumber + first.deltaLine + (first.deltaLine - first.deltaLine) =
        s.startLineNumber + first.deltaLine
      omega

end Trimming

end TongjiCode.Tokens
