import TongjiCode.Tokens.ContiguousMultilineTokens
import TongjiCode.Tokens.Lines

/-!
# Edits of a block of line tokens

`ContiguousMultilineTokens.applyEdit` against `ContiguousTokensStore.acceptEdit`.

* `applyEdit_follows_iff`: when a block follows an edit as the store does.
-/

open List

namespace TongjiCode.Tokens

open LineTokens ContiguousTokensEditing

/-! ## Tokens that may be empty -/

section Weakly

variable {tokens : List LineToken} {desiredIndex : Nat}

def Nondecreasing (tokens : List LineToken) : Prop := tokens.Pairwise fun a b => a.endOffset ≤ b.endOffset

theorem Nondecreasing.le (h : Nondecreasing tokens) {i j : Nat} (hij : i ≤ j) (hj : j < tokens.length) :
    endOffset tokens i ≤ endOffset tokens j := by
  rw [endOffset_eq (by omega), endOffset_eq hj]
  rcases Nat.lt_or_eq_of_le hij with hlt | rfl
  · exact pairwise_iff_getElem.mp h i j (by omega) hj hlt
  · exact Nat.le_refl _

/-- What is before an index ends at the offset or before, and what is there ends at it or behind if it is not the last. -/
def Between (tokens : List LineToken) (desiredIndex i : Nat) : Prop :=
  i < tokens.length ∧ (∀ j < i, endOffset tokens j ≤ desiredIndex) ∧
    (i + 1 = tokens.length ∨ desiredIndex ≤ endOffset tokens i)

theorem findIndexLoop_bounds (h : Nondecreasing tokens) (low high : Nat) (hle : low ≤ high) (hhigh : high < tokens.length)
    (hbefore : ∀ j < low, endOffset tokens j ≤ desiredIndex)
    (hafter : high + 1 = tokens.length ∨ desiredIndex ≤ endOffset tokens high) :
    Between tokens desiredIndex (findIndexLoop tokens desiredIndex low high) := by
  fun_induction findIndexLoop tokens desiredIndex low high with
  | case1 low high hlt mid endOffset' heq =>
    refine ⟨by omega, fun j hj => ?_, Or.inr ?_⟩
    · rw [← heq]
      exact h.le (by omega) (by omega)
    · rw [← heq]
      exact h.le (by omega) (by omega)
  | case2 low high hlt mid endOffset' hne hless ih =>
    refine ih (by omega) hhigh (fun j hj => ?_) hafter
    exact Nat.le_of_lt (Nat.lt_of_le_of_lt (h.le (by omega) (by omega)) hless)
  | case3 low high hlt mid endOffset' hne hless ih =>
    exact ih (by omega) (by omega) hbefore (Or.inr (by omega))
  | case4 low high hlt =>
    have hsame : low = high := by omega
    subst hsame
    exact ⟨hhigh, hbefore, hafter⟩

theorem findIndex_bounds (h : Nondecreasing tokens) (hne : tokens ≠ []) (desiredIndex : Nat) :
    Between tokens desiredIndex (findIndexInTokensArray tokens desiredIndex) := by
  have hpos := length_pos_of_ne_nil hne
  unfold findIndexInTokensArray
  by_cases hone : tokens.length ≤ 1
  · rw [if_pos hone]
    exact ⟨hpos, fun j hj => absurd hj (Nat.not_lt_zero j), Or.inl (by omega)⟩
  · rw [if_neg hone]
    exact findIndexLoop_bounds h 0 (tokens.length - 1) (by omega) (by omega) (fun j hj => absurd hj (Nat.not_lt_zero j))
      (Or.inl (by omega))

def insertIndex (tokens : List LineToken) (chIndex : Nat) : Nat :=
  let fromTokenIndex := findIndexInTokensArray tokens chIndex
  if fromTokenIndex > 0 ∧ endOffset tokens (fromTokenIndex - 1) = chIndex then fromTokenIndex - 1 else fromTokenIndex

theorem insertIndex_bounds (h : Nondecreasing tokens) (hne : tokens ≠ []) (chIndex : Nat) :
    Between tokens chIndex (insertIndex tokens chIndex) := by
  obtain ⟨hlt, hbefore, hafter⟩ := findIndex_bounds h hne chIndex
  unfold insertIndex
  dsimp only
  split
  case isTrue hmatch =>
    exact ⟨by omega, fun j hj => hbefore j (by omega), Or.inr (by omega)⟩
  case isFalse => exact ⟨hlt, hbefore, hafter⟩

theorem insert_eq {textLength : Nat} (hbound : ∀ t ∈ tokens, t.endOffset + textLength < 2 ^ 32) (chIndex : Nat) :
    insert (.tokens tokens) chIndex textLength = .tokens (tokens.mapIdx fun i t =>
      { t with endOffset := if i < insertIndex tokens chIndex then t.endOffset else t.endOffset + textLength }) := by
  show StoredTokens.tokens (tokens.take (insertIndex tokens chIndex) ++ (tokens.drop (insertIndex tokens chIndex)).map fun t =>
    { t with endOffset := toUint32 ((t.endOffset + textLength : Nat)) }) = _
  generalize insertIndex tokens chIndex = index
  congr 1
  refine ext_getElem? fun i => ?_
  rw [getElem?_append, length_take, getElem?_take, getElem?_map, getElem?_drop, getElem?_mapIdx]
  by_cases hi : i < tokens.length
  · rw [getElem?_eq_getElem hi, Option.map_some]
    by_cases hindex : i < index
    · rw [if_pos (by omega), if_pos hindex, if_pos hindex]
    · have hsame : index + (i - min index tokens.length) = i := by omega
      rw [if_neg (by omega), hsame, getElem?_eq_getElem hi, Option.map_some, if_neg hindex,
        toUint32_eq (hbound _ (getElem_mem hi))]
  · rw [getElem?_eq_none (by omega), getElem?_eq_none (by omega), ite_self, Option.map_none, Option.map_none, ite_self]

variable {tokens' : List LineToken} {textLength chIndex : Nat}

section

variable (h : Nondecreasing tokens) (h' : Nondecreasing tokens') (hne : tokens ≠ []) (hne' : tokens' ≠ [])
include h h' hne hne'

/-- Where two insertions give the same offsets, they widen the same token. -/
theorem insertIndex_not_lt (hlength : tokens.length = tokens'.length) (hpos : 0 < textLength)
    (hsame : ∀ i, insertIndex tokens chIndex ≤ i → i < insertIndex tokens' chIndex → endOffset tokens i + textLength = endOffset tokens' i) :
    ¬insertIndex tokens chIndex < insertIndex tokens' chIndex := by
  intro hlt
  obtain ⟨hinside, -, hbehind⟩ := insertIndex_bounds h hne chIndex
  obtain ⟨hinside', hbefore', -⟩ := insertIndex_bounds h' hne' chIndex
  have hat := hsame _ (Nat.le_refl _) hlt
  have hle := hbefore' _ hlt
  omega

theorem insert_injective (hbound : ∀ t ∈ tokens, t.endOffset + textLength < 2 ^ 32)
    (hbound' : ∀ t ∈ tokens', t.endOffset + textLength < 2 ^ 32)
    (heq : insert (.tokens tokens) chIndex textLength = insert (.tokens tokens') chIndex textLength) :
    tokens = tokens' := by
  rw [insert_eq hbound, insert_eq hbound'] at heq
  have hlists := StoredTokens.tokens.inj heq
  have hlength : tokens.length = tokens'.length := by
    have := congrArg List.length hlists
    rwa [length_mapIdx, length_mapIdx] at this
  have hat : ∀ i, (hi : i < tokens.length) → (hi' : i < tokens'.length) → tokens[i].metadata = tokens'[i].metadata ∧
      (if i < insertIndex tokens chIndex then tokens[i].endOffset else tokens[i].endOffset + textLength) =
        if i < insertIndex tokens' chIndex then tokens'[i].endOffset else tokens'[i].endOffset + textLength := by
    intro i hi hi'
    have hget := congrArg (fun l : List LineToken => l[i]?) hlists
    rw [getElem?_mapIdx, getElem?_mapIdx, getElem?_eq_getElem hi, getElem?_eq_getElem hi', Option.map_some,
      Option.map_some, Option.some.injEq, LineToken.mk.injEq] at hget
    exact hget.symm
  have hindex : textLength = 0 ∨ insertIndex tokens chIndex = insertIndex tokens' chIndex := by
    by_cases hzero : textLength = 0
    · exact Or.inl hzero
    · right
      have hlt := (insertIndex_bounds h hne chIndex).left
      have hlt' := (insertIndex_bounds h' hne' chIndex).left
      have hnot := @insertIndex_not_lt tokens tokens' textLength chIndex h h' hne hne' hlength (by omega) fun i hlow hhigh => by
        have := (hat i (by omega) (by omega)).right
        rw [if_neg (by omega), if_pos hhigh] at this
        rw [endOffset_eq (by omega), endOffset_eq (by omega), this]
      have hnot' := @insertIndex_not_lt tokens' tokens textLength chIndex h' h hne' hne hlength.symm (by omega)
        fun i hlow hhigh => by
          have := (hat i (by omega) (by omega)).right
          rw [if_neg (show ¬i < insertIndex tokens' chIndex by omega), if_pos hhigh] at this
          rw [endOffset_eq (by omega), endOffset_eq (by omega), this]
      omega
  refine ext_getElem hlength fun i hi hi' => ?_
  obtain ⟨hmetadata, hend⟩ := hat i hi hi'
  have hoffset : tokens[i].endOffset = tokens'[i].endOffset := by
    rcases hindex with hzero | hindex
    · rw [hzero, Nat.add_zero, Nat.add_zero, ite_self, ite_self] at hend
      exact hend
    · rw [hindex] at hend
      split_ifs at hend <;> omega
  calc tokens[i] = ⟨tokens[i].endOffset, tokens[i].metadata⟩ := rfl
    _ = ⟨tokens'[i].endOffset, tokens'[i].metadata⟩ := by rw [hoffset, hmetadata]

end

/-- A deletion up to the end of the tokens leaves tokens that end where it starts, or before. -/
theorem deleteEnding_bounds (h : Nondecreasing tokens) (hne : tokens ≠ []) (fromChIndex : Nat) :
    deleteEnding (.tokens tokens) fromChIndex = .emptyLineTokens ∨
      ∃ left, deleteEnding (.tokens tokens) fromChIndex = .tokens left ∧ left ≠ [] ∧ Nondecreasing left ∧
        ∀ t ∈ left, t.endOffset ≤ fromChIndex := by
  have hlast : ∀ t ∈ tokens, t.endOffset ≤ lastEndOffset tokens := by
    intro t ht
    rcases eq_nil_or_concat tokens with rfl | ⟨front, last, rfl⟩
    · cases ht
    · rw [concat_eq_append] at h ht ⊢
      have hend : lastEndOffset (front ++ [last]) = last.endOffset := by
        unfold lastEndOffset
        rw [getLast?_append_of_ne_nil _ (cons_ne_nil _ _)]
        rfl
      rw [hend]
      rcases mem_append.mp ht with ht | ht
      · exact (pairwise_append.mp h).right.right t ht last mem_cons_self
      · exact Nat.le_of_eq (congrArg LineToken.endOffset (mem_singleton.mp ht))
  -- nothing is left of the tokens behind the first one that is touched
  have hnothing : ∀ lastEnd : Int, (fromChIndex : Int) ≤ lastEnd → ∀ rest : List LineToken, (∀ t ∈ rest, t ∈ tokens) →
      deleteLoop ((lastEndOffset tokens : Int) - fromChIndex) lastEnd rest = [] := by
    intro lastEnd hle rest hrest
    induction rest with
    | nil => rfl
    | cons t rest ih =>
      have := hlast t (hrest t mem_cons_self)
      rw [deleteLoop, if_neg (by omega)]
      exact ih fun t' ht' => hrest t' (mem_cons_of_mem _ ht')
  obtain ⟨hinside, hbefore, -⟩ := findIndex_bounds h hne fromChIndex
  show delete (.tokens tokens) fromChIndex (lastEndOffset tokens) = _ ∨ _
  unfold deleteEnding delete
  dsimp only
  by_cases hsame : fromChIndex = lastEndOffset tokens
  · rw [if_pos hsame]
    exact Or.inr ⟨tokens, rfl, hne, h, hsame ▸ hlast⟩
  rw [if_neg hsame]
  by_cases hzero : fromChIndex = 0
  · rw [if_pos ⟨hzero, rfl⟩]
    exact Or.inl rfl
  rw [if_neg (fun hall => hzero hall.left)]
  generalize findIndexInTokensArray tokens fromChIndex = index at hinside hbefore ⊢
  have hdelta := hlast _ (getElem_mem hinside)
  have hfront : ∀ t ∈ tokens.take index, t.endOffset ≤ fromChIndex := by
    intro t ht
    obtain ⟨j, hj, rfl⟩ := getElem_of_mem ht
    rw [length_take] at hj
    have := hbefore j (by omega)
    rw [endOffset_eq (by omega)] at this
    rw [getElem_take]
    exact this
  have htake : Nondecreasing (tokens.take index) := List.Pairwise.sublist (take_sublist _ _) h
  rw [if_neg (by rw [endOffset_eq hinside]; omega)]
  by_cases hstart : (if index > 0 then endOffset tokens (index - 1) else 0) ≠ fromChIndex
  · rw [if_pos hstart, hnothing _ (Int.le_refl _) _ fun t ht => mem_of_mem_drop ht, append_nil,
      drop_eq_getElem_cons hinside, take_succ_cons, take_zero, map_singleton]
    refine Or.inr ⟨_, rfl, by simp, pairwise_append.mpr ⟨htake, pairwise_singleton _ _, fun t ht t' ht' => ?_⟩,
      fun t ht => ?_⟩
    · rw [mem_singleton.mp ht']
      exact hfront t ht
    · rcases mem_append.mp ht with ht | ht
      · exact hfront t ht
      · exact Nat.le_of_eq (congrArg LineToken.endOffset (mem_singleton.mp ht))
  · rw [if_neg hstart]
    rw [not_not] at hstart
    have hindex : 0 < index := by
      rcases Nat.eq_zero_or_pos index with hindex | hindex
      · rw [if_neg (by omega)] at hstart
        omega
      · exact hindex
    rw [hstart, hnothing _ (Int.le_refl _) _ fun t ht => mem_of_mem_drop ht, append_nil]
    refine Or.inr ⟨_, rfl, fun hnil => ?_, htake, hfront⟩
    have := congrArg List.length hnil
    rw [length_take, length_nil] at this
    omega

end Weakly

/-! ## The line of an edit -/

/-- Tokens that do not decrease and end at most at the bound, where tokens are known. -/
def Bounded (bound : Nat) (stored : StoredTokens) : Prop :=
  ∀ tokens, stored = .tokens tokens → tokens ≠ [] ∧ Nondecreasing tokens ∧ ∀ t ∈ tokens, t.endOffset ≤ bound

section Line

variable {x y first rest : StoredTokens} {column eolCount firstLineLength bound : Nat}

theorem Bounded.mono (h : Bounded bound x) {bound' : Nat} (hle : bound ≤ bound') : Bounded bound' x := by
  intro tokens htokens
  obtain ⟨hne, hsorted, hend⟩ := h tokens htokens
  exact ⟨hne, hsorted, fun t ht => Nat.le_trans (hend t ht) hle⟩

theorem bounded_deleteEnding (h : Bounded bound x) (fromChIndex : Nat) : Bounded fromChIndex (deleteEnding x fromChIndex) := by
  intro tokens htokens
  cases x with
  | null => cases htokens
  | emptyLineTokens => cases htokens
  | tokens tokens' =>
    obtain ⟨hne, hsorted, -⟩ := h tokens' rfl
    rcases deleteEnding_bounds hsorted hne fromChIndex with hempty | ⟨left, hleft, hspec⟩
    · rw [hempty] at htokens
      cases htokens
    · rw [hleft] at htokens
      obtain rfl := StoredTokens.tokens.inj htokens
      exact hspec

theorem insert_inj (hx : Bounded bound x) (hy : Bounded bound y) (hbound : bound + firstLineLength < 2 ^ 32) (chIndex : Nat) :
    insert x chIndex firstLineLength = insert y chIndex firstLineLength ↔ x = y := by
  refine ⟨fun h => ?_, congrArg (insert · chIndex firstLineLength)⟩
  cases x with
  | null => cases y <;> first | rfl | cases h
  | emptyLineTokens => cases y <;> first | rfl | cases h
  | tokens tokens =>
    cases y with
    | null => cases h
    | emptyLineTokens => cases h
    | tokens tokens' =>
      obtain ⟨hne, hsorted, hle⟩ := hx tokens rfl
      obtain ⟨hne', hsorted', hle'⟩ := hy tokens' rfl
      refine congrArg StoredTokens.tokens (insert_injective hsorted hsorted' hne hne' (fun t ht => ?_) (fun t ht => ?_) h)
      · have := hle t ht
        omega
      · have := hle' t ht
        omega

theorem length_insert {tokens tokens' : List LineToken} {chIndex textLength : Nat}
    (h : insert (.tokens tokens) chIndex textLength = .tokens tokens') : tokens'.length = tokens.length := by
  have hsplit : tokens' = tokens.take (insertIndex tokens chIndex) ++ (tokens.drop (insertIndex tokens chIndex)).map fun t =>
      { t with endOffset := toUint32 ((t.endOffset + textLength : Nat)) } := (StoredTokens.tokens.inj h).symm
  rw [hsplit, length_append, length_map, ← length_append, take_append_drop]

theorem empty_append (rest : StoredTokens) : append .emptyLineTokens rest = rest := by
  cases rest <;> rfl

/-- A line that is joined to another one has other tokens, unless there are none. -/
theorem append_eq_right (hfirst : ∀ tokens, first = .tokens tokens → tokens ≠ []) :
    append first rest = rest ↔ rest = .null ∨ first = .emptyLineTokens := by
  constructor
  · intro h
    cases first with
    | null =>
      rw [null_append] at h
      exact Or.inl h.symm
    | emptyLineTokens => exact Or.inr rfl
    | tokens tokens =>
      cases rest with
      | null => exact Or.inl rfl
      | emptyLineTokens => cases h
      | tokens otherTokens =>
        have hlength := congrArg List.length (StoredTokens.tokens.inj h)
        rw [length_append, length_map] at hlength
        exact absurd (length_eq_zero_iff.mp (by omega)) (hfirst tokens rfl)
  · rintro (rfl | rfl)
    · exact append_null first
    · exact empty_append rest

theorem append_tokens {tokens otherTokens : List LineToken} :
    ∃ joined, append (.tokens tokens) (.tokens otherTokens) = .tokens joined ∧
      joined.length = tokens.length + otherTokens.length :=
  ⟨_, rfl, by rw [length_append, length_map]⟩

theorem bounded_append (hfirst : Bounded bound first) (hrest : Bounded bound rest) (hbound : bound + bound < 2 ^ 32) :
    Bounded (bound + bound) (append first rest) := by
  cases first with
  | null =>
    rw [null_append]
    exact fun tokens htokens => (nomatch htokens)
  | emptyLineTokens =>
    rw [empty_append]
    exact hrest.mono (Nat.le_add_right _ _)
  | tokens tokens =>
    cases rest with
    | null => exact fun tokens htokens => (nomatch htokens)
    | emptyLineTokens => exact hfirst.mono (by omega)
    | tokens otherTokens =>
      obtain ⟨hne, hsorted, hle⟩ := hfirst tokens rfl
      obtain ⟨-, hsorted', hle'⟩ := hrest otherTokens rfl
      obtain ⟨front, last, rfl⟩ := (eq_nil_or_concat tokens).resolve_left hne
      rw [concat_eq_append] at hne hsorted hle ⊢
      have hend : lastEndOffset (front ++ [last]) = last.endOffset := by
        unfold lastEndOffset
        rw [getLast?_append_of_ne_nil _ (cons_ne_nil _ _)]
        rfl
      have hlast := hle last (by simp)
      have hshift : (otherTokens.map fun token =>
          { token with endOffset := toUint32 ((token.endOffset + lastEndOffset (front ++ [last]) : Nat)) }) =
          otherTokens.map fun token => { token with endOffset := token.endOffset + last.endOffset } := by
        refine map_congr_left fun t ht => ?_
        have := hle' t ht
        rw [hend, toUint32_eq (by omega)]
      intro joined hjoined
      have heq : joined = (front ++ [last]) ++ otherTokens.map fun token =>
          { token with endOffset := token.endOffset + last.endOffset } := by
        rw [← hshift]
        exact (StoredTokens.tokens.inj hjoined).symm
      subst heq
      refine ⟨append_ne_nil_of_left_ne_nil hne _, pairwise_append.mpr ⟨hsorted, ?_, fun t ht t' ht' => ?_⟩,
        fun t ht => ?_⟩
      · refine pairwise_map.mpr (hsorted'.imp fun hab => ?_)
        dsimp only
        omega
      · obtain ⟨other, -, rfl⟩ := mem_map.mp ht'
        have hle : t.endOffset ≤ last.endOffset := by
          rcases mem_append.mp ht with ht | ht
          · exact (pairwise_append.mp hsorted).right.right t ht last mem_cons_self
          · exact Nat.le_of_eq (congrArg LineToken.endOffset (mem_singleton.mp ht))
        dsimp only
        omega
      · rcases mem_append.mp ht with ht | ht
        · exact Nat.le_add_right_of_le (hle t ht)
        · obtain ⟨other, hother, rfl⟩ := mem_map.mp ht
          have := hle' other hother
          dsimp only
          omega

theorem insertedLine_line (heol : eolCount = 0) (hlength : firstLineLength ≠ 0) :
    insertedLine x column eolCount firstLineLength = insert x (column - 1) firstLineLength := by
  unfold insertedLine
  rw [if_neg fun hnothing => hlength hnothing.right, if_pos heol]

theorem insertedLine_break (heol : eolCount ≠ 0) :
    insertedLine x column eolCount firstLineLength = insert (deleteEnding x (column - 1)) (column - 1) firstLineLength := by
  unfold insertedLine
  rw [if_neg fun hnothing => heol hnothing.left, if_neg heol]

/-- When the rest of a line, on its own, has the tokens of the line that it is joined to, after text came in between. -/
theorem insertedLine_joined_iff (hfirst : Bounded bound first) (hrest : Bounded bound rest) (hbound : bound + bound < 2 ^ 32)
    (htext : column - 1 + firstLineLength < 2 ^ 32) :
    (insertedLine rest column eolCount firstLineLength = insertedLine (append first rest) column eolCount firstLineLength ∨
        rest = .null) ↔
      rest = .null ∨ first = .emptyLineTokens ∨
        0 < eolCount ∧ deleteEnding (append first rest) (column - 1) = deleteEnding rest (column - 1) := by
  have happend : append first rest = rest ↔ rest = .null ∨ first = .emptyLineTokens :=
    append_eq_right fun tokens htokens => (hfirst tokens htokens).left
  by_cases heol : eolCount = 0
  · have hsame : insertedLine rest column eolCount firstLineLength =
        insertedLine (append first rest) column eolCount firstLineLength ↔ append first rest = rest := by
      constructor
      · intro h
        rw [happend]
        by_cases hzero : firstLineLength = 0
        · unfold insertedLine at h
          rw [if_pos ⟨heol, hzero⟩, if_pos ⟨heol, hzero⟩] at h
          exact happend.mp h.symm
        rw [insertedLine_line heol hzero, insertedLine_line heol hzero] at h
        cases first with
        | null =>
          cases rest <;> first | exact Or.inl rfl | cases h
        | emptyLineTokens => exact Or.inr rfl
        | tokens tokens =>
          cases rest with
          | null => exact Or.inl rfl
          | emptyLineTokens => cases h
          | tokens otherTokens =>
            obtain ⟨joined, hjoined, hlength⟩ := @append_tokens tokens otherTokens
            rw [hjoined] at h
            have hlengths := length_insert h
            have hinserted := @length_insert joined _ (column - 1) firstLineLength rfl
            have hne := length_pos_of_ne_nil (hfirst tokens rfl).left
            omega
      · intro h
        rw [h]
    rw [hsame, happend]
    refine ⟨fun h => ?_, fun h => ?_⟩
    · rcases h with (hnull | hempty) | hnull
      · exact Or.inl hnull
      · exact Or.inr (Or.inl hempty)
      · exact Or.inl hnull
    · rcases h with hnull | hempty | ⟨hpos, -⟩
      · exact Or.inr hnull
      · exact Or.inl (Or.inr hempty)
      · omega
  · have hsame : insertedLine rest column eolCount firstLineLength =
        insertedLine (append first rest) column eolCount firstLineLength ↔
          deleteEnding (append first rest) (column - 1) = deleteEnding rest (column - 1) := by
      rw [insertedLine_break heol, insertedLine_break heol,
        insert_inj (bounded_deleteEnding hrest _) (bounded_deleteEnding (bounded_append hfirst hrest hbound) _) htext]
      exact eq_comm
    rw [hsame]
    refine ⟨fun h => ?_, fun h => ?_⟩
    · rcases h with hsame | hnull
      · exact Or.inr (Or.inr ⟨by omega, hsame⟩)
      · exact Or.inl hnull
    · rcases h with hnull | rfl | ⟨-, hsame⟩
      · exact Or.inr hnull
      · rw [empty_append]
        exact Or.inl rfl
      · exact Or.inl hsame

end Line

/-! ## Deletions -/

namespace ContiguousMultilineTokens

variable {b : ContiguousMultilineTokens} {store : ContiguousTokensStore} {range : LineRange}

variable {k : Nat}

theorem set_eq_split {α : Type} (l : List α) (hk : k < l.length) (x : α) :
    l.set k x = l.take k ++ x :: l.drop (k + 1) := by
  rw [set_eq_take_append_cons_drop, if_pos hk]

theorem acceptDeleteRange_inside (hline : (range.startLineNumber : Int) = b.startLineNumber + k)
    (hk : k < b.tokens.length) (hordered : range.startLineNumber ≤ range.endLineNumber) :
    ∃ line, b.acceptDeleteRange range = { b with
        tokens := b.tokens.take k ++ line :: b.tokens.drop (k + (range.endLineNumber - range.startLineNumber) + 1) } ∧
      (line = .null ∨ line = deletedLine (ContiguousTokensStore.entry b.tokens k)
        (ContiguousTokensStore.entry b.tokens (k + (range.endLineNumber - range.startLineNumber))) range) := by
  have hfirst : (range.startLineNumber : Int) - b.startLineNumber = k := by omega
  have hlast : (range.endLineNumber : Int) - b.startLineNumber =
      ((k + (range.endLineNumber - range.startLineNumber) : Nat) : Int) := by omega
  have htake : ∀ x : StoredTokens, (b.tokens.set k x).take (k + 1) = b.tokens.take k ++ [x] := by
    intro x
    have hlength : (b.tokens.take k).length = k := length_take_of_le (Nat.le_of_lt hk)
    rw [set_eq_split b.tokens hk, take_append, hlength, take_of_length_le (by omega), Nat.add_sub_cancel_left]
    rfl
  unfold acceptDeleteRange deletedLine
  rw [hfirst, hlast]
  simp only [Int.toNat_natCast]
  generalize hcount : range.endLineNumber - range.startLineNumber = count
  by_cases hnothing : range.startLineNumber = range.endLineNumber ∧ range.startColumn = range.endColumn
  · have hzero : count = 0 := by omega
    rw [if_pos hnothing, hzero, Nat.add_zero, if_pos hnothing.left, hnothing.right, delete_same]
    refine ⟨ContiguousTokensStore.entry b.tokens k, ?_, Or.inr rfl⟩
    rw [entry_of_getElem? (getElem?_eq_getElem hk), getElem_cons_drop, take_append_drop]
  rw [if_neg hnothing, if_neg (by omega), if_neg (by omega), if_neg (by omega)]
  by_cases hsame : range.startLineNumber = range.endLineNumber
  · have hzero : count = 0 := by omega
    rw [if_pos hsame, hzero, Nat.add_zero, if_pos rfl]
    exact ⟨_, by rw [set_eq_split b.tokens hk], Or.inr rfl⟩
  · rw [if_neg hsame, if_neg (by omega), if_pos (by omega)]
    by_cases hinside : ((k + count : Nat) : Int) < b.tokens.length
    · rw [if_pos hinside, htake, drop_set_of_lt (by omega)]
      exact ⟨_, by rw [append_assoc]; rfl, Or.inr rfl⟩
    · rw [if_neg hinside, htake, append_null]
      exact ⟨.null, by rw [drop_eq_nil_of_le (by omega)], Or.inl rfl⟩

theorem acceptDeleteRange_above {j : Nat} (habove : (range.startLineNumber : Int) < b.startLineNumber)
    (hline : (range.endLineNumber : Int) = b.startLineNumber + j) (hj : j < b.tokens.length) :
    b.acceptDeleteRange range =
      ⟨range.startLineNumber, deleteBeginning (ContiguousTokensStore.entry b.tokens j) (range.endColumn - 1) ::
        b.tokens.drop (j + 1)⟩ := by
  have hlast : (range.endLineNumber : Int) - b.startLineNumber = j := by omega
  have hlength : (b.tokens.take j).length = j := length_take_of_le (Nat.le_of_lt hj)
  unfold acceptDeleteRange
  dsimp only
  rw [hlast, Int.toNat_natCast, if_neg (by omega), if_neg (by omega), if_neg (by omega), if_neg (by omega), if_neg (by omega),
    if_neg (by omega), set_eq_split b.tokens hj, drop_append, hlength, Nat.sub_self, drop_eq_nil_of_le (by omega)]
  congr 1
  omega

/-! ## Edits -/

/-- The tokens of a line end where it ends, if they are known. -/
def CoversLine (length : Nat) (stored : StoredTokens) : Prop :=
  (stored = .emptyLineTokens → length = 0) ∧
    ∀ tokens, stored = .tokens tokens → tokens ≠ [] ∧ Increasing tokens ∧ lastEnd 0 tokens = length

/-- The store has the tokens of the block for its lines, and tokens that cover their lines for all lines of a text. -/
structure Agrees (b : ContiguousMultilineTokens) (store : ContiguousTokensStore) (doc : List JsString) : Prop where
  startLineNumber : 1 ≤ b.startLineNumber
  endLineNumber : b.endLineNumber ≤ doc.length
  same : ∀ (i : Nat) (stored : StoredTokens), b.tokens[i]? = some stored →
    stored = store.entry (b.startLineNumber + i - 1).toNat
  covers : ∀ i, CoversLine (doc.getD i []).length (store.entry i)

/-- Where the edit starts above the block and ends in it, what is left of its last line is unknown, or nothing is left of its
first line, or the text has a line break and what stays in front of it has the tokens that the last line begins with. -/
def JoinsFirstLine (b : ContiguousMultilineTokens) (store : ContiguousTokensStore) (range : LineRange) (eolCount : Nat) : Prop :=
  ∀ lastLine, (range.startLineNumber : Int) < b.startLineNumber → b.getLineTokens range.endLineNumber = some lastLine →
    lastLine = .null ∨
      deleteEnding (store.entry (range.startLineNumber - 1)) (range.startColumn - 1) = .emptyLineTokens ∨
      0 < eolCount ∧
        -- the whole line is cut: an empty token that the rest begins with stays
        deleteEnding (append (deleteEnding (store.entry (range.startLineNumber - 1)) (range.startColumn - 1))
            (deleteBeginning lastLine (range.endColumn - 1))) (range.startColumn - 1) =
          deleteEnding (deleteBeginning lastLine (range.endColumn - 1)) (range.startColumn - 1)

/-- Where the text has a line break and the edit ends in the block or below it, the lines behind the edit have no tokens: as many
as the block starts or the edit starts below the top, whichever is less. -/
def NothingBelow (b : ContiguousMultilineTokens) (range : LineRange) (eolCount : Nat) : Prop :=
  eolCount = 0 ∨ (range.endLineNumber : Int) < b.startLineNumber ∨
    ∀ (lineNumber : Int) (stored : StoredTokens), range.endLineNumber < lineNumber →
      lineNumber < range.endLineNumber + min b.startLineNumber range.startLineNumber →
      b.getLineTokens lineNumber = some stored → stored = .null

/-- A list of which a stretch up to `j` is replaced by one element at `k`. -/
theorem getElem?_replaced {α : Type} (l : List α) (hk : k ≤ l.length) (x : α) (j i : Nat) :
    (l.take k ++ x :: l.drop (j + 1))[i]? = if i < k then l[i]? else if i = k then some x else l[j + (i - k)]? := by
  rw [getElem?_append, length_take_of_le hk]
  by_cases hfront : i < k
  · rw [if_pos hfront, if_pos hfront, getElem?_take, if_pos hfront]
  · rw [if_neg hfront, if_neg hfront]
    by_cases hat : i = k
    · rw [if_pos hat, hat, Nat.sub_self, getElem?_cons_zero]
    · obtain ⟨n, hn⟩ : ∃ n, i - k = n + 1 := ⟨i - k - 1, by omega⟩
      rw [if_neg hat, hn, getElem?_cons_succ, getElem?_drop]
      congr 1
      omega

variable {doc : List JsString}

/-- An edit that ends in the block or starts there: what is left of the block begins with the line of the edit or above. -/
theorem inserted_follows_iff {k j : Nat} (line : StoredTokens) {startLineNumber : Int} (h : Agrees b store doc)
    (hone : 1 ≤ range.startLineNumber) (hordered : range.startLineNumber ≤ range.endLineNumber)
    (hstart : startLineNumber = min b.startLineNumber range.startLineNumber)
    (hfirst : (range.startLineNumber : Int) = startLineNumber + k)
    (hlast : (range.endLineNumber : Int) = b.startLineNumber + j) (hk : k ≤ b.tokens.length)
    (column eolCount firstLineLength : Nat) :
    Follows (acceptInsertText ⟨startLineNumber, b.tokens.take k ++ line :: b.tokens.drop (j + 1)⟩ range.startLineNumber column
          eolCount firstLineLength)
        ((store.acceptDeleteRange range).acceptInsertText range.startLineNumber column eolCount firstLineLength) ↔
      (insertedLine line column eolCount firstLineLength =
          insertedLine (deletedLine (store.entry (range.startLineNumber - 1)) (store.entry (range.endLineNumber - 1)) range)
            column eolCount firstLineLength ∨ line = .null) ∧
        NothingBelow b range eolCount := by
  have hpos := h.startLineNumber
  have hget := getElem?_replaced b.tokens hk line j
  have hdeleted := entry_acceptDeleteRange store hone hordered
  have hline : (b.tokens.take k ++ line :: b.tokens.drop (j + 1))[k]? = some line := by
    rw [hget, if_neg (Nat.lt_irrefl k), if_pos rfl]
  have hiff := acceptInsertText_follows_iff (b := ⟨startLineNumber, b.tokens.take k ++ line :: b.tokens.drop (j + 1)⟩)
    (s := store.acceptDeleteRange range) (by dsimp only; omega) hfirst hline (fun i t hi ht => ?_) column eolCount
    firstLineLength
  · rw [hiff, hdeleted, if_neg (by omega), if_pos rfl]
    refine and_congr Iff.rfl ?_
    refine or_congr Iff.rfl ⟨fun hnull => Or.inr fun n t hlow hhigh ht => ?_, fun hbelow i t hlow hhigh ht => ?_⟩
    · obtain ⟨i, rfl, hget'⟩ := getLineTokens_eq_some.mp ht
      refine hnull (i - j + k) t (by omega) (by omega) ?_
      have hindex : j + (i - j + k - k) = i := by omega
      rw [hget, if_neg (by omega), if_neg (by omega), hindex]
      exact hget'
    · rw [hget, if_neg (by omega), if_neg (by omega)] at ht
      rcases hbelow with hbefore | hbelow
      · omega
      · exact hbelow _ t (by omega) (by omega) (getLineTokens_eq_some.mpr ⟨_, rfl, ht⟩)
  · dsimp only at ht ⊢
    rw [hget] at ht
    rw [hdeleted]
    by_cases hfront : i < k
    · rw [if_pos hfront] at ht
      have hsame := h.same i t ht
      have hindex : (startLineNumber + i - 1).toNat = (b.startLineNumber + i - 1).toNat := by omega
      rw [hindex, if_pos (by omega)]
      exact hsame
    · rw [if_neg hfront, if_neg hi] at ht
      have hsame := h.same _ t ht
      have hindex : (startLineNumber + i - 1).toNat + (range.endLineNumber - range.startLineNumber) =
          (b.startLineNumber + ((j + (i - k) : Nat) : Int) - 1).toNat := by omega
      rw [if_neg (by omega), if_neg (by omega), hindex]
      exact hsame

variable {stored : StoredTokens}

theorem bounded_covers {length : Nat} (h : CoversLine length stored) : Bounded length stored := by
  intro tokens htokens
  obtain ⟨hne, hincreasing, hlast⟩ := h.right tokens htokens
  exact ⟨hne, hincreasing.imp Nat.le_of_lt, fun t ht => hlast ▸ endOffset_le_lastEnd hincreasing ht 0⟩

theorem deleteBeginning_eq_null {toChIndex : Nat} :
    deleteBeginning stored toChIndex = .null ↔ stored = .null := by
  constructor
  · intro h
    cases stored with
    | null => rfl
    | emptyLineTokens => cases h
    | tokens tokens =>
      unfold deleteBeginning delete at h
      dsimp only at h
      split_ifs at h
  · rintro rfl
    rfl

theorem bounded_deleteBeginning {length toChIndex : Nat} (h : CoversLine length stored) (hle : toChIndex ≤ length)
    (hlength : length < 2 ^ 32) : Bounded length (deleteBeginning stored toChIndex) := by
  intro tokens htokens
  cases stored with
  | null => cases htokens
  | emptyLineTokens => cases htokens
  | tokens stored =>
    obtain ⟨hne, hincreasing, hlast⟩ := h.right stored rfl
    have htotal := length_colors_zero hincreasing
    have hdelete : delete (.tokens stored) 0 toChIndex = .tokens tokens := htokens
    by_cases hzero : toChIndex = 0
    · rw [hzero, delete_same] at hdelete
      exact bounded_covers h tokens hdelete
    · rcases delete_spec ⟨hne, hincreasing, rfl⟩ (show 0 < toChIndex by omega) (by omega) (by omega) with
        ⟨-, -, hempty⟩ | ⟨tokens', htokens', hpainted⟩
      · rw [hempty] at hdelete
        cases hdelete
      · rw [htokens'] at hdelete
        obtain rfl := StoredTokens.tokens.inj hdelete
        refine ⟨hpainted.ne_nil, hpainted.increasing.imp Nat.le_of_lt, fun t ht => ?_⟩
        have hend := endOffset_le_lastEnd hpainted.increasing ht 0
        rw [← length_colors_zero hpainted.increasing, hpainted.colors, length_append, length_take,
          length_drop] at hend
        omega

section

variable (h : Agrees b store doc) (hone : 1 ≤ range.startLineNumber)
variable (hordered : range.startLineNumber ≤ range.endLineNumber)
include h hone hordered

theorem edit_before (hbefore : (range.endLineNumber : Int) < b.startLineNumber) (column eolCount firstLineLength : Nat) :
    Follows ((b.acceptDeleteRange range).acceptInsertText range.startLineNumber column eolCount firstLineLength)
      ((store.acceptDeleteRange range).acceptInsertText range.startLineNumber column eolCount firstLineLength) := by
  have hdelete : b.acceptDeleteRange range =
      ⟨b.startLineNumber - (range.endLineNumber - range.startLineNumber), b.tokens⟩ := by
    unfold acceptDeleteRange
    by_cases hnothing : range.startLineNumber = range.endLineNumber ∧ range.startColumn = range.endColumn
    · rw [if_pos hnothing, hnothing.left, Int.sub_self, Int.sub_zero]
    · dsimp only
      rw [if_neg hnothing, if_pos (by omega)]
      congr 1
      omega
  have hinsert : (b.acceptDeleteRange range).acceptInsertText range.startLineNumber column eolCount firstLineLength =
      ⟨b.startLineNumber - (range.endLineNumber - range.startLineNumber) + eolCount, b.tokens⟩ := by
    rw [hdelete]
    unfold acceptInsertText
    by_cases hnothing : eolCount = 0 ∧ firstLineLength = 0
    · rw [if_pos hnothing, hnothing.left, Int.natCast_zero, Int.add_zero]
    · dsimp only
      rw [if_neg hnothing, if_pos (by omega)]
  rw [hinsert]
  intro n t ht
  obtain ⟨i, hn, hget⟩ := getLineTokens_eq_some.mp ht
  dsimp only at hn hget
  have hsame := h.same i t hget
  have hindex : n - 1 - eolCount + (range.endLineNumber - range.startLineNumber) = (b.startLineNumber + i - 1).toNat := by
    omega
  rw [entry_acceptInsertText _ hone, if_neg (by omega), if_neg (by omega), if_neg (by omega), entry_acceptDeleteRange _ hone hordered,
    if_neg (by omega), if_neg (by omega), hindex]
  exact Or.inl hsame

theorem edit_after (hafter : b.startLineNumber + b.tokens.length ≤ range.startLineNumber)
    (column eolCount firstLineLength : Nat) :
    Follows ((b.acceptDeleteRange range).acceptInsertText range.startLineNumber column eolCount firstLineLength)
      ((store.acceptDeleteRange range).acceptInsertText range.startLineNumber column eolCount firstLineLength) := by
  have hdelete : b.acceptDeleteRange range = b := by
    unfold acceptDeleteRange
    by_cases hnothing : range.startLineNumber = range.endLineNumber ∧ range.startColumn = range.endColumn
    · rw [if_pos hnothing]
    · dsimp only
      rw [if_neg hnothing, if_neg (by omega), if_pos (by omega)]
  have hinsert : b.acceptInsertText range.startLineNumber column eolCount firstLineLength = b := by
    unfold acceptInsertText
    by_cases hnothing : eolCount = 0 ∧ firstLineLength = 0
    · rw [if_pos hnothing]
    · dsimp only
      rw [if_neg hnothing, if_neg (by omega), if_pos (by omega)]
  rw [hdelete, hinsert]
  intro n t ht
  obtain ⟨i, hn, hget⟩ := getLineTokens_eq_some.mp ht
  obtain ⟨hlength, -⟩ := List.getElem?_eq_some_iff.mp hget
  have hpos := h.startLineNumber
  have hindex : (b.startLineNumber + i - 1).toNat = n - 1 := by omega
  rw [entry_acceptInsertText _ hone, if_pos (by omega), entry_acceptDeleteRange _ hone hordered, if_pos (by omega), ← hindex]
  exact Or.inl (h.same i t hget)

end

theorem edit_around {s : ContiguousTokensStore} (habove : (range.startLineNumber : Int) < b.startLineNumber)
    (hbelow : b.startLineNumber + b.tokens.length ≤ range.endLineNumber) (column eolCount firstLineLength : Nat) :
    Follows ((b.acceptDeleteRange range).acceptInsertText range.startLineNumber column eolCount firstLineLength) s := by
  have hdelete : b.acceptDeleteRange range = ⟨0, []⟩ := by
    unfold acceptDeleteRange
    rw [if_neg (by omega), if_neg (by omega), if_neg (by omega), if_pos (by omega)]
  have hinsert : acceptInsertText ⟨0, []⟩ range.startLineNumber column eolCount firstLineLength = ⟨0, []⟩ := by
    unfold acceptInsertText
    by_cases hnothing : eolCount = 0 ∧ firstLineLength = 0
    · rw [if_pos hnothing]
    · dsimp only [length_nil]
      rw [if_neg hnothing, if_neg (by omega), if_pos (by omega)]
  rw [hdelete, hinsert]
  intro n t ht
  obtain ⟨i, -, hget⟩ := getLineTokens_eq_some.mp ht
  cases hget

/-- When each line of a block has, after an edit, the tokens that the store has for it, or none: the line where an edit from above
the block ends must not depend on what that line is joined to, and nothing may be known of the lines behind a line break that the
block leaves where they are. -/
theorem applyEdit_follows_iff (b : ContiguousMultilineTokens) (store : ContiguousTokensStore) (doc : List JsString)
    (range : LineRange) (text : JsString) (h : Agrees b store doc) (hrange : range.Valid doc)
    (hshort : ∀ line ∈ doc, line.length < 2 ^ 31) (htext : text.length < 2 ^ 31) :
    Follows (b.applyEdit range text) (store.acceptEdit range (countEOL text).1 (countEOL text).2.1) ↔
      JoinsFirstLine b store range (countEOL text).1 ∧ NothingBelow b range (countEOL text).1 := by
  have hfirstLength : (countEOL text).2.1 ≤ text.length := by
    rw [countEOL_eq]
    exact headLength_le text
  unfold applyEdit ContiguousTokensStore.acceptEdit
  dsimp only
  generalize (countEOL text).1 = eolCount
  generalize (countEOL text).2.1 = firstLineLength at hfirstLength
  have hlines : ∀ i, (doc.getD i []).length < 2 ^ 31 := by
    intro i
    rw [getD_eq_getElem?_getD]
    cases hline : doc[i]? with
    | none => decide
    | some line => exact hshort line (mem_of_getElem? hline)
  have hone := hrange.startLineNumber
  have hordered : range.startLineNumber ≤ range.endLineNumber := by
    rcases hrange.ordered with hlt | ⟨heq, -⟩ <;> omega
  by_cases hbefore : (range.endLineNumber : Int) < b.startLineNumber
  · refine iff_of_true (edit_before h hone hordered hbefore _ _ _) ⟨fun lastLine _ hlast => ?_, Or.inr (Or.inl hbefore)⟩
    obtain ⟨i, hi, -⟩ := getLineTokens_eq_some.mp hlast
    omega
  by_cases hafter : b.startLineNumber + b.tokens.length ≤ range.startLineNumber
  · refine iff_of_true (edit_after h hone hordered hafter _ _ _) ⟨fun lastLine habove _ => ?_, Or.inr (Or.inr ?_)⟩
    · omega
    · intro n t hlow _ ht
      obtain ⟨i, hi, hget⟩ := getLineTokens_eq_some.mp ht
      obtain ⟨hlength, -⟩ := List.getElem?_eq_some_iff.mp hget
      omega
  by_cases habove : (range.startLineNumber : Int) < b.startLineNumber
  · by_cases hbelow : b.startLineNumber + b.tokens.length ≤ range.endLineNumber
    · refine iff_of_true (edit_around habove hbelow _ _ _) ⟨fun lastLine _ hlast => ?_, Or.inr (Or.inr ?_)⟩
      · obtain ⟨i, hi, hget⟩ := getLineTokens_eq_some.mp hlast
        obtain ⟨hlength, -⟩ := List.getElem?_eq_some_iff.mp hget
        omega
      · intro n t hlow _ ht
        obtain ⟨i, hi, hget⟩ := getLineTokens_eq_some.mp ht
        obtain ⟨hlength, -⟩ := List.getElem?_eq_some_iff.mp hget
        omega
    · -- the block begins with the rest of the last line
      obtain ⟨j, hj⟩ : ∃ j : Nat, (range.endLineNumber : Int) = b.startLineNumber + j :=
        ⟨((range.endLineNumber : Int) - b.startLineNumber).toNat, by omega⟩
      have hinside : j < b.tokens.length := by omega
      obtain ⟨lastLine, hlastLine⟩ : ∃ lastLine, b.tokens[j]? = some lastLine := ⟨_, getElem?_eq_getElem hinside⟩
      have hlast : b.getLineTokens range.endLineNumber = some lastLine := getLineTokens_eq_some.mpr ⟨j, hj, hlastLine⟩
      have hentry : store.entry (range.endLineNumber - 1) = lastLine := by
        have hindex : (b.startLineNumber + j - 1).toNat = range.endLineNumber - 1 := by omega
        rw [h.same j lastLine hlastLine, hindex]
      have hdeleted : deletedLine (store.entry (range.startLineNumber - 1)) lastLine range =
          append (deleteEnding (store.entry (range.startLineNumber - 1)) (range.startColumn - 1))
            (deleteBeginning lastLine (range.endColumn - 1)) := by
        unfold deletedLine
        rw [if_neg (by omega)]
      have hcovered : CoversLine (doc.getD (range.endLineNumber - 1) []).length lastLine := hentry ▸ h.covers _
      have hfirst := bounded_deleteEnding (bounded_covers (h.covers (range.startLineNumber - 1))) (range.startColumn - 1)
      have hrest := bounded_deleteBeginning hcovered hrange.endInLine (by have := hlines (range.endLineNumber - 1); omega)
      have hstartInLine := hrange.startInLine
      have hlineStart := hlines (range.startLineNumber - 1)
      have hlineEnd := hlines (range.endLineNumber - 1)
      have hiff := inserted_follows_iff (b := b) (k := 0) (j := j)
        (deleteBeginning lastLine (range.endColumn - 1)) h hone hordered (Int.min_eq_right (Int.le_of_lt habove)).symm
        (Int.add_zero _).symm hj (Nat.zero_le _) range.startColumn eolCount firstLineLength
      rw [acceptDeleteRange_above habove hj hinside, entry_of_getElem? hlastLine]
      refine Iff.trans hiff ?_
      rw [hentry, hdeleted, insertedLine_joined_iff (hfirst.mono (show _ ≤ 2 ^ 31 - 1 by omega))
        (hrest.mono (show _ ≤ 2 ^ 31 - 1 by omega)) (by omega) (by omega)]
      refine and_congr ?_ Iff.rfl
      constructor
      · intro hjoins lastLine' _ hlast'
        obtain rfl : lastLine = lastLine' := Option.some.inj (hlast.symm.trans hlast')
        exact hjoins.imp deleteBeginning_eq_null.mp id
      · intro hjoins
        exact (hjoins lastLine habove hlast).imp deleteBeginning_eq_null.mpr id
  · -- the first line of the edit is in the block
    obtain ⟨k, hk⟩ : ∃ k : Nat, (range.startLineNumber : Int) = b.startLineNumber + k :=
      ⟨((range.startLineNumber : Int) - b.startLineNumber).toNat, by omega⟩
    have hinside : k < b.tokens.length := by omega
    obtain ⟨line, hdelete, hline⟩ := acceptDeleteRange_inside hk hinside hordered
    have hiff := inserted_follows_iff (b := b) (k := k) (j := k + (range.endLineNumber - range.startLineNumber)) line h hone
      hordered (Int.min_eq_left (Int.not_lt.mp habove)).symm hk (by omega) (Nat.le_of_lt hinside) range.startColumn eolCount
      firstLineLength
    rw [hdelete]
    refine Iff.trans hiff (and_congr (iff_of_true ?_ fun lastLine habove' _ => absurd habove' habove) Iff.rfl)
    rcases hline with hnull | hline
    · exact Or.inr hnull
    · have hentry : ∀ i : Nat, i < b.tokens.length →
          ContiguousTokensStore.entry b.tokens i = store.entry (b.startLineNumber + i - 1).toNat := by
        intro i hi
        have hget := getElem?_eq_getElem hi
        rw [entry_of_getElem? hget]
        exact h.same i _ hget
      have hindex : (b.startLineNumber + k - 1).toNat = range.startLineNumber - 1 := by omega
      rw [hentry k hinside, hindex] at hline
      by_cases hlast : k + (range.endLineNumber - range.startLineNumber) < b.tokens.length
      · have hindex' : (b.startLineNumber + ((k + (range.endLineNumber - range.startLineNumber) : Nat) : Int) - 1).toNat =
            range.endLineNumber - 1 := by omega
        rw [hentry _ hlast, hindex'] at hline
        exact Or.inl (congrArg (insertedLine · range.startColumn eolCount firstLineLength) hline)
      · -- the last line is below the block
        right
        rw [hline, entry_of_le (i := k + (range.endLineNumber - range.startLineNumber)) (by omega)]
        unfold deletedLine
        rw [if_neg (by omega)]
        exact append_null _

section Example

def fifthLineBlock : ContiguousMultilineTokens := ⟨5, [.tokens [⟨1, 1⟩], .tokens [⟨2, 2⟩], .tokens [⟨3, 3⟩]]⟩

def fifthLineStore : ContiguousTokensStore := List.replicate 4 .null ++ fifthLineBlock.tokens

def fifthLineDocument : List JsString := List.replicate 4 [] ++ [[97], [97, 98], [97, 98, 99]]

theorem fifthLine_agrees : Agrees fifthLineBlock fifthLineStore fifthLineDocument := by
  have hsingle : ∀ (length metadata : Nat), CoversLine length (.tokens [⟨length, metadata⟩]) := by
    intro length metadata
    refine ⟨fun h => (nomatch h), fun tokens h => ?_⟩
    obtain rfl := StoredTokens.tokens.inj h
    exact ⟨cons_ne_nil _ _, pairwise_singleton _ _, rfl⟩
  have hnull : ∀ length : Nat, CoversLine length .null := fun length =>
    ⟨fun h => (nomatch h), fun tokens h => (nomatch h)⟩
  refine ⟨by decide, by decide, fun i stored h => ?_, fun i => ?_⟩
  · rcases i with _ | _ | _ | i
    · exact (Option.some.inj h).symm
    · exact (Option.some.inj h).symm
    · exact (Option.some.inj h).symm
    · cases h
  · rcases i with _ | _ | _ | _ | _ | _ | _ | i
    · exact hnull _
    · exact hnull _
    · exact hnull _
    · exact hnull _
    · exact hsingle 1 1
    · exact hsingle 2 2
    · exact hsingle 3 3
    · exact hnull _

/-- A character replaced in the second line of the block. -/
theorem applyEdit_follows_replaced :
    Follows (fifthLineBlock.applyEdit ⟨6, 1, 6, 2⟩ [97])
      (fifthLineStore.acceptEdit ⟨6, 1, 6, 2⟩ (countEOL [97]).1 (countEOL [97]).2.1) := by
  refine (applyEdit_follows_iff fifthLineBlock fifthLineStore fifthLineDocument ⟨6, 1, 6, 2⟩ [97] fifthLine_agrees
    ⟨by decide, by decide, by decide, Or.inr ⟨rfl, by decide⟩, by decide, by decide, by decide⟩ (fun line hline => ?_)
    (by decide)).mpr ⟨fun lastLine habove _ => absurd habove (by decide), Or.inl (by decide)⟩
  have hle : ∀ line ∈ fifthLineDocument, line.length ≤ 3 := by decide
  exact Nat.lt_of_le_of_lt (hle line hline) (by decide)

/-- A line break in the first line of the block: the tokens of the line below it stay where they are. -/
theorem applyEdit_keeps_line :
    Agrees fifthLineBlock fifthLineStore fifthLineDocument ∧ LineRange.Valid fifthLineDocument ⟨5, 2, 5, 2⟩ ∧
      (fifthLineBlock.applyEdit ⟨5, 2, 5, 2⟩ [10]).getLineTokens 6 = some (.tokens [⟨2, 2⟩]) ∧
      (fifthLineStore.acceptEdit ⟨5, 2, 5, 2⟩ (countEOL [10]).1 (countEOL [10]).2.1).entry 5 = .null ∧
      ¬Follows (fifthLineBlock.applyEdit ⟨5, 2, 5, 2⟩ [10])
        (fifthLineStore.acceptEdit ⟨5, 2, 5, 2⟩ (countEOL [10]).1 (countEOL [10]).2.1) := by
  have hblock : (fifthLineBlock.applyEdit ⟨5, 2, 5, 2⟩ [10]).getLineTokens 6 = some (.tokens [⟨2, 2⟩]) := by rfl
  have hstore : (fifthLineStore.acceptEdit ⟨5, 2, 5, 2⟩ (countEOL [10]).1 (countEOL [10]).2.1).entry 5 = .null := by rfl
  refine ⟨fifthLine_agrees, ⟨by decide, by decide, by decide, Or.inr ⟨rfl, by decide⟩, by decide, by decide, by decide⟩,
    hblock, hstore, fun h => ?_⟩
  rcases h 6 _ hblock with hsame | hnull
  · rw [hstore] at hsame
    cases hsame
  · cases hnull

end Example

end ContiguousMultilineTokens

end TongjiCode.Tokens
